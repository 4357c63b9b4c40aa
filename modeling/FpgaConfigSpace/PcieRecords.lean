import FpgaConfigSpace.Lib.Trace
import FpgaConfigSpace.MasterRecord
import FpgaConfigSpace.PcieLanes

/-! # Records of several clients on one PCIe card

    Any number of master contexts are open on one card.  A context executes the
    records in its ring; from the `wb_cycle` that opens a cycle to the one that
    closes it, the mutex keeps the others out.  Width, shift and low address are
    state of the card, not of a context: a record finds what the record before it
    has left, whoever sent it. -/

namespace PcieRecords

open BigEndian Lanes WbWishbone WbMaster WbTransducer WbMasterRecord PcieWb PcieLanes Trace

/-! ## The contexts -/

/-- The card, and the state of every context; a context that is not open has not
    got past its header. -/
structure Contexts where
  bus : Bus Dev
  state : Nat → MasterState

/-- What the users of a card do, one at a time. -/
inductive Act where
  /-- A context is opened, and its probe is answered. -/
  | opened (client : Nat)
  /-- A context executes the record at a word of its ring. -/
  | record (client : Nat) (buf : Nat → Byte) (q : Nat)
  /-- A context is closed. -/
  | release (client : Nat)

/-- The state of one context is set. -/
def setState (s : Contexts) (client : Nat) (state : MasterState) : Nat → MasterState :=
  fun c => if c = client then state else s.state c

/-- The record loop comes to a record. -/
def cursorAt (s : Contexts) (client : Nat) (buf : Nat → Byte) (q : Nat) : RecordCursor Dev :=
  ⟨s.state client, buf, 4 * (q % RING_WORDS), s.bus⟩

/-- One step.  A context in an idle state waits for the mutex. -/
def step (littleEndian : Bool) (s : Contexts) : Act → Option Contexts
  | .opened client =>
      if s.state client = .header then some { s with state := setState s client .idle } else none
  | .record client buf q =>
      if s.state client = .cycle ∨ (s.state client = .idle ∧ s.bus.st.mutex = false) then
        let m := processRecord (wbOps littleEndian) (cursorAt s client buf q)
        some ⟨m.bus, setState s client m.state⟩
      else none
  | .release client =>
      some ⟨if s.state client = .cycle then s.bus.cycle (wbOps littleEndian) false else s.bus,
        setState s client .header⟩

/-- A card that has been probed, and no context. -/
def start (control : Word → Word) (bus : Word → Byte) (msi : Bool) : Contexts where
  bus := ⟨probed control bus msi, []⟩
  state := fun _ => .header

/-! ## The accesses of a record -/

/-- The accesses of writes from `base` on. -/
def writeAccesses (littleEndian : Bool) (n s : Nat) (increment : Word) : Word → List Word → List Access
  | _, [] => []
  | base, _ :: ds =>
      ⟨true, wordAddr base + endianAddr littleEndian n s, n, s⟩ ::
        writeAccesses littleEndian n s increment (base + increment) ds

/-- The accesses of reads. -/
def readAccesses (littleEndian : Bool) (n s : Nat) (addrs : List Word) : List Access :=
  addrs.map fun addr => ⟨false, wordAddr addr + endianAddr littleEndian n s, n, s⟩

/-- What a record does to the bus in the lanes in force: writes and reads of the
    configuration space do not reach it. -/
def recordAccesses (littleEndian : Bool) (n s : Nat) (r : EbRecord) : List Access :=
  (if r.flags &&& ETHERBONE_WCA ≠ 0 then []
    else writeAccesses littleEndian n s r.increment r.base r.writes) ++
  (if r.flags &&& ETHERBONE_RCA ≠ 0 then [] else readAccesses littleEndian n s r.reads)

/-- What a record does to the bus under a mask. -/
def accessesOf (littleEndian : Bool) (mask : Byte) (r : EbRecord) : List Access :=
  match maskLanes mask with
  | some (n, s) => recordAccesses littleEndian n s r
  | none => []

/-- The last supported mask given to the card, whoever gave it. -/
def lastMask (trace : List WopsCall) : Byte :=
  trace.foldl (fun mask call =>
    match call with
    | .byteenable be => nextMask mask be
    | _ => mask) 0xF

/-- The card is settled in the last mask it was given. -/
structure InForce (littleEndian : Bool) (mask : Byte) (bus : Bus Dev) : Prop where
  settled : Settled littleEndian mask bus.st
  last : lastMask bus.trace = mask

variable {littleEndian : Bool} {mask : Byte} {n s : Nat} {bus : Bus Dev}

/-- The last mask, after one call more. -/
@[simp] theorem lastMask_append (trace : List WopsCall) (call : WopsCall) :
    lastMask (trace ++ [call]) =
      match call with
      | .byteenable be => nextMask (lastMask trace) be
      | _ => lastMask trace := by
  rw [lastMask, List.foldl_append]
  rfl

/-- The cycle line, a write and a read leave the mask in force; a mask that is supported
    replaces it. -/
theorem InForce.cycle (h : InForce littleEndian mask bus) (on : Bool) :
    InForce littleEndian mask (bus.cycle (wbOps littleEndian) on) :=
  ⟨settled_wbCycle h.settled on, (lastMask_append _ _).trans h.last⟩

theorem InForce.byteenable (h : InForce littleEndian mask bus) (be : Byte) :
    InForce littleEndian (nextMask mask be) (bus.byteenable (wbOps littleEndian) be) := by
  refine ⟨settled_wbByteenable h.settled be, (lastMask_append _ _).trans ?_⟩
  show nextMask (lastMask bus.trace) be = nextMask mask be
  rw [h.last]

theorem InForce.write (h : InForce littleEndian mask bus) (addr data : Word) :
    InForce littleEndian mask (bus.write (wbOps littleEndian) addr data) :=
  ⟨settled_wbWrite h.settled addr data, (lastMask_append _ _).trans h.last⟩

theorem InForce.read (h : InForce littleEndian mask bus) (addr : Word) :
    InForce littleEndian mask (bus.read (wbOps littleEndian) addr).2 :=
  ⟨settled_wbRead h.settled addr, (lastMask_append _ _).trans h.last⟩

theorem wbReadCfg_snd (dev : Dev) (addr : Word) : (wbReadCfg dev addr).2 = dev := by
  rw [wbReadCfg]
  repeat' split
  all_goals rfl

/-- The configuration space is read without touching the card. -/
theorem InForce.readCfg (h : InForce littleEndian mask bus) (addr : Word) :
    InForce littleEndian mask (bus.readCfg (wbOps littleEndian) addr).2 := by
  refine ⟨?_, (lastMask_append _ _).trans h.last⟩
  show Settled littleEndian mask (wbReadCfg bus.st addr).2
  rw [wbReadCfg_snd]
  exact h.settled

/-- The writes of a record use the mask in force. -/
theorem busWrites_accesses (hmask : maskLanes mask = some (n, s)) (inc : Word) (ds : List Word) :
    ∀ (base : Word) (bus : Bus Dev), InForce littleEndian mask bus →
      InForce littleEndian mask (busWrites (wbOps littleEndian) inc base ds bus) ∧
      (busWrites (wbOps littleEndian) inc base ds bus).st.accesses =
        bus.st.accesses ++ writeAccesses littleEndian n s inc base ds := by
  induction ds with
  | nil =>
      intro base bus h
      exact ⟨h, (List.append_nil _).symm⟩
  | cons d ds ih =>
      intro base bus h
      obtain ⟨hrest, hacc⟩ := ih (base + inc) (bus.write (wbOps littleEndian) base d)
        (h.write base d)
      refine ⟨hrest, ?_⟩
      have hone : (wbWrite littleEndian bus.st base d).accesses =
          bus.st.accesses ++ [⟨true, wordAddr base + endianAddr littleEndian n s, n, s⟩] := by
        rw [wbWrite_eq h.settled hmask]
        rfl
      refine hacc.trans ?_
      show (wbWrite littleEndian bus.st base d).accesses ++ _ = _
      rw [hone, List.append_assoc]
      rfl

/-- So do its reads. -/
theorem busReads_accesses (hmask : maskLanes mask = some (n, s)) (as : List Word) :
    ∀ bus : Bus Dev, InForce littleEndian mask bus →
      InForce littleEndian mask (busReads (wbOps littleEndian) false as bus).2 ∧
      (busReads (wbOps littleEndian) false as bus).2.st.accesses =
        bus.st.accesses ++ readAccesses littleEndian n s as := by
  induction as with
  | nil =>
      intro bus h
      exact ⟨h, (List.append_nil _).symm⟩
  | cons a as ih =>
      intro bus h
      obtain ⟨hrest, hacc⟩ := ih (bus.read (wbOps littleEndian) a).2 (h.read a)
      refine ⟨hrest, ?_⟩
      have hone : (wbRead littleEndian bus.st a).2.accesses =
          bus.st.accesses ++ [⟨false, wordAddr a + endianAddr littleEndian n s, n, s⟩] := by
        rw [wbRead_eq h.settled hmask]
        rfl
      refine hacc.trans ?_
      show (wbRead littleEndian bus.st a).2.accesses ++ _ = _
      rw [hone, List.append_assoc]
      rfl

/-- Reads of the configuration space use none. -/
theorem busReads_cfg (as : List Word) :
    ∀ bus : Bus Dev, InForce littleEndian mask bus →
      InForce littleEndian mask (busReads (wbOps littleEndian) true as bus).2 ∧
      (busReads (wbOps littleEndian) true as bus).2.st.accesses = bus.st.accesses := by
  induction as with
  | nil =>
      intro bus h
      exact ⟨h, rfl⟩
  | cons a as ih =>
      intro bus h
      obtain ⟨hrest, hacc⟩ := ih (bus.readCfg (wbOps littleEndian) a).2 (h.readCfg a)
      refine ⟨hrest, hacc.trans ?_⟩
      show (wbReadCfg bus.st a).2.accesses = bus.st.accesses
      rw [wbReadCfg_snd]

/-- **One record.**  It leaves the card settled, in the lanes of its byte enable if
    that is supported, and its accesses are those of the lanes in force. -/
theorem exec_accesses (r : EbRecord) (state : MasterState) (h : InForce littleEndian mask bus)
    (hmask : maskLanes (nextMask mask r.be) = some (n, s)) :
    InForce littleEndian (nextMask mask r.be) (r.exec (wbOps littleEndian) (state, bus)).1.2 ∧
    (r.exec (wbOps littleEndian) (state, bus)).1.2.st.accesses =
      bus.st.accesses ++ recordAccesses littleEndian n s r := by
  -- the cycle is opened and the byte enable set
  have hopened : InForce littleEndian (nextMask mask r.be)
      (r.opened (wbOps littleEndian) (state, bus)) ∧
      (r.opened (wbOps littleEndian) (state, bus)).st.accesses = bus.st.accesses := by
    have hbe : ∀ dev, (wbByteenable littleEndian dev r.be).accesses = dev.accesses := by
      intro dev
      rw [wbByteenable_eq]
      cases maskLanes r.be <;> rfl
    cases state with
    | idle => exact ⟨(h.cycle true).byteenable r.be, hbe _⟩
    | header => exact ⟨h.byteenable r.be, hbe _⟩
    | cycle => exact ⟨h.byteenable r.be, hbe _⟩
  -- the writes
  have hwritten : InForce littleEndian (nextMask mask r.be)
      (r.written (wbOps littleEndian) (state, bus)) ∧
      (r.written (wbOps littleEndian) (state, bus)).st.accesses = bus.st.accesses ++
        (if r.flags &&& ETHERBONE_WCA ≠ 0 then []
          else writeAccesses littleEndian n s r.increment r.base r.writes) := by
    rw [EbRecord.written]
    split
    · rw [List.append_nil]
      exact hopened
    · obtain ⟨hset, hacc⟩ := busWrites_accesses hmask r.increment r.writes r.base _ hopened.1
      exact ⟨hset, by rw [hacc, hopened.2]⟩
  -- the reads
  have hread : InForce littleEndian (nextMask mask r.be)
      (r.readBack (wbOps littleEndian) (state, bus)).2 ∧
      (r.readBack (wbOps littleEndian) (state, bus)).2.st.accesses =
        bus.st.accesses ++ recordAccesses littleEndian n s r := by
    rw [EbRecord.readBack, recordAccesses, ← List.append_assoc, ← hwritten.2]
    by_cases hrca : r.flags &&& ETHERBONE_RCA ≠ 0
    · rw [if_pos hrca, decide_eq_true hrca, List.append_nil]
      exact busReads_cfg r.reads _ hwritten.1
    · rw [if_neg hrca, decide_eq_false hrca]
      exact busReads_accesses hmask r.reads _ hwritten.1
  rw [EbRecord.exec]
  simp only
  split
  · exact ⟨hread.1.cycle false, hread.2⟩
  · exact hread

/-! ## Every interleaving -/

/-- The mask in force is always a supported one. -/
theorem nextMask_supported {mask : Byte} (be : Byte) (h : (maskLanes mask).isSome) :
    (maskLanes (nextMask mask be)).isSome := by
  rw [nextMask]
  split
  · assumption
  · exact h

/-- A record executed in the ring is the record the ring holds there. -/
theorem record_bus {c c' : Contexts} {client : Nat} {buf : Nat → Byte} {q : Nat}
    (hs : step littleEndian c (.record client buf q) = some c') :
    c'.bus = ((recordAt buf q).exec (wbOps littleEndian) (c.state client, c.bus)).1.2 := by
  obtain ⟨hgo, hs⟩ := Option.ite_none_right_eq_some.mp hs
  have hlive : c.state client ≠ .header := by
    intro hheader
    rw [hheader] at hgo
    rcases hgo with h | ⟨h, -⟩
    · cases h
    · cases h
  obtain ⟨hexec, -⟩ := processRecord_spec (wbOps littleEndian) q (cursorAt c client buf q) rfl hlive
  have hbus := congrArg Prod.snd hexec
  rw [← Option.some.inj hs]
  exact hbus

/-- A record in any state of the card: its accesses are those of the mask in force. -/
theorem record_accesses {c c' : Contexts} (h : InForce littleEndian mask c.bus) {client : Nat}
    {buf : Nat → Byte} {q : Nat} (hs : step littleEndian c (.record client buf q) = some c') :
    InForce littleEndian (nextMask mask (recordAt buf q).be) c'.bus ∧
    c'.bus.st.accesses = c.bus.st.accesses ++
      accessesOf littleEndian (nextMask mask (recordAt buf q).be) (recordAt buf q) := by
  obtain ⟨n₀, s₀, hmask₀, -⟩ := h.settled.lanes
  obtain ⟨⟨n, s⟩, hmask⟩ := Option.isSome_iff_exists.mp
    (nextMask_supported (recordAt buf q).be (by rw [hmask₀]; rfl : (maskLanes mask).isSome))
  rw [record_bus hs, accessesOf, hmask]
  exact exec_accesses (recordAt buf q) (c.state client) h hmask

/-- There is always a mask in force. -/
theorem inForce_step {c c' : Contexts} (h : ∃ mask, InForce littleEndian mask c.bus) (act : Act)
    (hs : step littleEndian c act = some c') : ∃ mask, InForce littleEndian mask c'.bus := by
  obtain ⟨mask, h⟩ := h
  cases act with
  | opened client =>
      obtain ⟨-, hs⟩ := Option.ite_none_right_eq_some.mp hs
      cases hs
      exact ⟨mask, h⟩
  | release client =>
      cases hs
      refine ⟨mask, ?_⟩
      show InForce littleEndian mask (if c.state client = .cycle then
        c.bus.cycle (wbOps littleEndian) false else c.bus)
      split
      · exact h.cycle false
      · exact h
  | record client buf q => exact ⟨_, (record_accesses h hs).1⟩

/-- In front of every step of every run the card is settled in its last mask. -/
theorem inForce_run {control : Word → Word} {memory : Word → Byte} {msi : Bool} {run : List Act}
    {t : Taken Contexts Act} (ht : t ∈ trace (step littleEndian) (start control memory msi) run) :
    InForce littleEndian (lastMask t.before.bus.trace) t.before.bus := by
  obtain ⟨mask, h⟩ := (trace_kept (C := fun _ _ => True)
    (fun _ act _ h _ hs => inForce_step h act hs)
    ⟨0xF, settled_probed littleEndian control memory msi, rfl⟩ (fun _ _ => trivial) t ht).1
  rw [h.last]
  exact h

/-- **What a record does to the bus is a function of the record**, if its byte enable
    is one of the seven supported ones: in any two runs, of whatever contexts and
    whatever cards, the same record makes the same accesses.  A byte enable that is
    not supported is ignored, and the last supported one decides. -/
theorem records_independent (littleEndian : Bool) (control control' : Word → Word)
    (memory memory' : Word → Byte) (msi msi' : Bool) (run run' : List Act)
    (t t' : Taken Contexts Act)
    (ht : t ∈ trace (step littleEndian) (start control memory msi) run)
    (ht' : t' ∈ trace (step littleEndian) (start control' memory' msi') run')
    (client client' : Nat) (buf buf' : Nat → Byte) (q q' : Nat)
    (hact : t.act = .record client buf q) (hact' : t'.act = .record client' buf' q')
    (hsame : recordAt buf q = recordAt buf' q') :
    ((maskLanes (recordAt buf q).be).isSome →
      ∃ accesses, accesses = accessesOf littleEndian (recordAt buf q).be (recordAt buf q) ∧
        t.behind.bus.st.accesses = t.before.bus.st.accesses ++ accesses ∧
        t'.behind.bus.st.accesses = t'.before.bus.st.accesses ++ accesses) ∧
    t.behind.bus.st.accesses = t.before.bus.st.accesses ++
      accessesOf littleEndian (nextMask (lastMask t.before.bus.trace) (recordAt buf q).be)
        (recordAt buf q) := by
  have hs := step_of_mem_trace ht
  have hs' := step_of_mem_trace ht'
  rw [hact] at hs
  rw [hact'] at hs'
  have h := (record_accesses (inForce_run ht) hs).2
  have h' := (record_accesses (inForce_run ht') hs').2
  refine ⟨fun hbe => ⟨_, rfl, ?_, ?_⟩, h⟩
  · rwa [nextMask, if_pos hbe] at h
  · rw [← hsame] at h'
    rwa [nextMask, if_pos hbe] at h'

/-! ## Two clients -/

/-- A ring with one record: a cycle of its own, with one write. -/
def oneWrite (be : Byte) (x : Nat) : Byte := [0x08, be, 1, 0].getD x 0

/-- Two clients, each with one write. -/
def twoWrites (first second : Byte) : List Act :=
  [.opened 1, .record 1 (oneWrite first) 0, .opened 0, .record 0 (oneWrite second) 0]

/-- The accesses before and behind the second write. -/
def secondWrite (run : List Act) : Option (List Access × List Access) :=
  ((trace (step true) (start (fun _ => 0) (fun _ => 0) true) run)[3]?).map fun t =>
    (t.before.bus.st.accesses, t.behind.bus.st.accesses)

/-- The second record of two is the same behind any first one. -/
theorem records_independent_byte :
    ∃ t ∈ trace (step true) (start (fun _ => 0) (fun _ => 0) true) (twoWrites 0xF 0x2),
      ∃ t' ∈ trace (step true) (start (fun _ => 0) (fun _ => 0) true) (twoWrites 0x1 0x2),
        t.behind.bus.st.accesses = t.before.bus.st.accesses ++ [⟨true, 1, 1, 1⟩] ∧
        t'.behind.bus.st.accesses = t'.before.bus.st.accesses ++ [⟨true, 1, 1, 1⟩] := by
  obtain ⟨t, ht⟩ := Option.isSome_iff_exists.mp (by decide +kernel :
    (trace (step true) (start (fun _ => 0) (fun _ => 0) true) (twoWrites 0xF 0x2))[3]?.isSome = true)
  obtain ⟨t', ht'⟩ := Option.isSome_iff_exists.mp (by decide +kernel :
    (trace (step true) (start (fun _ => 0) (fun _ => 0) true) (twoWrites 0x1 0x2))[3]?.isSome = true)
  have haccesses : accessesOf true (recordAt (oneWrite 0x2) 0).be (recordAt (oneWrite 0x2) 0) =
      [⟨true, 1, 1, 1⟩] := by decide +kernel
  refine ⟨t, List.mem_of_getElem? ht, t', List.mem_of_getElem? ht', ?_⟩
  obtain ⟨accesses, heq, h, h'⟩ := (records_independent true _ _ _ _ _ _ (twoWrites 0xF 0x2)
    (twoWrites 0x1 0x2) t t' (List.mem_of_getElem? ht) (List.mem_of_getElem? ht') 0 0
    (oneWrite 0x2) (oneWrite 0x2) 0 0 (Option.some.inj (act_of_getElem? ht)).symm
    (Option.some.inj (act_of_getElem? ht')).symm rfl).1 (by decide +kernel)
  rw [heq, haccesses] at h h'
  exact ⟨h, h'⟩

/-- A byte enable that is not supported leaves the lanes of the other client's
    record in force. -/
theorem records_dependent :
    ¬ ∃ f : EbRecord → List Access, ∀ run,
      ∀ t ∈ trace (step true) (start (fun _ => 0) (fun _ => 0) true) run,
        ∀ client buf q, t.act = .record client buf q →
          t.behind.bus.st.accesses = t.before.bus.st.accesses ++ f (recordAt buf q) := by
  rintro ⟨f, hf⟩
  have key : ∀ first before behind, secondWrite (twoWrites first 0x5) = some (before, behind) →
      behind = before ++ f (recordAt (oneWrite 0x5) 0) := by
    intro first before behind h
    obtain ⟨t, ht, heq⟩ := Option.map_eq_some_iff.mp h
    have hact : t.act = .record 0 (oneWrite 0x5) 0 :=
      (Option.some.inj (act_of_getElem? ht)).symm
    cases heq
    exact hf _ t (List.mem_of_getElem? ht) 0 (oneWrite 0x5) 0 hact
  have hword := key 0xF [⟨true, 0, 4, 0⟩] [⟨true, 0, 4, 0⟩, ⟨true, 0, 4, 0⟩] (by decide +kernel)
  have hbyte := key 0x1 [⟨true, 0, 1, 0⟩] [⟨true, 0, 1, 0⟩, ⟨true, 0, 1, 0⟩] (by decide +kernel)
  have heq := (List.cons.inj hword).2.trans (List.cons.inj hbyte).2.symm
  exact absurd heq (by decide)

end PcieRecords
