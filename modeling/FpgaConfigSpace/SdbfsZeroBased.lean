import FpgaConfigSpace.SdbfsAccess
import FpgaConfigSpace.SdbfsCreate

/-! # A device mapped at address 0

    `SDBFS_F_ZEROBASED` tells the library that its data pointer, although 0, is
    valid.  Such a device and one that maps the same bytes elsewhere are driven
    through the same calls.  They cannot be told apart as long as no record is used
    in place at address 0, where it looks like no record, and as long as no open
    file is read: `sdbfs_fread` does not look at the flag. -/

namespace SdbfsZeroBased

open BigEndian SdbRecord SdbfsDevice SdbfsScan SdbfsOpen SdbfsTree SdbfsRuns
open SdbfsLockstep SdbfsCreate SdbfsAccess

variable {w : Nat} {σ τ : Type}

/-! ## Calls and what they return -/

/-- A call of the library.  What a local variable or the caller's buffer holds
    beforehand is part of the call. -/
inductive Call where
  | devCreate (stack : Fin 4 → Byte)
  | scan (newscan : Bool)
  | openName (name : CString)
  | openId (vid : BitVec 64) (did : BitVec 32)
  | findName (name : CString)
  | findId (vid : BitVec 64) (did : BitVec 32)
  | fstat
  | fread (offset : BitVec 32) (buf : Nat → Byte) (count : BitVec 32)
  | close

/-- What the caller gets back; of a record, what it points to, its depth and its
    offset. -/
inductive Reply (w : Nat) where
  | code (ret : Int)
  | record (found : Option (Record × Nat × BitVec w))
  | offset (offset : BitVec w)
  | stat (ret : Int) (record : Option Record)
  | bytes (ret : Int) (buf : Nat → Byte)

/-- What a call returns is an error code. -/
def codeOf : Outcome (Sdbfs w σ × Int) → Outcome (Sdbfs w σ × Reply w)
  | .undefined => .undefined
  | .running => .running
  | .done (fs, ret) => .done (fs, .code ret)

/-- What a call returns is an offset. -/
def offsetOf : Outcome (Sdbfs w σ × BitVec w) → Outcome (Sdbfs w σ × Reply w)
  | .undefined => .undefined
  | .running => .running
  | .done (fs, offset) => .done (fs, .offset offset)

/-- The record a scan returns, as its caller sees it. -/
def recordOut (host : Host w) : Option (Sdbfs w σ × RecordPtr w) → Outcome (Sdbfs w σ × Reply w)
  | none => .undefined
  | some (fs, d) =>
      if d.isNull then .done (fs, .record none)
      else
        match fs.deref host d with
        | none => .undefined
        | some rec => .done (fs, .record (some (rec, fs.depth, fs.fOffset)))

/-- One call; `n` bounds the records that a search looks at. -/
def runCall (host : Host w) (n : Nat) (fs : Sdbfs w σ) : Call → Outcome (Sdbfs w σ × Reply w)
  | .devCreate stack =>
      match sdbfsDevCreate host stack fs with
      | none => .undefined
      | some (fs, ret) => .done (fs, .code ret)
  | .scan newscan => recordOut host (sdbfsScan host fs newscan)
  | .openName name => codeOf (sdbfsOpenName host n fs name)
  | .openId vid did => codeOf (sdbfsOpenId host n fs vid did)
  | .findName name => offsetOf (sdbfsFindName host n fs name)
  | .findId vid did => offsetOf (sdbfsFindId host n fs vid did)
  | .fstat =>
      match sdbfsFstat host fs with
      | none => .undefined
      | some (ret, rec) => .done (fs, .stat ret rec)
  | .fread offset buf count =>
      match sdbfsFread host fs offset buf count with
      | none => .undefined
      | some (fs, ret, buf) => .done (fs, .bytes ret buf)
  | .close => .done (sdbfsClose fs, .code 0)

/-- The calls of a program, one after the other. -/
def runCalls (host : Host w) (n : Nat) : Sdbfs w σ → List Call → Outcome (Sdbfs w σ × List (Reply w))
  | fs, [] => .done (fs, [])
  | fs, c :: calls =>
      match runCall host n fs c with
      | .undefined => .undefined
      | .running => .running
      | .done (fs, reply) =>
          match runCalls host n fs calls with
          | .undefined => .undefined
          | .running => .running
          | .done (fs, replies) => .done (fs, reply :: replies)

/-! ## When address 0 does not matter -/

/-- The record at a position is not used in place at address 0: neither behind the
    data pointer of the device nor behind the pointer `data`. -/
def InPlaceOk (fs : Sdbfs w σ) (data pos : BitVec w) : Prop :=
  fs.converts = false → fs.data + pos ≠ 0 ∧ data + pos ≠ 0

instance (fs : Sdbfs w σ) (data pos : BitVec w) : Decidable (InPlaceOk fs data pos) :=
  inferInstanceAs (Decidable (_ → _ ∧ _))

instance (fs : Sdbfs w σ) (data : BitVec w) (reads : List (BitVec w)) :
    Decidable (∀ pos ∈ reads, InPlaceOk fs data pos) := List.decidableBAll _ reads

/-- The condition on a call, in the state before it: what it reads is not at address
    0, a scan is continued from a record, and no open file is read. -/
def CallOk (host : Host w) (n : Nat) (data : BitVec w) (fs : Sdbfs w σ) : Call → Prop
  | .devCreate _ => True
  | .scan newscan =>
      (newscan = false → fs.currentp.isNull = false) ∧
        ∀ pos ∈ scanReads host fs newscan, InPlaceOk fs data pos
  | .openName name | .findName name =>
      name.chars.length ≤ 19 →
        ∀ pos ∈ openScanReads host (nameMatches name) n fs, InPlaceOk fs data pos
  | .openId vid did | .findId vid did =>
      ∀ pos ∈ openScanReads host (idMatches host vid did) n fs, InPlaceOk fs data pos
  | .fstat => True
  | .fread _ _ _ => fs.currentp.isNull = true
  | .close => True

instance (host : Host w) (n : Nat) (data : BitVec w) (fs : Sdbfs w σ) :
    (c : Call) → Decidable (CallOk host n data fs c)
  | .devCreate _ => isTrue trivial
  | .scan _ => inferInstanceAs (Decidable ((_ → _) ∧ _))
  | .openName _ => inferInstanceAs (Decidable (_ → _))
  | .findName _ => inferInstanceAs (Decidable (_ → _))
  | .openId _ _ => inferInstanceAs (Decidable (∀ pos ∈ openScanReads host _ n fs, _))
  | .findId _ _ => inferInstanceAs (Decidable (∀ pos ∈ openScanReads host _ n fs, _))
  | .fstat => isTrue trivial
  | .fread _ _ _ => inferInstanceAs (Decidable (_ = _))
  | .close => isTrue trivial

/-- Every call of a run meets the condition. -/
def CallsOk (host : Host w) (n : Nat) (data : BitVec w) : Sdbfs w σ → List Call → Prop
  | _, [] => True
  | fs, c :: calls =>
      CallOk host n data fs c ∧
        match runCall host n fs c with
        | .done (fs, _) => CallsOk host n data fs calls
        | _ => True

instance callsOkDecidable (host : Host w) (n : Nat) (data : BitVec w) :
    (fs : Sdbfs w σ) → (calls : List Call) → Decidable (CallsOk host n data fs calls)
  | _, [] => isTrue trivial
  | fs, c :: calls =>
      have : Decidable (match runCall host n fs c with
          | .done (fs, _) => CallsOk host n data fs calls
          | _ => True) :=
        match runCall host n fs c with
        | .done (fs, _) => callsOkDecidable host n data fs calls
        | .undefined => isTrue trivial
        | .running => isTrue trivial
      inferInstanceAs (Decidable (_ ∧ _))

/-! ## Two devices with the same content -/

/-- The one at address 0 and the one elsewhere hold the same bytes and are in
    lockstep. -/
structure Twins (host host' : Host w) (fs : Sdbfs w σ) (fs' : Sdbfs w τ) : Prop where
  littleEndian : host'.littleEndian = host.littleEndian
  isMapped : fs.isMapped = true
  isMapped' : fs'.isMapped = true
  converts : fs'.converts = fs.converts
  content : ∀ k, host'.mem (fs'.data + k) = host.mem (fs.data + k)
  lockstep : Lockstep host fs host' fs'

section twins

variable {host host' : Host w} {fs : Sdbfs w σ} {fs' : Sdbfs w τ}

/-- Calls keep both devices twins. -/
theorem Twins.same (h : Twins host host' fs fs') {s : Sdbfs w σ} {s' : Sdbfs w τ}
    (hs : SameDevice fs s) (hs' : SameDevice fs' s') (hl : Lockstep host s host' s') :
    Twins host host' s s' := by
  refine ⟨h.littleEndian, hs.isMapped.trans h.isMapped, hs'.isMapped.trans h.isMapped', ?_, ?_, hl⟩
  · rw [hs.converts, hs'.converts, h.converts]
  · rw [hs.1, hs'.1]
    exact h.content

/-- The record at a position, as the library sees it. -/
def mappedRecord (host : Host w) (fs : Sdbfs w σ) (pos : BitVec w) : Record :=
  if fs.converts then host.ntohlWords (host.recordAt (fs.data + pos))
  else host.recordAt (fs.data + pos)

/-- A mapped device serves what is in memory. -/
theorem mappedRecord_serves (hm : fs.isMapped = true) {P : BitVec w → Prop}
    (hP : ∀ pos, P pos → ¬ NullAt fs pos) : Serves host fs (mappedRecord host fs) P := by
  intro s hs pos hpos
  have hd : Delivers host s (mappedRecord host fs) := by
    rw [Delivers, if_pos (hs.isMapped.trans hm), hs.converts, hs.1]
    intro pos
    rfl
  refine ⟨sdbfsReadentry_delivers hd pos, ?_⟩
  rw [sdbfsReadentry_ptr hd pos, hs.recordPtr]
  exact Bool.eq_false_iff.mpr (mt (recordPtr_isNull fs pos).mp (hP pos hpos))

/-- Twins have the same records. -/
theorem Twins.mappedRecord (h : Twins host host' fs fs') (pos : BitVec w) :
    mappedRecord host' fs' pos = mappedRecord host fs pos := by
  have hrecord : host'.recordAt (fs'.data + pos) = host.recordAt (fs.data + pos) := by
    ext1 i
    show host'.mem (fs'.data + pos + _) = host.mem (fs.data + pos + _)
    rw [BitVec.add_assoc, BitVec.add_assoc]
    exact h.content _
  have hntohl (r : Record) : host'.ntohlWords r = host.ntohlWords r := by
    rw [Host.ntohlWords, Host.ntohlWords, h.littleEndian]
  rw [SdbfsZeroBased.mappedRecord, SdbfsZeroBased.mappedRecord, h.converts, hrecord, hntohl]

/-- Both hand out the same records where they are not at address 0. -/
theorem Twins.serves (h : Twins host host' fs fs') :
    Serves host fs (SdbfsZeroBased.mappedRecord host fs) (InPlaceOk fs fs'.data) ∧
      Serves host' fs' (SdbfsZeroBased.mappedRecord host fs) (InPlaceOk fs fs'.data) := by
  refine ⟨mappedRecord_serves h.isMapped ?_, ?_⟩
  · intro pos hpos hnull
    exact (hpos hnull.2.1).1 hnull.2.2
  · refine (mappedRecord_serves h.isMapped' ?_).congr fun pos _ => h.mappedRecord pos
    intro pos hpos hnull
    exact (hpos (h.converts.symm.trans hnull.2.1)).2 hnull.2.2

/-! ## One call -/

/-- Two results of a call: the devices are still twins, and the replies are equal. -/
structure SameReply (host host' : Host w) (fs' : Sdbfs w τ) (r : Sdbfs w σ × Reply w)
    (r' : Sdbfs w τ × Reply w) : Prop where
  twins : Twins host host' r.1 r'.1
  data : r'.1.data = fs'.data
  reply : r'.2 = r.2

/-- They compare identifiers in the same way. -/
theorem Twins.idMatches (h : Twins host host' fs fs') (vid : BitVec 64) (did : BitVec 32) :
    SdbfsOpen.idMatches host' vid did = SdbfsOpen.idMatches host vid did := by
  ext1 d
  rw [SdbfsOpen.idMatches, SdbfsOpen.idMatches, load64, load64, load32, load32, h.littleEndian]

/-- Creating the device, searching it and returning what was found keep both devices twins. -/
theorem Twins.devCreate (h : Twins host host' fs fs') (hw : 32 ≤ w) (n : Nat)
    (stack : Fin 4 → Byte) :
    OutcomeRel (SameReply host host' fs') (runCall host n fs (.devCreate stack))
      (runCall host' n fs' (.devCreate stack)) := by
  have hmagic : createMagic host stack fs = some ({ fs with drvdata := fs.drvdata }, _) :=
    if_pos h.isMapped
  have hmagic' : createMagic host' stack fs' = some ({ fs' with drvdata := fs'.drvdata }, _) :=
    if_pos h.isMapped'
  have hbytes : (fun i : Fin 4 =>
      host'.mem (fs'.data + fs'.entrypoint + BitVec.ofNat w i.val)) =
      fun i : Fin 4 => host.mem (fs.data + fs.entrypoint + BitVec.ofNat w i.val) := by
    ext1 i
    rw [BitVec.add_assoc, BitVec.add_assoc, h.content, h.lockstep.entrypoint]
  have hverdict (b : Fin 4 → Byte) : verdict host' b = verdict host b := by
    rw [verdict, verdict, Host.loadInt, Host.loadInt, Host.htonl, Host.htonl, h.littleEndian]
  rw [hbytes] at hmagic'
  rw [runCall, runCall, sdbfsDevCreate_verdict hmagic, sdbfsDevCreate_verdict hmagic', hverdict]
  refine OutcomeRel.done ⟨?_, rfl, rfl⟩
  generalize (verdict host _).1 = convert
  have hl := h.lockstep
  refine ⟨h.littleEndian, (created_isMapped fs _ convert).trans h.isMapped,
    (created_isMapped fs' _ convert).trans h.isMapped', ?_, h.content, ?_⟩
  · cases convert with
    | false => exact h.converts
    | true => exact (created_true_converts hw fs' _).trans (created_true_converts hw fs _).symm
  · refine ⟨hl.entrypoint, hl.base, hl.thisPos, hl.nleft, hl.depth, hl.fLen, hl.fOffset,
      hl.readOffset, hl.null, ?_⟩
    intro hnull
    rw [created_deref, created_deref]
    exact hl.current hnull

theorem Twins.recordOut (h : Twins host host' fs fs') {r : Option (Sdbfs w σ × RecordPtr w)}
    {r' : Option (Sdbfs w τ × RecordPtr w)} (hr : Option.Rel (InStep host host' fs fs') r r') :
    OutcomeRel (SameReply host host' fs') (SdbfsZeroBased.recordOut host r)
      (SdbfsZeroBased.recordOut host' r') := by
  cases hr with
  | none => exact OutcomeRel.undefined
  | @some r r' hin =>
      obtain ⟨g, p⟩ := r
      obtain ⟨g', p'⟩ := r'
      have hnull : p'.isNull = p.isNull := hin.null
      have htwins := h.same hin.same hin.same' hin.lockstep
      have hdata : g'.data = fs'.data := hin.same'.1
      show OutcomeRel _ (if p.isNull then _ else _) (if p'.isNull then _ else _)
      rw [hnull]
      by_cases hp : p.isNull = true
      · rw [if_pos hp, if_pos hp]
        exact OutcomeRel.done ⟨htwins, hdata, rfl⟩
      · have hrecord : g'.deref host' p' = g.deref host p := hin.record (Bool.eq_false_iff.mpr hp)
        rw [if_neg hp, if_neg hp, hrecord]
        cases g.deref host p with
        | none => exact OutcomeRel.undefined
        | some rec =>
            refine OutcomeRel.done ⟨htwins, hdata, ?_⟩
            have hoffset : g'.fOffset = g.fOffset := hin.lockstep.fOffset
            have hdepth : g'.depth = g.depth := hin.lockstep.depth
            show Reply.record (some (rec, g'.depth, g'.fOffset)) = _
            rw [hoffset, hdepth]

theorem Twins.codeOf (h : Twins host host' fs fs') {r : Outcome (Sdbfs w σ × Int)}
    {r' : Outcome (Sdbfs w τ × Int)} (hr : OutcomeRel (SameReturn host host' fs fs') r r') :
    OutcomeRel (SameReply host host' fs') (SdbfsZeroBased.codeOf r)
      (SdbfsZeroBased.codeOf r') := by
  cases hr with
  | undefined => exact OutcomeRel.undefined
  | running => exact OutcomeRel.running
  | done hr =>
      exact OutcomeRel.done ⟨h.same hr.same hr.same' hr.lockstep, hr.same'.1,
        congrArg Reply.code hr.value⟩

/-- Closing keeps two devices in lockstep. -/
theorem sdbfsClose_lockstep {g : Sdbfs w σ} {g' : Sdbfs w τ} (h : Lockstep host g host' g') :
    Lockstep host (sdbfsClose g) host' (sdbfsClose g') := by
  refine ⟨h.entrypoint, h.base, h.thisPos, h.nleft, h.depth, h.fLen, h.fOffset, h.readOffset,
    rfl, ?_⟩
  intro hnull
  have hfalse : (RecordPtr.NULL w).isNull = false := hnull
  rw [RecordPtr.isNull_NULL] at hfalse
  cases hfalse

theorem Twins.offsetOf (h : Twins host host' fs fs') {r : Outcome (Sdbfs w σ × Int)}
    {r' : Outcome (Sdbfs w τ × Int)} (hr : OutcomeRel (SameReturn host host' fs fs') r r') :
    OutcomeRel (SameReply host host' fs') (SdbfsZeroBased.offsetOf (findOffset r))
      (SdbfsZeroBased.offsetOf (findOffset r')) := by
  cases hr with
  | undefined => exact OutcomeRel.undefined
  | running => exact OutcomeRel.running
  | @done r r' hr =>
      obtain ⟨g, ret⟩ := r
      obtain ⟨g', ret'⟩ := r'
      have hret : ret' = ret := hr.value
      subst hret
      rw [findOffset, findOffset]
      by_cases hneg : ret' < 0
      · rw [if_pos hneg, if_pos hneg]
        exact OutcomeRel.done ⟨h.same hr.same hr.same' hr.lockstep, hr.same'.1, rfl⟩
      · rw [if_neg hneg, if_neg hneg]
        have hoffset : g'.fOffset = g.fOffset := hr.lockstep.fOffset
        exact OutcomeRel.done ⟨h.same hr.same hr.same' (sdbfsClose_lockstep hr.lockstep),
          hr.same'.1, congrArg Reply.offset hoffset⟩

theorem Twins.openScan (h : Twins host host' fs fs') (found : Record → Bool) {n : Nat}
    (hreads : ∀ pos ∈ openScanReads host found n fs, InPlaceOk fs fs'.data pos) :
    OutcomeRel (SameReturn host host' fs fs') (SdbfsOpen.openScan host found n fs)
      (SdbfsOpen.openScan host' found n fs') :=
  openScan_lockstep found h.serves.1 h.serves.2 h.lockstep hreads

theorem Twins.openName (h : Twins host host' fs fs') (name : CString) {n : Nat}
    (hreads : name.chars.length ≤ 19 →
      ∀ pos ∈ openScanReads host (nameMatches name) n fs, InPlaceOk fs fs'.data pos) :
    OutcomeRel (SameReturn host host' fs fs') (sdbfsOpenName host n fs name)
      (sdbfsOpenName host' n fs' name) := by
  rw [sdbfsOpenName, sdbfsOpenName]
  by_cases hlen : 19 < name.chars.length
  · rw [if_pos hlen, if_pos hlen]
    exact OutcomeRel.done ⟨SameDevice.refl fs, SameDevice.refl fs', h.lockstep, rfl⟩
  · rw [if_neg hlen, if_neg hlen]
    exact h.openScan _ (hreads (Nat.le_of_not_lt hlen))

/-- **One call** that meets the condition cannot tell twins apart. -/
theorem Twins.runCall (h : Twins host host' fs fs') (hw : 32 ≤ w) {n : Nat} {c : Call}
    (hok : CallOk host n fs'.data fs c) :
    OutcomeRel (SameReply host host' fs') (SdbfsZeroBased.runCall host n fs c)
      (SdbfsZeroBased.runCall host' n fs' c) := by
  cases c with
  | devCreate stack => exact h.devCreate hw n stack
  | scan newscan =>
      exact h.recordOut (sdbfsScan_lockstep h.serves.1 h.serves.2 h.lockstep hok.1 hok.2)
  | openName name => exact h.codeOf (h.openName name hok)
  | openId vid did =>
      have hsearch := h.openScan _ hok
      rw [← h.idMatches] at hsearch
      rw [SdbfsZeroBased.runCall, SdbfsZeroBased.runCall, sdbfsOpenId, ← h.idMatches]
      exact h.codeOf hsearch
  | findName name => exact h.offsetOf (h.openName name hok)
  | findId vid did =>
      have hsearch := h.openScan _ hok
      rw [SdbfsZeroBased.runCall, SdbfsZeroBased.runCall, sdbfsFindId, sdbfsFindId, sdbfsOpenId,
        sdbfsOpenId, h.idMatches]
      exact h.offsetOf hsearch
  | fstat =>
      rw [SdbfsZeroBased.runCall, SdbfsZeroBased.runCall, sdbfsFstat, sdbfsFstat, h.lockstep.null]
      by_cases hnull : fs.currentp.isNull = true
      · rw [if_pos hnull, if_pos hnull]
        exact OutcomeRel.done ⟨h, rfl, rfl⟩
      · rw [if_neg hnull, if_neg hnull, h.lockstep.current (Bool.eq_false_iff.mpr hnull)]
        cases fs.deref host fs.currentp with
        | none => exact OutcomeRel.undefined
        | some rec => exact OutcomeRel.done ⟨h, rfl, rfl⟩
  | fread offset buf count =>
      have hnull : fs.currentp.isNull = true := hok
      rw [SdbfsZeroBased.runCall, SdbfsZeroBased.runCall, sdbfsFread, sdbfsFread, h.lockstep.null,
        if_pos hnull, if_pos hnull]
      exact OutcomeRel.done ⟨h, rfl, rfl⟩
  | close =>
      exact OutcomeRel.done ⟨h.same (SameDevice.refl fs) (SameDevice.refl fs')
        (sdbfsClose_lockstep h.lockstep), rfl, rfl⟩

end twins

/-! ## Every run -/

/-- Twins stay twins through a run whose calls meet the condition. -/
theorem Twins.runCalls {host host' : Host w} (hw : 32 ≤ w) {n : Nat} : ∀ {calls : List Call}
    {fs : Sdbfs w σ} {fs' : Sdbfs w τ}, Twins host host' fs fs' →
    CallsOk host n fs'.data fs calls →
    OutcomeRel (fun r r' => Twins host host' r.1 r'.1 ∧ r'.2 = r.2)
      (SdbfsZeroBased.runCalls host n fs calls) (SdbfsZeroBased.runCalls host' n fs' calls) := by
  intro calls
  induction calls with
  | nil =>
      intro fs fs' h _
      exact OutcomeRel.done ⟨h, rfl⟩
  | cons c calls ih =>
      intro fs fs' h hok
      obtain ⟨hcall, hrest⟩ := hok
      have hstep := h.runCall hw hcall
      rw [SdbfsZeroBased.runCalls, SdbfsZeroBased.runCalls]
      generalize SdbfsZeroBased.runCall host n fs c = r at hstep hrest ⊢
      generalize SdbfsZeroBased.runCall host' n fs' c = r' at hstep ⊢
      cases hstep with
      | undefined => exact OutcomeRel.undefined
      | running => exact OutcomeRel.running
      | @done r r' hr =>
          obtain ⟨g, reply⟩ := r
          obtain ⟨g', reply'⟩ := r'
          have hdata : g'.data = fs'.data := hr.data
          have hreply : reply' = reply := hr.reply
          have hmore := ih hr.twins (hdata ▸ hrest)
          simp only
          generalize SdbfsZeroBased.runCalls host n g calls = more at hmore ⊢
          generalize SdbfsZeroBased.runCalls host' n g' calls = more' at hmore ⊢
          cases hmore with
          | undefined => exact OutcomeRel.undefined
          | running => exact OutcomeRel.running
          | done hm => exact OutcomeRel.done ⟨hm.1, by rw [hreply, hm.2]⟩

/-- A device at address 0 and one elsewhere, as their users hand them over. -/
theorem Twins.start {host host' : Host w} {fs : Sdbfs w σ} {fs' : Sdbfs w τ}
    {entrypoint : BitVec w} (hle : host'.littleEndian = host.littleEndian)
    (hu : Unused entrypoint fs) (hu' : Unused entrypoint fs') (hzero : fs.data = 0#w)
    (hflag : fs.flags &&& SDBFS_F_ZEROBASED w ≠ 0#w) (hdata : fs'.data ≠ 0#w)
    (hcontent : ∀ k, host'.mem (fs'.data + k) = host.mem k) : Twins host host' fs fs' := by
  refine ⟨hle, ?_, ?_, hu'.flags.trans hu.flags.symm, ?_,
    created_lockstep hu hu' fs.drvdata fs'.drvdata false false⟩
  · rw [Sdbfs.isMapped, bne_iff_ne.mpr hflag, Bool.or_true]
  · rw [Sdbfs.isMapped, bne_iff_ne.mpr hdata, Bool.true_or]
  · intro k
    rw [hzero, BitVec.zero_add]
    exact hcontent k

/-- **A zero-based device is like any other in every run** whose calls neither use a
    record in place at address 0 nor read an open file: the calls return the same,
    whatever they are and whatever the device holds. -/
theorem zeroBased_like_mapped (hw : 32 ≤ w) (host host' : Host w)
    (hle : host'.littleEndian = host.littleEndian) (entrypoint : BitVec w) (fs : Sdbfs w σ)
    (fs' : Sdbfs w τ) (hu : Unused entrypoint fs) (hu' : Unused entrypoint fs')
    (hzero : fs.data = 0#w) (hflag : fs.flags &&& SDBFS_F_ZEROBASED w ≠ 0#w)
    (hdata : fs'.data ≠ 0#w) (hcontent : ∀ k, host'.mem (fs'.data + k) = host.mem k) (n : Nat)
    (calls : List Call) (hok : CallsOk host n fs'.data fs calls) :
    OutcomeRel (fun r r' => r'.2 = r.2) (runCalls host n fs calls)
      (runCalls host' n fs' calls) := by
  have hrun := (Twins.start hle hu hu' hzero hflag hdata hcontent).runCalls hw hok
  generalize runCalls host n fs calls = r at hrun ⊢
  generalize runCalls host' n fs' calls = r' at hrun ⊢
  cases hrun with
  | undefined => exact OutcomeRel.undefined
  | running => exact OutcomeRel.running
  | done h => exact OutcomeRel.done h.2

/-! ## One file, at address 0 and elsewhere -/

/-- A device named `a` of two bytes. -/
def fileBytes : List Byte :=
  List.replicate 23 0 ++ [1] ++ List.replicate 20 0 ++ [0x61] ++ List.replicate 18 0x20 ++ [1]

/-- A directory with that file, 64 bytes into the memory. -/
def directoryBytes : List Byte := List.replicate 64 0 ++ interconnectBytes 2 ++ fileBytes

/-- The name "a". -/
def fileName : CString := ⟨[0x61], by decide⟩

/-- A device that is mapped at zero, and says so. -/
def atZero : Sdbfs 32 Unit := Sdbfs.fresh () 64 (SDBFS_F_ZEROBASED 32) 0 none

/-- The same device, mapped at 0x1000. -/
def elsewhere : Sdbfs 32 Unit := Sdbfs.fresh () 64 0 0x1000 none

theorem directory_content (k : BitVec 32) :
    (mappedHost 0x1000 directoryBytes).mem (0x1000 + k) =
      (mappedHost 0 directoryBytes).mem k := by
  show directoryBytes.getD (0x1000#32 + k - 0x1000#32).toNat 0 =
    directoryBytes.getD (k - 0#32).toNat 0
  rw [BitVec.add_comm, BitVec.add_sub_cancel, BitVec.sub_zero]

/-- The device is created and the file opened and examined. -/
def openCalls : List Call := [.devCreate fun _ => 0, .openName fileName, .fstat]

theorem zeroBased_like_mapped_open :
    OutcomeRel (fun r r' => r'.2 = r.2)
      (runCalls (mappedHost 0 directoryBytes) 4 atZero openCalls)
      (runCalls (mappedHost 0x1000 directoryBytes) 4 elsewhere openCalls) :=
  zeroBased_like_mapped (by decide) (mappedHost 0 directoryBytes)
    (mappedHost 0x1000 directoryBytes) rfl 64 atZero elsewhere ⟨rfl, by decide⟩ ⟨rfl, by decide⟩
    rfl (by decide) (by decide) directory_content 4 openCalls (by decide +kernel)

/-- Then its first byte is read. -/
def readCalls : List Call :=
  [.devCreate fun _ => 0, .openName fileName, .fread 0 (fun _ => 0) 1]

/-- The call has no defined outcome. -/
def isUndefined {α : Type} : Outcome α → Bool
  | .undefined => true
  | _ => false

/-- The call returned. -/
def isDone {α : Type} : Outcome α → Bool
  | .done _ => true
  | _ => false

/-- Elsewhere the byte is copied; at address 0 the method that is not there is called. -/
theorem zeroBased_unlike_mapped :
    (∀ k, (mappedHost 0x1000 directoryBytes).mem (elsewhere.data + k) =
      (mappedHost 0 directoryBytes).mem k) ∧
    ¬ OutcomeRel (fun r r' => r'.2 = r.2)
      (runCalls (mappedHost 0 directoryBytes) 4 atZero readCalls)
      (runCalls (mappedHost 0x1000 directoryBytes) 4 elsewhere readCalls) := by
  refine ⟨directory_content, ?_⟩
  have hzero : isUndefined (runCalls (mappedHost 0 directoryBytes) 4 atZero readCalls) = true := by
    decide +kernel
  have hdone : isDone (runCalls (mappedHost 0x1000 directoryBytes) 4 elsewhere readCalls) =
      true := by
    decide +kernel
  intro h
  generalize runCalls (mappedHost 0 directoryBytes) 4 atZero readCalls = r at h hzero
  generalize runCalls (mappedHost 0x1000 directoryBytes) 4 elsewhere readCalls = r' at h hdone
  cases h with
  | undefined => cases hdone
  | running => cases hdone
  | done _ => cases hzero

end SdbfsZeroBased
