import FpgaConfigSpace.Lib.Lanes
import FpgaConfigSpace.Lib.Trace

/-! # The window of a VME bridge

    A bridge shows its bus through a window of 64 KiB.  `wb_write` and `wb_read` of
    `vme_wb_external.c` move the window by writing `WINDOW_OFFSET_LOW` and keep the
    offset in `dev->window_offset`, so that they can leave the register alone while
    it need not change.  Clients reach the bridge as soon as `wishbone_register` has
    returned, while `vme_probe` still has to request the interrupt and to run
    `init_ctrl_reg`, which clears three registers.

    A register holds the value that was meant, the conversion to bus byte order
    undone.  Every access to a register or to the cached offset is a step of its
    own; only the mutex taken by `wb_cycle` keeps clients apart. -/

namespace VmeWindow

open Lanes Trace

/-- The bits of an address that the bridge is given. -/
def WBM_ADD_MASK : BitVec 32 := 0xfffffffc

/-- The bits of an address that go to the window register. -/
def WINDOW_HIGH : BitVec 32 := 0xffff0000

/-- The bits of an address that are an offset in the window. -/
def WINDOW_LOW : BitVec 32 := 0x0000fffc

/-- The window an address lies in. -/
def windowOf (addr : BitVec 32) : BitVec 32 := (addr &&& WBM_ADD_MASK) &&& WINDOW_HIGH

/-- The offset of an address in the window. -/
def lowOf (addr : BitVec 32) : BitVec 32 := (addr &&& WBM_ADD_MASK) &&& WINDOW_LOW

/-! ## The bridge -/

/-- A read, or a write of a word. -/
inductive Op where
  | write (data : BitVec 32)
  | read

/-- How far `wb_write` or `wb_read` has come. -/
inductive Phase where
  /-- No operation is under way. -/
  | idle
  /-- The cached offset is another: the register is to be written. -/
  | missed (op : Op) (addr : BitVec 32)
  /-- The register is written, the cached offset is not. -/
  | moved (op : Op) (addr : BitVec 32)
  /-- The word is to be accessed. -/
  | ready (op : Op) (addr : BitVec 32)

/-- How far `vme_probe` has come. -/
inductive ProbePhase where
  | registered
  | irqRequested
  | dataWidthCleared
  | windowCleared
  | done

/-- An access through the window: what was asked for, the register and the cached
    offset at that moment, and the bus address that was reached. -/
structure Access where
  op : Op
  addr : BitVec 32
  window : BitVec 32
  cached : BitVec 32
  reached : BitVec 32

/-- The registers of the bridge, and what the driver keeps of them. -/
structure Bridge where
  windowOffsetLow : BitVec 32
  emulDatWd : BitVec 32
  masterCtrl : BitVec 32
  ctrl : BitVec 32
  /-- `dev->window_offset`. -/
  windowOffset : BitVec 32
  /-- The client that holds `dev->mutex`. -/
  owner : Option Nat
  phase : Phase
  probe : ProbePhase
  accesses : List Access

/-- The bridge when `wishbone_register` returns; the core has been reset. -/
def Bridge.start : Bridge where
  windowOffsetLow := 0
  emulDatWd := 0
  masterCtrl := 0
  ctrl := 0
  windowOffset := 0
  owner := none
  phase := .idle
  probe := .registered
  accesses := []

/-! ## Steps -/

/-- What the users of a card do, one access at a time. -/
inductive Act where
  | cycle (client : Nat) (on : Bool)
  | byteenable (client : Nat) (be : BitVec 8)
  /-- The call of `wb_write` or `wb_read`, up to the comparison of the offsets. -/
  | start (client : Nat) (op : Op) (addr : BitVec 32)
  /-- The next access of the operation that is under way. -/
  | advance (client : Nat)
  /-- The next step of `vme_probe`. -/
  | probe

/-- `wb_cycle`: a client waits for the mutex, and gives it back between operations. -/
def wbCycle (client : Nat) (on : Bool) (s : Bridge) : Option Bridge :=
  if on then
    match s.owner with
    | none => some { s with owner := some client, ctrl := 0x80000000 + 0x40000000 }
    | some _ => none
  else
    match s.phase with
    | .idle =>
        if s.owner = some client then some { s with owner := none, ctrl := 0x40000000 } else none
    | _ => none

/-- `wb_write` and `wb_read`, up to the comparison of the offsets. -/
def startOp (op : Op) (addr : BitVec 32) (s : Bridge) : Option Bridge :=
  match s.phase with
  | .idle =>
      if windowOf addr ≠ s.windowOffset then some { s with phase := .missed op addr }
      else some { s with phase := .ready op addr }
  | _ => none

/-- The accesses of `wb_write` and `wb_read`, one at a time. -/
def advanceOp (s : Bridge) : Option Bridge :=
  match s.phase with
  | .idle => none
  | .missed op addr => some { s with windowOffsetLow := windowOf addr, phase := .moved op addr }
  | .moved op addr => some { s with windowOffset := windowOf addr, phase := .ready op addr }
  | .ready op addr =>
      some { s with
        accesses := ⟨op, addr, s.windowOffsetLow, s.windowOffset, s.windowOffsetLow + lowOf addr⟩
          :: s.accesses
        phase := .idle }

/-- `vme_probe` behind `wishbone_register`: the interrupt is granted, and
    `init_ctrl_reg` writes three registers. -/
def advanceProbe (s : Bridge) : Option Bridge :=
  match s.probe with
  | .registered => some { s with probe := .irqRequested }
  | .irqRequested => some { s with emulDatWd := 0, probe := .dataWidthCleared }
  | .dataWidthCleared => some { s with windowOffsetLow := 0, probe := .windowCleared }
  | .windowCleared => some { s with masterCtrl := 0, probe := .done }
  | .done => none

/-- One step.  A client operates the bus while it holds the mutex. -/
def step (s : Bridge) : Act → Option Bridge
  | .cycle client on => wbCycle client on s
  | .byteenable client be =>
      if s.owner = some client then some { s with emulDatWd := be.setWidth 32 } else none
  | .start client op addr => if s.owner = some client then startOp op addr s else none
  | .advance client => if s.owner = some client then advanceOp s else none
  | .probe => advanceProbe s

/-- The cached offset is that of the register, and the word asked for is reached. -/
def Access.Right (a : Access) : Prop :=
  a.cached = a.window ∧ a.reached = a.addr &&& WBM_ADD_MASK

instance (a : Access) : Decidable a.Right := inferInstanceAs (Decidable (_ ∧ _))

/-- The step does no harm: when `init_ctrl_reg` clears the window, the cached offset
    is zero, or an operation is about to write both. -/
def Harmless (s : Bridge) : Act → Prop
  | .probe =>
      match s.probe, s.phase with
      | .dataWidthCleared, .idle => s.windowOffset = 0
      | .dataWidthCleared, .missed _ _ => True
      | .dataWidthCleared, .moved _ addr => windowOf addr = 0
      | .dataWidthCleared, .ready _ _ => s.windowOffset = 0
      | _, _ => True
  | _ => True

/-! ## Addresses -/

/-- Window and place make up the word. -/
theorem windowOf_add_lowOf (addr : BitVec 32) :
    windowOf addr + lowOf addr = addr &&& WBM_ADD_MASK := by
  have hmask : WINDOW_HIGH ||| WINDOW_LOW = WBM_ADD_MASK := by decide
  rw [windowOf, lowOf, and_add_and _ _ _ (by decide), hmask, BitVec.and_assoc, BitVec.and_self]

/-- A window is its own window. -/
theorem windowOf_windowOf (addr : BitVec 32) : windowOf (windowOf addr) = windowOf addr := by
  have hmask : WINDOW_HIGH &&& WBM_ADD_MASK = WINDOW_HIGH := by decide
  rw [windowOf, windowOf, BitVec.and_assoc (addr &&& WBM_ADD_MASK), hmask,
    BitVec.and_assoc (addr &&& WBM_ADD_MASK), BitVec.and_self]

/-! ## What a run keeps -/

/-- Where the register and the cached offset agree. -/
def Agree (s : Bridge) : Prop :=
  match s.phase with
  | .idle => s.windowOffsetLow = s.windowOffset
  | .missed _ _ => True
  | .moved _ addr => s.windowOffsetLow = windowOf addr
  | .ready _ addr => s.windowOffsetLow = windowOf addr ∧ s.windowOffset = windowOf addr

/-- The invariant of the runs without harm. -/
structure Synced (s : Bridge) : Prop where
  right : ∀ a ∈ s.accesses, a.Right
  agree : Agree s

/-- What holds whatever the probe does. -/
structure Cached (s : Bridge) : Prop where
  window : windowOf s.windowOffset = s.windowOffset
  owned : s.owner = none → s.phase = .idle
  ready : ∀ op addr, s.phase = .ready op addr → s.windowOffset = windowOf addr

/-- In the beginning the register and the offset agree. -/
theorem synced_start : Synced Bridge.start := by
  constructor
  · intro a ha
    cases ha
  · rfl

/-- In the beginning no operation is under way. -/
theorem cached_start : Cached Bridge.start := by
  constructor
  · decide
  · intro _
    rfl
  · intro op addr h
    cases h

variable {s s' : Bridge}

/-- An access that finds register and cached offset in its window is right. -/
theorem right_of_agree {op : Op} {addr window cached : BitVec 32} (hw : window = windowOf addr)
    (hc : cached = windowOf addr) :
    (⟨op, addr, window, cached, window + lowOf addr⟩ : Access).Right := by
  constructor
  · exact hc.trans hw.symm
  · show window + lowOf addr = _
    rw [hw, windowOf_add_lowOf]

/-- Taking or giving back the mutex touches neither register nor cached offset. -/
theorem wbCycle_frame {client : Nat} {on : Bool} (hs : wbCycle client on s = some s') :
    ∃ o c, s' = { s with owner := o, ctrl := c } ∧ (o = none → s.phase = .idle) := by
  rw [wbCycle] at hs
  split at hs
  · split at hs
    · cases hs
      exact ⟨_, _, rfl, fun hnone => by cases hnone⟩
    · cases hs
  · split at hs
    · next hphase =>
      split at hs
      · cases hs
        exact ⟨_, _, rfl, fun _ => hphase⟩
      · cases hs
    · cases hs

/-- An operation that begins keeps them so, and so do each of its accesses and an access of
    the probe that changes nothing. -/
theorem Synced.startOp (h : Synced s) {op : Op} {addr : BitVec 32}
    (hs : startOp op addr s = some s') : Synced s' := by
  have hagree := h.agree
  rw [VmeWindow.startOp] at hs
  split at hs
  · next hidle =>
    rw [Agree, hidle] at hagree
    split at hs
    · cases hs
      exact ⟨h.right, trivial⟩
    · next heq =>
      cases hs
      exact ⟨h.right, hagree.trans (not_not.mp heq).symm, (not_not.mp heq).symm⟩
  · cases hs

theorem Synced.advanceOp (h : Synced s) (hs : advanceOp s = some s') : Synced s' := by
  have hagree := h.agree
  rw [VmeWindow.advanceOp] at hs
  rw [Agree] at hagree
  split at hs
  · cases hs
  · cases hs
    exact ⟨h.right, rfl⟩
  · next hmoved =>
    rw [hmoved] at hagree
    cases hs
    exact ⟨h.right, hagree, rfl⟩
  · next hready =>
    rw [hready] at hagree
    cases hs
    refine ⟨?_, hagree.1.trans hagree.2.symm⟩
    intro a ha
    rcases List.mem_cons.mp ha with rfl | ha
    · exact right_of_agree hagree.1 hagree.2
    · exact h.right a ha

theorem Synced.advanceProbe (h : Synced s) (hharm : Harmless s .probe)
    (hs : advanceProbe s = some s') : Synced s' := by
  have hagree := h.agree
  rw [VmeWindow.advanceProbe] at hs
  rw [Harmless] at hharm
  split at hs
  · cases hs
    exact ⟨h.right, hagree⟩
  · cases hs
    exact ⟨h.right, hagree⟩
  · next hprobe =>
    cases hs
    refine ⟨h.right, ?_⟩
    rw [hprobe] at hharm
    rw [Agree] at hagree ⊢
    cases hphase : s.phase with
    | idle =>
        rw [hphase] at hharm
        exact hharm.symm
    | missed op addr => trivial
    | moved op addr =>
        rw [hphase] at hharm
        exact hharm.symm
    | ready op addr =>
        rw [hphase] at hharm hagree
        exact ⟨hharm.symm.trans hagree.2, hagree.2⟩
  · cases hs
    exact ⟨h.right, hagree⟩
  · cases hs

/-- The probe does not look at what is kept. -/
theorem advanceProbe_frame (hs : advanceProbe s = some s') :
    s'.windowOffset = s.windowOffset ∧ s'.owner = s.owner ∧ s'.phase = s.phase := by
  rw [advanceProbe] at hs
  split at hs
  · cases hs
    exact ⟨rfl, rfl, rfl⟩
  · cases hs
    exact ⟨rfl, rfl, rfl⟩
  · cases hs
    exact ⟨rfl, rfl, rfl⟩
  · cases hs
    exact ⟨rfl, rfl, rfl⟩
  · cases hs

/-- A step without harm keeps register and cached offset in agreement. -/
theorem synced_step (h : Synced s) (act : Act) (hharm : Harmless s act)
    (hs : step s act = some s') : Synced s' := by
  cases act with
  | cycle client on =>
      obtain ⟨o, c, rfl, -⟩ := wbCycle_frame hs
      exact ⟨h.right, h.agree⟩
  | byteenable client be =>
      obtain ⟨-, hs⟩ := Option.ite_none_right_eq_some.mp hs
      cases hs
      exact ⟨h.right, h.agree⟩
  | start client op addr => exact h.startOp (Option.ite_none_right_eq_some.mp hs).2
  | advance client => exact h.advanceOp (Option.ite_none_right_eq_some.mp hs).2
  | probe => exact h.advanceProbe hharm hs

/-- The cached offset is a window, and an operation belongs to a client. -/
theorem cached_step (h : Cached s) (act : Act) (hs : step s act = some s') : Cached s' := by
  cases act with
  | cycle client on =>
      obtain ⟨o, c, rfl, hidle⟩ := wbCycle_frame hs
      exact ⟨h.window, hidle, h.ready⟩
  | byteenable client be =>
      obtain ⟨-, hs⟩ := Option.ite_none_right_eq_some.mp hs
      cases hs
      exact ⟨h.window, h.owned, h.ready⟩
  | start client op addr =>
      obtain ⟨howner, hs⟩ := Option.ite_none_right_eq_some.mp hs
      have howned : s.owner ≠ none := by
        rw [howner]
        exact Option.some_ne_none _
      rw [startOp] at hs
      split at hs
      · split at hs
        · cases hs
          exact ⟨h.window, fun hnone => absurd hnone howned, fun _ _ hp => by cases hp⟩
        · next heq =>
          cases hs
          refine ⟨h.window, fun hnone => absurd hnone howned, ?_⟩
          intro op' addr' hp
          cases hp
          exact (not_not.mp heq).symm
      · cases hs
  | advance client =>
      obtain ⟨howner, hs⟩ := Option.ite_none_right_eq_some.mp hs
      have howned : s.owner ≠ none := by
        rw [howner]
        exact Option.some_ne_none _
      rw [advanceOp] at hs
      split at hs
      · cases hs
      · cases hs
        exact ⟨h.window, fun hnone => absurd hnone howned, fun _ _ hp => by cases hp⟩
      · cases hs
        refine ⟨windowOf_windowOf _, fun hnone => absurd hnone howned, ?_⟩
        intro op' addr' hp
        cases hp
        rfl
      · cases hs
        exact ⟨h.window, fun _ => rfl, fun _ _ hp => by cases hp⟩
  | probe =>
      obtain ⟨hwindow, howner, hphase⟩ := advanceProbe_frame hs
      exact ⟨hwindow ▸ h.window, by rw [howner, hphase]; exact h.owned,
        by rw [hwindow, hphase]; exact h.ready⟩

/-! ## A window that is cleared behind the client's back -/

/-- The bridge after `init_ctrl_reg` has cleared the window. -/
theorem probe_clears (hs : step s .probe = some s') (hharm : ¬ Harmless s .probe) :
    s' = { s with windowOffsetLow := 0, probe := .windowCleared } := by
  rw [Harmless] at hharm
  change advanceProbe s = some s' at hs
  rw [advanceProbe] at hs
  cases hprobe : s.probe with
  | dataWidthCleared =>
      rw [hprobe] at hs
      exact (Option.some.inj hs).symm
  | registered =>
      rw [hprobe] at hharm
      exact absurd trivial hharm
  | irqRequested =>
      rw [hprobe] at hharm
      exact absurd trivial hharm
  | windowCleared =>
      rw [hprobe] at hharm
      exact absurd trivial hharm
  | done =>
      rw [hprobe] at hharm
      exact absurd trivial hharm

/-- An access with a cached offset that is not the register's goes wrong. -/
theorem advance_wrong {client : Nat} {op : Op} {addr : BitVec 32} (howner : s.owner = some client)
    (hphase : s.phase = .ready op addr) (hne : s.windowOffset ≠ s.windowOffsetLow) :
    ∃ t ∈ trace step s [.advance client], ∃ a ∈ t.behind.accesses, ¬ a.Right := by
  have hstep : step s (.advance client) = some { s with
      accesses := ⟨op, addr, s.windowOffsetLow, s.windowOffset, s.windowOffsetLow + lowOf addr⟩
        :: s.accesses
      phase := .idle } := by
    show (if s.owner = some client then advanceOp s else none) = _
    rw [if_pos howner, advanceOp, hphase]
  rw [trace, hstep]
  exact ⟨_, List.mem_cons_self, _, List.mem_cons_self, fun h => hne h.1⟩

/-- A step in front of a run that goes wrong. -/
theorem wrong_cons {act : Act} (hs : step s act = some s')
    (h : ∃ more, ∃ t ∈ trace step s' more, ∃ a ∈ t.behind.accesses, ¬ a.Right) :
    ∃ more, ∃ t ∈ trace step s more, ∃ a ∈ t.behind.accesses, ¬ a.Right := by
  obtain ⟨more, t, ht, hwrong⟩ := h
  refine ⟨act :: more, t, ?_, hwrong⟩
  rw [trace, hs]
  exact List.mem_cons_of_mem _ ht

/-- A client that holds the mutex reads the word at the start of the cached window. -/
theorem read_wrong {client : Nat} (howner : s.owner = some client) (hphase : s.phase = .idle)
    (hwindow : windowOf s.windowOffset = s.windowOffset) (hne : s.windowOffset ≠ s.windowOffsetLow) :
    ∃ more, ∃ t ∈ trace step s more, ∃ a ∈ t.behind.accesses, ¬ a.Right := by
  have hstart : step s (.start client .read s.windowOffset) =
      some { s with phase := .ready .read s.windowOffset } := by
    show (if s.owner = some client then startOp .read s.windowOffset s else none) = _
    rw [if_pos howner, startOp, hphase, if_neg (not_not.mpr hwindow)]
  exact wrong_cons hstart ⟨[.advance client], advance_wrong howner rfl hne⟩

/-- If the window is cleared at the wrong time, a client can be led astray. -/
theorem harmed (h : Cached s) (hharm : ¬ Harmless s .probe)
    (hs : step s .probe = some s') :
    ∃ more, ∃ t ∈ trace step s' more, ∃ a ∈ t.behind.accesses, ¬ a.Right := by
  have hclear := probe_clears hs hharm
  have hprobe : s.probe = .dataWidthCleared := by
    by_contra hne
    apply hharm
    rw [Harmless]
    cases hp : s.probe with
    | dataWidthCleared => exact absurd hp hne
    | registered => trivial
    | irqRequested => trivial
    | windowCleared => trivial
    | done => trivial
  obtain ⟨hwindow, howner, hphase⟩ := advanceProbe_frame hs
  have hlow : s'.windowOffsetLow = 0 := by rw [hclear]
  have hcached : windowOf s'.windowOffset = s'.windowOffset := by
    rw [hwindow]
    exact h.window
  have howned : s'.phase ≠ .idle → ∃ client, s'.owner = some client := by
    intro hbusy
    rw [howner]
    refine Option.ne_none_iff_exists'.mp fun hnone => hbusy ?_
    rw [hphase]
    exact h.owned hnone
  rw [Harmless, hprobe, ← hphase, ← hwindow] at hharm
  cases hp : s'.phase with
  | idle =>
      rw [hp] at hharm
      have hne : s'.windowOffset ≠ s'.windowOffsetLow := hlow ▸ hharm
      cases howner' : s'.owner with
      | some client => exact read_wrong howner' hp hcached hne
      | none =>
          have hcycle : step s' (.cycle 0 true) =
              some { s' with owner := some 0, ctrl := 0x80000000 + 0x40000000 } := by
            show wbCycle 0 true s' = _
            rw [wbCycle, if_pos rfl, howner']
          exact wrong_cons hcycle (read_wrong rfl hp hcached hne)
  | missed op addr =>
      rw [hp] at hharm
      exact absurd trivial hharm
  | moved op addr =>
      rw [hp] at hharm
      obtain ⟨client, howner'⟩ := howned (by rw [hp]; exact Phase.noConfusion)
      have hmove : step s' (.advance client) =
          some { s' with windowOffset := windowOf addr, phase := .ready op addr } := by
        show (if s'.owner = some client then advanceOp s' else none) = _
        rw [if_pos howner', advanceOp, hp]
      refine wrong_cons hmove ⟨[.advance client], advance_wrong howner' rfl ?_⟩
      exact hlow ▸ hharm
  | ready op addr =>
      rw [hp] at hharm
      obtain ⟨client, howner'⟩ := howned (by rw [hp]; exact Phase.noConfusion)
      exact ⟨[.advance client], advance_wrong howner' hp (hlow ▸ hharm)⟩

/-- **Every access reaches its word as long as `init_ctrl_reg` does not clear the
    window under a client.**  The register and the cached offset agree in every run
    in which the window is cleared while the cached offset is zero, or while an
    operation is about to write both; and from every other state in which it is
    cleared a client can be led to a wrong address. -/
theorem vme_window_cached (run : List Act) :
    ((∀ t ∈ trace step Bridge.start run, Harmless t.before t.act) →
      ∀ t ∈ trace step Bridge.start run, ∀ a ∈ t.behind.accesses, a.Right) ∧
    ∀ t ∈ trace step Bridge.start run, ¬ Harmless t.before t.act →
      ∃ more, ∃ t' ∈ trace step t.behind more, ∃ a ∈ t'.behind.accesses, ¬ a.Right := by
  constructor
  · intro hharm t ht
    exact (trace_kept (fun _ act _ h hharm hs => synced_step h act hharm hs) synced_start hharm t
      ht).2.right
  · intro t ht hharm
    have hcached := (trace_kept (C := fun _ _ => True) (fun _ act _ h _ hs => cached_step h act hs)
      cached_start (fun _ _ => trivial) t ht).1
    have hstep := step_of_mem_trace ht
    cases hact : t.act with
    | probe =>
        rw [hact] at hharm hstep
        exact harmed hcached hharm hstep
    | cycle client on =>
        rw [hact] at hharm
        exact absurd trivial hharm
    | byteenable client be =>
        rw [hact] at hharm
        exact absurd trivial hharm
    | start client op addr =>
        rw [hact] at hharm
        exact absurd trivial hharm
    | advance client =>
        rw [hact] at hharm
        exact absurd trivial hharm

/-- A client moves the window, `vme_probe` clears the register, and the client reads
    the next word of its window. -/
theorem vme_window_cleared :
    ∃ t ∈ trace step Bridge.start
      [.cycle 0 true, .start 0 (.write 5) 0x10000, .advance 0, .advance 0, .advance 0,
        .probe, .probe, .probe, .start 0 .read 0x10004, .advance 0],
      ∃ a ∈ t.behind.accesses, ¬ a.Right := by
  decide

end VmeWindow
