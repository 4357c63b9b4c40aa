import FpgaConfigSpace.MasterRuns

/-! # Bus cycles of the master device

    The back ends take a mutex when a cycle is opened and drop it when it is
    closed, so the calls of one context must bracket every bus access in a cycle
    and balance the two.  The open or closed state lives in the context from one
    system call to the next; `CycleInv` ties it to the calls made so far. -/

namespace WbMasterCycles

open BigEndian WbWishbone WbMaster WbTransducer WbMasterRing WbMasterRuns Frames

/-- The calls allowed inside a cycle. -/
def IsAccess : WopsCall → Prop
  | .byteenable _ => True
  | .write _ _ => True
  | .read _ _ => True
  | .readCfg _ _ => True
  | _ => False

/-- An open cycle: `cycle(1)`, a byte enable, and further accesses. -/
def IsOpenBlock (b : List WopsCall) : Prop :=
  ∃ be body, b = .cycle true :: .byteenable be :: body ∧ ∀ c ∈ body, IsAccess c

/-- A cycle from `cycle(1)` to `cycle(0)`. -/
def IsBlock (b : List WopsCall) : Prop := ∃ o, IsOpenBlock o ∧ b = o ++ [.cycle false]

/-- A sequence of complete cycles. -/
def Balanced (trace : List WopsCall) : Prop :=
  ∃ blocks : List (List WopsCall), trace = blocks.flatten ∧ ∀ b ∈ blocks, IsBlock b

/-- The calls so far are complete cycles, followed by an open one exactly in the
    state `cycle`. -/
def CycleInv (state : MasterState) (trace : List WopsCall) : Prop :=
  if state = .cycle then ∃ closed o, trace = closed ++ o ∧ Balanced closed ∧ IsOpenBlock o
  else Balanced trace

theorem balanced_nil : Balanced [] := ⟨[], rfl, fun _ h => absurd h List.not_mem_nil⟩

/-- One more complete cycle. -/
theorem Balanced.append_block {trace b : List WopsCall} (h : Balanced trace) (hb : IsBlock b) :
    Balanced (trace ++ b) := by
  obtain ⟨blocks, rfl, hblocks⟩ := h
  refine ⟨blocks ++ [b], by simp, ?_⟩
  intro c hc
  rcases List.mem_append.mp hc with hmem | hmem
  · exact hblocks c hmem
  · rw [List.mem_singleton.mp hmem]
    exact hb

variable {σ : Type} (wops : WishboneOperations σ)

/-- `bus'` is `bus` after some accesses. -/
def Accessed (bus bus' : Bus σ) : Prop :=
  ∃ calls, bus'.trace = bus.trace ++ calls ∧ ∀ c ∈ calls, IsAccess c

theorem Accessed.refl (bus : Bus σ) : Accessed bus bus :=
  ⟨[], by simp, fun _ h => absurd h List.not_mem_nil⟩

/-- Accesses and accesses. -/
theorem Accessed.trans {bus bus' bus'' : Bus σ} (h1 : Accessed bus bus')
    (h2 : Accessed bus' bus'') : Accessed bus bus'' := by
  obtain ⟨c1, ht1, ha1⟩ := h1
  obtain ⟨c2, ht2, ha2⟩ := h2
  refine ⟨c1 ++ c2, by rw [ht2, ht1, List.append_assoc], ?_⟩
  intro c hc
  rcases List.mem_append.mp hc with hmem | hmem
  · exact ha1 c hmem
  · exact ha2 c hmem

/-- A single access. -/
theorem Accessed.single {bus bus' : Bus σ} {c : WopsCall} (h : bus'.trace = bus.trace ++ [c])
    (hc : IsAccess c) : Accessed bus bus' := by
  refine ⟨[c], h, ?_⟩
  intro d hd
  rw [List.mem_singleton.mp hd]
  exact hc

/-- The writes of a record are accesses, and so are its reads. -/
theorem busWrites_accessed (inc : Word) (ds : List Word) :
    ∀ (base : Word) (bus : Bus σ), Accessed bus (busWrites wops inc base ds bus) := by
  induction ds with
  | nil => intro base bus; exact Accessed.refl bus
  | cons d ds ih =>
      intro base bus
      exact (Accessed.single (c := .write base d) rfl trivial).trans
        (ih (base + inc) (bus.write wops base d))

theorem busReads_accessed (cfg : Bool) (as : List Word) :
    ∀ bus : Bus σ, Accessed bus (busReads wops cfg as bus).2 := by
  induction as with
  | nil => intro bus; exact Accessed.refl bus
  | cons a as ih =>
      intro bus
      rw [busReads]
      cases cfg with
      | true => exact (Accessed.single (c := .readCfg a _) rfl trivial).trans (ih _)
      | false => exact (Accessed.single (c := .read a _) rfl trivial).trans (ih _)

/-- The writes and reads of a record are accesses. -/
theorem readBack_accessed (r : EbRecord) (s : MasterState × Bus σ) :
    Accessed (r.opened wops s) (r.readBack wops s).2 := by
  have hw : Accessed (r.opened wops s) (r.written wops s) := by
    unfold EbRecord.written
    split
    · exact Accessed.refl _
    · exact busWrites_accessed wops _ _ _ _
  exact hw.trans (busReads_accessed wops _ _ _)

/-- Once a record's byte enable is set, a cycle is open. -/
theorem opened_block (r : EbRecord) (s : MasterState × Bus σ) (hlive : s.1 ≠ .header)
    (h : CycleInv s.1 s.2.trace) :
    ∃ closed o, (r.opened wops s).trace = closed ++ o ∧ Balanced closed ∧ IsOpenBlock o := by
  obtain ⟨state, bus⟩ := s
  cases state with
  | header => exact absurd rfl hlive
  | idle =>
      refine ⟨bus.trace, [.cycle true, .byteenable r.be], ?_, h, r.be, [], rfl,
        fun _ h => absurd h List.not_mem_nil⟩
      show bus.trace ++ [.cycle true] ++ [.byteenable r.be] = _
      rw [List.append_assoc]
      rfl
  | cycle =>
      obtain ⟨closed, o, htr, hbal, be, body, rfl, hbody⟩ := h
      refine ⟨closed, .cycle true :: .byteenable be :: (body ++ [.byteenable r.be]), ?_, hbal, be,
        _, rfl, ?_⟩
      · show bus.trace ++ [.byteenable r.be] = _
        rw [htr, List.append_assoc]
        rfl
      · intro c hc
        rcases List.mem_append.mp hc with hmem | hmem
        · exact hbody c hmem
        · rw [List.mem_singleton.mp hmem]
          exact trivial

/-- **One record keeps the cycles balanced.** -/
theorem exec_cycleInv (r : EbRecord) (s : MasterState × Bus σ) (hlive : s.1 ≠ .header)
    (h : CycleInv s.1 s.2.trace) :
    CycleInv (r.exec wops s).1.1 (r.exec wops s).1.2.trace := by
  obtain ⟨closed, o, htr, hbal, be, body, rfl, hbody⟩ := opened_block wops r s hlive h
  obtain ⟨calls, hcalls, hacc⟩ := readBack_accessed wops r s
  -- the open cycle, extended by the accesses of this record
  have hopen : IsOpenBlock (.cycle true :: .byteenable be :: (body ++ calls)) := by
    refine ⟨be, body ++ calls, rfl, ?_⟩
    intro c hc
    rcases List.mem_append.mp hc with hmem | hmem
    · exact hbody c hmem
    · exact hacc c hmem
  have htrace : (r.readBack wops s).2.trace =
      closed ++ (.cycle true :: .byteenable be :: (body ++ calls)) := by
    rw [hcalls, htr, List.append_assoc]
    rfl
  unfold EbRecord.exec
  dsimp only
  by_cases hcyc : r.flags &&& ETHERBONE_CYC ≠ 0
  · rw [if_pos hcyc]
    show Balanced ((r.readBack wops s).2.trace ++ [.cycle false])
    rw [htrace, List.append_assoc]
    exact hbal.append_block ⟨_, hopen, rfl⟩
  · rw [if_neg hcyc]
    exact ⟨closed, _, htrace, hbal, hopen⟩

/-- **The transducer keeps the cycles balanced.** -/
theorem transduce_cycleInv (st : σ) (W : List Byte) :
    CycleInv (transduce wops ⟨st, []⟩ W).state.1 (transduce wops ⟨st, []⟩ W).state.2.trace := by
  refine drain_invariant (masterFramer wops) (P := fun s => CycleInv s.1 s.2.trace) ?_ _ _
    balanced_nil
  intro s xs k hs _
  show CycleInv (masterStep wops s _).1.1 (masterStep wops s _).1.2.trace
  unfold masterStep
  by_cases hhdr : s.1 = .header
  · rw [if_pos hhdr]
    rw [hhdr] at hs
    exact hs
  · rw [if_neg hhdr]
    exact exec_cycleInv wops _ s hhdr hs

/-- **Every run brackets its accesses in balanced cycles**: at any point the calls
    are complete cycles and at most one open one, and after the release all of
    them are complete. -/
theorem master_cycles_balanced (mem : EtherboneMasterContext) (st : σ)
    (calls : List MasterCall) :
    let run := (MasterRun.opened mem ⟨st, []⟩).exec wops calls
    CycleInv run.ctx.state run.bus.trace ∧
    Balanced (charMasterRelease wops run.ctx run.bus).trace := by
  intro run
  have h : RunInv wops ⟨st, []⟩ run := runInv_exec mem ⟨st, []⟩ calls
  have hinv : CycleInv run.ctx.state run.bus.trace := by
    have := transduce_cycleInv wops st run.accepted
    rw [← h.rep.state] at this
    exact this
  refine ⟨hinv, ?_⟩
  unfold charMasterRelease
  by_cases hcyc : run.ctx.state = .cycle
  · rw [if_pos hcyc]
    rw [CycleInv, if_pos hcyc] at hinv
    obtain ⟨closed, o, htr, hbal, hopen⟩ := hinv
    show Balanced (run.bus.trace ++ [.cycle false])
    rw [htr, List.append_assoc]
    exact hbal.append_block ⟨o, hopen, rfl⟩
  · rw [if_neg hcyc]
    rw [CycleInv, if_neg hcyc] at hinv
    exact hinv

end WbMasterCycles
