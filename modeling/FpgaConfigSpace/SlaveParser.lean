import FpgaConfigSpace.SlaveContext
import FpgaConfigSpace.MasterTransducer

/-! # The slave device as a parser of byte streams

    What user space tells the slave device, without the buffer: first four bytes
    that accept the probe, then Etherbone records that write to configuration
    space, each write to `WBA_ERR` being the answer to one request.  This is a
    `Framer` over the written byte stream whose output is the list of answers.

    The device needs to see `ahead` bytes behind a four-byte item before it
    consumes it.  `ahead = 1` is the device; `ahead = 0` is the parser that
    consumes every item as soon as it is complete, and `drain_eager` compares the
    two. -/

namespace WbSlaveParser

open BigEndian WbWishbone WbMaster WbTransducer Frames

/-- What the device has been told so far; a parser that failed stays failed. -/
structure ParserState where
  negotiated : Bool
  pendingErr : Nat
  data : Word
  failed : Bool
deriving DecidableEq

/-- An answer to the hardware. -/
structure Reply where
  err : Word
  data : Word
deriving DecidableEq

/-- A probe response for version 1 and 32-bit words. -/
def isProbeResponse (xs : List Byte) : Bool :=
  xs.getD 0 0 = 0x4E ∧ xs.getD 1 0 = 0x6F ∧ xs.getD 2 0 &&& 0x7 = 0x6 ∧
    xs.getD 3 0 &&& 0x44 = 0x44

/-- The writes of a record, in order: a value, or an answer with the value held. -/
def cfgWrites (increment : Word) : Word → List Word → ParserState → ParserState × List Reply
  | _, [], s => (s, [])
  | base, w :: ws, s =>
      if base = WBA_DATA then cfgWrites increment (base + increment) ws { s with data := w }
      else if base = WBA_ERR ∧ s.pendingErr ≠ 0 then
        let t := cfgWrites increment (base + increment) ws
          { s with pendingErr := s.pendingErr - 1 }
        (t.1, ⟨w &&& 1, s.data⟩ :: t.2)
      else ({ s with failed := true }, [])

/-- Execute a record: it must be a full write to the configuration space. -/
def cfgExec (r : EbRecord) (s : ParserState) : ParserState × List Reply :=
  if r.rcount ≠ 0 then ({ s with failed := true }, [])
  else if r.writes = [] then (s, [])
  else if r.be ≠ 0xf ∨ r.flags &&& ETHERBONE_WCA = 0 then ({ s with failed := true }, [])
  else cfgWrites r.increment r.base r.writes s

/-- Length of the item whose first four bytes are given. -/
def itemLen (s : ParserState) (xs : List Byte) : Nat :=
  if s.negotiated then recordLen (xs.getD 2 0) (xs.getD 3 0) else 4

/-- Length of the item at the head of the stream, once it can be consumed. -/
def slaveFrame (ahead : Nat) (s : ParserState) (xs : List Byte) : Option Nat :=
  if s.failed then none
  else if xs.length < 4 + ahead then none
  else if xs.length < itemLen s xs then none
  else some (itemLen s xs)

/-- Consume one item. -/
def slaveStep (s : ParserState) (xs : List Byte) : ParserState × List Reply :=
  if s.negotiated then cfgExec (EbRecord.ofBytes xs) s
  else ({ s with negotiated := isProbeResponse xs, failed := !isProbeResponse xs }, [])

/-- An item has four bytes at least. -/
theorem itemLen_ge (s : ParserState) (xs : List Byte) : 4 ≤ itemLen s xs := by
  rw [itemLen]
  split
  · exact recordLen_pos _ _
  · exact Nat.le_refl 4

/-- Its first four bytes say how long it is. -/
theorem itemLen_append {s : ParserState} {xs : List Byte} (h : 4 ≤ xs.length) (ys : List Byte) :
    itemLen s (xs ++ ys) = itemLen s xs := by
  rw [itemLen, itemLen, List.getD_append _ _ _ _ (by omega), List.getD_append _ _ _ _ (by omega)]

/-- When an item is consumed. -/
theorem slaveFrame_eq_some {ahead : Nat} {s : ParserState} {xs : List Byte} {k : Nat} :
    slaveFrame ahead s xs = some k ↔
      s.failed = false ∧ 4 + ahead ≤ xs.length ∧ k = itemLen s xs ∧ k ≤ xs.length := by
  rw [slaveFrame]
  constructor
  · intro h
    split at h
    · cases h
    · rename_i hf
      split at h
      · cases h
      · split at h
        · cases h
        · injection h with h
          exact ⟨Bool.eq_false_iff.mpr hf, by omega, h.symm, by omega⟩
  · rintro ⟨hf, hlen, rfl, hle⟩
    rw [if_neg (by rw [hf]; exact Bool.false_ne_true), if_neg (by omega), if_neg (by omega)]

/-- When an item is waited for. -/
theorem slaveFrame_eq_none {ahead : Nat} {s : ParserState} {xs : List Byte}
    (hf : s.failed = false) :
    slaveFrame ahead s xs = none ↔ xs.length < 4 + ahead ∨ xs.length < itemLen s xs := by
  rw [slaveFrame, if_neg (by rw [hf]; exact Bool.false_ne_true)]
  constructor
  · intro h
    split at h
    · exact .inl ‹_›
    · split at h
      · exact .inr ‹_›
      · cases h
  · intro h
    split
    · rfl
    · rw [if_pos (by omega)]

/-- **The reference parser.** -/
def slaveFramer (ahead : Nat) : Framer Byte ParserState Reply where
  frame := slaveFrame ahead
  step := slaveStep
  frame_pos h := by
    obtain ⟨_, _, rfl, _⟩ := slaveFrame_eq_some.mp h
    exact Nat.lt_of_lt_of_le (by decide) (itemLen_ge _ _)
  frame_le h := (slaveFrame_eq_some.mp h).2.2.2
  frame_append ys h := by
    obtain ⟨hf, hlen, hk, hle⟩ := slaveFrame_eq_some.mp h
    rw [slaveFrame_eq_some, itemLen_append (by omega), List.length_append]
    exact ⟨hf, by omega, hk, by omega⟩

/-! ## Waiting for the byte behind an item -/

/-- A record of four bytes has no writes and no reads. -/
theorem recordLen_eq_four {wcount rcount : Byte} (h : recordLen wcount rcount = 4) :
    wcount.toNat = 0 ∧ rcount = 0 := by
  rw [recordLen] at h
  refine ⟨by omega, BitVec.eq_of_toNat_eq ?_⟩
  show rcount.toNat = 0
  omega

/-- A record of four bytes does nothing. -/
theorem cfgExec_empty {xs : List Byte} (s : ParserState)
    (h : recordLen (xs.getD 2 0) (xs.getD 3 0) = 4) : cfgExec (EbRecord.ofBytes xs) s = (s, []) := by
  obtain ⟨hw, hr⟩ := recordLen_eq_four h
  rcases xs with _ | ⟨a, _ | ⟨b, _ | ⟨c, _ | ⟨d, rest⟩⟩⟩⟩
  · rfl
  · rfl
  · rfl
  · rfl
  · have hd : d = 0 := hr
    have hc : c.toNat = 0 := hw
    rw [EbRecord.ofBytes, cfgExec, EbRecord.ofWords]
    dsimp only
    rw [if_neg (by rw [hd]; exact fun h => h rfl), hc, List.take_zero, if_pos rfl]

/-- A four-byte item changes neither the count, nor the data, and answers nothing. -/
theorem slaveStep_short {s : ParserState} {xs : List Byte} (h : itemLen s xs = 4) :
    (slaveStep s xs).2 = [] ∧ (slaveStep s xs).1.pendingErr = s.pendingErr ∧
      (slaveStep s xs).1.data = s.data := by
  rw [slaveStep]
  rw [itemLen] at h
  split
  · rename_i hneg
    rw [if_pos hneg] at h
    rw [cfgExec_empty s h]
    exact ⟨rfl, rfl, rfl⟩
  · exact ⟨rfl, rfl, rfl⟩

/-- **The device and the eager parser** differ at most in a four-byte item that
    ends the stream: the device still holds it, the eager parser has consumed it.
    Answers, count and data are the same. -/
theorem drain_eager : ∀ (s : ParserState) (xs : List Byte),
    let l := drain (slaveFramer 1) s xs
    let e := drain (slaveFramer 0) s xs
    e.out = l.out ∧ e.state.pendingErr = l.state.pendingErr ∧ e.state.data = l.state.data ∧
      (e = l ∨ l.rest.length = 4 ∧ e.rest = [] ∧ e.state = (slaveStep l.state l.rest).1) := by
  refine drain_induction (slaveFramer 1) ?_ ?_
  · intro s xs h
    dsimp only
    rw [drain_of_none _ h]
    cases h0 : slaveFrame 0 s xs with
    | none =>
        rw [drain_of_none (slaveFramer 0) h0]
        exact ⟨rfl, rfl, rfl, .inl rfl⟩
    | some k =>
        -- exactly the four bytes of the item are there
        obtain ⟨hf, hlen, hk, hle⟩ := slaveFrame_eq_some.mp h0
        have hwait := (slaveFrame_eq_none hf).mp h
        have h4 : xs.length = 4 := by omega
        have hitem : itemLen s xs = 4 := by
          have := itemLen_ge s xs
          omega
        have hk4 : k = 4 := hk.trans hitem
        rw [drain_of_some (slaveFramer 0) h0, hk4, List.take_of_length_le (by omega),
          List.drop_of_length_le (by omega)]
        have hnil : ∀ s', drain (slaveFramer 0) s' [] = ⟨s', [], []⟩ := by
          intro s'
          refine drain_of_none _ ?_
          show slaveFrame 0 s' [] = none
          rw [slaveFrame]
          split
          · rfl
          · rfl
        rw [hnil]
        obtain ⟨hout, hpend, hdata⟩ := slaveStep_short hitem
        refine ⟨?_, hpend, hdata, .inr ⟨h4, rfl, rfl⟩⟩
        show (slaveStep s xs).2 ++ [] = []
        rw [hout]
        rfl
  · intro s xs k h ih
    have h0 : (slaveFramer 0).frame s xs = some k := by
      obtain ⟨hf, hlen, hk, hle⟩ := slaveFrame_eq_some.mp h
      exact slaveFrame_eq_some.mpr ⟨hf, by omega, hk, hle⟩
    dsimp only at ih ⊢
    rw [drain_of_some _ h, drain_of_some _ h0]
    obtain ⟨hout, hpend, hdata, hrest⟩ := ih
    refine ⟨congrArg (_ ++ ·) hout, hpend, hdata, ?_⟩
    rcases hrest with heq | hlast
    · left
      exact congrArg (fun d : Drained Byte ParserState Reply =>
        (⟨d.state, d.rest, (slaveStep s (xs.take k)).2 ++ d.out⟩ : Drained Byte ParserState Reply))
        heq
    · exact .inr hlast

end WbSlaveParser
