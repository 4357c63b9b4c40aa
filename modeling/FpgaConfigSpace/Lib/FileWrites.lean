import Mathlib.Data.List.Basic

/-! # Writes to a file

    A file that is written piece by piece: every write has a position and its data,
    and a byte of the file is what was written there last.  `Covers` is the set of
    positions that some write of a list touches; two lists are apart if they touch
    no position in common, and a list whose writes are pairwise apart touches no
    position twice. -/

namespace FileWrites

variable {α : Type}

/-- One write: where it starts, and what it writes. -/
structure Write (α : Type) where
  pos : Nat
  data : List α

/-- The write touches a position. -/
def Write.covers (w : Write α) (p : Nat) : Prop := w.pos ≤ p ∧ p < w.pos + w.data.length

/-- What the write leaves at a position. -/
def Write.at? (w : Write α) (p : Nat) : Option α := if w.pos ≤ p then w.data[p - w.pos]? else none

/-- What was written last at a position, if anything. -/
def lastAt (p : Nat) : List (Write α) → Option α
  | [] => none
  | w :: ws => (lastAt p ws).or (w.at? p)

/-- The length of the file after some writes. -/
def fileSize : List (Write α) → Nat
  | [] => 0
  | w :: ws => if w.data = [] then fileSize ws else max (w.pos + w.data.length) (fileSize ws)

/-- A list of writes touches a position. -/
def Covers (ws : List (Write α)) (p : Nat) : Prop := ∃ w ∈ ws, w.covers p

/-- No position is touched by both. -/
def Write.Apart (v w : Write α) : Prop := ∀ p, v.covers p → ¬ w.covers p

/-- Pieces written one behind the other. -/
def consecutive : Nat → List (List α) → List (Write α)
  | _, [] => []
  | pos, data :: pieces => ⟨pos, data⟩ :: consecutive (pos + data.length) pieces

/-! ## Positions -/

@[simp] theorem covers_nil (p : Nat) : ¬ Covers ([] : List (Write α)) p := by
  rintro ⟨w, hw, _⟩
  cases hw

/-- A position is written by the first write or by a later one. -/
theorem covers_cons (w : Write α) (ws : List (Write α)) (p : Nat) :
    Covers (w :: ws) p ↔ w.covers p ∨ Covers ws p := by
  constructor
  · rintro ⟨v, hv, hp⟩
    rcases List.mem_cons.mp hv with rfl | hv
    · exact Or.inl hp
    · exact Or.inr ⟨v, hv, hp⟩
  · rintro (hp | ⟨v, hv, hp⟩)
    · exact ⟨w, List.mem_cons_self, hp⟩
    · exact ⟨v, List.mem_cons_of_mem w hv, hp⟩

/-- A position is written by one list or by the other. -/
theorem covers_append (vs ws : List (Write α)) (p : Nat) :
    Covers (vs ++ ws) p ↔ Covers vs p ∨ Covers ws p := by
  induction vs with
  | nil => simp
  | cons v vs ih => rw [List.cons_append, covers_cons, covers_cons, ih, or_assoc]

/-- Pieces one behind the other cover their bytes. -/
theorem covers_consecutive (pieces : List (List α)) : ∀ (pos p : Nat),
    Covers (consecutive pos pieces) p ↔ pos ≤ p ∧ p < pos + pieces.flatten.length := by
  induction pieces with
  | nil =>
      intro pos p
      rw [consecutive, List.flatten_nil, List.length_nil]
      constructor
      · intro h
        exact absurd h (covers_nil p)
      · intro h
        omega
  | cons data pieces ih =>
      intro pos p
      have hfirst : (⟨pos, data⟩ : Write α).covers p ↔ pos ≤ p ∧ p < pos + data.length := Iff.rfl
      rw [consecutive, covers_cons, ih, hfirst, List.flatten_cons, List.length_append]
      omega

/-! ## The last write -/

theorem Write.at?_of_not_covers {w : Write α} {p : Nat} (h : ¬ w.covers p) : w.at? p = none := by
  rw [Write.at?]
  by_cases hp : w.pos ≤ p
  · rw [if_pos hp, List.getElem?_eq_none]
    have : ¬ p < w.pos + w.data.length := fun hlt => h ⟨hp, hlt⟩
    omega
  · exact if_neg hp

/-- Where nothing is written there is no last byte. -/
theorem lastAt_of_not_covers {ws : List (Write α)} {p : Nat} (h : ¬ Covers ws p) :
    lastAt p ws = none := by
  induction ws with
  | nil => rfl
  | cons w ws ih =>
      rw [covers_cons] at h
      rw [lastAt, ih fun hws => h (Or.inr hws), Write.at?_of_not_covers fun hw => h (Or.inl hw)]
      rfl

/-- The last byte is that of the later writes, if there is one. -/
theorem lastAt_append (vs ws : List (Write α)) (p : Nat) :
    lastAt p (vs ++ ws) = (lastAt p ws).or (lastAt p vs) := by
  induction vs with
  | nil => simp [lastAt]
  | cons v vs ih => rw [List.cons_append, lastAt, lastAt, ih, Option.or_assoc]

/-- What is written later elsewhere does not count. -/
theorem lastAt_append_left {vs ws : List (Write α)} {p : Nat} (h : ¬ Covers ws p) :
    lastAt p (vs ++ ws) = lastAt p vs := by
  rw [lastAt_append, lastAt_of_not_covers h, Option.none_or]

/-- Pieces written one behind the other are read back as a whole. -/
theorem lastAt_consecutive (pieces : List (List α)) : ∀ {pos p : Nat}, pos ≤ p →
    lastAt p (consecutive pos pieces) = pieces.flatten[p - pos]? := by
  induction pieces with
  | nil =>
      intro pos p _
      rfl
  | cons data pieces ih =>
      intro pos p hp
      rw [consecutive, lastAt, List.flatten_cons, Write.at?, if_pos hp]
      by_cases hin : pos + data.length ≤ p
      · have hsub : p - pos - data.length = p - (pos + data.length) := by omega
        rw [ih hin, List.getElem?_append_right (by omega), hsub,
          List.getElem?_eq_none (show data.length ≤ p - pos by omega), Option.or_none]
      · have hrest : ¬ Covers (consecutive (pos + data.length) pieces) p := by
          rw [covers_consecutive]
          omega
        rw [lastAt_of_not_covers hrest, Option.none_or, List.getElem?_append_left (by omega)]

/-- The last write at a position wins over all that came before. -/
theorem lastAt_some_append {vs ws : List (Write α)} {p : Nat} {a : α} (h : lastAt p ws = some a) :
    lastAt p (vs ++ ws) = some a := by
  rw [lastAt_append, h, Option.some_or]

/-- What was written is in the file. -/
theorem lt_fileSize {ws : List (Write α)} {p : Nat} (h : Covers ws p) : p < fileSize ws := by
  induction ws with
  | nil => exact absurd h (covers_nil p)
  | cons w ws ih =>
      rw [covers_cons] at h
      rw [fileSize]
      by_cases hw : w.data = []
      · rw [if_pos hw]
        rcases h with h | h
        · rw [Write.covers, hw, List.length_nil] at h
          omega
        · exact ih h
      · rw [if_neg hw]
        rcases h with h | h
        · exact Nat.lt_of_lt_of_le h.2 (Nat.le_max_left _ _)
        · exact Nat.lt_of_lt_of_le (ih h) (Nat.le_max_right _ _)

/-- The file ends where the longer one ends. -/
theorem fileSize_append (vs ws : List (Write α)) :
    fileSize (vs ++ ws) = max (fileSize vs) (fileSize ws) := by
  induction vs with
  | nil => exact (Nat.zero_max _).symm
  | cons v vs ih =>
      rw [List.cons_append, fileSize, fileSize, ih]
      split
      · rfl
      · exact (Nat.max_assoc _ _ _).symm

/-- The file ends where the last position is that was written. -/
theorem fileSize_le_iff {ws : List (Write α)} {n : Nat} :
    fileSize ws ≤ n ↔ ∀ p, Covers ws p → p < n := by
  constructor
  · exact fun h p hp => Nat.lt_of_lt_of_le (lt_fileSize hp) h
  · intro h
    induction ws with
    | nil => exact Nat.zero_le n
    | cons w ws ih =>
        have hrest := ih fun p hp => h p ((covers_cons w ws p).mpr (Or.inr hp))
        rw [fileSize]
        split
        · exact hrest
        · next hw =>
          have hlen := List.length_pos_of_ne_nil hw
          have hlast := h (w.pos + w.data.length - 1) ((covers_cons w ws _).mpr
            (Or.inl ⟨by omega, by omega⟩))
          exact Nat.max_le.mpr ⟨by omega, hrest⟩

/-! ## No position twice -/

/-- Two lists of writes are pairwise apart if each is and they share no position. -/
theorem pairwise_append (vs ws : List (Write α)) :
    (vs ++ ws).Pairwise Write.Apart ↔
      vs.Pairwise Write.Apart ∧ ws.Pairwise Write.Apart ∧ ∀ p, Covers vs p → ¬ Covers ws p := by
  rw [List.pairwise_append]
  refine and_congr_right fun _ => and_congr_right fun _ => ?_
  constructor
  · rintro h p ⟨v, hv, hvp⟩ ⟨w, hw, hwp⟩
    exact h v hv w hw p hvp hwp
  · intro h v hv w hw p hvp hwp
    exact h p ⟨v, hv, hvp⟩ ⟨w, hw, hwp⟩

/-- Pieces one behind the other don't overlap. -/
theorem pairwise_consecutive (pieces : List (List α)) : ∀ pos : Nat,
    (consecutive pos pieces).Pairwise Write.Apart := by
  induction pieces with
  | nil => exact fun _ => List.Pairwise.nil
  | cons data pieces ih =>
      intro pos
      rw [consecutive, List.pairwise_cons]
      refine ⟨?_, ih _⟩
      intro w hw p hp hwp
      have hcov := (covers_consecutive pieces _ p).mp ⟨w, hw, hwp⟩
      exact absurd hp.2 (Nat.not_lt.mpr hcov.1)

/-- Where no position is touched twice, any part of the writes is read back. -/
theorem lastAt_infix {vs ws : List (Write α)} (hpart : vs <:+: ws)
    (hapart : ws.Pairwise Write.Apart) {p : Nat} {a : α} (h : lastAt p vs = some a) :
    lastAt p ws = some a := by
  obtain ⟨front, behind, rfl⟩ := hpart
  have hcovers : Covers vs p := by
    by_contra hnot
    rw [lastAt_of_not_covers hnot] at h
    cases h
  have hclear := ((pairwise_append (front ++ vs) behind).mp hapart).2.2
  rw [lastAt_append_left (hclear p ((covers_append _ _ _).mpr (Or.inr hcovers)))]
  exact lastAt_some_append h

end FileWrites
