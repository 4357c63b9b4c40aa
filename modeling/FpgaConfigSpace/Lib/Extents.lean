import Mathlib.Data.List.Basic

/-! # Extents

    Something that is stored has a place and a size; a size of zero takes no byte.  An
    allocator that keeps the last byte in use counts from a first place on: what it ends with
    is a byte in use only if what ends last is not empty. -/

namespace Extents

/-- A position is in one of some extents. -/
def Used (ps : List (Nat × Nat)) (q : Nat) : Prop := ∃ p ∈ ps, p.1 ≤ q ∧ q < p.1 + p.2

/-- The last byte, as a running maximum: an empty extent ends in front of its place. -/
def lastIn (last : Nat) (ps : List (Nat × Nat)) : Nat :=
  ps.foldl (fun last p => max last (p.1 + p.2 - 1)) last

/-- What ends last is not empty. -/
def EndsFull (ps : List (Nat × Nat)) : Prop :=
  ∃ p ∈ ps, 0 < p.2 ∧ ∀ p' ∈ ps, p'.1 + p'.2 ≤ p.1 + p.2

theorem lastIn_cons (last : Nat) (p : Nat × Nat) (ps : List (Nat × Nat)) :
    lastIn last (p :: ps) = lastIn (max last (p.1 + p.2 - 1)) ps := rfl

/-- The last position is not before the one that was given. -/
theorem le_lastIn (ps : List (Nat × Nat)) : ∀ last : Nat, last ≤ lastIn last ps := by
  induction ps with
  | nil => exact fun last => Nat.le_refl last
  | cons p ps ih => exact fun last => Nat.le_trans (Nat.le_max_left _ _) (ih _)

/-- Nothing ends behind it. -/
theorem end_le_lastIn {ps : List (Nat × Nat)} : ∀ (last : Nat), ∀ p ∈ ps,
    p.1 + p.2 - 1 ≤ lastIn last ps := by
  induction ps with
  | nil => exact fun _ _ h => absurd h List.not_mem_nil
  | cons p ps ih =>
      intro last p' hp'
      rcases List.mem_cons.mp hp' with rfl | hp'
      · exact Nat.le_trans (Nat.le_max_right _ _) (le_lastIn ps _)
      · exact ih _ p' hp'

/-- It is the least that no extent goes beyond. -/
theorem lastIn_le {ps : List (Nat × Nat)} {n : Nat} : ∀ {last : Nat}, last ≤ n →
    (∀ p ∈ ps, p.1 + p.2 - 1 ≤ n) → lastIn last ps ≤ n := by
  induction ps with
  | nil => exact fun h _ => h
  | cons p ps ih =>
      intro last hlast h
      exact ih (Nat.max_le.mpr ⟨hlast, h p List.mem_cons_self⟩)
        fun p' hp' => h p' (List.mem_cons_of_mem p hp')

/-- **The running maximum is a byte in use exactly if what ends last is not empty.** -/
theorem used_lastIn_iff {ps : List (Nat × Nat)} {start : Nat} (hstart : ∀ p ∈ ps, start ≤ p.1) :
    Used ps (lastIn start ps) ↔ EndsFull ps := by
  constructor
  · rintro ⟨p, hp, _, hlt⟩
    have hle := end_le_lastIn start p hp
    refine ⟨p, hp, by omega, fun p' hp' => ?_⟩
    have hle' := end_le_lastIn start p' hp'
    omega
  · rintro ⟨p, hp, hfull, hends⟩
    have hplace := hstart p hp
    have hle := end_le_lastIn start p hp
    have hge : lastIn start ps ≤ p.1 + p.2 - 1 := by
      refine lastIn_le (by omega) fun p' hp' => ?_
      have hend := hends p' hp'
      omega
    exact ⟨p, hp, by omega, by omega⟩

end Extents
