import Mathlib.Order.WellFounded

/-! # Counters that count down lexicographically

    A process with `n` counters in which every step lowers one counter and leaves
    those before it alone, while those after it may be set to anything, comes to an
    end: `below_wf`, in the form of an induction rule `below_induction`. -/

namespace Countdown

/-- Of the first `n` counters, one is lower and those before it are the same. -/
def Below (n : Nat) (c' c : Nat → Nat) : Prop :=
  ∃ k, k < n ∧ (∀ i, i < k → c' i = c i) ∧ c' k < c k

/-- The first counter is lower, or it is the same and the others are below. -/
theorem below_succ {n : Nat} {c' c : Nat → Nat} (h : Below (n + 1) c' c) :
    c' 0 < c 0 ∨ (c' 0 = c 0 ∧ Below n (fun i => c' (i + 1)) (fun i => c (i + 1))) := by
  obtain ⟨k, hk, hsame, hlow⟩ := h
  cases k with
  | zero => exact Or.inl hlow
  | succ k =>
      refine Or.inr ⟨hsame 0 (Nat.zero_lt_succ k), k, Nat.lt_of_succ_lt_succ hk, ?_, hlow⟩
      intro i hi
      exact hsame (i + 1) (Nat.succ_lt_succ hi)

theorem below_wf : ∀ n : Nat, WellFounded (Below n) := by
  intro n
  induction n with
  | zero =>
      refine ⟨fun c => ⟨c, ?_⟩⟩
      rintro c' ⟨k, hk, _⟩
      exact absurd hk (Nat.not_lt_zero k)
  | succ n ih =>
      have hlex := WellFounded.prod_lex Nat.lt_wfRel.wf ih
      refine Subrelation.wf ?_ (InvImage.wf (fun c => (c 0, fun i => c (i + 1))) hlex)
      intro c' c h
      rcases below_succ h with h | ⟨h0, h⟩
      · exact Prod.Lex.left _ _ h
      · exact Prod.lex_def.mpr (Or.inr ⟨h0, h⟩)

/-- Induction along a process whose steps lower its counters. -/
theorem below_induction {α : Type} {P : α → Prop} (n : Nat) (counters : α → Nat → Nat)
    (step : ∀ a, (∀ b, Below n (counters b) (counters a) → P b) → P a) (a : α) : P a :=
  (InvImage.wf counters (below_wf n)).induction a step

end Countdown
