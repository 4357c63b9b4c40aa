import Mathlib.Data.List.Basic

/-! # The first gap of an ascending list

    Keys are compared with `n`, `n + 1`, ... as long as they agree.  Over a
    strictly ascending list of keys the first disagreement is the least key that
    is not in the list, and the place where it stands is where the list has to be
    split to insert it. -/

namespace GapSearch

/-- How many keys agree with `n`, `n + 1`, ... -/
def filled : List Nat → Nat → Nat
  | [], _ => 0
  | k :: ks, n => if k = n then filled ks (n + 1) + 1 else 0

/-- The least key that is not in the list. -/
def LeastFree (ks : List Nat) (n : Nat) : Prop := n ∉ ks ∧ ∀ j, j < n → j ∈ ks

/-- The run of keys that agree are the numbers from `n` on. -/
theorem mem_take_filled (ks : List Nat) :
    ∀ n j, n ≤ j → j < n + filled ks n → j ∈ ks.take (filled ks n) := by
  induction ks with
  | nil =>
      intro n j hle hlt
      exact absurd hlt (Nat.not_lt.mpr hle)
  | cons k ks ih =>
      intro n j hle hlt
      rw [filled] at hlt ⊢
      by_cases hk : k = n
      · rw [if_pos hk] at hlt ⊢
        rw [List.take_succ_cons]
        rcases Nat.eq_or_lt_of_le hle with rfl | hgt
        · rw [hk]
          exact List.mem_cons_self
        · exact List.mem_cons_of_mem _ (ih (n + 1) j hgt (by omega))
      · rw [if_neg hk] at hlt
        exact absurd hlt (Nat.not_lt.mpr hle)

/-- Keys before the first gap are below it. -/
theorem lt_of_mem_take (ks : List Nat) :
    ∀ n k, k ∈ ks.take (filled ks n) → k < n + filled ks n := by
  induction ks with
  | nil =>
      intro n k h
      cases h
  | cons k₀ ks ih =>
      intro n k h
      rw [filled] at h ⊢
      by_cases hk : k₀ = n
      · rw [if_pos hk] at h ⊢
        rw [List.take_succ_cons] at h
        rcases List.mem_cons.mp h with rfl | h
        · omega
        · have := ih (n + 1) k h
          omega
      · rw [if_neg hk] at h
        cases h

/-- Keys behind the first gap are above it. -/
theorem lt_of_mem_drop {ks : List Nat} (hs : ks.Pairwise (· < ·)) :
    ∀ n, (∀ k ∈ ks, n ≤ k) → ∀ k ∈ ks.drop (filled ks n), n + filled ks n < k := by
  induction ks with
  | nil =>
      intro n _ k h
      rw [List.drop_nil] at h
      cases h
  | cons k₀ ks ih =>
      intro n hge k h
      obtain ⟨hlt, hs⟩ := List.pairwise_cons.mp hs
      rw [filled] at h ⊢
      by_cases hk : k₀ = n
      · rw [if_pos hk] at h ⊢
        rw [List.drop_succ_cons] at h
        have := ih hs (n + 1) (fun j hj => hk ▸ hlt j hj) k h
        omega
      · rw [if_neg hk] at h ⊢
        have hlt₀ : n < k₀ := Nat.lt_of_le_of_ne (hge k₀ List.mem_cons_self) (Ne.symm hk)
        rcases List.mem_cons.mp h with rfl | h
        · exact hlt₀
        · exact Nat.lt_trans hlt₀ (hlt k h)

/-- The first gap is the least free key. -/
theorem leastFree_filled {ks : List Nat} (hs : ks.Pairwise (· < ·)) :
    LeastFree ks (filled ks 0) := by
  constructor
  · intro hmem
    have hsplit : filled ks 0 ∈ ks.take (filled ks 0) ++ ks.drop (filled ks 0) := by
      rw [List.take_append_drop]
      exact hmem
    rcases List.mem_append.mp hsplit with h | h
    · have := lt_of_mem_take ks 0 _ h
      omega
    · have := lt_of_mem_drop hs 0 (fun k _ => Nat.zero_le k) _ h
      omega
  · intro j hj
    exact List.mem_of_mem_take (mem_take_filled ks 0 j (Nat.zero_le j) (by omega))

/-- The keys of an ascending list whose keys are below `n` fill all of it exactly
    when every key below `n` is there. -/
theorem filled_ge_iff {ks : List Nat} (hs : ks.Pairwise (· < ·)) (n : Nat) :
    n ≤ filled ks 0 ↔ ∀ j, j < n → j ∈ ks := by
  constructor
  · intro hn j hj
    exact (leastFree_filled hs).2 j (Nat.lt_of_lt_of_le hj hn)
  · intro hall
    by_contra hn
    exact (leastFree_filled hs).1 (hall _ (Nat.not_le.mp hn))

/-- The least free key belongs where the search stopped. -/
theorem pairwise_insert_filled {ks : List Nat} (hs : ks.Pairwise (· < ·)) :
    (ks.take (filled ks 0) ++ filled ks 0 :: ks.drop (filled ks 0)).Pairwise (· < ·) := by
  have hbefore : ∀ k ∈ ks.take (filled ks 0), k < filled ks 0 := by
    intro k hk
    have := lt_of_mem_take ks 0 k hk
    rwa [Nat.zero_add] at this
  have hbehind : ∀ k ∈ ks.drop (filled ks 0), filled ks 0 < k := by
    intro k hk
    have := lt_of_mem_drop hs 0 (fun k _ => Nat.zero_le k) k hk
    rwa [Nat.zero_add] at this
  refine List.pairwise_append.mpr ⟨hs.sublist (List.take_sublist _ _), ?_, ?_⟩
  · exact List.pairwise_cons.mpr ⟨hbehind, hs.sublist (List.drop_sublist _ _)⟩
  · intro a ha b hb
    rcases List.mem_cons.mp hb with rfl | hb
    · exact hbefore a ha
    · exact Nat.lt_trans (hbefore a ha) (hbehind b hb)

end GapSearch
