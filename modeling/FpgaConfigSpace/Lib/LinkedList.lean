import Mathlib.Data.List.Basic
import Mathlib.Data.List.TakeWhile
import Mathlib.Logic.Function.Basic

/-! # Singly linked lists

    A list that is threaded through its members: a head pointer, and in every member
    a pointer to the next.  It is edited through SLOTS, the places that hold such a
    pointer: `slotAfter as` is the slot behind the members `as`, and writing to it
    links a member in or out. -/

namespace LinkedList

variable {δ : Type}

/-- The head pointer and the next pointers; those of members outside the list are stale. -/
structure Links (δ : Type) where
  head : Option δ
  next : δ → Option δ

/-- A place that holds a pointer to a member. -/
inductive Slot (δ : Type) where
  | head
  | next (d : δ)

/-- What a slot holds. -/
def Links.read (l : Links δ) : Slot δ → Option δ
  | .head => l.head
  | .next d => l.next d

/-- Store a pointer in a slot. -/
def Links.write [DecidableEq δ] (l : Links δ) (s : Slot δ) (p : Option δ) : Links δ :=
  match s with
  | .head => { l with head := p }
  | .next d => { l with next := Function.update l.next d p }

/-- From a pointer, the next pointers lead through exactly these members. -/
def Chain (next : δ → Option δ) : Option δ → List δ → Prop
  | p, [] => p = none
  | p, d :: ds => p = some d ∧ Chain next (next d) ds

/-- The slot behind some members, from a given one on. -/
def slotFrom (s : Slot δ) : List δ → Slot δ
  | [] => s
  | d :: ds => slotFrom (.next d) ds

/-- Go on from a slot until it points to no member, or to one that `stop` accepts. -/
def seek (l : Links δ) (stop : δ → Bool) : Nat → Slot δ → Option (Slot δ)
  | 0, _ => none
  | n + 1, s =>
      match l.read s with
      | none => some s
      | some d => if stop d then some s else seek l stop n (.next d)

/-! ## Chains -/

/-- A chain depends on the pointers of its elements only. -/
theorem Chain.congr {next next' : δ → Option δ} {ds : List δ} : ∀ {p : Option δ},
    Chain next p ds → (∀ d ∈ ds, next' d = next d) → Chain next' p ds := by
  induction ds with
  | nil => exact fun h _ => h
  | cons d ds ih =>
      intro p h heq
      refine ⟨h.1, ?_⟩
      rw [heq d List.mem_cons_self]
      exact ih h.2 fun e he => heq e (List.mem_cons_of_mem d he)

/-- Behind a list, the slot is that of its last element. -/
theorem slotFrom_append_singleton (s : Slot δ) (as : List δ) (y : δ) :
    slotFrom s (as ++ [y]) = .next y := by
  induction as generalizing s with
  | nil => rfl
  | cons a as ih => exact ih (.next a)

section edit

variable [DecidableEq δ]

/-- A new member in front. -/
theorem Chain.push {next : δ → Option δ} {p : Option δ} {ds : List δ} {d : δ}
    (h : Chain next p ds) (hd : d ∉ ds) : Chain (Function.update next d p) (some d) (d :: ds) := by
  refine ⟨rfl, ?_⟩
  rw [Function.update_self]
  refine h.congr fun e he => Function.update_of_ne ?_ _ _
  rintro rfl
  exact hd he

/-- Behind a slot, `d` is linked out: the slot points to what `d` points to. -/
theorem Chain.unlink {next : δ → Option δ} {as bs : List δ} {d y : δ} :
    ∀ {p : Option δ}, Chain next p (as ++ y :: d :: bs) → (as ++ y :: d :: bs).Nodup →
      Chain (Function.update next y (next d)) p (as ++ y :: bs) := by
  induction as with
  | nil =>
      intro p h hnodup
      refine ⟨h.1, ?_⟩
      rw [Function.update_self]
      refine h.2.2.congr fun e he => Function.update_of_ne ?_ _ _
      rintro rfl
      exact (List.nodup_cons.mp hnodup).1 (List.mem_cons_of_mem d he)
  | cons a as ih =>
      intro p h hnodup
      have hne : a ≠ y := by
        rintro rfl
        exact (List.nodup_cons.mp hnodup).1 (List.mem_append_right as List.mem_cons_self)
      refine ⟨h.1, ?_⟩
      rw [Function.update_of_ne hne]
      exact ih h.2 (List.nodup_cons.mp hnodup).2

/-- The member behind `as` is linked out through the slot that points to it. -/
theorem Chain.remove {l : Links δ} {as bs : List δ} {d : δ}
    (h : Chain l.next l.head (as ++ d :: bs)) (hnodup : (as ++ d :: bs).Nodup) :
    Chain (l.write (slotFrom .head as) (l.next d)).next
      (l.write (slotFrom .head as) (l.next d)).head (as ++ bs) := by
  rcases List.eq_nil_or_concat as with rfl | ⟨as, y, rfl⟩
  · exact h.2
  · rw [List.concat_eq_append] at h hnodup ⊢
    rw [slotFrom_append_singleton]
    rw [List.append_assoc] at h hnodup ⊢
    exact h.unlink hnodup

end edit

/-! ## Seeking -/

/-- The seek stops behind the members that are not accepted, and the slot it finds
    points to what is left. -/
theorem seek_chain (l : Links δ) (stop : δ → Bool) {ds : List δ} : ∀ {s : Slot δ} {n : Nat},
    Chain l.next (l.read s) ds → ds.length < n →
    seek l stop n s = some (slotFrom s (ds.takeWhile fun d => !stop d)) ∧
      l.read (slotFrom s (ds.takeWhile fun d => !stop d)) =
        (ds.dropWhile fun d => !stop d).head? := by
  induction ds with
  | nil =>
      intro s n h hn
      obtain ⟨k, rfl⟩ : ∃ k, n = k + 1 := ⟨n - 1, by omega⟩
      have hread : l.read s = none := h
      refine ⟨?_, hread⟩
      rw [seek, hread]
      rfl
  | cons d ds ih =>
      intro s n h hn
      obtain ⟨k, rfl⟩ : ∃ k, n = k + 1 := ⟨n - 1, by omega⟩
      rw [List.takeWhile_cons, List.dropWhile_cons]
      by_cases hd : stop d = true
      · have hstop : seek l stop (k + 1) s = some s := by
          rw [seek, h.1]
          exact if_pos hd
        rw [hstop, hd]
        exact ⟨rfl, h.1⟩
      · have hgo : seek l stop (k + 1) s = seek l stop k (.next d) := by
          rw [seek, h.1]
          exact if_neg hd
        rw [hgo, Bool.eq_false_iff.mpr hd]
        exact ih h.2 (Nat.lt_of_succ_lt_succ hn)

end LinkedList
