import Mathlib.Data.List.Forall2

/-! # Lists that go in step

    `List.Forall₂` relates two lists entry by entry.  What holds of an entry of one of them
    holds of the one beside it, and what holds of any two entries of one of them carries
    over to the other. -/

namespace Paired

variable {α β : Type} {R : α → β → Prop} {as : List α} {bs : List β}

/-- Every element of either list has a partner. -/
theorem exists_right (h : List.Forall₂ R as bs) : ∀ a ∈ as, ∃ b ∈ bs, R a b := by
  induction h with
  | nil => exact fun a ha => absurd ha List.not_mem_nil
  | cons hab _ ih =>
      intro a ha
      rcases List.mem_cons.mp ha with rfl | ha
      · exact ⟨_, List.mem_cons_self, hab⟩
      · obtain ⟨b, hb, hr⟩ := ih a ha
        exact ⟨b, List.mem_cons_of_mem _ hb, hr⟩

theorem exists_left (h : List.Forall₂ R as bs) : ∀ b ∈ bs, ∃ a ∈ as, R a b :=
  exists_right (List.Forall₂.flip (R := fun b a => R a b) h)

/-- Partners are members. -/
theorem with_mem (h : List.Forall₂ R as bs) :
    List.Forall₂ (fun a b => a ∈ as ∧ b ∈ bs ∧ R a b) as bs := by
  induction h with
  | nil => exact .nil
  | cons hab _ ih =>
      refine .cons ⟨List.mem_cons_self, List.mem_cons_self, hab⟩ (ih.imp ?_)
      rintro a b ⟨ha, hb, hr⟩
      exact ⟨List.mem_cons_of_mem _ ha, List.mem_cons_of_mem _ hb, hr⟩

/-- Entries apart from each other stay apart. -/
theorem pairwise {S : α → α → Prop} {T : β → β → Prop} (h : List.Forall₂ R as bs)
    (hstep : ∀ a b a' b', R a b → R a' b' → S a a' → T b b') (has : as.Pairwise S) :
    bs.Pairwise T := by
  induction h with
  | nil => exact .nil
  | @cons a b as bs hab h ih =>
      obtain ⟨hhead, htail⟩ := List.pairwise_cons.mp has
      refine List.pairwise_cons.mpr ⟨fun b' hb' => ?_, ih htail⟩
      obtain ⟨a', ha', hab'⟩ := exists_left h b' hb'
      exact hstep a b a' b' hab hab' (hhead a' ha')

/-- Through a list in between. -/
theorem comp {γ : Type} {T : β → γ → Prop} {cs : List γ} (h : List.Forall₂ R as bs) :
    List.Forall₂ T bs cs → List.Forall₂ (fun a c => ∃ b, R a b ∧ T b c) as cs := by
  induction h generalizing cs with
  | nil =>
      rintro ⟨⟩
      exact .nil
  | cons hab _ ih =>
      rintro (_ | ⟨hbc, h'⟩)
      exact .cons ⟨_, hab, hbc⟩ (ih h')

/-- The first of an entry that passes, and the first beside it. -/
theorem find? {p : α → Bool} {q : β → Bool} (h : List.Forall₂ R as bs)
    (hpass : ∀ a b, R a b → p a = q b) {a : α} (ha : as.find? p = some a) :
    ∃ b, bs.find? q = some b ∧ R a b := by
  induction h with
  | nil => cases ha
  | @cons a' b as bs hab _ ih =>
      rw [List.find?_cons, hpass a' b hab] at ha
      rw [List.find?_cons]
      cases hq : q b with
      | true =>
          rw [hq] at ha
          cases ha
          exact ⟨b, rfl, hab⟩
      | false =>
          rw [hq] at ha
          exact ih ha

/-- Lists whose partners have the same image have the same images. -/
theorem map_eq {γ : Type} {f : α → γ} {g : β → γ}
    (h : List.Forall₂ (fun a b => f a = g b) as bs) : as.map f = bs.map g := by
  induction h with
  | nil => rfl
  | cons hab _ ih => exact congrArg₂ List.cons hab ih

end Paired
