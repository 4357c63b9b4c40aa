import Mathlib.Data.List.Basic

/-! # The steps of a run

    A system that takes one action after another: `trace` lists the actions that
    were possible, each with the state before and behind it.  Two rules lead from
    one step to all of them: an invariant that is kept under a condition holds
    throughout a run whose steps meet the condition, and if a step that does not
    meet it breaks the property at once, the condition is exact. -/

namespace Trace

variable {S A : Type}

/-- An action that was taken. -/
structure Taken (S A : Type) where
  before : S
  act : A
  behind : S

/-- The actions taken from a state, up to the first that is not possible. -/
def trace (step : S → A → Option S) : S → List A → List (Taken S A)
  | _, [] => []
  | s, a :: as =>
      match step s a with
      | none => []
      | some s' => ⟨s, a, s'⟩ :: trace step s' as

variable {step : S → A → Option S} {I P : S → Prop} {C : S → A → Prop}

/-- A step of a trace is a step of the system. -/
theorem step_of_mem_trace {as : List A} : ∀ {s : S} {t : Taken S A}, t ∈ trace step s as →
    step t.before t.act = some t.behind := by
  induction as with
  | nil =>
      intro s t ht
      cases ht
  | cons a as ih =>
      intro s t ht
      rw [trace] at ht
      split at ht
      · cases ht
      · next s' hs =>
        rcases List.mem_cons.mp ht with rfl | ht
        · exact hs
        · exact ih ht

/-- The actions of a trace are those of the run, in their order. -/
theorem act_of_getElem? {as : List A} : ∀ {s : S} {i : Nat} {t : Taken S A},
    (trace step s as)[i]? = some t → as[i]? = some t.act := by
  induction as with
  | nil =>
      intro s i t ht
      cases ht
  | cons a as ih =>
      intro s i t ht
      rw [trace] at ht
      split at ht
      · cases ht
      · next s' hs =>
        cases i with
        | zero =>
            cases ht
            rfl
        | succ i => exact ih ht

/-- An invariant that every step keeps under a condition holds before and behind
    every step of a run that meets it. -/
theorem trace_kept (hkeep : ∀ s a s', I s → C s a → step s a = some s' → I s') {as : List A} :
    ∀ {s : S}, I s → (∀ t ∈ trace step s as, C t.before t.act) →
      ∀ t ∈ trace step s as, I t.before ∧ I t.behind := by
  induction as with
  | nil =>
      intro s _ _ t ht
      cases ht
  | cons a as ih =>
      intro s hs hC t ht
      rw [trace] at ht hC
      split at ht
      · cases ht
      · next s' hstep =>
        simp only [hstep] at hC
        have hs' : I s' := hkeep s a s' hs (hC ⟨s, a, s'⟩ List.mem_cons_self) hstep
        rcases List.mem_cons.mp ht with rfl | ht
        · exact ⟨hs, hs'⟩
        · exact ih hs' (fun u hu => hC u (List.mem_cons_of_mem _ hu)) t ht

/-- The condition is exact if a step that does not meet it breaks the property. -/
theorem trace_iff (hP : ∀ s, I s → P s)
    (hkeep : ∀ s a s', I s → C s a → step s a = some s' → I s')
    (hbreak : ∀ s a s', I s → ¬ C s a → step s a = some s' → ¬ P s') {as : List A} :
    ∀ {s : S}, I s →
      ((∀ t ∈ trace step s as, P t.behind) ↔ ∀ t ∈ trace step s as, C t.before t.act) := by
  intro s hs
  constructor
  · induction as generalizing s with
    | nil =>
        intro _ t ht
        cases ht
    | cons a as ih =>
        intro hall t ht
        rw [trace] at ht hall
        split at ht
        · cases ht
        · next s' hstep =>
          simp only [hstep] at hall
          have hC : C s a := by
            by_contra hnot
            exact hbreak s a s' hs hnot hstep (hall ⟨s, a, s'⟩ List.mem_cons_self)
          rcases List.mem_cons.mp ht with rfl | ht
          · exact hC
          · exact ih (hkeep s a s' hs hC hstep) (fun u hu => hall u (List.mem_cons_of_mem _ hu)) t ht
  · intro hC t ht
    exact hP _ (trace_kept hkeep hs hC t ht).2

end Trace
