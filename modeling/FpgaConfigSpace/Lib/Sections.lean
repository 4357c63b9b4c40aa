import Mathlib.Data.List.Basic

/-! # Sections under a lock

    Several threads share something that a lock guards.  Each takes the lock, works, and
    drops the lock again, and nobody takes it while it is taken; that is all they agree on.
    Whatever the order of their calls, what they do then is one section after another. -/

namespace Sections

/-- What a call does to the lock. -/
inductive Kind where
  | take
  | work
  | drop
deriving DecidableEq

variable {T C : Type} (kind : C → Kind)

/-- The lock of a thread after one call, if it may make it. -/
def next : Bool → Kind → Option Bool
  | false, .take => some true
  | true, .work => some true
  | true, .drop => some false
  | _, _ => none

/-- A thread that starts with the lock or without it, and keeps to the order. -/
def within : Bool → List C → Option Bool
  | b, [] => some b
  | b, c :: cs => (next b (kind c)).bind fun b' => within b' cs

/-- The calls of a thread, as entries of the log. -/
def tagged (s : T × List C) : List (T × C) := s.2.map fun c => (s.1, c)

/-- Without the tags, the calls of the sections are there. -/
theorem map_snd_tagged (sections : List (T × List C)) :
    (sections.flatMap tagged).map Prod.snd = sections.flatMap Prod.snd := by
  rw [List.map_flatMap]
  refine congrArg (fun f => List.flatMap f sections) (funext fun s => ?_)
  simp [tagged, Function.comp_def]

/-- Whether the lock is taken after some calls. -/
def locked (log : List (T × C)) : Bool :=
  log.foldl (fun b e => match kind e.2 with
    | .take => true
    | .work => b
    | .drop => false) false

/-- Whether the lock is held after one call more. -/
theorem locked_snoc (log : List (T × C)) (t : T) (c : C) :
    locked kind (log ++ [(t, c)]) = match kind c with
      | .take => true
      | .work => locked kind log
      | .drop => false := by
  rw [locked, List.foldl_append]
  rfl

variable [DecidableEq T]

/-- The calls of one thread. -/
def own (t : T) (log : List (T × C)) : List C :=
  log.filterMap fun e => if e.1 = t then some e.2 else none

/-- From the lock taken to the lock dropped. -/
def IsSection (b : List C) : Prop :=
  ∃ c body d, b = c :: (body ++ [d]) ∧ kind c = .take ∧ (∀ w ∈ body, kind w = .work) ∧
    kind d = .drop

/-- A section that has not ended. -/
def IsOpen (b : List C) : Prop :=
  ∃ c body, b = c :: body ∧ kind c = .take ∧ ∀ w ∈ body, kind w = .work

/-- The logs that can come about. -/
inductive Interleaved : List (T × C) → Prop where
  | nil : Interleaved []
  | snoc {log : List (T × C)} {t : T} {c : C} (hlog : Interleaved log)
      (hown : (within kind false (own t log ++ [c])).isSome)
      (hfree : kind c = .take → locked kind log = false) : Interleaved (log ++ [(t, c)])

variable {kind}

/-! ## One thread -/

/-- Calls and calls, as seen by one party. -/
theorem within_append (b : Bool) (xs ys : List C) :
    within kind b (xs ++ ys) = (within kind b xs).bind fun b' => within kind b' ys := by
  induction xs generalizing b with
  | nil => rfl
  | cons x xs ih =>
      rw [List.cons_append, within, within]
      cases next b (kind x) with
      | none => rfl
      | some b' => exact ih b'

theorem within_singleton (b : Bool) (c : C) : within kind b [c] = next b (kind c) := by
  rw [within]
  cases next b (kind c) <;> rfl

/-- Work leaves a section open. -/
theorem within_work {body : List C} (h : ∀ w ∈ body, kind w = .work) :
    within kind true body = some true := by
  induction body with
  | nil => rfl
  | cons w body ih =>
      rw [within, h w List.mem_cons_self]
      exact ih fun w' hw => h w' (List.mem_cons_of_mem _ hw)

/-- An open section holds the lock. -/
theorem IsOpen.within {b : List C} (h : IsOpen kind b) : within kind false b = some true := by
  obtain ⟨c, body, rfl, hc, hbody⟩ := h
  rw [Sections.within, hc]
  exact within_work hbody

/-- A section ends where an open one does. -/
theorem IsOpen.close {b : List C} (h : IsOpen kind b) {d : C} (hd : kind d = .drop) :
    IsSection kind (b ++ [d]) := by
  obtain ⟨c, body, rfl, hc, hbody⟩ := h
  exact ⟨c, body, d, rfl, hc, hbody, hd⟩

/-- It stays open while there is work. -/
theorem IsOpen.extend {b : List C} (h : IsOpen kind b) {w : C} (hw : kind w = .work) :
    IsOpen kind (b ++ [w]) := by
  obtain ⟨c, body, rfl, hc, hbody⟩ := h
  refine ⟨c, body ++ [w], rfl, hc, ?_⟩
  intro x hx
  rcases List.mem_append.mp hx with hx | hx
  · exact hbody x hx
  · rw [List.mem_singleton.mp hx]
    exact hw

/-- A whole section does not hold it in the end. -/
theorem IsSection.within {b : List C} (h : IsSection kind b) :
    within kind false b = some false := by
  obtain ⟨c, body, d, rfl, hc, hbody, hd⟩ := h
  rw [Sections.within, hc]
  show Sections.within kind true (body ++ [d]) = _
  rw [within_append, within_work hbody]
  show Sections.within kind true [d] = _
  rw [within_singleton, hd]
  rfl

/-! ## The log -/

/-- A party's own calls among calls and calls. -/
theorem own_append (t : T) (xs ys : List (T × C)) : own t (xs ++ ys) = own t xs ++ own t ys :=
  List.filterMap_append

/-- A section has the calls of its own party only. -/
theorem own_tagged (t : T) (s : T × List C) :
    own t (tagged s) = if s.1 = t then s.2 else [] := by
  obtain ⟨u, b⟩ := s
  rw [own, tagged, List.filterMap_map]
  by_cases h : u = t
  · simp [h]
  · simp [h]

/-- One more call of the party. -/
theorem own_snoc_self (t : T) (log : List (T × C)) (c : C) :
    own t (log ++ [(t, c)]) = own t log ++ [c] := by
  rw [own_append]
  simp [own]

/-- After complete sections a thread is outside. -/
theorem within_own_sections (t : T) {done : List (T × List C)}
    (h : ∀ s ∈ done, IsSection kind s.2) :
    within kind false (own t (done.flatMap tagged)) = some false := by
  induction done with
  | nil => rfl
  | cons s done ih =>
      rw [List.flatMap_cons, own_append, within_append, own_tagged]
      have hrest := ih fun s' hs => h s' (List.mem_cons_of_mem _ hs)
      by_cases hs : s.1 = t
      · rw [if_pos hs, (h s List.mem_cons_self).within]
        exact hrest
      · rw [if_neg hs]
        exact hrest

/-- Complete sections, and the one that is open. -/
structure Split (kind : C → Kind) (log : List (T × C)) (done : List (T × List C))
    (last : Option (T × List C)) : Prop where
  log_eq : log = (done ++ last.toList).flatMap tagged
  complete : ∀ s ∈ done, IsSection kind s.2
  opened : ∀ s ∈ last, IsOpen kind s.2
  lock : locked kind log = last.isSome

/-- A thread has the lock if the open section is its own. -/
theorem Split.within {log : List (T × C)} {done : List (T × List C)} {last : Option (T × List C)}
    (h : Split kind log done last) (t : T) :
    within kind false (own t log) = some (last.any fun s => s.1 = t) := by
  rw [h.log_eq, List.flatMap_append, own_append, within_append, within_own_sections t h.complete]
  cases last with
  | none => rfl
  | some s =>
      show Sections.within kind false (own t ([s].flatMap tagged)) = some (decide (s.1 = t))
      rw [List.flatMap_singleton, own_tagged]
      by_cases hs : s.1 = t
      · rw [if_pos hs, (h.opened s rfl).within, decide_eq_true hs]
      · rw [if_neg hs, decide_eq_false hs]
        rfl

/-- The calls of a section stand together among those of its thread. -/
theorem Split.isInfix {log : List (T × C)} {done : List (T × List C)} {last : Option (T × List C)}
    (h : Split kind log done last) {s : T × List C} (hs : s ∈ done ++ last.toList) :
    s.2 <:+: own s.1 log := by
  obtain ⟨before, behind, hsplit⟩ := List.append_of_mem hs
  refine ⟨own s.1 (before.flatMap tagged), own s.1 (behind.flatMap tagged), ?_⟩
  rw [h.log_eq, hsplit, List.flatMap_append, List.flatMap_cons, own_append, own_append, own_tagged,
    if_pos rfl, List.append_assoc]

/-- **One section after another**: every log splits into complete sections, each of one
    thread, and at most one that is open. -/
theorem Interleaved.split {log : List (T × C)} (h : Interleaved kind log) :
    ∃ done last, Split kind log done last := by
  induction h with
  | nil => exact ⟨[], none, rfl, by simp, by simp, rfl⟩
  | @snoc log t c _ hown hfree ih =>
      obtain ⟨done, last, hsplit⟩ := ih
      rw [within_append, hsplit.within t] at hown
      replace hown : (next (last.any fun s => s.1 = t) (kind c)).isSome := by
        rw [← within_singleton]
        exact hown
      have hlock := locked_snoc kind log t c
      cases last with
      | none =>
          -- nobody has the lock, so this call takes it
          cases hc : kind c with
          | take =>
              refine ⟨done, some (t, [c]), ?_, hsplit.complete, ?_, ?_⟩
              · rw [hsplit.log_eq]
                simp [tagged]
              · rintro s ⟨rfl⟩
                exact ⟨c, [], rfl, hc, by simp⟩
              · rw [hlock, hc]
                rfl
          | work => rw [hc] at hown; cases hown
          | drop => rw [hc] at hown; cases hown
      | some s =>
          obtain ⟨u, b⟩ := s
          have hopen := hsplit.opened (u, b) rfl
          have htaken : locked kind log = true := hsplit.lock
          by_cases hu : u = t
          · subst hu
            cases hc : kind c with
            | take => rw [hfree hc] at htaken; cases htaken
            | work =>
                refine ⟨done, some (u, b ++ [c]), ?_, hsplit.complete, ?_, ?_⟩
                · rw [hsplit.log_eq]
                  simp [tagged]
                · rintro s ⟨rfl⟩
                  exact hopen.extend hc
                · rw [hlock, hc]
                  exact htaken
            | drop =>
                refine ⟨done ++ [(u, b ++ [c])], none, ?_, ?_, by simp, ?_⟩
                · rw [hsplit.log_eq]
                  simp [tagged]
                · intro s hs
                  rcases List.mem_append.mp hs with hs | hs
                  · exact hsplit.complete s hs
                  · rw [List.mem_singleton.mp hs]
                    exact hopen.close hc
                · rw [hlock, hc]
                  rfl
          · -- a thread without the lock can do nothing but take it
            have hout : ((some (u, b)).any fun s : T × List C => s.1 = t) = false := by
              simp [hu]
            rw [hout] at hown
            cases hc : kind c with
            | take => rw [hfree hc] at htaken; cases htaken
            | work => rw [hc] at hown; cases hown
            | drop => rw [hc] at hown; cases hown

end Sections
