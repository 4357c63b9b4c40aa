import Mathlib.Logic.Function.Basic

/-! # Walks through a cache

    A graph whose nodes are made on demand: `find` gives the number of the entry
    that a name stands for in a node, and `make` makes the node with that number
    below its parent.  A walk follows a list of names from the root; it fails when a
    node cannot be made, and finds nothing when a name is missing.

    A walk through a cache takes a node from the cache by its number, whichever
    parent it was made below.  That this is no difference, whatever was walked
    before, comes to one condition: the number of a node determines the node. -/

namespace MemoWalk

variable {κ α ν : Type}

/-- Nodes `ν` with numbers `κ`, and entries named by `α`. -/
structure Graph (κ α ν : Type) where
  find : ν → α → Option κ
  make : ν → κ → Option ν

/-- The node that a list of names leads to. -/
def walk (G : Graph κ α ν) : ν → List α → Option (Option ν)
  | v, [] => some (some v)
  | v, a :: names =>
      match G.find v a with
      | none => some none
      | some k =>
          match G.make v k with
          | none => none
          | some u => walk G u names

/-- The nodes that have been made, by their numbers. -/
abbrev Cache (κ ν : Type) := κ → Option ν

variable [DecidableEq κ]

/-- The node with a number: from the cache, or made and kept. -/
def nodeAt (G : Graph κ α ν) (c : Cache κ ν) (v : ν) (k : κ) : Option (Cache κ ν × ν) :=
  match c k with
  | some u => some (c, u)
  | none => (G.make v k).map fun u => (Function.update c k (some u), u)

/-- A walk through the cache. -/
def cachedWalk (G : Graph κ α ν) : Cache κ ν → ν → List α → Option (Cache κ ν × Option ν)
  | c, v, [] => some (c, some v)
  | c, v, a :: names =>
      match G.find v a with
      | none => some (c, none)
      | some k =>
          match nodeAt G c v k with
          | none => none
          | some (c, u) => cachedWalk G c u names

/-- The cache after a list of walks from the root. -/
def cachedRun (G : Graph κ α ν) (root : ν) : Cache κ ν → List (List α) → Option (Cache κ ν)
  | c, [] => some c
  | c, path :: paths =>
      match cachedWalk G c root path with
      | none => none
      | some (c, _) => cachedRun G root c paths

/-- The nodes that walks lead to. -/
inductive Reach (G : Graph κ α ν) (root : ν) : ν → Prop where
  | root : Reach G root root
  | made {v u : ν} {a : α} {k : κ} (hv : Reach G root v) (hfind : G.find v a = some k)
      (hmake : G.make v k = some u) : Reach G root u

/-- Number `k` is made below node `v`. -/
def Below (G : Graph κ α ν) (root : ν) (k : κ) (v : ν) : Prop :=
  Reach G root v ∧ ∃ a, G.find v a = some k

/-- The number of a node determines the node, and those in the cache are the ones
    it determines. -/
structure Determined (G : Graph κ α ν) (root : ν) (c : Cache κ ν) : Prop where
  made : ∀ k v v', Below G root k v → Below G root k v' → G.make v k = G.make v' k
  kept : ∀ k v u, Below G root k v → c k = some u → G.make v k = some u

/-- Walks find what they would find without the cache, whatever was walked before. -/
def Transparent (G : Graph κ α ν) (root : ν) (c : Cache κ ν) : Prop :=
  ∀ paths c', cachedRun G root c paths = some c' → ∀ path,
    (cachedWalk G c' root path).map Prod.snd = walk G root path

variable {G : Graph κ α ν} {root : ν} {c : Cache κ ν}

theorem cachedRun_nil (G : Graph κ α ν) (root : ν) (c : Cache κ ν) :
    cachedRun G root c [] = some c := rfl

/-! ## Determined numbers: the cache is transparent -/

/-- A step to a node that is determined gives that node, and keeps the rest so. -/
theorem nodeAt_determined (h : Determined G root c) {v : ν} {k : κ} (hk : Below G root k v) :
    (nodeAt G c v k).map Prod.snd = G.make v k ∧
      ∀ c' u, nodeAt G c v k = some (c', u) → Determined G root c' := by
  rw [nodeAt]
  cases hc : c k with
  | some u =>
      refine ⟨(h.kept k v u hk hc).symm, ?_⟩
      intro c' u' hget
      obtain ⟨rfl, _⟩ := Prod.mk.inj (Option.some.inj hget)
      exact h
  | none =>
      refine ⟨?_, ?_⟩
      · show ((G.make v k).map _).map Prod.snd = _
        rw [Option.map_map]
        exact Option.map_id'
      · intro c' u hget
        obtain ⟨u', hmake, heq⟩ := Option.map_eq_some_iff.mp hget
        obtain ⟨rfl, rfl⟩ := Prod.mk.inj heq
        refine ⟨h.made, ?_⟩
        intro k' v' u'' hk' hc'
        by_cases hkk : k' = k
        · subst hkk
          rw [Function.update_self] at hc'
          rw [h.made k' v' v hk' hk, hmake]
          exact hc'
        · rw [Function.update_of_ne hkk] at hc'
          exact h.kept k' v' u'' hk' hc'

/-- The step lemma: while every key is determined, a walk finds what is there, and keeps it so.
    -/
theorem cachedWalk_determined : ∀ {names : List α} {c : Cache κ ν} {v : ν},
    Determined G root c → Reach G root v →
    (cachedWalk G c v names).map Prod.snd = walk G v names ∧
      ∀ c' r, cachedWalk G c v names = some (c', r) → Determined G root c' := by
  intro names
  induction names with
  | nil =>
      intro c v h _
      refine ⟨rfl, ?_⟩
      intro c' r hw
      obtain ⟨rfl, _⟩ := Prod.mk.inj (Option.some.inj hw)
      exact h
  | cons a names ih =>
      intro c v h hv
      rw [cachedWalk, walk]
      cases hfind : G.find v a with
      | none =>
          refine ⟨rfl, ?_⟩
          intro c' r hw
          obtain ⟨rfl, _⟩ := Prod.mk.inj (Option.some.inj hw)
          exact h
      | some k =>
          obtain ⟨hget, hkeep⟩ := nodeAt_determined h ⟨hv, a, hfind⟩
          cases hg : nodeAt G c v k with
          | none =>
              rw [hg] at hget
              have hmake : G.make v k = none := hget.symm
              simp only [hg, hmake]
              refine ⟨rfl, ?_⟩
              intro c' r hw
              cases hw
          | some p =>
              obtain ⟨c', u⟩ := p
              rw [hg] at hget
              have hmake : G.make v k = some u := hget.symm
              simp only [hg, hmake]
              exact ih (hkeep c' u hg) (Reach.made hv hfind hmake)

/-- By induction, so does a run of walks. -/
theorem cachedRun_determined : ∀ {paths : List (List α)} {c c' : Cache κ ν},
    Determined G root c → cachedRun G root c paths = some c' → Determined G root c' := by
  intro paths
  induction paths with
  | nil =>
      intro c c' h hrun
      cases hrun
      exact h
  | cons path paths ih =>
      intro c c' h hrun
      rw [cachedRun] at hrun
      split at hrun
      · cases hrun
      · next c₁ r hw => exact ih ((cachedWalk_determined h Reach.root).2 c₁ r hw) hrun

/-! ## A transparent cache: the numbers are determined -/

/-- Nothing is dropped from the cache, and what a step gives is in it. -/
theorem nodeAt_keeps {c c' : Cache κ ν} {v u : ν} {k : κ} (h : nodeAt G c v k = some (c', u)) :
    c' k = some u ∧ ∀ k' u', c k' = some u' → c' k' = some u' := by
  rw [nodeAt] at h
  cases hc : c k with
  | some u₁ =>
      rw [hc] at h
      obtain ⟨rfl, rfl⟩ := Prod.mk.inj (Option.some.inj h)
      exact ⟨hc, fun _ _ hk => hk⟩
  | none =>
      rw [hc] at h
      obtain ⟨u₁, _, heq⟩ := Option.map_eq_some_iff.mp h
      obtain ⟨rfl, rfl⟩ := Prod.mk.inj heq
      refine ⟨Function.update_self k (some u₁) c, ?_⟩
      intro k' u' hk'
      have hne : k' ≠ k := by
        rintro rfl
        rw [hc] at hk'
        cases hk'
      rw [Function.update_of_ne hne]
      exact hk'

/-- A walk takes nothing out of the cache. -/
theorem cachedWalk_keeps : ∀ {names : List α} {c c' : Cache κ ν} {v : ν} {r : Option ν},
    cachedWalk G c v names = some (c', r) → ∀ k u, c k = some u → c' k = some u := by
  intro names
  induction names with
  | nil =>
      intro c c' v r h k u hk
      obtain ⟨rfl, _⟩ := Prod.mk.inj (Option.some.inj h)
      exact hk
  | cons a names ih =>
      intro c c' v r h k u hk
      rw [cachedWalk] at h
      split at h
      · obtain ⟨rfl, _⟩ := Prod.mk.inj (Option.some.inj h)
        exact hk
      · split at h
        · cases h
        · next c₁ u₁ hget => exact ih h k u ((nodeAt_keeps hget).2 k u hk)

omit [DecidableEq κ] in
/-- A walk that goes one name further. -/
theorem walk_snoc {a : α} : ∀ {names : List α} {v u : ν}, walk G v names = some (some u) →
    walk G v (names ++ [a]) =
      match G.find u a with
      | none => some none
      | some k => (G.make u k).map some := by
  intro names
  induction names with
  | nil =>
      intro v u h
      cases h
      rw [List.nil_append, walk]
      cases G.find v a with
      | none => rfl
      | some k =>
          simp only
          cases G.make v k with
          | none => rfl
          | some u => rfl
  | cons b names ih =>
      intro v u h
      rw [walk] at h
      rw [List.cons_append, walk]
      split at h
      · cases h
      · split at h
        · cases h
        · exact ih h

/-- A walk, and one step more. -/
theorem cachedWalk_snoc {a : α} : ∀ {names : List α} {c c' : Cache κ ν} {v u : ν},
    cachedWalk G c v names = some (c', some u) →
    cachedWalk G c v (names ++ [a]) =
      match G.find u a with
      | none => some (c', none)
      | some k => (nodeAt G c' u k).map fun r => (r.1, some r.2) := by
  intro names
  induction names with
  | nil =>
      intro c c' v u h
      cases h
      rw [List.nil_append, cachedWalk]
      cases G.find v a with
      | none => rfl
      | some k =>
          simp only
          cases nodeAt G c v k with
          | none => rfl
          | some r => rfl
  | cons b names ih =>
      intro c c' v u h
      rw [cachedWalk] at h
      rw [List.cons_append, cachedWalk]
      split at h
      · cases h
      · split at h
        · cases h
        · exact ih h

omit [DecidableEq κ] in
/-- Every node that can be reached is at the end of a path. -/
theorem Reach.path {v : ν} (h : Reach G root v) :
    ∃ names, walk G root names = some (some v) := by
  induction h with
  | root => exact ⟨[], rfl⟩
  | @made v u a k _ hfind hmake ih =>
      obtain ⟨names, hw⟩ := ih
      refine ⟨names ++ [a], ?_⟩
      rw [walk_snoc hw, hfind]
      simp only [hmake]
      rfl

/-- A run of walks, and one walk more. -/
theorem cachedRun_append {paths : List (List α)} {path : List α} :
    ∀ {c c' c'' : Cache κ ν} {r : Option ν}, cachedRun G root c paths = some c' →
    cachedWalk G c' root path = some (c'', r) →
    cachedRun G root c (paths ++ [path]) = some c'' := by
  induction paths with
  | nil =>
      intro c c' c'' r hrun hw
      cases hrun
      rw [List.nil_append, cachedRun, hw]
      rfl
  | cons p paths ih =>
      intro c c' c'' r hrun hw
      rw [cachedRun] at hrun
      rw [List.cons_append, cachedRun]
      split at hrun
      · cases hrun
      · exact ih hrun hw

/-- The walk to a parent of number `k`, and one step further. -/
theorem Transparent.step (h : Transparent G root c) {paths : List (List α)} {c' : Cache κ ν}
    (hrun : cachedRun G root c paths = some c') {v : ν} {k : κ} (hk : Below G root k v) :
    ∃ path c'', (∀ k u, c' k = some u → c'' k = some u) ∧
      cachedWalk G c' root path = (nodeAt G c'' v k).map (fun r => (r.1, some r.2)) ∧
      (nodeAt G c'' v k).map Prod.snd = G.make v k := by
  obtain ⟨hv, a, hfind⟩ := hk
  obtain ⟨names, hw⟩ := hv.path
  have hcached := (h paths c' hrun names).trans hw
  obtain ⟨⟨c'', r⟩, hcw, hr⟩ := Option.map_eq_some_iff.mp hcached
  have hr' : r = some v := hr
  subst hr'
  have hsnoc : cachedWalk G c' root (names ++ [a]) =
      (nodeAt G c'' v k).map (fun r => (r.1, some r.2)) := by
    rw [cachedWalk_snoc hcw, hfind]
  have hwalk : walk G root (names ++ [a]) = (G.make v k).map some := by
    rw [walk_snoc hw, hfind]
  refine ⟨names ++ [a], c'', cachedWalk_keeps hcw, hsnoc, ?_⟩
  have heq := h paths c' hrun (names ++ [a])
  rw [hsnoc, hwalk] at heq
  cases hget : nodeAt G c'' v k with
  | none =>
      rw [hget] at heq
      cases hmake : G.make v k with
      | none => rfl
      | some u =>
          rw [hmake] at heq
          cases heq
  | some r =>
      rw [hget] at heq
      cases hmake : G.make v k with
      | none =>
          rw [hmake] at heq
          cases heq
      | some u =>
          rw [hmake] at heq
          exact Option.some.inj heq

/-- **A cache by number is transparent exactly if the number determines the node.** -/
theorem transparent_iff : Transparent G root c ↔ Determined G root c := by
  constructor
  · intro h
    have hkept : ∀ {paths : List (List α)} {c' : Cache κ ν},
        cachedRun G root c paths = some c' → ∀ k v u, Below G root k v → c' k = some u →
        G.make v k = some u := by
      intro paths c' hrun k v u hk hu
      obtain ⟨_, c'', hkeep, _, hget⟩ := h.step hrun hk
      rw [nodeAt, hkeep k u hu] at hget
      exact hget.symm
    have hmade : ∀ k v v' u, Below G root k v → Below G root k v' → G.make v k = some u →
        G.make v' k = some u := by
      intro k v v' u hk hk' hu
      -- walk to the node below `v`; then the cache has it for `v'`
      obtain ⟨path, c₁, _, hwalk, hget⟩ := h.step (cachedRun_nil G root c) hk
      obtain ⟨⟨c₂, u'⟩, hg, hu'⟩ := Option.map_eq_some_iff.mp (hget.trans hu)
      have huu : u' = u := hu'
      subst huu
      rw [hg] at hwalk
      have hrun : cachedRun G root c [path] = some c₂ :=
        cachedRun_append (cachedRun_nil G root c) hwalk
      exact hkept hrun k v' u' hk' (nodeAt_keeps hg).1
    refine ⟨?_, fun k v u hk hu => hkept (cachedRun_nil G root c) k v u hk hu⟩
    intro k v v' hk hk'
    cases hm : G.make v k with
    | some u => exact (hmade k v v' u hk hk' hm).symm
    | none =>
        cases hm' : G.make v' k with
        | none => rfl
        | some u =>
            rw [hmade k v' v u hk' hk hm'] at hm
            cases hm
  · intro h paths c' hrun path
    exact (cachedWalk_determined (cachedRun_determined h hrun) Reach.root).1

end MemoWalk
