import FpgaConfigSpace.GensdbfsText
import FpgaConfigSpace.GensdbfsConfig

/-! # The tree, from the input

    The entries of a directory are filled in first, and changed by its configuration when
    all of them are there.  Entry by entry this is: fill it in, and apply the directives
    below its name. -/

namespace GensdbfsInput

open BigEndian SdbRecord SdbFields SdbfsOpen Gensdbfs GensdbfsConfig GensdbfsText

/-! ## Names and directives -/

/-- The names of the records of a directory, behind its interconnect. -/
def recordNames : Dirents → List CString
  | .nil => []
  | .file name _ rest => name :: recordNames rest
  | .other _ rest => recordNames rest
  | .lost _ rest => recordNames rest
  | .dir name _ _ rest => name :: recordNames rest

/-- The records that the interconnect counts, in 16 bits. -/
def counted (dirents : Dirents) : Nat := (recordCount dirents + 1) % 0x10000

/-- The record that `find_filename` finds. -/
def nameIndex (dirents : Dirents) (s : CString) : Option Nat :=
  ((dotName :: recordNames dirents).take (counted dirents)).findIdx? fun name =>
    s.chars == name.chars

/-- The directives below the names of a record. -/
def directivesAt (config : Config) (dirents : Dirents) (i : Nat) : List Directive :=
  config.flatMap fun part => if nameIndex dirents part.1 = some i then part.2 else []

variable (blocksize : BitVec 32)

/-- The entries of a directory, from the one with a number on, and the directories below. -/
def builtEntries (level : Nat) (directives : Nat → List Directive) :
    Dirents → (i : Nat) → Option Entries
  | .nil, _ => some .nil
  | .file name file rest, i =>
      (builtEntries level directives rest (i + 1)).map
        (.file ((directives i).foldl (applyDirective level) (fillFile blocksize level name file))
          file)
  | .other _ rest, i => builtEntries level directives rest i
  | .lost _ _, _ => none
  | .dir name config sub rest, i =>
      (builtEntries (level + 1) (directivesAt config sub) sub 1).bind fun s =>
        (builtEntries level directives rest (i + 1)).map
          (.subdir ((directives i).foldl (applyDirective level) (fillDir level name))
            ((directivesAt config sub 0).foldl (applyDirective (level + 1))
              (fillDot (level + 1) (recordCount sub + 1))) s)

/-! ## All the entries at once -/

/-- Change every entry of a directory, from the one with a number on. -/
def changeAll (change : Nat → Sdbf → Sdbf) : (i : Nat) → Entries → Entries
  | _, .nil => .nil
  | i, .file f file rest => .file (change i f) file (changeAll change (i + 1) rest)
  | i, .subdir f dot sub rest => .subdir (change i f) dot sub (changeAll change (i + 1) rest)

/-- Every entry of a tree is changed, by its index; "." has index 0. -/
def changeTreeAll (change : Nat → Sdbf → Sdbf) (tree : Tree) : Tree :=
  ⟨change 0 tree.dot, changeAll change 1 tree.entries⟩

/-- The directives for a record of a tree. -/
def directivesFor (tree : Tree) (config : Config) (i : Nat) : List Directive :=
  config.flatMap fun part => if findFilename tree part.1 = some i then part.2 else []

theorem changeAll_id (e : Entries) : ∀ i : Nat, changeAll (fun _ f => f) i e = e := by
  induction e with
  | nil => exact fun _ => rfl
  | file f file rest ih => exact fun i => congrArg (Entries.file f file) (ih (i + 1))
  | subdir f dot sub rest _ ih => exact fun i => congrArg (Entries.subdir f dot sub) (ih (i + 1))

/-- Changes one after the other are one change. -/
theorem changeAll_changeAll (g h : Nat → Sdbf → Sdbf) (e : Entries) : ∀ i : Nat,
    changeAll h i (changeAll g i e) = changeAll (fun j f => h j (g j f)) i e := by
  induction e with
  | nil => exact fun _ => rfl
  | file f file rest ih => exact fun i => congrArg (Entries.file _ file) (ih (i + 1))
  | subdir f dot sub rest _ ih => exact fun i => congrArg (Entries.subdir _ dot sub) (ih (i + 1))

/-- Only the changes of the entries that are there matter. -/
theorem changeAll_congr {g h : Nat → Sdbf → Sdbf} (e : Entries) : ∀ {i : Nat},
    (∀ j, i ≤ j → g j = h j) → changeAll g i e = changeAll h i e := by
  induction e with
  | nil => exact fun _ => rfl
  | file f file rest ih =>
      intro i hgh
      rw [changeAll, changeAll, hgh i (Nat.le_refl i),
        ih fun j hj => hgh j (Nat.le_of_succ_le hj)]
  | subdir f dot sub rest _ ih =>
      intro i hgh
      rw [changeAll, changeAll, hgh i (Nat.le_refl i),
        ih fun j hj => hgh j (Nat.le_of_succ_le hj)]

/-- Changing one entry is a change of all. -/
theorem changeAt_eq (change : Sdbf → Sdbf) (e : Entries) : ∀ k i : Nat,
    changeAt change k e = changeAll (fun j f => if j = i + k then change f else f) i e := by
  have hrest : ∀ (rest : Entries) (i : Nat),
      changeAll (fun j f => if j = i + 0 then change f else f) (i + 1) rest = rest := by
    intro rest i
    refine (changeAll_congr rest fun j hj => ?_).trans (changeAll_id rest (i + 1))
    funext f
    exact if_neg (by omega)
  induction e with
  | nil => exact fun k i => by cases k <;> rfl
  | file f file rest ih =>
      intro k i
      cases k with
      | zero => rw [changeAll, hrest, if_pos (Nat.add_zero i).symm, changeAt]
      | succ k =>
          rw [changeAll, if_neg (by omega), changeAt, ih k (i + 1), Nat.add_right_comm]
          rfl
  | subdir f dot sub rest _ ih =>
      intro k i
      cases k with
      | zero => rw [changeAll, hrest, if_pos (Nat.add_zero i).symm, changeAt]
      | succ k =>
          rw [changeAll, if_neg (by omega), changeAt, ih k (i + 1), Nat.add_right_comm]
          rfl

/-- So it is in a tree. -/
theorem changeTree_eq (change : Sdbf → Sdbf) (tree : Tree) (k : Nat) :
    changeTree change tree k = changeTreeAll (fun j f => if j = k then change f else f) tree := by
  cases k with
  | zero =>
      rw [changeTree, changeTreeAll, if_pos rfl]
      refine congrArg (Tree.mk _) ((changeAll_congr _ fun j hj => ?_).trans (changeAll_id _ 1)).symm
      funext f
      exact if_neg (by omega)
  | succ k =>
      rw [changeTree, changeTreeAll, if_neg (by omega), changeAt_eq change _ k 1, Nat.add_comm 1 k]

/-! ## The configuration of a directory -/

/-- Directives change no name. -/
theorem names_changeAll {change : Nat → Sdbf → Sdbf} (hsame : ∀ i f, SameEntry f (change i f))
    (e : Entries) : ∀ i : Nat,
    (sdbfs (changeAll change i e)).map Sdbf.basename = (sdbfs e).map Sdbf.basename := by
  induction e with
  | nil => exact fun _ => rfl
  | file f file rest ih => exact fun i => congrArg₂ List.cons (hsame i f).name_eq (ih (i + 1))
  | subdir f dot sub rest _ ih =>
      exact fun i => congrArg₂ List.cons (hsame i f).name_eq (ih (i + 1))

/-- A name is found where it was found before the entries were changed. -/
theorem findFilename_changeTreeAll {change : Nat → Sdbf → Sdbf}
    (hsame : ∀ i f, SameEntry f (change i f)) (tree : Tree) :
    findFilename (changeTreeAll change tree) = findFilename tree :=
  findFilename_same (hsame 0 tree.dot).records
    (congrArg₂ List.cons (hsame 0 tree.dot).name_eq (names_changeAll hsame tree.entries 1))

/-- One name of the configuration, as a change of all entries. -/
theorem configure_changeAll (level : Nat) (tree : Tree) (part : CString × List Directive) :
    configure level tree part =
      changeTreeAll (fun i f => if findFilename tree part.1 = some i then
        part.2.foldl (applyDirective level) f else f) tree := by
  rw [configure_eq]
  cases findFilename tree part.1 with
  | none =>
      have hnone : ∀ i : Nat, ¬ (none : Option Nat) = some i := fun i => (Option.some_ne_none i).symm
      simp only [hnone, if_false]
      exact congrArg (Tree.mk tree.dot) (changeAll_id tree.entries 1).symm
  | some k =>
      refine (changeTree_eq _ tree k).trans ?_
      have hkey : ∀ i : Nat, (some k = some i) = (i = k) :=
        fun i => propext ⟨fun h => (Option.some.inj h).symm, fun h => h ▸ rfl⟩
      simp only [hkey]

/-- **A configuration applies to every entry the directives for it.** -/
theorem scanConfig_eq (level : Nat) (config : Config) : ∀ tree : Tree,
    scanConfig level config tree =
      changeTreeAll (fun i f => (directivesFor tree config i).foldl (applyDirective level) f)
        tree := by
  induction config with
  | nil => exact fun tree => congrArg (Tree.mk tree.dot) (changeAll_id tree.entries 1).symm
  | cons part config ih =>
      intro tree
      have hsame : ∀ i f, SameEntry f (if findFilename tree part.1 = some i then
          part.2.foldl (applyDirective level) f else f) := by
        intro i f
        split
        · exact foldl_same level part.2 f
        · exact SameEntry.refl f
      refine (ih (configure level tree part)).trans ?_
      rw [configure_changeAll]
      have hfor : directivesFor (changeTreeAll (fun i f => if findFilename tree part.1 = some i then
          part.2.foldl (applyDirective level) f else f) tree) config = directivesFor tree config := by
        funext i
        rw [directivesFor, findFilename_changeTreeAll hsame, directivesFor]
      rw [hfor, changeTreeAll, changeTreeAll, changeTreeAll, changeAll_changeAll]
      have hstep : ∀ i f, (directivesFor tree config i).foldl (applyDirective level)
          (if findFilename tree part.1 = some i then part.2.foldl (applyDirective level) f else f) =
            (directivesFor tree (part :: config) i).foldl (applyDirective level) f := by
        intro i f
        rw [directivesFor, directivesFor, List.flatMap_cons, List.foldl_append]
        split <;> rfl
      simp only [hstep]

/-! ## The scan -/

/-- What is scanned has the names, and as many entries. -/
theorem scanEntries_names {dirents : Dirents} : ∀ {level : Nat} {e : Entries},
    scanEntries blocksize level dirents = some e →
    (sdbfs e).map Sdbf.basename = recordNames dirents ∧ e.count = recordCount dirents := by
  induction dirents with
  | nil =>
      intro level e h
      cases h
      exact ⟨rfl, rfl⟩
  | file name file rest ih =>
      intro level e h
      obtain ⟨e, he, rfl⟩ := Option.map_eq_some_iff.mp h
      exact ⟨congrArg (List.cons name) (ih he).1, congrArg (· + 1) (ih he).2⟩
  | other name rest ih => exact fun h => ih h
  | lost name rest => exact fun h => absurd h (Option.some_ne_none _).symm
  | dir name config sub rest _ ih =>
      intro level e h
      obtain ⟨s, -, h⟩ := Option.bind_eq_some_iff.mp h
      obtain ⟨e, he, rfl⟩ := Option.map_eq_some_iff.mp h
      exact ⟨congrArg (List.cons name) (ih he).1, congrArg (· + 1) (ih he).2⟩

/-- The number of records, in 16 bits. -/
theorem records_fillDot (level n : Nat) : records (fillDot level n) = n % 0x10000 :=
  congrArg BitVec.toNat (sdbRecords_setSdbRecords _ _)

/-- The directives of every entry, by the names of the directory. -/
theorem directivesFor_scanned {dirents : Dirents} {level : Nat} {e : Entries}
    (h : scanEntries blocksize level dirents = some e) (config : Config) :
    directivesFor ⟨fillDot level (e.count + 1), e⟩ config = directivesAt config dirents := by
  obtain ⟨hnames, hcount⟩ := scanEntries_names blocksize h
  have hfind : findFilename ⟨fillDot level (e.count + 1), e⟩ = nameIndex dirents := by
    funext s
    rw [findFilename, records_fillDot, hcount, nameIndex, ← hnames]
    refine Eq.trans ?_ (congrArg (List.findIdx? _) (List.map_take (f := Sdbf.basename)
      (l := treeSdbfs ⟨fillDot level (recordCount dirents + 1), e⟩)))
    rw [List.findIdx?_map]
    rfl
  funext i
  rw [directivesFor, hfind, directivesAt]

/-- **The entries of a directory, filled in and changed one by one.** -/
theorem scanEntries_built {dirents : Dirents} : ∀ {level i : Nat} {directives : Nat → List Directive},
    (scanEntries blocksize level dirents).map
        (changeAll (fun j f => (directives j).foldl (applyDirective level) f) i) =
      builtEntries blocksize level directives dirents i := by
  induction dirents with
  | nil => exact fun {_ _ _} => rfl
  | file name file rest ih =>
      intro level i directives
      rw [scanEntries, builtEntries, ← ih, Option.map_map, Option.map_map]
      rfl
  | other name rest ih => exact fun {_ _ _} => ih
  | lost name rest => exact fun {_ _ _} => rfl
  | dir name config sub rest ihsub ih =>
      intro level i directives
      rw [scanEntries, builtEntries, ← ih]
      cases hs : scanEntries blocksize (level + 1) sub with
      | none =>
          rw [← ihsub, hs]
          rfl
      | some s =>
          rw [← ihsub, hs, Option.bind_some, Option.map_some, Option.bind_some,
            Option.map_map, Option.map_map]
          refine congrArg (Option.map · _) (funext fun e => ?_)
          have hfor := directivesFor_scanned blocksize hs config
          rw [(scanEntries_names blocksize hs).2] at hfor
          simp only [scanConfig_eq, (scanEntries_names blocksize hs).2, hfor, changeTreeAll]
          rfl

/-- The tree of an input. -/
theorem prepareDir_built (config : Config) (dirents : Dirents) :
    prepareDir blocksize config dirents =
      (builtEntries blocksize 0 (directivesAt config dirents) dirents 1).map fun e =>
        ⟨(directivesAt config dirents 0).foldl (applyDirective 0)
          (fillDot 0 (recordCount dirents + 1)), e⟩ := by
  rw [prepareDir, ← scanEntries_built]
  cases h : scanEntries blocksize 0 dirents with
  | none => rfl
  | some e =>
      rw [Option.map_some, Option.map_some, Option.map_some, scanConfig_eq,
        directivesFor_scanned blocksize h config, (scanEntries_names blocksize h).2]
      rfl

end GensdbfsInput
