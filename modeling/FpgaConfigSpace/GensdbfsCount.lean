import Mathlib.Data.List.Nodup
import FpgaConfigSpace.GensdbfsDescriptors
import FpgaConfigSpace.GensdbfsMoved

/-! # The number of entries

    The entries of a directory are counted in an `int`, and the count is stored in the 16 bits
    of `sdb_records`.  `find_filename`, `alloc_storage` and `write_sdb` read it back, and stop
    there: of a directory with 65535 entries nothing at all is written, and of a larger one
    the first few.  An entry that `write_sdb` gets to is dropped as well if it cannot be
    opened, and that depends on the number of directories: each of them keeps a descriptor. -/

namespace GensdbfsCount

open BigEndian SdbRecord SdbFields SdbfsOpen FileWrites Gensdbfs GensdbfsLayout GensdbfsConfig
open GensdbfsText GensdbfsInput GensdbfsApart GensdbfsErase GensdbfsMain GensdbfsMoved
open GensdbfsDescriptors

/-! ## What is emitted -/

/-- The place of an entry. -/
def placeOf (base : ULong) (f : Sdbf) : ULong := if f.userpos then f.ustart else base + f.rstart

/-- An entry has its place, and its record says so. -/
structure Allocated (f : Sdbf) : Prop where
  first : addrFirst f.record = if f.userpos then f.ustart else f.rstart
  size : addrLast f.record + 1 - addrFirst f.record = f.size

/-- The table of a directory with `n` entries: it is counted right, it has a record for each of
    them, and it is written, at its place unless `fseek` refuses it. -/
structure TableEmitted (part : Part) (dot : Sdbf) (e : Entries) (n : Nat) : Prop where
  records_eq : records dot = n + 1
  table_eq : tableOf dot e = dot.record :: (sdbfs e).map Sdbf.record
  length_eq : (tableOf dot e).length = n + 1
  written : part.isTable = true ∧ part.pieces = (tableOf dot e).map recordBytes
  place : (dot.base + dot.ustart).msb = false → part.pos = (dot.base + dot.ustart).toNat

/-- A file is written whole, at its place unless `fseek` refuses it. -/
structure FileEmitted (part : Part) (place : ULong) (file : RegularFile) : Prop where
  written : part.isTable = false ∧ file.contents = some part.pieces.flatten
  place : place.msb = false → part.pos = place.toNat

/-- The files and the subdirectories of a directory at `base` have all been given their places,
    and these parts are what is written for them and for those below, one part for each. -/
def EntriesEmitted : (base : ULong) → Dirents → Entries → List Part → Prop
  | _, .nil, e, parts => e = .nil ∧ parts = []
  | base, .file name file rest, e, parts => ∃ f left part behind, e = .file f file left ∧
      parts = part :: behind ∧ f.basename = name ∧ Allocated f ∧
      FileEmitted part (placeOf base f) file ∧ EntriesEmitted base rest left behind
  | base, .other _ rest, e, parts => EntriesEmitted base rest e parts
  | _, .lost _ _, _, _ => False
  | base, .dir name _ sub rest, e, parts => ∃ f dot below left part within behind,
      e = .subdir f dot below left ∧ parts = part :: within ++ behind ∧ f.basename = name ∧
      Allocated f ∧ TableEmitted part dot below (recordCount sub) ∧
      EntriesEmitted dot.base sub below within ∧ EntriesEmitted base rest left behind

variable (blocksize : BitVec 32) (limit : Nat)

/-- What the program writes for an allocated tree has everything. -/
structure TreeEmitted (opens : Nat → Bool) (dirents : Dirents) (tree : Tree)
    (ws : List (Write Byte)) : Prop where
  writes : ∃ more, ws = (openedTree blocksize opens tree).flatMap Part.writes ++ more
  parts : ∃ part behind, openedTree blocksize opens tree = part :: behind ∧
    TableEmitted part tree.dot tree.entries (recordCount dirents) ∧
    EntriesEmitted tree.dot.base dirents tree.entries behind

/-- Nothing of a directory is dropped. -/
def EmitsAll (devsize : ULong) (config : Config) (dirents : Dirents) : Prop :=
  ∃ tree used, prepareWithin blocksize limit config dirents = some (tree, used) ∧
    TreeEmitted blocksize (spare limit used) dirents (allocStorage blocksize tree)
      (gensdbfsWithin blocksize limit devsize config dirents).2

/-- The directories below have fewer than 65535 entries each. -/
def SubdirsFew : Dirents → Prop
  | .nil => True
  | .file _ _ rest => SubdirsFew rest
  | .other _ rest => SubdirsFew rest
  | .lost _ rest => SubdirsFew rest
  | .dir _ _ sub rest => recordCount sub < 0xffff ∧ SubdirsFew sub ∧ SubdirsFew rest

/-- Every file and every subdirectory can be opened when `write_sdb` comes to it, and every
    file can be copied. -/
def Openable : (opens : Nat → Bool) → Dirents → Prop
  | _, .nil => True
  | opens, .file _ file rest =>
      (opens 0 = true ∧ file.contents ≠ none ∧ Copyable blocksize file.size) ∧ Openable opens rest
  | opens, .other _ rest => Openable opens rest
  | opens, .lost _ rest => Openable opens rest
  | opens, .dir _ _ sub rest =>
      opens 0 = true ∧ Openable (fun n => opens (n + 1)) sub ∧ Openable opens rest

/-! ## What is counted is few, and opened -/

/-- There is no count that 16 bits don't hold. -/
theorem TableEmitted.few {part : Part} {dot : Sdbf} {e : Entries} {n : Nat}
    (h : TableEmitted part dot e n) : n < 0xffff := by
  have hle := records_le dot
  rw [h.records_eq] at hle
  exact hle

/-- Nor are there too many below. -/
theorem subdirsFew_of_emitted {dirents : Dirents} : ∀ {base : ULong} {e : Entries}
    {parts : List Part}, EntriesEmitted base dirents e parts → SubdirsFew dirents := by
  induction dirents with
  | nil => exact fun _ => trivial
  | file name file rest ih =>
      rintro base e parts ⟨f, left, part, behind, -, -, -, -, -, hrest⟩
      exact ih hrest
  | other name rest ih => exact fun h => ih h
  | lost name rest => exact fun h => h.elim
  | dir name config sub rest ihsub ih =>
      rintro base e parts ⟨f, dot, below, left, part, within, behind, -, -, -, -, htable, hsub, hrest⟩
      exact ⟨htable.few, ihsub hsub, ih hrest⟩

/-- The entries of a directory and of those below. -/
def entriesBelow : Entries → Nat
  | .nil => 0
  | .file _ _ rest => entriesBelow rest + 1
  | .subdir _ _ sub rest => entriesBelow sub + 1 + entriesBelow rest

/-- There is one part for each of them, and never more. -/
theorem length_of_emitted {dirents : Dirents} : ∀ {base : ULong} {e : Entries} {parts : List Part},
    EntriesEmitted base dirents e parts → parts.length = entriesBelow e := by
  induction dirents with
  | nil =>
      rintro base e parts ⟨rfl, rfl⟩
      rfl
  | file name file rest ih =>
      rintro base e parts ⟨f, left, part, behind, rfl, rfl, -, -, -, hrest⟩
      exact congrArg (· + 1) (ih hrest)
  | other name rest ih => exact fun h => ih h
  | lost name rest => exact fun h => h.elim
  | dir name config sub rest ihsub ih =>
      rintro base e parts ⟨f, dot, below, left, part, within, behind, rfl, rfl, -, -, -, hsub, hrest⟩
      rw [List.length_append, List.length_cons, ihsub hsub, ih hrest, entriesBelow]

theorem length_openedParts (e : Entries) : ∀ (opens : Nat → Bool) (base : ULong) (left pos : Nat),
    (openedParts blocksize opens base left e pos).length ≤ entriesBelow e := by
  induction e with
  | nil => exact fun opens base left pos => by cases left <;> exact Nat.le_refl _
  | file f file rest ih =>
      intro opens base left pos
      cases left with
      | zero => exact Nat.zero_le _
      | succ left =>
          rw [openedParts]
          split
          · exact Nat.succ_le_succ (ih opens base left _)
          · exact Nat.le_succ_of_le (ih opens base left pos)
  | subdir f dot sub rest ihsub ih =>
      intro opens base left pos
      cases left with
      | zero => exact Nat.zero_le _
      | succ left =>
          rw [openedParts]
          split
          · simp only [List.length_append, List.length_cons]
            exact Nat.add_le_add (Nat.succ_le_succ (ihsub _ _ _ _)) (ih opens base left _)
          · exact Nat.le_trans (ih opens base left pos) (Nat.le_add_left _ _)

/-- Two lists that make up others, and are no longer than these, are these. -/
theorem append_inj_of_le {xs ys xs' ys' : List Part} (h : xs ++ ys = xs' ++ ys')
    (hx : xs.length ≤ xs'.length) (hy : ys.length ≤ ys'.length) : xs = xs' ∧ ys = ys' := by
  have htotal := congrArg List.length h
  rw [List.length_append, List.length_append] at htotal
  exact List.append_inj h (by omega)

/-- If there is a part for each, every entry was opened. -/
theorem openable_of_emitted {dirents : Dirents} : ∀ {opens : Nat → Bool} {base : ULong} {left : Nat}
    {e : Entries} {pos : Nat},
    EntriesEmitted base dirents e (openedParts blocksize opens base left e pos) →
    Openable blocksize opens dirents := by
  induction dirents with
  | nil => exact fun _ => trivial
  | file name file rest ih =>
      rintro opens base left e pos ⟨f, e, part, behind, rfl, hparts, -, -, hfile, hrest⟩
      have hlength := length_of_emitted hrest
      cases left with
      | zero =>
          rw [openedParts] at hparts
          cases hparts
      | succ left =>
          rw [openedParts] at hparts
          by_cases hopen : (opens 0 && file.contents.isSome) = true
          · rw [if_pos hopen] at hparts
            obtain ⟨rfl, rfl⟩ := List.cons.inj hparts
            have hwhole := hfile.written.2
            have hcopied := (filePieces_flatten_iff hwhole).mp rfl
            refine ⟨⟨(Bool.and_eq_true _ _ ▸ hopen).1, ?_, hcopied⟩, ih hrest⟩
            rw [hwhole]
            exact Option.some_ne_none _
          · -- one part is missing
            rw [if_neg hopen] at hparts
            have hle := length_openedParts blocksize e opens base left pos
            rw [hparts, List.length_cons] at hle
            omega
  | other name rest ih => exact fun h => ih h
  | lost name rest => exact fun h => h.elim
  | dir name config sub rest ihsub ih =>
      rintro opens base left e pos
        ⟨f, dot, below, e, part, within, behind, rfl, hparts, -, -, -, hsub, hrest⟩
      have hlength := length_of_emitted hrest
      have hlengthSub := length_of_emitted hsub
      cases left with
      | zero =>
          rw [openedParts] at hparts
          cases hparts
      | succ left =>
          rw [openedParts] at hparts
          by_cases hopen : opens 0 = true
          · rw [if_pos hopen] at hparts
            simp only [List.cons_append, List.cons.injEq] at hparts
            obtain ⟨hwithin, hbehind⟩ := append_inj_of_le hparts.2
              (by rw [hlengthSub]; exact length_openedParts blocksize _ _ _ _ _)
              (by rw [hlength]; exact length_openedParts blocksize _ _ _ _ _)
            rw [← hwithin] at hsub
            rw [← hbehind] at hrest
            exact ⟨hopen, ihsub hsub, ih hrest⟩
          · rw [if_neg hopen] at hparts
            have hle := length_openedParts blocksize e opens base left pos
            rw [hparts, List.length_append, List.length_cons] at hle
            omega

/-! ## What is scanned -/

/-- The entries of a scanned directory are those of the input; the interconnects below count
    them in 16 bits. -/
def EntriesOf : Dirents → Entries → Prop
  | .nil, e => e = .nil
  | .file name file rest, e => ∃ f left, e = .file f file left ∧ f.basename = name ∧
      EntriesOf rest left
  | .other _ rest, e => EntriesOf rest e
  | .lost _ _, _ => False
  | .dir name _ sub rest, e => ∃ f dot below left, e = .subdir f dot below left ∧
      f.basename = name ∧ records dot = counted sub ∧ EntriesOf sub below ∧ EntriesOf rest left

/-- What is built of a directory is made of its entries. -/
theorem entriesOf_built {dirents : Dirents} : ∀ {level i : Nat}
    {directives : Nat → List Directive} {e : Entries},
    builtEntries blocksize level directives dirents i = some e → EntriesOf dirents e := by
  induction dirents with
  | nil => exact fun h => (Option.some.inj h).symm
  | file name file rest ih =>
      intro level i directives e h
      obtain ⟨left, hleft, rfl⟩ := Option.map_eq_some_iff.mp h
      exact ⟨_, left, rfl, (foldl_same level _ _).name_eq, ih hleft⟩
  | other name rest ih => exact fun h => ih h
  | lost name rest => exact fun h => absurd h (Option.some_ne_none _).symm
  | dir name config sub rest ihsub ih =>
      intro level i directives e h
      obtain ⟨below, hbelow, h⟩ := Option.bind_eq_some_iff.mp h
      obtain ⟨left, hleft, rfl⟩ := Option.map_eq_some_iff.mp h
      refine ⟨_, _, below, left, rfl, (foldl_same level _ _).name_eq, ?_, ihsub hbelow, ih hleft⟩
      exact (foldl_same (level + 1) _ _).records.trans (records_fillDot _ _)

/-- A configuration file that is not read takes no entry away. -/
theorem recordCount_fewer {dirents : Dirents} : ∀ {d : Dirents}, FewerConfigs dirents d →
    recordCount d = recordCount dirents := by
  induction dirents with
  | nil =>
      rintro d rfl
      rfl
  | file name file rest ih =>
      rintro d ⟨rest', rfl, hrest⟩
      exact congrArg (· + 1) (ih hrest)
  | other name rest ih =>
      rintro d ⟨rest', rfl, hrest⟩
      have hcount := ih hrest
      exact hcount
  | lost name rest ih =>
      rintro d ⟨rest', rfl, hrest⟩
      have hcount := ih hrest
      exact hcount
  | dir name config sub rest _ ih =>
      rintro d ⟨config', sub', rest', rfl, -, -, hrest⟩
      exact congrArg (· + 1) (ih hrest)

/-- Configuration files make no entries. -/
theorem entriesOf_fewer {dirents : Dirents} : ∀ {d : Dirents} {e : Entries},
    FewerConfigs dirents d → EntriesOf d e → EntriesOf dirents e := by
  induction dirents with
  | nil =>
      rintro d e rfl h
      exact h
  | file name file rest ih =>
      rintro d e ⟨rest', rfl, hrest⟩ ⟨f, left, rfl, hname, hleft⟩
      exact ⟨f, left, rfl, hname, ih hrest hleft⟩
  | other name rest ih =>
      rintro d e ⟨rest', rfl, hrest⟩ h
      exact ih hrest h
  | lost name rest ih =>
      rintro d e ⟨rest', rfl, -⟩ h
      exact h
  | dir name config sub rest ihsub ih =>
      rintro d e ⟨config', sub', rest', rfl, -, hsub, hrest⟩
        ⟨f, dot, below, left, rfl, hname, hrecords, hbelow, hleft⟩
      rw [counted, recordCount_fewer hsub] at hrecords
      exact ⟨f, dot, below, left, rfl, hname, hrecords, ihsub hsub hbelow, ih hrest hleft⟩

/-- Nothing is lost of a count that fits. -/
theorem counted_few {dirents : Dirents} (h : recordCount dirents < 0xffff) :
    counted dirents = recordCount dirents + 1 :=
  Nat.mod_eq_of_lt (Nat.succ_lt_succ h)

/-! ## What is allocated -/

/-- Placing an entry makes its record say so. -/
theorem allocated_place (f : Sdbf) (rpos : ULong) : Allocated (place f rpos) where
  first := by
    rw [userpos_place]
    cases huser : f.userpos with
    | true => rw [if_pos rfl, addrFirst_place_user rpos huser, place, if_pos huser]
    | false => rw [if_neg Bool.false_ne_true, addrFirst_place rpos huser, rstart_place rpos huser]
  size := (size_place f rpos).trans (place_size f rpos).symm

theorem basename_place (f : Sdbf) (rpos : ULong) : (place f rpos).basename = f.basename := by
  rw [place]
  split <;> rfl

/-- The entries of an allocated directory: all of them have places, and are counted. -/
def AllAllocated : Dirents → Entries → Prop
  | .nil, e => e = .nil
  | .file name file rest, e => ∃ f left, e = .file f file left ∧ f.basename = name ∧
      Allocated f ∧ AllAllocated rest left
  | .other _ rest, e => AllAllocated rest e
  | .lost _ _, _ => False
  | .dir name _ sub rest, e => ∃ f dot below left, e = .subdir f dot below left ∧
      f.basename = name ∧ Allocated f ∧ records dot = recordCount sub + 1 ∧
      AllAllocated sub below ∧ AllAllocated rest left

/-- If the counts fit, the loop of `alloc_storage` gets to every entry. -/
theorem allAllocated_alloc {dirents : Dirents} : ∀ {base rpos last : ULong} {e : Entries},
    EntriesOf dirents e → SubdirsFew dirents →
    AllAllocated dirents (allocEntries blocksize base (recordCount dirents) e rpos last).1 := by
  induction dirents with
  | nil =>
      rintro base rpos last e rfl -
      rfl
  | file name file rest ih =>
      rintro base rpos last e ⟨f, left, rfl, hname, hleft⟩ hfew
      exact ⟨_, _, rfl, (basename_place f rpos).trans hname, allocated_place f rpos,
        ih hleft hfew⟩
  | other name rest ih => exact fun h hfew => ih h hfew
  | lost name rest => exact fun h => h.elim
  | dir name config sub rest ihsub ih =>
      rintro base rpos last e ⟨f, dot, below, left, rfl, hname, hrecords, hbelow, hleft⟩
        ⟨hfewHere, hfewSub, hfew⟩
      rw [counted_few hfewHere] at hrecords
      rw [recordCount, allocEntries, hrecords, Nat.add_sub_cancel]
      refine ⟨_, _, _, _, rfl, (basename_place _ rpos).trans hname, allocated_place _ rpos, ?_,
        ihsub hbelow hfewSub, ih hleft hfew⟩
      exact (records_closeDir _ _ _).trans hrecords

/-- There are as many entries as files and subdirectories. -/
theorem AllAllocated.length {dirents : Dirents} : ∀ {e : Entries}, AllAllocated dirents e →
    (sdbfs e).length = recordCount dirents := by
  induction dirents with
  | nil =>
      rintro e rfl
      rfl
  | file name file rest ih =>
      rintro e ⟨f, left, rfl, -, -, hrest⟩
      exact congrArg (· + 1) (ih hrest)
  | other name rest ih => exact fun h => ih h
  | lost name rest => exact fun h => h.elim
  | dir name config sub rest _ ih =>
      rintro e ⟨f, dot, below, left, rfl, -, -, -, -, hrest⟩
      exact congrArg (· + 1) (ih hrest)

/-! ## What is written -/

/-- If all records are counted, the table has all of them. -/
theorem tableRecords_all (e : Entries) :
    tableRecords (sdbfs e).length e = (sdbfs e).map Sdbf.record := by
  induction e with
  | nil => rfl
  | file f file rest ih => exact congrArg (List.cons f.record) ih
  | subdir f dot sub rest _ ih => exact congrArg (List.cons f.record) ih

/-- A place below 2^63 is where `fseek` goes. -/
theorem seek_of_msb {offset : ULong} (pos : Nat) (hmsb : offset.msb = false) :
    seek pos offset = offset.toNat := by
  rw [seek, hmsb, if_neg Bool.false_ne_true]

/-- A table that counts its entries. -/
theorem tableEmitted_of {dirents : Dirents} {dot : Sdbf} {e : Entries} (pos : Nat)
    (he : AllAllocated dirents e) (hrecords : records dot = recordCount dirents + 1) :
    TableEmitted ⟨true, seek pos (dot.base + dot.ustart), (tableOf dot e).map recordBytes⟩ dot e
      (recordCount dirents) := by
  have htable : tableOf dot e = dot.record :: (sdbfs e).map Sdbf.record := by
    rw [tableOf_eq hrecords, ← he.length, tableRecords_all]
  refine ⟨hrecords, htable, ?_, ⟨rfl, rfl⟩, seek_of_msb pos⟩
  rw [htable, List.length_cons, List.length_map, he.length]

/-- The loop of `write_sdb` gets to every entry. -/
theorem emitted_openedParts {dirents : Dirents} : ∀ {opens : Nat → Bool} {base : ULong}
    {e : Entries} {pos : Nat}, AllAllocated dirents e → Openable blocksize opens dirents →
    EntriesEmitted base dirents e
      (openedParts blocksize opens base (recordCount dirents) e pos) := by
  induction dirents with
  | nil =>
      rintro opens base e pos rfl -
      exact ⟨rfl, rfl⟩
  | file name file rest ih =>
      rintro opens base e pos ⟨f, left, rfl, hname, halloc, hleft⟩ ⟨⟨hopen, hreadable, hcopy⟩, hrest⟩
      obtain ⟨bytes, hc⟩ := Option.ne_none_iff_exists'.mp hreadable
      have hopened : (opens 0 && file.contents.isSome) = true := by
        rw [hopen, hc]
        rfl
      rw [recordCount, openedParts, if_pos hopened]
      refine ⟨f, left, _, _, rfl, rfl, hname, halloc, ⟨⟨rfl, ?_⟩, seek_of_msb pos⟩, ih hleft hrest⟩
      rw [(filePieces_flatten_iff hc).mpr hcopy, hc]
  | other name rest ih => exact fun h hopen => ih h hopen
  | lost name rest => exact fun h => h.elim
  | dir name config sub rest ihsub ih =>
      rintro opens base e pos ⟨f, dot, below, left, rfl, hname, halloc, hrecords, hbelow, hleft⟩
        ⟨hopen, hsub, hrest⟩
      rw [recordCount, openedParts, if_pos hopen, hrecords, Nat.add_sub_cancel]
      exact ⟨f, dot, below, left, _, _, _, rfl, rfl, hname, halloc,
        tableEmitted_of _ hbelow hrecords, ihsub hbelow hsub, ih hleft hrest⟩

/-! ## The program -/

variable {blocksize limit}

/-- A run that gets to the end has written its tree, whatever the size of the device. -/
theorem gensdbfsWithin_writes {devsize : ULong} {config : Config} {dirents : Dirents} {tree : Tree}
    {used : Nat} (htree : prepareWithin blocksize limit config dirents = some (tree, used)) :
    ∃ more, (gensdbfsWithin blocksize limit devsize config dirents).2 =
      (openedTree blocksize (spare limit used) (allocStorage blocksize tree)).flatMap Part.writes ++
        more := by
  rw [gensdbfsWithin, htree]
  simp only [finishWith]
  rw [← output_writes]
  split
  · rw [fseek_pos]
    exact ⟨_, rfl⟩
  · exact ⟨[], (List.append_nil _).symm⟩

/-- The top directory of a scanned tree. -/
theorem prepareDir_entriesOf {config : Config} {dirents : Dirents} {tree : Tree}
    (htree : prepareDir blocksize config dirents = some tree) :
    EntriesOf dirents tree.entries ∧ records tree.dot = counted dirents := by
  rw [prepareDir_built] at htree
  obtain ⟨e, he, rfl⟩ := Option.map_eq_some_iff.mp htree
  exact ⟨entriesOf_built blocksize he, (foldl_same 0 _ _).records.trans (records_fillDot _ _)⟩

/-- The tree that is prepared has the entries of the directory, and counts them in 16 bits. -/
theorem prepareWithin_entriesOf {config : Config} {dirents : Dirents} {tree : Tree} {used : Nat}
    (htree : prepareWithin blocksize limit config dirents = some (tree, used)) :
    EntriesOf dirents tree.entries ∧ records tree.dot = counted dirents := by
  obtain ⟨config', d, -, hfewer, hprepared⟩ := prepareWithin_tree htree
  obtain ⟨hentries, hrecords⟩ := prepareDir_entriesOf hprepared
  rw [counted, recordCount_fewer hfewer] at hrecords
  exact ⟨entriesOf_fewer hfewer hentries, hrecords⟩

/-- **Few entries, and all of them opened, are emitted.** -/
theorem treeEmitted_of_few {devsize : ULong} {config : Config} {dirents : Dirents} {tree : Tree}
    {used : Nat} (htree : prepareWithin blocksize limit config dirents = some (tree, used))
    (hfew : recordCount dirents < 0xffff) (hsubdirs : SubdirsFew dirents)
    (hopen : Openable blocksize (spare limit used) dirents) :
    TreeEmitted blocksize (spare limit used) dirents (allocStorage blocksize tree)
      (gensdbfsWithin blocksize limit devsize config dirents).2 := by
  obtain ⟨hentries, hrecords⟩ := prepareWithin_entriesOf htree
  rw [counted_few hfew] at hrecords
  have hleft : records tree.dot - 1 = recordCount dirents :=
    (congrArg (· - 1) hrecords).trans (Nat.add_sub_cancel _ 1)
  have hclosed : records (allocStorage blocksize tree).dot = recordCount dirents + 1 :=
    (records_closeDir tree.dot _ _).trans hrecords
  have halloc : AllAllocated dirents (allocStorage blocksize tree).entries := by
    simp only [allocStorage, hleft]
    exact allAllocated_alloc blocksize hentries hsubdirs
  refine ⟨gensdbfsWithin_writes htree, ?_⟩
  rw [openedTree, hclosed, Nat.add_sub_cancel]
  exact ⟨_, _, rfl, tableEmitted_of 0 halloc hclosed, emitted_openedParts blocksize halloc hopen⟩

/-- **A run that succeeds has emitted everything if and only if every directory has fewer than
    65535 entries, and every entry can be opened.**  A directory keeps a descriptor to the end,
    so the files at a level need one more than the directories and the levels above take. -/
theorem emits_all_iff {devsize : ULong} {config : Config} {dirents : Dirents}
    (hone : OneConfig dirents)
    (hrun : (gensdbfsWithin blocksize limit devsize config dirents).1 = true) :
    EmitsAll blocksize limit devsize config dirents ↔
      recordCount dirents < 0xffff ∧ SubdirsFew dirents ∧
        Openable blocksize (spare limit (directories dirents + 1)) dirents := by
  constructor
  · rintro ⟨tree, used, htree, hall⟩
    obtain ⟨part, behind, hparts, htable, hentries⟩ := hall.parts
    obtain ⟨-, rfl⟩ := List.cons.inj hparts
    rw [← prepareWithin_used htree hone]
    exact ⟨htable.few, subdirsFew_of_emitted hentries, openable_of_emitted blocksize hentries⟩
  · rintro ⟨hfew, hsubdirs, hopen⟩
    cases htree : prepareWithin blocksize limit config dirents with
    | none =>
        rw [gensdbfsWithin, htree] at hrun
        cases hrun
    | some prepared =>
        obtain ⟨tree, used⟩ := prepared
        rw [← prepareWithin_used htree hone] at hopen
        exact ⟨tree, used, htree, treeEmitted_of_few htree hfew hsubdirs hopen⟩

/-- A directory "d" with a file "f", and a file "g": four descriptors are enough. -/
theorem emits_all_nested : EmitsAll 64 4 0 [] (nested (readable [0xaa, 0xbb] (by decide))) := by
  have hone : OneConfig (nested (readable [0xaa, 0xbb] (by decide))) :=
    ⟨Nat.zero_le 1, Nat.zero_le 1, trivial, trivial⟩
  have hrun : (gensdbfsWithin 64 4 0 [] (nested (readable [0xaa, 0xbb] (by decide)))).1 = true := by
    rw [gensdbfsWithin_enough hone (fun _ => rfl) ⟨fun _ => rfl, trivial, trivial⟩ (Nat.le_refl 4),
      gensdbfs, nested_scan]
    rfl
  exact (emits_all_iff hone hrun).mpr ⟨(by decide : 2 < 0xffff), ⟨(by decide : 1 < 0xffff), trivial,
    trivial⟩, rfl, ⟨⟨rfl, Option.some_ne_none _, .inr ⟨by decide, by decide⟩⟩, trivial⟩,
    ⟨rfl, Option.some_ne_none _, .inr ⟨by decide, by decide⟩⟩, trivial⟩

/-! ## A full directory -/

/-- A letter from "a" to "p". -/
def letter (k : Fin 16) : Byte := BitVec.ofNat 8 (0x61 + k.val)

/-- No two letters are the same. -/
theorem letter_injective : ∀ i j : Fin 16, letter i = letter j → i = j := by decide

/-- They are none of them zero. -/
theorem letter_ne_zero : ∀ k : Fin 16, letter k ≠ 0 := by decide

/-- The lowest digit of a number, to the base 16. -/
def digit (n : Nat) : Fin 16 := ⟨n % 16, Nat.mod_lt n (by decide)⟩

/-- "aaaa", "baaa" and so on: a name of four letters for each of the first 65536 numbers. -/
def numbered (n : Nat) : CString where
  chars := [letter (digit n), letter (digit (n / 16)), letter (digit (n / 256)),
    letter (digit (n / 4096))]
  noNul := by
    intro h
    simp only [List.mem_cons, List.not_mem_nil, or_false] at h
    rcases h with h | h | h | h <;> exact letter_ne_zero _ h.symm

/-- Different numbers have different names. -/
theorem numbered_injective {m n : Nat} (hm : m < 0x10000) (hn : n < 0x10000)
    (h : numbered m = numbered n) : m = n := by
  have hchars := congrArg CString.chars h
  simp only [numbered, List.cons.injEq, and_true] at hchars
  obtain ⟨h0, h1, h2, h3⟩ := hchars
  have d0 := Fin.val_eq_of_eq (letter_injective _ _ h0)
  have d1 := Fin.val_eq_of_eq (letter_injective _ _ h1)
  have d2 := Fin.val_eq_of_eq (letter_injective _ _ h2)
  have d3 := Fin.val_eq_of_eq (letter_injective _ _ h3)
  simp only [digit] at d0 d1 d2 d3
  omega

/-- A directory of empty files. -/
def manyFiles : Nat → Dirents
  | 0 => .nil
  | n + 1 => .file (numbered n) (readable [] (by decide)) (manyFiles n)

theorem recordCount_manyFiles (n : Nat) : recordCount (manyFiles n) = n := by
  induction n with
  | zero => rfl
  | succ n ih => exact congrArg (· + 1) ih

/-- The names of the directory. -/
theorem recordNames_manyFiles (n : Nat) :
    recordNames (manyFiles n) = ((List.range n).map numbered).reverse := by
  induction n with
  | zero => rfl
  | succ n ih =>
      rw [List.range_succ, List.map_append, List.reverse_append, ← ih]
      rfl

/-- All of it is scanned. -/
theorem scanEntries_manyFiles (level n : Nat) :
    ∃ e, scanEntries blocksize level (manyFiles n) = some e := by
  induction n with
  | zero => exact ⟨_, rfl⟩
  | succ n ih =>
      obtain ⟨e, he⟩ := ih
      exact ⟨_, Option.map_eq_some_iff.mpr ⟨e, he, rfl⟩⟩

/-- There are no directories among the files. -/
theorem manyFiles_flat (n : Nat) : configEntries (manyFiles n) = 0 ∧
    OneConfigBelow (manyFiles n) ∧ ListedBelow (manyFiles n) ∧
    directories (manyFiles n) = 0 ∧ nesting (manyFiles n) = 0 := by
  induction n with
  | zero => exact ⟨rfl, trivial, trivial, rfl, rfl⟩
  | succ n ih => exact ih

theorem gensdbfsWithin_manyFiles {devsize : ULong} {n : Nat} (hlimit : 2 ≤ limit) :
    gensdbfsWithin blocksize limit devsize [] (manyFiles n) =
      gensdbfs blocksize devsize [] (manyFiles n) := by
  obtain ⟨hconfig, hone, hlisted, hdirs, hlevels⟩ := manyFiles_flat n
  exact gensdbfsWithin_enough ⟨by omega, hone⟩ (fun _ => rfl) hlisted (by omega)

/-- The program succeeds on 65535 files, and not even the table of the directory is written:
    it has no records.  It succeeds as well if three descriptors are left for a directory "d"
    with a file "f" and a file "g", and "f" is dropped. -/
theorem emits_all_full :
    (∃ dirents, (recordNames dirents).Nodup ∧ recordCount dirents = 0xffff ∧
      (gensdbfsWithin 64 1020 0 [] dirents).1 = true ∧ ¬ EmitsAll 64 1020 0 [] dirents ∧
      ∃ tree, prepareDir 64 [] dirents = some tree ∧ records tree.dot = 0) ∧
    (gensdbfsWithin 64 3 0 [] (nested (readable [0xaa, 0xbb] (by decide)))).1 = true ∧
    ¬ EmitsAll 64 3 0 [] (nested (readable [0xaa, 0xbb] (by decide))) := by
  obtain ⟨e, he⟩ := @scanEntries_manyFiles 64 0 0xffff
  have hcount : recordCount (manyFiles 0xffff) = 0xffff := recordCount_manyFiles 0xffff
  have htree : prepareDir 64 [] (manyFiles 0xffff) = some ⟨fillDot 0 (e.count + 1), e⟩ :=
    Option.map_eq_some_iff.mpr ⟨e, he, rfl⟩
  refine ⟨⟨manyFiles 0xffff, ?_, hcount, ?_, ?_, _, htree, ?_⟩, ?_, ?_⟩
  · rw [recordNames_manyFiles, List.nodup_reverse]
    refine List.Nodup.map_on (fun m hm n hn h => ?_) List.nodup_range
    exact numbered_injective (Nat.lt_succ_of_lt (List.mem_range.mp hm))
      (Nat.lt_succ_of_lt (List.mem_range.mp hn)) h
  · rw [gensdbfsWithin_manyFiles (by decide), gensdbfs, htree]
    rfl
  · rintro ⟨tree, used, -, hall⟩
    obtain ⟨part, behind, -, htable, -⟩ := hall.parts
    exact absurd (hcount ▸ htable.few) (Nat.lt_irrefl _)
  · rw [(prepareDir_entriesOf htree).2, counted, hcount]
  · rfl
  · rintro ⟨tree, used, htree, hall⟩
    have hused := prepareWithin_used htree ⟨Nat.zero_le 1, Nat.zero_le 1, trivial, trivial⟩
    rw [hused] at hall
    obtain ⟨part, behind, hparts, -, hentries⟩ := hall.parts
    obtain ⟨-, rfl⟩ := List.cons.inj hparts
    have hopen := openable_of_emitted 64 hentries
    exact Bool.false_ne_true hopen.2.1.1.1

end GensdbfsCount
