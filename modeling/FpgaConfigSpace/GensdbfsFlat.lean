import Mathlib.Data.List.Perm.Basic
import FpgaConfigSpace.GensdbfsCount
import FpgaConfigSpace.GensdbfsFit
import FpgaConfigSpace.Lib.Paired

/-! # Images without subdirectories

    The entries of a flat directory are a list of files.  Every name gets the directives
    below it, every file its place, and the image is the table, followed by the contents
    of the files, each at the address in its record. -/

namespace GensdbfsFlat

open BigEndian SdbRecord SdbFields SdbfsOpen FileWrites Gensdbfs GensdbfsLayout GensdbfsConfig
open GensdbfsText GensdbfsInput GensdbfsApart GensdbfsTables GensdbfsErase GensdbfsMain
open GensdbfsMoved GensdbfsFit GensdbfsCount

/-! ## Flat directories -/

/-- Nothing but files, and what is ignored. -/
def Flat : Dirents → Prop
  | .nil => True
  | .file _ _ rest => Flat rest
  | .other _ rest => Flat rest
  | .lost _ _ => False
  | .dir _ _ _ _ => False

/-- A file of the tree, and what it was made from. -/
abbrev FileEntry := Sdbf × RegularFile

/-- The entries that are files. -/
def entriesOf : List FileEntry → Entries
  | [] => .nil
  | x :: xs => .file x.1 x.2 (entriesOf xs)

/-- The directives below a name. -/
def directivesOf (config : Config) (name : CString) : List Directive :=
  config.flatMap fun part => if part.1.chars = name.chars then part.2 else []

variable (blocksize : BitVec 32)

/-- A file as it is filled in, and configured. -/
def configured (config : Config) (x : CString × RegularFile) : FileEntry :=
  ((directivesOf config x.1).foldl (applyDirective 0) (fillFile blocksize 0 x.1 x.2), x.2)

/-- A directory whose names are told apart, and counted. -/
structure FlatInput (dirents : Dirents) : Prop where
  flat : Flat dirents
  nodup : (dotName :: (dirFiles dirents).map Prod.fst).Nodup
  few : (dirFiles dirents).length < 0xffff

/-- In a flat directory the records are those of the files. -/
theorem recordNames_flat {dirents : Dirents} (h : Flat dirents) :
    recordNames dirents = (dirFiles dirents).map Prod.fst ∧
      recordCount dirents = (dirFiles dirents).length := by
  induction dirents with
  | nil => exact ⟨rfl, rfl⟩
  | file name file rest ih =>
      obtain ⟨hnames, hcount⟩ := ih h
      exact ⟨congrArg (List.cons name) hnames, congrArg (· + 1) hcount⟩
  | other name rest ih => exact ih h
  | lost name rest => exact h.elim
  | dir name config sub rest => exact h.elim

/-- A name stands for the record that has it. -/
theorem directivesAt_flat (config : Config) {dirents : Dirents} (h : FlatInput dirents) {i : Nat}
    {name : CString} (hi : (dotName :: (dirFiles dirents).map Prod.fst)[i]? = some name) :
    directivesAt config dirents i = directivesOf config name := by
  obtain ⟨hnames, hcount⟩ := recordNames_flat h.flat
  have hfew := h.few
  have hall : (dotName :: recordNames dirents).take (counted dirents) =
      dotName :: (dirFiles dirents).map Prod.fst := by
    rw [hnames, counted_few (by rw [hcount]; exact hfew), hcount]
    refine List.take_of_length_le ?_
    rw [List.length_cons, List.length_map]
  refine List.flatMap_congr fun part _ => ?_
  have hfind : nameIndex dirents part.1 = some i ↔ part.1.chars = name.chars := by
    rw [nameIndex, hall, List.findIdx?_eq_some_iff_getElem]
    obtain ⟨hlt, hget⟩ := List.getElem?_eq_some_iff.mp hi
    constructor
    · rintro ⟨_, hmatch, _⟩
      rw [hget] at hmatch
      exact beq_iff_eq.mp hmatch
    · intro hchars
      refine ⟨hlt, by rw [hget]; exact beq_iff_eq.mpr hchars, fun j hj hmatch => ?_⟩
      have hsame : (dotName :: (dirFiles dirents).map Prod.fst)[j] =
          (dotName :: (dirFiles dirents).map Prod.fst)[i] := by
        rw [hget]
        exact chars_inj ((beq_iff_eq.mp hmatch).symm.trans hchars)
      exact absurd ((List.Nodup.getElem_inj_iff h.nodup).mp hsame) (Nat.ne_of_lt hj)
  simp only [hfind]

/-- What is built of it, file by file. -/
theorem builtEntries_flat (config : Config) {directives : Nat → List Directive} {dirents : Dirents} :
    ∀ {i : Nat}, Flat dirents →
    (∀ k x, (dirFiles dirents)[k]? = some x → directives (i + k) = directivesOf config x.1) →
    builtEntries blocksize 0 directives dirents i =
      some (entriesOf ((dirFiles dirents).map (configured blocksize config))) := by
  induction dirents with
  | nil => exact fun {_} _ _ => rfl
  | file name file rest ih =>
      intro i hflat hdirectives
      have hhead : directives i = directivesOf config name := hdirectives 0 (name, file) rfl
      rw [builtEntries, ih hflat, hhead]
      · rfl
      · intro k x hk
        rw [← hdirectives (k + 1) x hk, Nat.add_right_comm, Nat.add_assoc]
  | other name rest ih => exact fun {_} hflat hdirectives => ih hflat hdirectives
  | lost name rest => exact fun {_} hflat => hflat.elim
  | dir name config sub rest => exact fun {_} hflat => hflat.elim

/-- The dot of a flat directory, configured. -/
def configuredDot (config : Config) (n : Nat) : Sdbf :=
  (directivesOf config dotName).foldl (applyDirective 0) (fillDot 0 n)

/-- **The tree of a flat directory.** -/
theorem prepareDir_flat (config : Config) {dirents : Dirents} (h : FlatInput dirents) :
    prepareDir blocksize config dirents =
      some ⟨configuredDot config ((dirFiles dirents).length + 1),
        entriesOf ((dirFiles dirents).map (configured blocksize config))⟩ := by
  have hdot : directivesAt config dirents 0 = directivesOf config dotName :=
    directivesAt_flat config h rfl
  rw [prepareDir_built, hdot, (recordNames_flat h.flat).2,
    builtEntries_flat blocksize config h.flat]
  · rfl
  · intro k x hk
    refine directivesAt_flat config h ?_
    rw [Nat.add_comm, List.getElem?_cons_succ, List.getElem?_map, hk]
    rfl

/-! ## Allocation -/

/-- The loop of `alloc_storage` over files. -/
def allocFiles : List FileEntry → (rpos last : ULong) → List FileEntry × ULong
  | [], _, last => ([], last)
  | x :: xs, rpos, last =>
      let next := advance blocksize x.1 rpos last
      let r := allocFiles xs next.1 next.2
      ((place x.1 rpos, x.2) :: r.1, r.2)

/-- Its files are placed one behind the other. -/
theorem allocEntries_flat (base : ULong) (xs : List FileEntry) : ∀ rpos last : ULong,
    allocEntries blocksize base xs.length (entriesOf xs) rpos last =
      (entriesOf (allocFiles blocksize xs rpos last).1, (allocFiles blocksize xs rpos last).2) := by
  induction xs with
  | nil => exact fun _ _ => rfl
  | cons x xs ih =>
      intro rpos last
      rw [List.length_cons, entriesOf, allocEntries, ih, allocFiles]
      rfl

/-- Every file gets a place. -/
theorem allocFiles_placed (xs : List FileEntry) : ∀ rpos last : ULong,
    List.Forall₂ (fun x y : FileEntry => ∃ rpos, y = (place x.1 rpos, x.2)) xs
      (allocFiles blocksize xs rpos last).1 := by
  induction xs with
  | nil => exact fun _ _ => .nil
  | cons x xs ih => exact fun rpos last => .cons ⟨rpos, rfl⟩ (ih _ _)

/-- The last address that an entry is given. -/
theorem addrLast_place (f : Sdbf) (rpos : ULong) : addrLast (place f rpos).record = lastOf f rpos := by
  rw [place]
  split
  · exact be64_setBytes _ (k := 0x10) (by decide) _
  · exact be64_setBytes _ (k := 0x10) (by decide) _

/-- The larger of two addresses. -/
def laterOf (last l : ULong) : ULong := if last < l then l else last

/-- The last byte in use is the largest in any record. -/
theorem allocFiles_last (xs : List FileEntry) : ∀ rpos last : ULong,
    (allocFiles blocksize xs rpos last).2 =
      ((allocFiles blocksize xs rpos last).1.map fun y => addrLast y.1.record).foldl laterOf last := by
  induction xs with
  | nil => exact fun _ _ => rfl
  | cons x xs ih =>
      intro rpos last
      rw [allocFiles]
      simp only [List.map_cons, List.foldl_cons, addrLast_place]
      exact ih _ _

/-- The later of two addresses, in plain numbers. -/
theorem toNat_laterOf (last l : ULong) : (laterOf last l).toNat = max last.toNat l.toNat := by
  rw [laterOf]
  by_cases h : last < l
  · rw [if_pos h]
    exact (Nat.max_eq_right (Nat.le_of_lt h)).symm
  · rw [if_neg h]
    exact (Nat.max_eq_left (Nat.not_lt.mp h)).symm

instance : RightCommutative laterOf where
  right_comm := by
    intro a b d
    refine BitVec.eq_of_toNat_eq ?_
    simp only [toNat_laterOf]
    omega

/-- The tree of a flat directory, allocated. -/
theorem allocStorage_flat {dot : Sdbf} {xs : List FileEntry} (h : records dot = xs.length + 1) :
    allocStorage blocksize ⟨dot, entriesOf xs⟩ =
      let r := allocFiles blocksize xs (behindTable blocksize dot) (behindTable blocksize dot)
      ⟨closeDir dot dot.base r.2, entriesOf r.1⟩ := by
  rw [allocStorage]
  simp only [h, Nat.add_sub_cancel, allocEntries_flat]

/-! ## The parts of the image -/

/-- The contents of a file, if it can be opened. -/
def filePart (x : FileEntry) : List Part :=
  match x.2.contents with
  | none => []
  | some _ => [⟨false, (placeOf 0 x.1).toNat, filePieces blocksize x.2⟩]

/-- The range that a record stands for. -/
def rangeOf (x : FileEntry) : FileRange :=
  ⟨addrFirst x.1.record, addrLast x.1.record + 1 - addrFirst x.1.record, x.2⟩

/-- An allocated directory of files. -/
structure FlatTree (dot : Sdbf) (xs : List FileEntry) : Prop where
  records_eq : records dot = xs.length + 1
  base_eq : dot.base = 0
  allocated : ∀ x ∈ xs, Allocated x.1

/-- A valid layout: nothing overlaps, every file has its room, and `fseek` takes the addresses. -/
structure LaidOut (tree : Tree) : Prop where
  apart : RecordsApart blocksize tree
  room : ∀ r ∈ treeRanges tree, r.file.size ≤ r.size.toNat
  long : ∀ r ∈ treeRanges tree, r.first.toNat + r.size.toNat < 0x8000000000000000
  start : tree.dot.ustart.toNat < 0x8000000000000000

/-- The positions that the contents of a file take. -/
def FileEntry.Takes (x : FileEntry) (p : Nat) : Prop :=
  (addrFirst x.1.record).toNat ≤ p ∧ p < (addrFirst x.1.record).toNat + x.2.size

/-- What the files take does not overlap, nor does it reach into the table. -/
structure Separate (dot : Sdbf) (xs : List FileEntry) (takes : FileEntry → Nat → Prop) : Prop where
  table : ∀ x ∈ xs, ∀ p, takes x p →
    p < dot.ustart.toNat ∨ dot.ustart.toNat + 64 * (xs.length + 1) ≤ p
  files : xs.Pairwise fun x y => ∀ p, takes x p → ¬ takes y p

/-- The files are written apart from each other, and from the table. -/
structure WritesApart (dot : Sdbf) (xs : List FileEntry) : Prop where
  start : dot.ustart.toNat < 0x8000000000000000
  long : ∀ x ∈ xs, (addrFirst x.1.record).toNat < 0x8000000000000000
  separate : Separate dot xs FileEntry.Takes

/-- Files that take no more are separate as well, in any order. -/
theorem Separate.paired {dot dot' : Sdbf} {xs ys zs : List FileEntry}
    {takes takes' : FileEntry → Nat → Prop} (h : Separate dot xs takes)
    (hstart : dot'.ustart = dot.ustart)
    (hle : List.Forall₂ (fun x y => ∀ p, takes' y p → takes x p) xs ys) (hperm : ys.Perm zs) :
    Separate dot' zs takes' := by
  refine ⟨fun z hz p hp => ?_, ?_⟩
  · obtain ⟨x, hx, hxz⟩ := Paired.exists_left hle z (hperm.mem_iff.mpr hz)
    rw [hstart, ← hperm.length_eq, ← hle.length_eq]
    exact h.table x hx p (hxz p hp)
  · have hfiles := Paired.pairwise (T := fun x y => ∀ p, takes' x p → ¬ takes' y p) hle
      (fun x y x' y' hy hy' hxx p hp hp' => hxx p (hy p hp) (hy' p hp')) h.files
    exact hperm.pairwise hfiles fun hxy p hp hp' => hxy p hp' hp

theorem msb_of_lt {x : ULong} (h : x.toNat < 0x8000000000000000) : x.msb = false := by
  rw [BitVec.msb_eq_decide, decide_eq_false_iff_not]
  omega

/-- The top directory has no base. -/
theorem top_add (x : ULong) : 0 + x = x := BitVec.zero_add x

/-- An allocated file is where its record says. -/
theorem placeOf_allocated {f : Sdbf} (h : Allocated f) : placeOf 0 f = addrFirst f.record := by
  rw [placeOf, h.first, top_add]

variable {blocksize}

section

variable {dot : Sdbf} {xs : List FileEntry}

/-- The records of the table are those of the files. -/
theorem tableRecords_flat (xs : List FileEntry) :
    tableRecords xs.length (entriesOf xs) = xs.map fun x => x.1.record := by
  induction xs with
  | nil => rfl
  | cons x xs ih => exact congrArg (List.cons x.1.record) ih

theorem sdbfs_flat (xs : List FileEntry) : sdbfs (entriesOf xs) = xs.map Prod.fst := by
  induction xs with
  | nil => rfl
  | cons x xs ih => exact congrArg (List.cons x.1) ih

/-- The ranges are those of the files. -/
theorem treeRanges_flat (h : FlatTree dot xs) :
    treeRanges ⟨dot, entriesOf xs⟩ = xs.map rangeOf := by
  have hranges : ∀ ys : List FileEntry, fileRanges 0 ys.length (entriesOf ys) = ys.map rangeOf := by
    intro ys
    induction ys with
    | nil => rfl
    | cons y ys ih =>
        rw [List.length_cons, entriesOf, fileRanges, ih, List.map_cons, rangeOf, top_add]
  rw [treeRanges, h.records_eq]
  exact hranges xs

/-- It is written as a table, and the contents of the files behind it. -/
theorem treeParts_flat (h : FlatTree dot xs) (hw : WritesApart dot xs) :
    treeParts blocksize ⟨dot, entriesOf xs⟩ =
      ⟨true, dot.ustart.toNat, (dot.record :: xs.map fun x => x.1.record).map recordBytes⟩ ::
        xs.flatMap (filePart blocksize) := by
  have hparts : ∀ ys : List FileEntry, (∀ y ∈ ys, (placeOf 0 y.1).msb = false) → ∀ pos,
      entryParts blocksize 0 ys.length (entriesOf ys) pos = ys.flatMap (filePart blocksize) := by
    intro ys
    induction ys with
    | nil => exact fun _ _ => rfl
    | cons y ys ih =>
        intro hmsb pos
        have hplace : seek pos (placeOf 0 y.1) = (placeOf 0 y.1).toNat :=
          seek_of_msb pos (hmsb y List.mem_cons_self)
        rw [List.length_cons, entriesOf, entryParts_file, List.flatMap_cons, filePart]
        cases hc : y.2.contents with
        | none => exact ih (fun z hz => hmsb z (List.mem_cons_of_mem y hz)) pos
        | some bytes =>
            rw [← hplace, ← ih (fun z hz => hmsb z (List.mem_cons_of_mem y hz))]
            rfl
  have hmsb : ∀ x ∈ xs, (placeOf 0 x.1).msb = false := by
    intro x hx
    rw [placeOf_allocated (h.allocated x hx)]
    exact msb_of_lt (hw.long x hx)
  rw [treeParts, h.records_eq, Nat.add_sub_cancel, h.base_eq, top_add,
    seek_of_msb 0 (msb_of_lt hw.start), hparts xs hmsb, tableOf_eq h.records_eq, tableRecords_flat]

/-- What is written. -/
def writesOf (blocksize : BitVec 32) (dot : Sdbf) (xs : List FileEntry) : List (Write Byte) :=
  (treeParts blocksize ⟨dot, entriesOf xs⟩).flatMap Part.writes

/-- The contents of a file are written at its address, and not behind its size. -/
theorem filePart_covers (h : FlatTree dot xs) {x : FileEntry} (hx : x ∈ xs) {part : Part}
    (hpart : part ∈ filePart blocksize x) {p : Nat} (hp : Covers part.writes p) :
    FileEntry.Takes x p := by
  rw [filePart] at hpart
  split at hpart
  · cases hpart
  · cases List.mem_singleton.mp hpart
    rw [Part.writes, covers_consecutive, placeOf_allocated (h.allocated x hx)] at hp
    have hstored := stored_le blocksize x.2
    rw [stored] at hstored
    obtain ⟨hle, hlt⟩ := hp
    exact ⟨hle, Nat.lt_of_lt_of_le hlt (Nat.add_le_add_left hstored _)⟩

/-- What the files write is within what they take. -/
theorem fileParts_covers (h : FlatTree dot xs) {ys : List FileEntry} (hys : ∀ y ∈ ys, y ∈ xs) {p : Nat}
    (hp : Covers ((ys.flatMap (filePart blocksize)).flatMap Part.writes) p) :
    ∃ y ∈ ys, FileEntry.Takes y p := by
  obtain ⟨part, hpart, hp⟩ := (covers_flatMap _ _).mp hp
  obtain ⟨y, hy, hpart⟩ := List.mem_flatMap.mp hpart
  exact ⟨y, hy, filePart_covers h (hys y hy) hpart hp⟩

/-- The positions of the table. -/
theorem covers_flatTable (dot : Sdbf) (xs : List FileEntry) (p : Nat) :
    Covers (consecutive dot.ustart.toNat
      ((dot.record :: xs.map fun x => x.1.record).map recordBytes)) p ↔
        dot.ustart.toNat ≤ p ∧ p < dot.ustart.toNat + 64 * (xs.length + 1) := by
  rw [covers_consecutive, flatten_recordBytes, List.length_cons, List.length_map]

/-- **The table is in the image**, whatever is written behind it. -/
theorem holds_table (h : FlatTree dot xs) (hw : WritesApart dot xs) :
    Holds (writesOf blocksize dot xs)
      (dot.ustart.toNat, dot.record :: xs.map fun x => x.1.record) := by
  rw [writesOf, treeParts_flat h hw, List.flatMap_cons]
  intro k v hv
  have hk : k < 64 * (xs.length + 1) := by
    have hlt := (List.getElem?_eq_some_iff.mp hv).1
    rwa [flatten_recordBytes, List.length_cons, List.length_map] at hlt
  rw [lastAt_append_left]
  · exact holds_consecutive _ _ k v hv
  · intro hcov
    obtain ⟨x, hx, htakes⟩ := fileParts_covers h (fun y hy => hy) hcov
    have hclear := hw.separate.table x hx _ htakes
    simp only at hclear
    omega

/-- In a valid layout, what the records stand for is separate. -/
theorem LaidOut.separate (hl : LaidOut blocksize ⟨dot, entriesOf xs⟩) (h : FlatTree dot xs) :
    Separate dot xs fun x => (rangeOf x).Has := by
  refine ⟨fun x hx p hp => ?_, ?_⟩
  · by_contra hnot
    have hrange : rangeOf x ∈ treeRanges ⟨dot, entriesOf xs⟩ := by
      rw [treeRanges_flat h]
      exact List.mem_map_of_mem hx
    refine hl.apart.between _ hrange p hp ?_
    have hfirst : ∀ (parts : List Part) (part : Part), part.isTable = true →
        Covers part.writes p → Covers (tableWrites (part :: parts)) p := by
      intro parts part htable hcov
      exact (covers_flatMap _ p).mpr ⟨part, List.mem_filter.mpr ⟨List.mem_cons_self, htable⟩, hcov⟩
    rw [treeParts]
    refine hfirst _ _ rfl ?_
    have hpos : seek 0 (dot.base + dot.ustart) = dot.ustart.toNat := by
      rw [h.base_eq, top_add, seek_of_msb 0 (msb_of_lt hl.start)]
    show Covers (consecutive (seek 0 (dot.base + dot.ustart))
      ((tableOf dot (entriesOf xs)).map recordBytes)) p
    rw [hpos, tableOf_eq h.records_eq, tableRecords_flat, covers_flatTable]
    omega
  · have hranges := hl.apart.ranges
    rwa [treeRanges_flat h, List.pairwise_map] at hranges

/-- A valid layout keeps the contents apart as well. -/
theorem LaidOut.writesApart (hl : LaidOut blocksize ⟨dot, entriesOf xs⟩) (h : FlatTree dot xs) :
    WritesApart dot xs := by
  have hrange : ∀ x ∈ xs, rangeOf x ∈ treeRanges ⟨dot, entriesOf xs⟩ := by
    intro x hx
    rw [treeRanges_flat h]
    exact List.mem_map_of_mem hx
  refine ⟨hl.start, fun x hx => ?_, ?_⟩
  · exact Nat.lt_of_le_of_lt (Nat.le_add_right _ _) (hl.long _ (hrange x hx))
  · refine (hl.separate h).paired rfl (List.forall₂_same.mpr fun x hx p hp => ?_) (.refl xs)
    exact ⟨hp.1, Nat.lt_of_lt_of_le hp.2 (Nat.add_le_add_left (hl.room _ (hrange x hx)) _)⟩

/-! ## The contents of a file -/

/-- **The contents of a file are in the image**, at the address in its record. -/
theorem file_contents (hpos : 0 < blocksize.toNat) (hint : blocksize.toNat < 0x80000000)
    (h : FlatTree dot xs) (hw : WritesApart dot xs) {x : FileEntry} (hx : x ∈ xs)
    {bytes : List Byte} (hc : x.2.contents = some bytes) {i : Nat} {b : Byte}
    (hi : bytes[i]? = some b) :
    imageByte (writesOf blocksize dot xs) ((addrFirst x.1.record).toNat + i) = b := by
  obtain ⟨front, behind, rfl⟩ := List.append_of_mem hx
  have hlen : i < bytes.length := (List.getElem?_eq_some_iff.mp hi).1
  have hpart : filePart blocksize x =
      [⟨false, (addrFirst x.1.record).toNat, filePieces blocksize x.2⟩] := by
    rw [filePart, hc, placeOf_allocated (h.allocated x hx)]
  have hpieces := filePieces_flatten hpos hint hc
  have hwritten : lastAt ((addrFirst x.1.record).toNat + i)
      ((filePart blocksize x).flatMap Part.writes) = some b := by
    rw [hpart, List.flatMap_cons, List.flatMap_nil, List.append_nil, Part.writes,
      lastAt_consecutive _ (Nat.le_add_right _ _), hpieces, Nat.add_sub_cancel_left, hi]
  -- what is written behind it is elsewhere
  have hclear : ¬ Covers ((behind.flatMap (filePart blocksize)).flatMap Part.writes)
      ((addrFirst x.1.record).toNat + i) := by
    intro hcov
    obtain ⟨y, hy, htakes⟩ := fileParts_covers h
      (fun y hy => List.mem_append_right _ (List.mem_cons_of_mem x hy)) hcov
    refine (List.pairwise_cons.mp (List.pairwise_append.mp hw.separate.files).2.1).1 y hy _
      ⟨Nat.le_add_right _ _, ?_⟩ htakes
    rw [← x.2.sized bytes hc]
    exact Nat.add_lt_add_left hlen _
  rw [writesOf, treeParts_flat h hw, List.flatMap_cons, List.flatMap_append, List.flatMap_cons,
    List.flatMap_append, List.flatMap_append, imageByte, ← List.append_assoc, ← List.append_assoc,
    lastAt_append_left hclear, lastAt_some_append hwritten]
  rfl

end

/-! ## The image of a directory -/

/-- Directives leave the number of records alone. -/
theorem records_configuredDot (config : Config) {n : Nat} (hn : n < 0x10000) :
    records (configuredDot config n) = n :=
  ((foldl_same 0 (directivesOf config dotName) (fillDot 0 n)).records.trans
    (records_fillDot 0 n)).trans (Nat.mod_eq_of_lt hn)

/-- The head of the table stays one. -/
theorem isTable_configuredDot (config : Config) {n : Nat} (hn : n < 0x10000) :
    IsTable (configuredDot config n).record :=
  (foldl_same 0 (directivesOf config dotName) (fillDot 0 n)).isTable (scannedDot_fillDot 0 hn).table

/-- The allocated tree of a directory, and the image that is written for it. -/
structure FlatImage (blocksize : BitVec 32) (config : Config) (dirents : Dirents) (tree : Tree)
    (dot : Sdbf) (xs : List FileEntry) : Prop where
  tree_dot : tree.dot = configuredDot config ((dirFiles dirents).length + 1)
  allocated : allocStorage blocksize tree = ⟨dot, entriesOf xs⟩
  dot_eq : dot = closeDir tree.dot 0
    ((xs.map fun x => addrLast x.1.record).foldl laterOf (behindTable blocksize tree.dot))
  placed : List.Forall₂ (fun x y => ∃ rpos, y = (place (configured blocksize config x).1 rpos, x.2))
    (dirFiles dirents) xs
  flat : FlatTree dot xs
  image : gensdbfs blocksize 0 config dirents = (true, writesOf blocksize dot xs)

/-- **What becomes of a flat directory.** -/
theorem flatImage {config : Config} {dirents : Dirents} (h : FlatInput dirents) {tree : Tree}
    (hscan : prepareDir blocksize config dirents = some tree) :
    ∃ dot xs, FlatImage blocksize config dirents tree dot xs := by
  cases Option.some.inj (hscan.symm.trans (prepareDir_flat blocksize config h))
  have hfew : (dirFiles dirents).length + 1 < 0x10000 := Nat.succ_lt_succ h.few
  have hrecords := records_configuredDot config hfew
  have hbase : (configuredDot config ((dirFiles dirents).length + 1)).base = 0 :=
    (foldl_same 0 (directivesOf config dotName) _).base_eq
  have halloc := @allocStorage_flat blocksize _ ((dirFiles dirents).map (configured blocksize config))
    (by rw [hrecords, List.length_map])
  rw [hbase] at halloc
  have hplaced := List.forall₂_map_left_iff.mp
    (allocFiles_placed blocksize ((dirFiles dirents).map (configured blocksize config))
      (behindTable blocksize (configuredDot config ((dirFiles dirents).length + 1)))
      (behindTable blocksize (configuredDot config ((dirFiles dirents).length + 1))))
  have hlast := allocFiles_last blocksize ((dirFiles dirents).map (configured blocksize config))
    (behindTable blocksize (configuredDot config ((dirFiles dirents).length + 1)))
    (behindTable blocksize (configuredDot config ((dirFiles dirents).length + 1)))
  refine ⟨_, _, rfl, halloc, by rw [hlast], hplaced, ⟨?_, rfl, fun x hx => ?_⟩, ?_⟩
  · rw [records_closeDir, hrecords, ← hplaced.length_eq]
  · obtain ⟨y, -, rpos, rfl⟩ := Paired.exists_left hplaced x hx
    exact allocated_place _ rpos
  · rw [gensdbfs_eq blocksize hscan, halloc, writesOf, ← finish_zero]
    rfl

end GensdbfsFlat
