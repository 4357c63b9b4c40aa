import FpgaConfigSpace.GensdbfsMain
import FpgaConfigSpace.GensdbfsTables
import FpgaConfigSpace.GensdbfsErase

/-! # What a device has room for

    The size of the device is compared with where the contents of the files end.  The room
    that is kept for a file, and the tables, may end elsewhere; and nothing is written to the
    room behind the contents, which is in the image only if something is behind it. -/

namespace GensdbfsFit

open BigEndian SdbRecord SdbFields SdbfsOpen FileWrites Gensdbfs GensdbfsLayout GensdbfsApart
open GensdbfsTables GensdbfsErase GensdbfsMain

/-! ## The parts of an image, and its bytes -/

section

variable (parts : List Part)

/-- Only the parts count that touch a position. -/
theorem lastAt_filter {keep : Part → Bool} {p : Nat}
    (h : ∀ part ∈ parts, keep part = false → ¬ Covers part.writes p) :
    lastAt p (parts.flatMap Part.writes) = lastAt p ((parts.filter keep).flatMap Part.writes) := by
  induction parts with
  | nil => rfl
  | cons part parts ih =>
      have hrest := ih fun q hq => h q (List.mem_cons_of_mem part hq)
      rw [List.flatMap_cons, lastAt_append, hrest, List.filter_cons]
      cases hkeep : keep part with
      | true => rw [if_pos rfl, List.flatMap_cons, lastAt_append]
      | false =>
          rw [if_neg Bool.false_ne_true, lastAt_of_not_covers (h part List.mem_cons_self hkeep),
            Option.or_none]

/-- A byte is written exactly if one of the parts writes it. -/
theorem covers_flatMap (p : Nat) :
    Covers (parts.flatMap Part.writes) p ↔ ∃ part ∈ parts, Covers part.writes p := by
  constructor
  · rintro ⟨w, hw, hp⟩
    obtain ⟨part, hpart, hw⟩ := List.mem_flatMap.mp hw
    exact ⟨part, hpart, w, hw, hp⟩
  · rintro ⟨part, hpart, w, hw, hp⟩
    exact ⟨w, List.mem_flatMap.mpr ⟨part, hpart, hw⟩, hp⟩

/-- Where no table is, the byte is that of the contents. -/
theorem lastAt_of_not_table {p : Nat} (h : ¬ Covers (tableWrites parts) p) :
    lastAt p (parts.flatMap Part.writes) = lastAt p (contentWrites parts) := by
  refine lastAt_filter parts fun part hpart htable hcov => h ?_
  refine (covers_flatMap _ p).mpr ⟨part, List.mem_filter.mpr ⟨hpart, ?_⟩, hcov⟩
  simpa using htable

/-- Where no contents are, it is that of the tables. -/
theorem lastAt_of_not_content {p : Nat} (h : ¬ Covers (contentWrites parts) p) :
    lastAt p (parts.flatMap Part.writes) = lastAt p (tableWrites parts) := by
  refine lastAt_filter parts fun part hpart htable hcov => h ?_
  exact (covers_flatMap _ p).mpr ⟨part, List.mem_filter.mpr ⟨hpart, by simpa using htable⟩, hcov⟩

/-- The image ends with a table, or with the contents of a file. -/
theorem fileSize_parts : fileSize (parts.flatMap Part.writes) =
    max (fileSize (tableWrites parts)) (fileSize (contentWrites parts)) := by
  induction parts with
  | nil => rfl
  | cons part parts ih =>
      rw [List.flatMap_cons, fileSize_append, ih, tableWrites, contentWrites, tableWrites,
        contentWrites, List.filter_cons, List.filter_cons]
      cases hpart : part.isTable with
      | true =>
          rw [if_pos rfl, if_neg (by decide), List.flatMap_cons, fileSize_append, Nat.max_assoc]
      | false =>
          rw [if_neg (by decide), if_pos (by decide), List.flatMap_cons, fileSize_append,
            Nat.max_left_comm]

end

variable (blocksize : BitVec 32)

/-! ## The last byte of the device -/

/-- Where the contents of the files end. -/
def contentsEnd (tree : Tree) : Nat := fileSize (contentWrites (treeParts blocksize tree))

/-- Where the tables end. -/
def tablesEnd (tree : Tree) : Nat := fileSize (tableWrites (treeParts blocksize tree))

/-- The write to the last byte of the device. -/
def padding (devsize : ULong) (tree : Tree) : List (Write Byte) :=
  if contentsEnd blocksize tree < devsize.toNat then [⟨devsize.toNat - 1, [0]⟩] else []

section

variable {devsize : ULong} {tree : Tree}

/-- With `-s` the program succeeds exactly if the contents fit. -/
theorem finish_success (hdev : devsize ≠ 0) :
    (finish blocksize devsize tree).1 = true ↔ contentsEnd blocksize tree ≤ devsize.toNat := by
  rw [finish, finishWith]
  simp only [lastwritten_eq]
  rw [bne_iff_ne.mpr hdev, Bool.true_and, Bool.not_eq_true', decide_eq_false_iff_not, Nat.not_lt,
    contentsEnd]

/-- What it writes: the parts, and the padding behind them. -/
theorem finish_writes (hdev : devsize.msb = false) :
    (finish blocksize devsize tree).2 =
      (treeParts blocksize tree).flatMap Part.writes ++ padding blocksize devsize tree := by
  have hout : (outputTree blocksize anyOpens tree ⟨⟨0, []⟩, 0⟩).file.writes = _ :=
    writeSdb_parts blocksize tree
  rw [finish, finishWith, padding, contentsEnd]
  simp only [lastwritten_eq]
  by_cases hless : fileSize (contentWrites (treeParts blocksize tree)) < devsize.toNat
  · have hpos : 0 < devsize.toNat := Nat.zero_lt_of_lt hless
    have hlast : (devsize - 1).toNat = devsize.toNat - 1 := by
      rw [BitVec.toNat_sub_of_le]
      · rfl
      · exact hpos
    have hmsb : (devsize - 1).msb = false := by
      rw [BitVec.msb_eq_decide, decide_eq_false_iff_not] at hdev ⊢
      omega
    rw [if_pos hless, if_pos hless, fseek_pos, seek, hmsb, hlast, ImageFile.fwrite, hout]
    rfl
  · rw [if_neg hless, if_neg hless, hout, List.append_nil]

/-- Without a size there is nothing at the end. -/
theorem finish_zero :
    (finish blocksize 0 tree).2 = (treeParts blocksize tree).flatMap Part.writes := by
  have hnone : padding blocksize 0 tree = [] := if_neg (Nat.not_lt_zero _)
  rw [finish_writes blocksize rfl, hnone, List.append_nil]

/-- It is behind the contents, and zero. -/
theorem lastAt_padding (p : Nat) : lastAt p (padding blocksize devsize tree) =
    if contentsEnd blocksize tree < devsize.toNat ∧ p = devsize.toNat - 1 then some 0 else none := by
  rw [padding]
  by_cases hless : contentsEnd blocksize tree < devsize.toNat
  · rw [if_pos hless]
    show (if devsize.toNat - 1 ≤ p then [(0 : Byte)][p - (devsize.toNat - 1)]? else none) = _
    by_cases hp : p = devsize.toNat - 1
    · rw [if_pos (Nat.le_of_eq hp.symm), if_pos (And.intro hless hp), hp, Nat.sub_self]
      rfl
    · rw [if_neg (fun h => hp h.2 : ¬ (_ ∧ p = devsize.toNat - 1))]
      split
      · exact List.getElem?_eq_none (by simp only [List.length_singleton]; omega)
      · rfl
  · rw [if_neg hless, if_neg fun h => hless h.1]
    rfl

end

/-! ## The ranges of the files -/

/-- The range that a file's record stands for, made absolute. -/
structure FileRange where
  first : ULong
  size : ULong
  file : RegularFile

/-- The ranges of the entries of a directory, by the records: a bridge's first address is
    that of the directory. -/
def fileRanges (base : ULong) : (left : Nat) → Entries → List FileRange
  | 0, _ => []
  | _, .nil => []
  | left + 1, .file f file rest =>
      ⟨base + addrFirst f.record, addrLast f.record + 1 - addrFirst f.record, file⟩ ::
        fileRanges base left rest
  | left + 1, .subdir f dot sub rest =>
      fileRanges (base + addrFirst f.record) (records dot - 1) sub ++ fileRanges base left rest

/-- The ranges of all files of a tree. -/
def treeRanges (tree : Tree) : List FileRange := fileRanges 0 (records tree.dot - 1) tree.entries

/-- A range has nothing from a position on. -/
def FileRange.Below (r : FileRange) (n : Nat) : Prop :=
  r.size = 0 ∨ r.first.toNat + r.size.toNat ≤ n

/-- Where some ranges end. -/
def rangesEnd : List FileRange → Nat
  | [] => 0
  | r :: rs => if r.size = 0 then rangesEnd rs else max (r.first.toNat + r.size.toNat) (rangesEnd rs)

/-- All ranges end by a place exactly if the last of them does. -/
theorem rangesEnd_le (rs : List FileRange) (n : Nat) :
    rangesEnd rs ≤ n ↔ ∀ r ∈ rs, r.Below n := by
  induction rs with
  | nil => exact iff_of_true (Nat.zero_le n) fun _ h => absurd h List.not_mem_nil
  | cons r rs ih =>
      rw [List.forall_mem_cons, rangesEnd, FileRange.Below, ← ih]
      by_cases hr : r.size = 0
      · rw [if_pos hr]
        exact (and_iff_right (Or.inl hr)).symm
      · rw [if_neg hr, Nat.max_le, or_iff_right hr]

/-! ## The size of the device -/

/-- Every table and every file's range is below a position. -/
def AllBelow (tree : Tree) (n : Nat) : Prop :=
  (∀ p, Covers (tableWrites (treeParts blocksize tree)) p → p < n) ∧
    ∀ r ∈ treeRanges tree, r.Below n

/-- The program succeeds if the device has the room, and the zero at its end changes nothing. -/
structure DeviceFit (devsize : ULong) (config : Config) (dirents : Dirents) (tree : Tree) :
    Prop where
  exits : (gensdbfs blocksize devsize config dirents).1 = true ↔
    AllBelow blocksize tree devsize.toNat
  unchanged : (gensdbfs blocksize devsize config dirents).1 = true →
    ∀ p, Covers (gensdbfs blocksize 0 config dirents).2 p →
      imageByte (gensdbfs blocksize devsize config dirents).2 p =
        imageByte (gensdbfs blocksize 0 config dirents).2 p

/-- Where the tables and the ranges of the files end. -/
def usedEnd (tree : Tree) : Nat := max (tablesEnd blocksize tree) (rangesEnd (treeRanges tree))

/-- The contents end beyond the device, and so does the rest; or both end in it, and the last
    byte of the device is one of the contents, or no byte of a table that is not zero. -/
def DeviceClear (devsize : ULong) (tree : Tree) : Prop :=
  devsize.toNat < min (contentsEnd blocksize tree) (usedEnd blocksize tree) ∨
    max (contentsEnd blocksize tree) (usedEnd blocksize tree) ≤ devsize.toNat ∧
      (contentsEnd blocksize tree = devsize.toNat ∨
        imageByte (tableWrites (treeParts blocksize tree)) (devsize.toNat - 1) = 0)

theorem allBelow_iff (tree : Tree) (n : Nat) :
    AllBelow blocksize tree n ↔ usedEnd blocksize tree ≤ n := by
  rw [AllBelow, usedEnd, Nat.max_le, tablesEnd, fileSize_le_iff, rangesEnd_le]

/-- Below the device, the zero at its end is only on a table. -/
theorem unchanged_iff {devsize : ULong} (hdev : devsize.msb = false) (tree : Tree)
    (hless : contentsEnd blocksize tree < devsize.toNat) :
    (∀ p, Covers (finish blocksize 0 tree).2 p →
        imageByte (finish blocksize devsize tree).2 p = imageByte (finish blocksize 0 tree).2 p) ↔
      imageByte (tableWrites (treeParts blocksize tree)) (devsize.toNat - 1) = 0 := by
  have hcontent : ¬ Covers (contentWrites (treeParts blocksize tree)) (devsize.toNat - 1) := by
    intro hcov
    have hlt := lt_fileSize hcov
    rw [contentsEnd] at hless
    omega
  have hbyte := lastAt_of_not_content _ hcontent
  rw [finish_writes blocksize hdev, finish_zero]
  simp only [imageByte]
  constructor
  · intro h
    by_cases hcov : Covers ((treeParts blocksize tree).flatMap Part.writes) (devsize.toNat - 1)
    · have hlast := h _ hcov
      rw [lastAt_append, lastAt_padding, if_pos ⟨hless, rfl⟩] at hlast
      rw [← hbyte]
      exact hlast.symm
    · rw [← hbyte, lastAt_of_not_covers hcov]
      rfl
  · intro h p _
    rw [lastAt_append, lastAt_padding]
    by_cases hp : p = devsize.toNat - 1
    · rw [if_pos ⟨hless, hp⟩, hp, hbyte]
      exact h.symm
    · rw [if_neg fun h => hp h.2]
      rfl

/-- The program, behind `prepare_dir`. -/
theorem gensdbfs_eq {config : Config} {dirents : Dirents} {tree : Tree}
    (h : prepareDir blocksize config dirents = some tree) (devsize : ULong) :
    gensdbfs blocksize devsize config dirents =
      finish blocksize devsize (allocStorage blocksize tree) := by
  rw [gensdbfs, h]

/-- **The size of the device is checked exactly if the contents end where everything does, as
    far as the device is concerned, and no table ends where the zero is written.** -/
theorem device_fit {config : Config} {dirents : Dirents} {tree : Tree}
    (h : prepareDir blocksize config dirents = some tree) {devsize : ULong} (hpos : devsize ≠ 0)
    (hdev : devsize.msb = false) :
    DeviceFit blocksize devsize config dirents (allocStorage blocksize tree) ↔
      DeviceClear blocksize devsize (allocStorage blocksize tree) := by
  have hrun := gensdbfs_eq blocksize h
  generalize allocStorage blocksize tree = image at hrun ⊢
  have hexits : (finish blocksize devsize image).1 = true ↔
      contentsEnd blocksize image ≤ devsize.toNat := finish_success blocksize hpos
  have hbelow := allBelow_iff blocksize image devsize.toNat
  have hsame : contentsEnd blocksize image = devsize.toNat →
      ∀ p, Covers (finish blocksize 0 image).2 p →
        imageByte (finish blocksize devsize image).2 p = imageByte (finish blocksize 0 image).2 p := by
    intro heq p _
    rw [finish_writes blocksize hdev, finish_zero, padding, if_neg (by omega), List.append_nil]
  constructor
  · rintro ⟨hiff, hunchanged⟩
    rw [hrun, hexits, hbelow] at hiff
    rw [hrun, hrun] at hunchanged
    by_cases hroom : contentsEnd blocksize image ≤ devsize.toNat
    · refine Or.inr ⟨Nat.max_le.mpr ⟨hroom, hiff.mp hroom⟩, ?_⟩
      rcases Nat.eq_or_lt_of_le hroom with heq | hless
      · exact Or.inl heq
      · exact Or.inr ((unchanged_iff blocksize hdev image hless).mp
          (hunchanged (hexits.mpr hroom)))
    · exact Or.inl (Nat.lt_min.mpr ⟨Nat.not_le.mp hroom, Nat.not_le.mp (mt hiff.mpr hroom)⟩)
  · rintro (hout | ⟨hin, hlast⟩)
    · obtain ⟨hcontents, hused⟩ := Nat.lt_min.mp hout
      refine ⟨?_, fun hdone => ?_⟩
      · rw [hrun, hexits, hbelow]
        exact iff_of_false (Nat.not_le.mpr hcontents) (Nat.not_le.mpr hused)
      · rw [hrun] at hdone
        exact absurd (hexits.mp hdone) (Nat.not_le.mpr hcontents)
    · obtain ⟨hcontents, hused⟩ := Nat.max_le.mp hin
      refine ⟨?_, fun _ => ?_⟩
      · rw [hrun, hexits, hbelow]
        exact iff_of_true hcontents hused
      · rw [hrun, hrun]
        rcases Nat.eq_or_lt_of_le hcontents with heq | hless
        · exact hsame heq
        · refine (unchanged_iff blocksize hdev image hless).mpr (hlast.resolve_left ?_)
          exact Nat.ne_of_lt hless

/-- A file of three bytes that can be written to, and a device of three blocks. -/
theorem device_fit_three : ∃ tree,
    prepareDir 64 [] (.file threeName (threeBytes true) .nil) = some tree ∧
      DeviceFit 64 192 [] (.file threeName (threeBytes true) .nil) (allocStorage 64 tree) := by
  have hscan : prepareDir 64 [] (.file threeName (threeBytes true) .nil) =
      some ⟨fillDot 0 2, .file (fillFile 64 0 threeName (threeBytes true)) (threeBytes true) .nil⟩ :=
    rfl
  refine ⟨_, hscan, (device_fit 64 hscan (by decide) (by decide)).mpr (Or.inr ⟨?_, Or.inr ?_⟩)⟩
  · decide +kernel
  · decide +kernel

/-- A directory with nothing in it, and a device of ten bytes: there is no room for the table,
    and the program succeeds. -/
theorem device_fit_table : ∃ tree, prepareDir 64 [] .nil = some tree ∧
    ¬ DeviceFit 64 10 [] .nil (allocStorage 64 tree) := by
  refine ⟨⟨fillDot 0 1, .nil⟩, rfl, fun h => ?_⟩
  have hbelow := (h.exits.mp (by decide +kernel)).1 63
  have hcov : Covers (tableWrites (treeParts 64 (allocStorage 64 ⟨fillDot 0 1, .nil⟩))) 63 := by
    refine ⟨_, List.mem_cons_self, ?_, ?_⟩
    · decide +kernel
    · decide +kernel
  exact absurd (hbelow hcov) (by decide)

/-! ## The room behind the contents -/

/-- A position is within a range. -/
def FileRange.Has (r : FileRange) (p : Nat) : Prop :=
  r.first.toNat ≤ p ∧ p < r.first.toNat + r.size.toNat

/-- The tables and the files' ranges do not overlap. -/
structure RecordsApart (tree : Tree) : Prop where
  tables : ((treeParts blocksize tree).filter Part.isTable).Pairwise
    fun t u => ∀ p, Covers t.writes p → ¬ Covers u.writes p
  ranges : (treeRanges tree).Pairwise fun r s => ∀ p, r.Has p → ¬ s.Has p
  between : ∀ r ∈ treeRanges tree, ∀ p, r.Has p →
    ¬ Covers (tableWrites (treeParts blocksize tree)) p

/-- An image has every byte of every range; behind the contents of the file it is zero. -/
def RangesHeld (ws : List (Write Byte)) (tree : Tree) : Prop :=
  ∀ r ∈ treeRanges tree, ∀ i, i < r.size.toNat → r.first.toNat + i < fileSize ws ∧
    (r.file.size ≤ i → imageByte ws (r.first.toNat + i) = 0)

/-- Something is written at the end of every range or behind it: a table, contents, or the zero
    at the end of a device; and of all contents, none leave a byte that is not zero behind
    those of the file that the range is for. -/
def RangesReached (devsize : ULong) (tree : Tree) : Prop :=
  ∀ r ∈ treeRanges tree,
    r.Below (max (max (tablesEnd blocksize tree) (contentsEnd blocksize tree))
      (if contentsEnd blocksize tree < devsize.toNat then devsize.toNat else 0)) ∧
    ∀ i, r.file.size ≤ i → i < r.size.toNat →
      imageByte (contentWrites (treeParts blocksize tree)) (r.first.toNat + i) = 0

/-- Padding ends at the end of the device. -/
theorem fileSize_padding (devsize : ULong) (tree : Tree) :
    fileSize (padding blocksize devsize tree) =
      if contentsEnd blocksize tree < devsize.toNat then devsize.toNat else 0 := by
  rw [padding]
  split
  · next hless =>
    show max (devsize.toNat - 1 + 1) 0 = devsize.toNat
    omega
  · rfl

/-- **Every byte of every range is in the image exactly if something is behind it.** -/
theorem ranges_held {config : Config} {dirents : Dirents} {tree : Tree}
    (h : prepareDir blocksize config dirents = some tree) {devsize : ULong}
    (hdev : devsize.msb = false) (hapart : RecordsApart blocksize (allocStorage blocksize tree)) :
    RangesHeld (gensdbfs blocksize devsize config dirents).2 (allocStorage blocksize tree) ↔
      RangesReached blocksize devsize (allocStorage blocksize tree) := by
  rw [gensdbfs_eq blocksize h]
  generalize allocStorage blocksize tree = image at hapart ⊢
  rw [finish_writes blocksize hdev]
  refine forall₂_congr fun r hr => ?_
  have hend : ∀ n, (∀ i, i < r.size.toNat → r.first.toNat + i < n) ↔ r.Below n := by
    intro n
    rw [FileRange.Below]
    constructor
    · intro hlt
      by_cases hzero : r.size.toNat = 0
      · exact Or.inl (BitVec.eq_of_toNat_eq hzero)
      · have hlast := hlt (r.size.toNat - 1) (by omega)
        exact Or.inr (by omega)
    · rintro (hzero | hle) i hi
      · rw [hzero] at hi
        exact absurd hi (Nat.not_lt_zero i)
      · omega
  have hbyte : ∀ i, i < r.size.toNat →
      (imageByte ((treeParts blocksize image).flatMap Part.writes ++
          padding blocksize devsize image) (r.first.toNat + i) = 0 ↔
        imageByte (contentWrites (treeParts blocksize image)) (r.first.toNat + i) = 0) := by
    intro i hi
    have htable := hapart.between r hr (r.first.toNat + i)
      ⟨Nat.le_add_right _ _, Nat.add_lt_add_left hi _⟩
    rw [imageByte, imageByte, lastAt_append, lastAt_padding, lastAt_of_not_table _ htable]
    split
    · next hlast =>
      have hcontent : ¬ Covers (contentWrites (treeParts blocksize image)) (r.first.toNat + i) := by
        intro hcov
        have hlt := lt_fileSize hcov
        have hless := hlast.1
        rw [contentsEnd] at hless
        omega
      rw [lastAt_of_not_covers hcontent]
      exact Iff.rfl
    · exact Iff.rfl
  have hsize : fileSize ((treeParts blocksize image).flatMap Part.writes ++
      padding blocksize devsize image) = max (max (tablesEnd blocksize image)
        (contentsEnd blocksize image))
      (if contentsEnd blocksize image < devsize.toNat then devsize.toNat else 0) := by
    rw [fileSize_append, fileSize_parts, fileSize_padding, tablesEnd, contentsEnd]
  rw [hsize, ← hend]
  constructor
  · intro hheld
    exact ⟨fun i hi => (hheld i hi).1, fun i hle hi => (hbyte i hi).mp ((hheld i hi).2 hle)⟩
  · rintro ⟨hreach, hzero⟩ i hi
    exact ⟨hreach i hi, fun hle => (hbyte i hi).mpr (hzero i hle hi)⟩

/-- A file of three bytes, with a block for it. -/
def threeTree : Tree :=
  ⟨fillDot 0 2, .file (fillFile 64 0 threeName (threeBytes true)) (threeBytes true) .nil⟩

theorem three_scan : prepareDir 64 [] (.file threeName (threeBytes true) .nil) = some threeTree := rfl

/-- The file has the block behind the table. -/
theorem three_range : ∃ r : FileRange, treeRanges (allocStorage 64 threeTree) = [r] ∧
    r.first.toNat = 128 ∧ r.size.toNat = 64 ∧ r.file.size = 3 :=
  ⟨_, rfl, by decide +kernel, by decide +kernel, rfl⟩

/-- The table ends at 128, and the contents three bytes behind. -/
theorem three_ends : tablesEnd 64 (allocStorage 64 threeTree) = 128 ∧
    contentsEnd 64 (allocStorage 64 threeTree) = 131 := by
  constructor
  · decide +kernel
  · decide +kernel

/-- Nothing of it overlaps. -/
theorem three_apart : RecordsApart 64 (allocStorage 64 threeTree) where
  tables := List.pairwise_singleton _ _
  ranges := by
    obtain ⟨r, hr, -⟩ := three_range
    rw [hr]
    exact List.pairwise_singleton _ _
  between := by
    obtain ⟨r, hr, hfirst, -⟩ := three_range
    rw [hr]
    intro s hs p hp hcov
    rw [List.mem_singleton.mp hs, FileRange.Has, hfirst] at hp
    have hend := three_ends.1
    rw [tablesEnd] at hend
    have hlt := lt_fileSize hcov
    omega

/-- On a device of three blocks the image has the whole block. -/
theorem ranges_held_three :
    RangesHeld (gensdbfs 64 192 [] (.file threeName (threeBytes true) .nil)).2
      (allocStorage 64 threeTree) := by
  refine (ranges_held 64 three_scan (by decide) three_apart).mpr ?_
  obtain ⟨htables, hcontents⟩ := three_ends
  obtain ⟨r, hr, hfirst, hsize, hfile⟩ := three_range
  rw [RangesReached, hr]
  intro s hs
  rw [List.mem_singleton.mp hs]
  refine ⟨Or.inr ?_, fun i hi _ => ?_⟩
  · rw [htables, hcontents, hfirst, hsize]
    decide
  · rw [contentsEnd] at hcontents
    rw [imageByte, lastAt_of_not_covers]
    · rfl
    · intro hcov
      have hlt := lt_fileSize hcov
      omega

/-- Without the size of a device, the image ends behind the three bytes. -/
theorem ranges_held_short : RecordsApart 64 (allocStorage 64 threeTree) ∧
    ¬ RangesHeld (gensdbfs 64 0 [] (.file threeName (threeBytes true) .nil)).2
      (allocStorage 64 threeTree) := by
  refine ⟨three_apart, fun h => ?_⟩
  obtain ⟨r, hr, hfirst, hsize, -⟩ := three_range
  have hlast := (h r (hr ▸ List.mem_singleton_self r) 63 (by rw [hsize]; decide)).1
  have hend : fileSize (gensdbfs 64 0 [] (.file threeName (threeBytes true) .nil)).2 = 131 := by
    decide +kernel
  rw [hfirst, hend] at hlast
  exact absurd hlast (by decide)

end GensdbfsFit
