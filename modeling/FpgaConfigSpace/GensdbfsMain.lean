import FpgaConfigSpace.GensdbfsApart

/-! # The program

    `main` compares `lastwritten` with the size of the device: below it a zero is written to
    the last byte of the device, and beyond it the program fails.  What is written is taken
    apart into the tables and the contents of the files. -/

namespace GensdbfsMain

open BigEndian SdbRecord SdbFields SdbfsOpen FileWrites Gensdbfs GensdbfsLayout GensdbfsApart

variable (blocksize : BitVec 32)

/-! ## `main` -/

/-- What becomes of an allocated tree: whether the program exits with success, and what it
    has written.  Without `-s` the size of the device is zero. -/
def finishWith (opens : Nat → Bool) (devsize : ULong) (tree : Tree) : Bool × List (Write Byte) :=
  let out := outputTree blocksize opens tree ⟨⟨0, []⟩, 0⟩
  let file :=
    if out.lastwritten < devsize.toNat then (out.file.fseek (devsize - 1)).fwrite [0] else out.file
  (!(devsize != 0 && decide (devsize.toNat < out.lastwritten)), file.writes)

/-- The end of a run with descriptors enough. -/
def finish (devsize : ULong) (tree : Tree) : Bool × List (Write Byte) :=
  finishWith blocksize anyOpens devsize tree

/-- The program, with descriptors enough. -/
def gensdbfs (devsize : ULong) (config : Config) (dirents : Dirents) : Bool × List (Write Byte) :=
  match prepareDir blocksize config dirents with
  | none => (false, [])
  | some tree => finish blocksize devsize (allocStorage blocksize tree)

/-! ## The parts of an image -/

/-- A table, or the contents of a file: where it is written, piece by piece. -/
structure Part where
  isTable : Bool
  pos : Nat
  pieces : List (List Byte)

/-- What is written for a part: its pieces, one behind the other. -/
def Part.writes (part : Part) : List (Write Byte) := consecutive part.pos part.pieces

/-- The position behind a part. -/
def Part.behind (part : Part) : Nat := part.pos + part.pieces.flatten.length

/-- The position that `fseek` leaves. -/
def seek (pos : Nat) (offset : ULong) : Nat := if offset.msb then pos else offset.toNat

/-- The position behind some parts. -/
def behindParts (pos : Nat) (parts : List Part) : Nat :=
  parts.foldl (fun _ part => part.behind) pos

/-- The parts that are written for the entries of a directory, from a position on: a place
    that `fseek` refuses is where the file is. -/
def openedParts (opens : Nat → Bool) (base : ULong) : (left : Nat) → Entries → (pos : Nat) →
    List Part
  | 0, _, _ => []
  | _, .nil, _ => []
  | left + 1, .file f file rest, pos =>
      if opens 0 && file.contents.isSome then
        let part : Part := ⟨false, seek pos (if f.userpos then f.ustart else base + f.rstart),
          filePieces blocksize file⟩
        part :: openedParts opens base left rest part.behind
      else openedParts opens base left rest pos
  | left + 1, .subdir f dot sub rest, pos =>
      if opens 0 then
        let pos := seek pos (if f.userpos then f.ustart else base + f.rstart)
        let part : Part :=
          ⟨true, seek pos (dot.base + dot.ustart), (tableOf dot sub).map recordBytes⟩
        let below := part :: openedParts (fun n => opens (n + 1)) dot.base (records dot - 1) sub
          part.behind
        below ++ openedParts opens base left rest (behindParts pos below)
      else openedParts opens base left rest pos

/-- The parts of the whole tree. -/
def openedTree (opens : Nat → Bool) (tree : Tree) : List Part :=
  let part : Part := ⟨true, seek 0 (tree.dot.base + tree.dot.ustart),
    (tableOf tree.dot tree.entries).map recordBytes⟩
  part :: openedParts blocksize opens tree.dot.base (records tree.dot - 1) tree.entries part.behind

/-- The parts for the entries of a directory, with descriptors enough. -/
def entryParts (base : ULong) (left : Nat) (e : Entries) (pos : Nat) : List Part :=
  openedParts blocksize anyOpens base left e pos

/-- The parts of the whole tree, with descriptors enough. -/
def treeParts (tree : Tree) : List Part :=
  let part : Part := ⟨true, seek 0 (tree.dot.base + tree.dot.ustart),
    (tableOf tree.dot tree.entries).map recordBytes⟩
  part :: entryParts blocksize tree.dot.base (records tree.dot - 1) tree.entries part.behind

/-- A file that can be opened is a part, and one that cannot is none. -/
theorem entryParts_file (base : ULong) (left : Nat) (f : Sdbf) (file : RegularFile) (rest : Entries)
    (pos : Nat) : entryParts blocksize base (left + 1) (.file f file rest) pos =
      match file.contents with
      | none => entryParts blocksize base left rest pos
      | some _ =>
          let part : Part := ⟨false, seek pos (if f.userpos then f.ustart else base + f.rstart),
            filePieces blocksize file⟩
          part :: entryParts blocksize base left rest part.behind := by
  rw [entryParts, openedParts]
  cases file.contents <;> rfl

/-- What is written for a subdirectory: its table, and what is below. -/
def subdirParts (dot : Sdbf) (sub : Entries) (pos : Nat) : List Part :=
  ⟨true, pos, (tableOf dot sub).map recordBytes⟩ ::
    entryParts blocksize dot.base (records dot - 1) sub
      (pos + ((tableOf dot sub).map recordBytes).flatten.length)

/-- The parts of a subdirectory, and of the entries behind it. -/
theorem entryParts_subdir (base : ULong) (left : Nat) (f dot : Sdbf) (sub rest : Entries)
    (pos : Nat) : entryParts blocksize base (left + 1) (.subdir f dot sub rest) pos =
      subdirParts blocksize dot sub (seek (seek pos (if f.userpos then f.ustart else base + f.rstart))
        (dot.base + dot.ustart)) ++
      entryParts blocksize base left rest (behindParts
        (seek pos (if f.userpos then f.ustart else base + f.rstart))
        (subdirParts blocksize dot sub (seek
          (seek pos (if f.userpos then f.ustart else base + f.rstart)) (dot.base + dot.ustart)))) :=
  rfl

/-- What is written for tables, and for the contents of files. -/
def tableWrites (parts : List Part) : List (Write Byte) :=
  (parts.filter Part.isTable).flatMap Part.writes

/-- What is written for the contents of files. -/
def contentWrites (parts : List Part) : List (Write Byte) :=
  (parts.filter fun part => !part.isTable).flatMap Part.writes

/-- The position behind parts and parts. -/
theorem behindParts_append (pos : Nat) (ps qs : List Part) :
    behindParts pos (ps ++ qs) = behindParts (behindParts pos ps) qs := List.foldl_append

/-- The contents among parts and parts. -/
theorem contentWrites_append (ps qs : List Part) :
    contentWrites (ps ++ qs) = contentWrites ps ++ contentWrites qs := by
  rw [contentWrites, List.filter_append, List.flatMap_append, contentWrites, contentWrites]

/-! ## What the program does, by the parts -/

/-- Nothing is copied without a byte. -/
theorem copyPieces_ne_nil (size : Nat) : ∀ (fuel : Nat) (copied : BitVec 32) (bytes : List Byte),
    ∀ buf ∈ copyPieces blocksize size fuel copied bytes, buf ≠ [] := by
  intro fuel
  induction fuel with
  | zero => exact fun _ _ _ h => absurd h List.not_mem_nil
  | succ fuel ih =>
      intro copied bytes buf hbuf
      rw [copyPieces] at hbuf
      split at hbuf
      · simp only at hbuf
        split at hbuf
        · exact absurd hbuf List.not_mem_nil
        · next hread =>
          rcases List.mem_cons.mp hbuf with rfl | hbuf
          · intro hnil
            rw [hnil] at hread
            exact hread (by decide)
          · exact ih _ _ _ hbuf
      · exact absurd hbuf List.not_mem_nil

/-- No empty piece is written. -/
theorem filePieces_ne_nil (file : RegularFile) : ∀ buf ∈ filePieces blocksize file, buf ≠ [] := by
  rw [filePieces]
  split
  · exact fun _ h => absurd h List.not_mem_nil
  · exact copyPieces_ne_nil blocksize _ _ _ _

/-- Copying gets as far as the pieces do. -/
theorem foldl_copy (pieces : List (List Byte)) : (∀ buf ∈ pieces, buf ≠ []) → ∀ out : Output,
    pieces.foldl Output.copy out = ⟨pieces.foldl ImageFile.fwrite out.file,
      max out.lastwritten (fileSize (consecutive out.file.pos pieces))⟩ := by
  induction pieces with
  | nil => exact fun _ out => congrArg (Output.mk out.file) (Nat.max_zero _).symm
  | cons buf pieces ih =>
      intro hne out
      rw [List.foldl_cons, ih (fun b hb => hne b (List.mem_cons_of_mem _ hb)), consecutive, fileSize,
        if_neg (hne buf List.mem_cons_self)]
      refine congrArg (Output.mk _) ?_
      rw [← Nat.max_assoc]
      refine congrArg (max · _) ?_
      show (if out.lastwritten < out.file.pos + buf.length then out.file.pos + buf.length
        else out.lastwritten) = max out.lastwritten (out.file.pos + buf.length)
      by_cases hless : out.lastwritten < out.file.pos + buf.length
      · rw [if_pos hless, Nat.max_eq_right (Nat.le_of_lt hless)]
      · rw [if_neg hless, Nat.max_eq_left (Nat.not_lt.mp hless)]

/-- Where `fseek` goes. -/
theorem fseek_pos (out : ImageFile) (offset : ULong) :
    out.fseek offset = ⟨seek out.pos offset, out.writes⟩ := by
  rw [ImageFile.fseek, seek]
  split <;> rfl

/-- What some parts make of the file. -/
def outputThen (out : Output) (parts : List Part) : Output :=
  ⟨⟨behindParts out.file.pos parts, out.file.writes ++ parts.flatMap Part.writes⟩,
    max out.lastwritten (fileSize (contentWrites parts))⟩

theorem then_nil (out : Output) : outputThen out [] = out := by
  obtain ⟨⟨pos, ws⟩, last⟩ := out
  rw [outputThen, List.flatMap_nil, List.append_nil]
  exact congrArg (Output.mk _) (Nat.max_zero _)

/-- Parts are written one after the other. -/
theorem then_append (out : Output) (ps qs : List Part) :
    outputThen out (ps ++ qs) = outputThen (outputThen out ps) qs := by
  simp only [outputThen, behindParts_append, List.flatMap_append, List.append_assoc,
    contentWrites_append, fileSize_append, Nat.max_assoc]

/-- The contents of a file. -/
theorem then_contents (out : Output) (pos : Nat) (file : RegularFile) :
    (filePieces blocksize file).foldl Output.copy
        { out with file := ⟨pos, out.file.writes⟩ } =
      outputThen out [⟨false, pos, filePieces blocksize file⟩] := by
  have hcontents : contentWrites [⟨false, pos, filePieces blocksize file⟩] =
      consecutive pos (filePieces blocksize file) := List.append_nil _
  rw [foldl_copy _ (filePieces_ne_nil blocksize file)]
  simp only [foldl_fwrite, outputThen, hcontents, List.flatMap_cons, List.flatMap_nil,
    List.append_nil]
  rfl

/-- A table. -/
theorem then_table (out : Output) (pos : Nat) (pieces : List (List Byte)) :
    { out with file := pieces.foldl ImageFile.fwrite ⟨pos, out.file.writes⟩ } =
      outputThen out [⟨true, pos, pieces⟩] := by
  rw [foldl_fwrite]
  simp only [outputThen, List.flatMap_cons, List.flatMap_nil, List.append_nil]
  exact congrArg (Output.mk _) (Nat.max_zero _).symm

/-- **The entries of a directory, part by part.** -/
theorem outputEntries_eq (e : Entries) : ∀ (opens : Nat → Bool) (base : ULong) (left : Nat)
    (out : Output), outputEntries blocksize opens base left e out =
      outputThen out (openedParts blocksize opens base left e out.file.pos) := by
  induction e with
  | nil =>
      intro opens base left out
      cases left <;> exact (then_nil out).symm
  | file f file rest ih =>
      intro opens base left out
      cases left with
      | zero => exact (then_nil out).symm
      | succ left =>
          rw [outputEntries, openedParts]
          cases hopens : opens 0 with
          | false => exact ih opens base left out
          | true =>
              cases hc : file.contents with
              | none => exact ih opens base left out
              | some bytes =>
                  simp only [if_true, fseek_pos, then_contents, ih]
                  exact (then_append out [_] _).symm
  | subdir f dot sub rest ihsub ih =>
      intro opens base left out
      cases left with
      | zero => exact (then_nil out).symm
      | succ left =>
          rw [outputEntries, openedParts]
          cases hopens : opens 0 with
          | false => exact ih opens base left out
          | true =>
              simp only [if_true, fseek_pos, then_table, ihsub, ih]
              rw [← then_append, ← then_append]
              rfl

/-- **What is written are the parts**, one after the other. -/
theorem outputTree_eq (opens : Nat → Bool) (tree : Tree) :
    outputTree blocksize opens tree ⟨⟨0, []⟩, 0⟩ =
      outputThen ⟨⟨0, []⟩, 0⟩ (openedTree blocksize opens tree) := by
  rw [outputTree, openedTree]
  have htable := then_table ⟨⟨0, []⟩, 0⟩ (seek 0 (tree.dot.base + tree.dot.ustart))
    ((tableOf tree.dot tree.entries).map recordBytes)
  simp only [fseek_pos] at htable ⊢
  rw [htable, outputEntries_eq, ← then_append]
  rfl

/-- The program's own idea of where the contents end. -/
theorem lastwritten_eq (tree : Tree) :
    (outputTree blocksize anyOpens tree ⟨⟨0, []⟩, 0⟩).lastwritten =
      fileSize (contentWrites (treeParts blocksize tree)) := by
  rw [outputTree_eq]
  exact Nat.zero_max _

/-- The writes are those of the parts. -/
theorem output_writes (opens : Nat → Bool) (tree : Tree) :
    (outputTree blocksize opens tree ⟨⟨0, []⟩, 0⟩).file.writes =
      (openedTree blocksize opens tree).flatMap Part.writes := by
  rw [outputTree_eq]
  exact List.nil_append _

/-- The image is its parts. -/
theorem writeSdb_parts (tree : Tree) : (writeSdb blocksize tree ⟨0, []⟩).writes =
    (treeParts blocksize tree).flatMap Part.writes := output_writes blocksize anyOpens tree

/-! ## The contents of a file -/

variable {blocksize}

theorem toInt_ofNat_le (n : Nat) : (BitVec.ofNat 32 n).toInt ≤ n := by
  have hle := Nat.mod_le n 0x100000000
  rw [BitVec.toInt_eq_toNat_cond, BitVec.toNat_ofNat]
  split <;> omega

/-- Every byte is copied, however far `copied` counts, if the bytes that are read at a time
    fit into an `int`. -/
theorem copyPieces_flatten (hpos : 0 < blocksize.toNat) {size : Nat} :
    ∀ (fuel copied : Nat) (bytes : List Byte), bytes.length < fuel →
    copied + bytes.length = size → min blocksize.toNat bytes.length < 0x80000000 →
    (copyPieces blocksize size fuel (BitVec.ofNat 32 copied) bytes).flatten = bytes := by
  intro fuel
  induction fuel with
  | zero => exact fun _ _ h => absurd h (Nat.not_lt_zero _)
  | succ fuel ih =>
      intro copied bytes hfuel hsize hint
      have hcopied := toInt_ofNat_le copied
      rw [copyPieces]
      cases bytes with
      | nil =>
          split
          · rw [List.take_nil]
            rfl
          · rfl
      | cons c bytes =>
          have hlen : ((c :: bytes).take blocksize.toNat).length < 0x80000000 := by
            rw [List.length_take]
            exact hint
          have hne : 0 < ((c :: bytes).take blocksize.toNat).length := by
            rw [List.length_take, List.length_cons]
            omega
          have hread : (BitVec.ofNat 32 ((c :: bytes).take blocksize.toNat).length).toInt =
              ((c :: bytes).take blocksize.toNat).length := by
            rw [BitVec.toInt_eq_toNat_of_lt, BitVec.toNat_ofNat, Nat.mod_eq_of_lt (by omega)]
            rw [BitVec.toNat_ofNat, Nat.mod_eq_of_lt (by omega)]
            omega
          have hless : (BitVec.ofNat 32 copied).toInt < (size : Int) := by
            rw [List.length_cons] at hsize
            omega
          have hsplit := List.take_append_drop blocksize.toNat (c :: bytes)
          have hrest := congrArg List.length hsplit
          rw [List.length_append] at hrest
          rw [if_pos hless]
          simp only [hread]
          rw [if_neg (by omega), List.flatten_cons, ← BitVec.ofNat_add,
            ih _ _ (by omega) (by omega) (by omega)]
          exact hsplit

/-- A file that can be copied: the bytes that are read at a time are some, and fit into an
    `int`. -/
def Copyable (blocksize : BitVec 32) (size : Nat) : Prop :=
  size = 0 ∨ 0 < blocksize.toNat ∧ min blocksize.toNat size < 0x80000000

/-- The pieces of a file are the file if and only if it can be copied. -/
theorem filePieces_flatten_iff {file : RegularFile} {bytes : List Byte}
    (hc : file.contents = some bytes) :
    (filePieces blocksize file).flatten = bytes ↔ Copyable blocksize file.size := by
  have hsize := file.sized bytes hc
  have hbig := blocksize.isLt
  rw [filePieces, hc, Copyable, ← hsize]
  constructor
  · intro hall
    by_contra h
    rw [not_or, not_and_or] at h
    have hless : (0 : BitVec 32).toInt < (bytes.length : Int) := by
      rw [show (0 : BitVec 32).toInt = 0 from rfl]
      omega
    -- the first read is the last
    have hread : (BitVec.ofNat 32 (bytes.take blocksize.toNat).length).toInt ≤ 0 := by
      rw [List.length_take, BitVec.toInt_eq_toNat_cond, BitVec.toNat_ofNat]
      rcases h.2 with h0 | hlong
      · rw [Nat.eq_zero_of_not_pos h0, Nat.zero_min]
        decide
      · rw [Nat.mod_eq_of_lt (by omega)]
        split <;> omega
    simp only [copyPieces] at hall
    rw [if_pos hless, if_pos hread, List.flatten_nil] at hall
    exact h.1 (congrArg List.length hall.symm)
  · rintro (h0 | ⟨hpos, hint⟩)
    · rw [List.length_eq_zero_iff.mp h0]
      rfl
    · exact copyPieces_flatten hpos _ 0 bytes (Nat.lt_succ_self _) (Nat.zero_add _) hint

/-- With a block size that an `int` holds, a file is copied as it is. -/
theorem filePieces_flatten (hpos : 0 < blocksize.toNat) (hint : blocksize.toNat < 0x80000000)
    {file : RegularFile} {bytes : List Byte} (hc : file.contents = some bytes) :
    (filePieces blocksize file).flatten = bytes :=
  (filePieces_flatten_iff hc).mpr
    (.inr ⟨hpos, Nat.lt_of_le_of_lt (Nat.min_le_left _ _) hint⟩)

end GensdbfsMain
