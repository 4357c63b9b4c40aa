import FpgaConfigSpace.SdbExtractFields
import FpgaConfigSpace.SdbExtractFlat

/-! # Extracting an image and generating it again

    `sdb-extract` leaves a directory from which `gensdbfs` is to make the image again.  What
    comes back is compared record by record: the place of the table, and of every record
    what it says and the bytes that it stands for. -/

namespace SdbExtractRoundTrip

open BigEndian SdbRecord SdbFields SdbfsDevice SdbfsScan SdbfsCreate SdbfsOpen SdbfsModes SdbfsSearch
open CyclicBuffer FileWrites Gensdbfs GensdbfsText GensdbfsConfig GensdbfsFrame GensdbfsErase
open GensdbfsTables GensdbfsMain GensdbfsMoved GensdbfsFit GensdbfsCount GensdbfsFlat
open GensdbfsApart (readable)
open SdbExtract SdbExtractText SdbExtractFields SdbExtractFlat

/-! ## Two images -/

/-- What a record says, and what it stands for. -/
structure Description where
  name : List Byte
  vendor : BitVec 64
  device : Word
  flags : Word
  first : ULong
  last : ULong
  contents : List Byte
deriving DecidableEq

/-- What a record says, with these contents. -/
def describe (contents : List Byte) (r : Record) : Description :=
  ⟨productName r, be64 r vendorOffset, be32 r deviceOffset, busSpecific r, addrFirst r, addrLast r,
    contents⟩

/-- The bytes of an image that a record stands for. -/
def rangeBytes (ws : List (Write Byte)) (r : Record) : List Byte :=
  load (imageByte ws) (addrFirst r).toNat (addrLast r + 1 - addrFirst r).toNat

/-- The records of a table, besides the interconnect. -/
def tableFiles (ws : List (Write Byte)) (start : Nat) : List Record :=
  (List.range ((sdbRecords (imageRecord ws start)).toNat - 1)).map fun k =>
    imageRecord ws (start + 64 * (k + 1))

/-- What the records of a table say, and what they stand for. -/
def describeFiles (ws : List (Write Byte)) (start : Nat) : List Description :=
  (tableFiles ws start).map fun r => describe (rangeBytes ws r) r

/-- Two images say the same, in any order. -/
structure SameImage (ws ws' : List (Write Byte)) (start start' : ULong) : Prop where
  start_eq : start' = start
  dot_eq : describe [] (imageRecord ws' start'.toNat) = describe [] (imageRecord ws start.toNat)
  files_perm : (describeFiles ws' start'.toNat).Perm (describeFiles ws start.toNat)

/-! ## The extracted directory -/

/-- A file that was created, as `stat` and `readdir` find it. -/
structure Stored (x : CreatedFile) (y : CString × RegularFile) : Prop where
  name : y.1.chars = x.name
  contents : y.2.contents = some x.contents
  iroth : y.2.iroth = x.mode.testBit 2
  iwoth : y.2.iwoth = x.mode.testBit 1
  ixoth : y.2.ixoth = x.mode.testBit 0

/-- A directory has the files that were created, in any order, and no others. -/
structure DirectoryOf (created : List CreatedFile) (dirents : Dirents) : Prop where
  flat : Flat dirents
  stored : ∃ order, created.Perm order ∧ List.Forall₂ Stored order (dirFiles dirents)

/-- "Save the header" -/
def headerText (prgname fsname : List Byte) : List Byte :=
  ascii "# Configuration file generated by " ++ prgname ++ ascii ", reading " ++ fsname ++
    ascii "\n\n"

/-- The configuration file that goes with the extracted files. -/
def extractedText (prgname fsname : List Byte) (records : List (List Byte × Option CreatedFile)) :
    List Byte :=
  headerText prgname fsname ++ records.flatMap Prod.fst

/-- `gensdbfs`, with the text of the configuration file of the directory. -/
def gensdbfsText (blocksize : BitVec 32) (devsize : ULong) (text : List Byte) (dirents : Dirents) :
    Bool × List (Write Byte) :=
  match prepareDirText blocksize text dirents with
  | none => (false, [])
  | some tree => finish blocksize devsize (allocStorage blocksize tree)

/-- The text counts for its names, and the directives below them. -/
theorem gensdbfsText_eq (blocksize : BitVec 32) (devsize : ULong) (text : List Byte)
    (dirents : Dirents) : gensdbfsText blocksize devsize text dirents =
      gensdbfs blocksize devsize (configOf (configLines text)) dirents := by
  cases h : prepareDir blocksize (configOf (configLines text)) dirents with
  | none => simp only [gensdbfsText, gensdbfs, prepareDirText_eq, h]
  | some tree => simp only [gensdbfsText, gensdbfs, prepareDirText_eq, h]

/-- **The image is extracted, and the directory makes the same image again**, in whatever order
    `readdir` returns it. -/
def RoundTrips (host : Host 64) (stack : Fin 4 → Byte) (data : BitVec 64) (new : Bool)
    (prgname fsname : List Byte) (blocksize : BitVec 32) (ws : List (Write Byte)) (start : ULong) :
    Prop :=
  ∃ n records, sdbExtract host (fun _ => true) stack data start new n = .done (0, records) ∧
    (∃ dirents, DirectoryOf (records.filterMap Prod.snd) dirents) ∧
    ∀ dirents, DirectoryOf (records.filterMap Prod.snd) dirents →
      let text := extractedText prgname fsname records
      ∃ tree, prepareDirText blocksize text dirents = some tree ∧
        (gensdbfsText blocksize 0 text dirents).1 = true ∧
        SameImage ws (gensdbfsText blocksize 0 text dirents).2 start tree.dot.ustart

/-! ## Input -/

/-- A directory of files, and a configuration, of which an image can be made. -/
structure ValidInput (blocksize : BitVec 32) (config : Config) (dirents : Dirents) (tree : Tree) :
    Prop where
  input : FlatInput dirents
  names : ∀ x ∈ dirFiles dirents, FieldName x.1
  scanned : prepareDir blocksize config dirents = some tree
  laidOut : LaidOut blocksize (allocStorage blocksize tree)
  positive : 0 < blocksize.toNat
  int : blocksize.toNat < 0x80000000

/-- What is extracted can be read: the image is mapped, with all that the records stand for;
    every name stands on a line of its own; and the header is one line that is skipped, or at
    least names no file. -/
structure Legible (host : Host 64) (data : BitVec 64) (size : Nat) (prgname fsname : List Byte)
    (blocksize : BitVec 32) (config : Config) (dirents : Dirents) (tree : Tree) : Prop where
  names : ∀ x ∈ dirFiles dirents, PlainName x.1
  header : ∀ part ∈ configOf (configLines (headerText prgname fsname)),
    part.1 ∉ dotName :: (dirFiles dirents).map Prod.fst
  mapped : MapsImage host (imageDevice data tree.dot.ustart)
    (imageByte (gensdbfs blocksize 0 config dirents).2) size
  ranges : ∀ r ∈ treeRanges (allocStorage blocksize tree), r.Below size
  fileSize_le : fileSize (gensdbfs blocksize 0 config dirents).2 ≤ size

/-- Everything comes back: `new` is not zero by chance, the directory was not moved, every
    file was readable, and those that are to be written to have a length that `SDB_ALIGN`
    leaves as it is. -/
structure ComesBack (new : Bool) (blocksize : BitVec 32) (dirents : Dirents) (tree : Tree) : Prop where
  new_eq : new = true
  unmoved : tree.dot.ustart = 0
  readable : ∀ x ∈ dirFiles dirents, x.2.iroth = true
  whole : ∀ f ∈ sdbfs tree.entries, Writable f.record → sdbAlign blocksize f.size = f.size

/-! ## What is extracted -/

/-- A record was made from a file. -/
structure MadeFrom (y : CString × RegularFile) (x : FileEntry) : Prop where
  file_eq : x.2 = y.2
  basename : x.1.basename = y.1
  name : productName x.1.record = paddedName y.1
  device : recordType x.1.record = sdbTypeDevice
  flags : busSpecific x.1.record = withWrite (fileFlags y.2) (decide (Writable x.1.record))

/-- The record of a file, once it is placed. -/
theorem madeFrom_place {blocksize : BitVec 32} {config : Config} {y : CString × RegularFile}
    (hfits : y.1.chars.length ≤ 19) (rpos : ULong) :
    MadeFrom y (place (configured blocksize config y).1 rpos, y.2) := by
  have hplace := readdressed_place (configured blocksize config y).1 rpos
  have hunnamed := foldl_unnamed 0 (fillFile blocksize 0 y.1 y.2) (directivesOf config y.1)
  have hflags := busSpecific_foldl 0 (fillFile blocksize 0 y.1 y.2) (directivesOf config y.1)
  rw [busSpecific_fillFile] at hflags
  refine ⟨rfl, (basename_place _ rpos).trans hunnamed.basename, ?_, ?_, ?_⟩
  · exact (hplace.product.1.trans hunnamed.product.1).trans (productName_fillProduct hfits _ _)
  · exact hplace.product.2.trans hunnamed.product.2
  · simp only [hplace.writable, hplace.busSpecific]
    exact hflags

section

variable {blocksize : BitVec 32} {config : Config} {dirents : Dirents} {tree : Tree} {dot : Sdbf}
  {xs : List FileEntry}

/-- Every record of the image is made from a file. -/
theorem madeFrom_flatImage (him : FlatImage blocksize config dirents tree dot xs)
    (hnames : ∀ y ∈ dirFiles dirents, FieldName y.1) :
    List.Forall₂ MadeFrom (dirFiles dirents) xs := by
  refine ((List.forall₂_and_left _ _).mpr ⟨hnames, him.placed⟩).imp ?_
  rintro y x ⟨hy, rpos, rfl⟩
  exact madeFrom_place hy.fits rpos

/-- The interconnect of an image. -/
structure Interconnect (dot : Sdbf) : Prop where
  name : productName dot.record = paddedName dotName
  table : IsTable dot.record
  first : addrFirst dot.record = 0

/-- The head of the table. -/
theorem interconnect_flatImage (him : FlatImage blocksize config dirents tree dot xs)
    (hfew : (dirFiles dirents).length < 0xffff) : Interconnect dot := by
  have hclose := readdressed_closeDir tree.dot 0
    ((xs.map fun x => addrLast x.1.record).foldl laterOf (behindTable blocksize tree.dot))
  have hunnamed := foldl_unnamed 0 (fillDot 0 ((dirFiles dirents).length + 1))
    (directivesOf config dotName)
  have htable := isTable_configuredDot config (Nat.succ_lt_succ hfew)
  rw [him.dot_eq]
  refine ⟨?_, ?_, ?_⟩
  · rw [hclose.product.1, him.tree_dot, configuredDot, hunnamed.product.1]
    rfl
  · rw [← him.tree_dot] at htable
    exact isTable_closeDir _ _ htable
  · exact (be64_setBytes_of_outside _ (by decide) (Or.inl (by decide))).trans
      (be64_setBytes tree.dot.record (k := 0x08) (by decide) 0)

/-- The file that is created for a record. -/
def createdFor (ws : List (Write Byte)) (x : FileEntry) : CreatedFile :=
  ⟨x.1.basename.chars, fileMode x.1.record, rangeBytes ws x.1.record⟩

/-- All that is extracted. -/
def extracted (ws : List (Write Byte)) (dot : Sdbf) (xs : List FileEntry) :
    List (List Byte × Option CreatedFile) :=
  (configText dotName.chars dot.record, none) ::
    xs.map fun x => (configText x.1.basename.chars x.1.record, some (createdFor ws x))

/-- The files that are created. -/
theorem filterMap_extracted (ws : List (Write Byte)) (dot : Sdbf) (xs : List FileEntry) :
    (extracted ws dot xs).filterMap Prod.snd = xs.map (createdFor ws) := by
  rw [extracted, List.filterMap_cons_none rfl, List.filterMap_map]
  exact congrFun List.filterMap_eq_map' xs

variable {host : Host 64} {data : BitVec 64} {size : Nat} {ws : List (Write Byte)}

/-- What a record stands for is taken from the mapping. -/
theorem extractedBytes_image {entry : BitVec 64}
    (hmap : MapsImage host (imageDevice data entry) (imageByte ws) size) {r : Record}
    (hr : addrLast r + 1 - addrFirst r = 0 ∨
      (addrFirst r).toNat + (addrLast r + 1 - addrFirst r).toNat ≤ size) :
    extractedBytes host (imageDevice data entry) r = rangeBytes ws r := by
  rw [extractedBytes, rangeBytes, BitVec.setWidth_eq, BitVec.setWidth_eq, load, load]
  refine List.map_congr_left fun k hk => ?_
  have hlt := List.mem_range.mp hk
  rcases hr with hzero | hle
  · rw [hzero] at hlt
    exact absurd hlt (Nat.not_lt_zero k)
  · have hbyte := (hmap.2 ((addrFirst r).toNat + k) (by omega)).1
    rw [BitVec.ofNat_add, BitVec.ofNat_toNat, BitVec.setWidth_eq, ← BitVec.add_assoc] at hbyte
    rw [Nat.zero_add]
    exact hbyte

/-- What is created for a record with a name. -/
theorem createFile_named {fs : Sdbfs 64 Unit} {name : CString} (h : FieldName name) {d : Record}
    (hname : productName d = paddedName name) :
    createFile host (fun _ => true) fs d = some (configText name.chars d,
      if name.chars = ascii "." then none
      else some ⟨name.chars, fileMode d, extractedBytes host fs d⟩) := by
  rw [createFile, extractName_padded h hname]
  rfl

/-- The place of the table is the one it was given. -/
theorem ustart_flatImage (him : FlatImage blocksize config dirents tree dot xs) :
    dot.ustart = tree.dot.ustart := by
  rw [him.dot_eq]
  rfl

/-- **Every record of the image is extracted.** -/
theorem sdbExtract_image (him : FlatImage blocksize config dirents tree dot xs)
    (hvalid : ValidInput blocksize config dirents tree)
    (hmap : MapsImage host (imageDevice data tree.dot.ustart)
      (imageByte (writesOf blocksize dot xs)) size)
    (hsize : fileSize (writesOf blocksize dot xs) ≤ size)
    (hranges : ∀ r ∈ treeRanges (allocStorage blocksize tree), r.Below size)
    (stack : Fin 4 → Byte) :
    ∃ n, sdbExtract host (fun _ => true) stack data tree.dot.ustart true n =
      .done (0, extracted (writesOf blocksize dot xs) dot xs) := by
  have hdot := interconnect_flatImage him hvalid.input.few
  have hfiles := madeFrom_flatImage him hvalid.names
  have hstart := ustart_flatImage him
  have hlaid := hvalid.laidOut
  rw [him.allocated] at hlaid hranges
  have hholds := @holds_table blocksize _ _ him.flat (hlaid.writesApart him.flat)
  rw [hstart] at hholds
  refine sdbExtract_flat hmap hsize hholds hdot.table ?_ ?_ ?_ stack
  · rw [List.length_map]
    exact him.flat.records_eq
  · rintro r hr hbridge
    obtain ⟨x, hx, rfl⟩ := List.mem_map.mp hr
    obtain ⟨y, -, hyx⟩ := Paired.exists_left hfiles x hx
    exact absurd (hyx.device.symm.trans hbridge) (by decide)
  · refine .cons ?_ (List.forall₂_map_left_iff.mpr (List.forall₂_map_right_iff.mpr
      (List.forall₂_same.mpr fun x hx => ?_)))
    · rw [createFile_named fieldName_dot hdot.name, if_pos (by decide)]
    · obtain ⟨y, hy, hyx⟩ := Paired.exists_left hfiles x hx
      have hrange : rangeOf x ∈ treeRanges ⟨dot, entriesOf xs⟩ := by
        rw [treeRanges_flat him.flat]
        exact List.mem_map_of_mem hx
      have hnodot : y.1.chars ≠ ascii "." := by
        intro hchars
        have hname : y.1 = dotName := chars_inj hchars
        exact (List.nodup_cons.mp hvalid.input.nodup).1 (hname ▸ List.mem_map_of_mem hy)
      rw [createFile_named (hvalid.names y hy) hyx.name, if_neg hnodot,
        extractedBytes_image hmap (hranges _ hrange), createdFor, hyx.basename]

end

/-! ## What is configured again -/

/-- The directives of one configuration behind those of another. -/
theorem directivesOf_append (config config' : Config) (name : CString) :
    directivesOf (config ++ config') name =
      directivesOf config name ++ directivesOf config' name := List.flatMap_append

/-- A name that is not there has no directives. -/
theorem directivesOf_none {config : Config} {name : CString}
    (h : ∀ part ∈ config, part.1 ≠ name) : directivesOf config name = [] := by
  refine List.flatMap_eq_nil_iff.mpr fun part hpart => ?_
  exact if_neg fun hchars => h part hpart (chars_inj hchars)

/-- A name that is there once has those below it. -/
theorem directivesOf_unique {config : Config} (hnodup : (config.map Prod.fst).Nodup) :
    ∀ part ∈ config, directivesOf config part.1 = part.2 := by
  induction config with
  | nil => exact fun part hpart => absurd hpart List.not_mem_nil
  | cons first config ih =>
      obtain ⟨hfirst, hrest⟩ := List.nodup_cons.mp hnodup
      intro part hpart
      rw [directivesOf, List.flatMap_cons]
      rcases List.mem_cons.mp hpart with rfl | hpart
      · have hnone : directivesOf config part.1 = [] := by
          refine directivesOf_none fun other hother heq => hfirst ?_
          exact heq ▸ List.mem_map_of_mem hother
        rw [if_pos rfl, ← directivesOf, hnone, List.append_nil]
      · have hne : first.1.chars ≠ part.1.chars := fun hchars =>
          hfirst (chars_inj hchars ▸ List.mem_map_of_mem hpart)
        rw [if_neg hne, List.nil_append]
        exact ih hrest part hpart

section

variable {blocksize : BitVec 32} {config : Config} {dirents : Dirents} {tree : Tree} {dot : Sdbf}
  {xs : List FileEntry}

/-- The names and the directives that are printed. -/
def printedParts (dot : Sdbf) (xs : List FileEntry) : Config :=
  (dotName, printed dot.record) :: xs.map fun x => (x.1.basename, printed x.1.record)

theorem plainName_dot : PlainName dotName where
  newline := by decide
  first := by
    rintro c ⟨⟩
    exact ⟨by decide, by decide⟩
  last := by
    rintro c ⟨⟩
    decide

/-- The header ends with a line. -/
theorem endsLine_header (prgname fsname : List Byte) : EndsLine (headerText prgname fsname) := by
  intro c hc
  have hend : ascii "\n\n" = [0x0a, 0x0a] := by decide
  rw [headerText, hend, List.getLast?_append_of_ne_nil _ (by decide)] at hc
  cases hc
  rfl

/-- A header that is one line is a comment. -/
theorem configOf_header {prgname fsname : List Byte} (hprg : 0x0a ∉ prgname) (hfs : 0x0a ∉ fsname)
    (hlen : prgname.length + fsname.length < 200) :
    configOf (configLines (headerText prgname fsname)) = [] := by
  let line := ascii " Configuration file generated by " ++ prgname ++ ascii ", reading " ++ fsname
  have htext : headerText prgname fsname = 0x23 :: line ++ 0x0a :: ([] ++ 0x0a :: []) := by
    have hfront : ascii "# Configuration file generated by " =
        0x23 :: ascii " Configuration file generated by " := rfl
    have hend : ascii "\n\n" = [0x0a, 0x0a] := by decide
    rw [headerText, hfront, hend]
    simp only [line, List.append_assoc, List.cons_append, List.nil_append]
  have hline : 0x0a ∉ (0x23 : Byte) :: line := by
    have hwords : 0x0a ∉ ascii " Configuration file generated by " ∧ 0x0a ∉ ascii ", reading " := by
      decide
    refine List.not_mem_cons_of_ne_of_not_mem (by decide) ?_
    simp only [line, List.mem_append, not_or]
    exact ⟨⟨⟨hwords.1, hprg⟩, hwords.2⟩, hfs⟩
  have hshort : ((0x23 : Byte) :: line).length < 255 := by
    have hwords : (ascii " Configuration file generated by ").length = 33 ∧
        (ascii ", reading ").length = 10 := by decide
    simp only [line, List.length_cons, List.length_append, hwords.1, hwords.2]
    omega
  rw [htext, configLines_line hline hshort, configLines_line List.not_mem_nil (by decide),
    List.cons_append, configLine_comment]
  rfl

/-- **The configuration that is extracted is read back.** -/
theorem configOf_extractedText (him : FlatImage blocksize config dirents tree dot xs)
    (hvalid : ValidInput blocksize config dirents tree)
    (hplain : ∀ y ∈ dirFiles dirents, PlainName y.1) (prgname fsname : List Byte)
    (ws : List (Write Byte)) :
    configOf (configLines (extractedText prgname fsname (extracted ws dot xs))) =
      configOf (configLines (headerText prgname fsname)) ++ printedParts dot xs := by
  have hfiles := madeFrom_flatImage him hvalid.names
  have hlaid := hvalid.laidOut
  rw [him.allocated] at hlaid
  have hprintable : ∀ x ∈ (dotName, dot.record) :: xs.map fun x => (x.1.basename, x.1.record),
      Printable x := by
    intro x hx
    rcases List.mem_cons.mp hx with rfl | hx
    · refine ⟨plainName_dot, fieldName_dot.nonempty,
        Nat.lt_of_le_of_lt fieldName_dot.fits (by decide), ?_⟩
      rw [(interconnect_flatImage him hvalid.input.few).first]
      decide
    · obtain ⟨e, he, rfl⟩ := List.mem_map.mp hx
      obtain ⟨y, hy, hyx⟩ := Paired.exists_left hfiles e he
      have hname := hvalid.names y hy
      rw [← hyx.basename] at hname
      have hline := hplain y hy
      rw [← hyx.basename] at hline
      exact ⟨hline, hname.nonempty, Nat.lt_of_le_of_lt hname.fits (by decide),
        (hlaid.writesApart him.flat).long e he⟩
  have htext : (extracted ws dot xs).flatMap Prod.fst =
      ((dotName, dot.record) :: xs.map fun x => (x.1.basename, x.1.record)).flatMap fun x =>
        configText x.1.chars x.2 := by
    rw [extracted, List.flatMap_cons, List.flatMap_cons, List.flatMap_map, List.flatMap_map]
  rw [extractedText, htext, configOf_extracted (endsLine_header prgname fsname) hprintable,
    printedParts, List.map_cons, List.map_map]
  rfl

/-- What is printed has the names of the files, and ".". -/
theorem names_printedParts (him : FlatImage blocksize config dirents tree dot xs)
    (hnames : ∀ y ∈ dirFiles dirents, FieldName y.1) :
    (printedParts dot xs).map Prod.fst = dotName :: (dirFiles dirents).map Prod.fst := by
  have hfiles := madeFrom_flatImage him hnames
  rw [printedParts, List.map_cons, List.map_map]
  exact congrArg (List.cons dotName)
    (Paired.map_eq (hfiles.imp fun y x hyx => hyx.basename.symm)).symm

/-- Every name gets what was printed for it. -/
theorem directivesOf_extractedText (him : FlatImage blocksize config dirents tree dot xs)
    (hvalid : ValidInput blocksize config dirents tree)
    {header : Config} (hheader : ∀ part ∈ header, part.1 ∉ dotName :: (dirFiles dirents).map Prod.fst) :
    ∀ part ∈ printedParts dot xs,
      directivesOf (header ++ printedParts dot xs) part.1 = part.2 := by
  intro part hpart
  have hnames := names_printedParts him hvalid.names
  rw [directivesOf_append, directivesOf_none, List.nil_append]
  · exact directivesOf_unique (hnames ▸ hvalid.input.nodup) part hpart
  · intro other hother heq
    refine hheader other hother ?_
    rw [heq, ← hnames]
    exact List.mem_map_of_mem hpart

/-! ## What comes back of a record -/

/-- A record that was made again, from the file and the lines that were made of it. -/
structure Again (ws : List (Write Byte)) (blocksize : BitVec 32) (x x' : FileEntry) : Prop where
  basename : x'.1.basename = x.1.basename
  name : productName x'.1.record = productName x.1.record
  vendor : be64 x'.1.record vendorOffset = be64 x.1.record vendorOffset
  device : be32 x'.1.record deviceOffset = be32 x.1.record deviceOffset
  writable : Writable x'.1.record ↔ Writable x.1.record
  flags : busSpecific x'.1.record = 0x04 ||| (if Writable x.1.record then 0x02 else 0) |||
    (if busSpecific x.1.record &&& SDB_DATA_EXEC ≠ 0 then 0x01 else 0)
  first : addrFirst x'.1.record = addrFirst x.1.record
  size : addrLast x'.1.record + 1 - addrFirst x'.1.record =
    if Writable x.1.record then
      sdbAlign blocksize (addrLast x.1.record + 1 - addrFirst x.1.record)
    else addrLast x.1.record + 1 - addrFirst x.1.record
  contents : x'.2.contents = some (rangeBytes ws x.1.record)

/-- The number of bytes that a record stands for. -/
theorem rangeBytes_length (ws : List (Write Byte)) (r : Record) :
    (rangeBytes ws r).length = (addrLast r + 1 - addrFirst r).toNat := load_length _ _ _

/-- A file that was extracted is placed again. -/
theorem again_place {ws : List (Write Byte)} {x : FileEntry} {y z : CString × RegularFile}
    (hx : MadeFrom z x) (hfits : z.1.chars.length ≤ 19) (hy : Stored (createdFor ws x) y)
    {config : Config} (hdirectives : directivesOf config y.1 = printed x.1.record) (rpos : ULong) :
    Again ws blocksize x (place (configured blocksize config y).1 rpos, y.2) := by
  have hname : y.1 = x.1.basename := chars_inj hy.name
  have hback := readBack_printed x.1.record (fillFile blocksize 0 y.1 y.2)
  rw [← hdirectives] at hback
  have hplace := readdressed_place (configured blocksize config y).1 rpos
  obtain ⟨hread, hwrite, hexec⟩ := fileMode_bits x.1.record
  have hiroth : y.2.iroth = true := hy.iroth.trans hread
  have hiwoth : y.2.iwoth = decide (Writable x.1.record) := hy.iwoth.trans hwrite
  have hixoth : y.2.ixoth = decide (busSpecific x.1.record &&& SDB_DATA_EXEC ≠ 0) :=
    hy.ixoth.trans hexec
  have hmade : MadeFrom y (place (configured blocksize config y).1 rpos, y.2) := by
    refine madeFrom_place ?_ rpos
    rw [hname, hx.basename]
    exact hfits
  -- the write flag comes back through the mode, and through a directive
  have hfill : Writable (fillFile blocksize 0 y.1 y.2).record ↔ Writable x.1.record := by
    have hbit : (fileFlags y.2).getLsbD 1 = y.2.iwoth := by
      rw [fileFlags]
      cases y.2.iroth <;> cases y.2.iwoth <;> cases y.2.ixoth <;> rfl
    rw [writable_iff, busSpecific_fillFile, hbit, hiwoth, decide_eq_true_iff]
  have hwritable : Writable (place (configured blocksize config y).1 rpos).record ↔
      Writable x.1.record := by
    refine hplace.writable.trans (hback.writable.trans ?_)
    rw [hfill, or_self]
  have hsize : (configured blocksize config y).1.size =
      if Writable x.1.record then
        sdbAlign blocksize (addrLast x.1.record + 1 - addrFirst x.1.record)
      else addrLast x.1.record + 1 - addrFirst x.1.record := by
    have hlength : y.2.size = (addrLast x.1.record + 1 - addrFirst x.1.record).toNat :=
      (y.2.sized _ hy.contents).symm.trans (rangeBytes_length ws x.1.record)
    refine hback.size.trans ?_
    rw [fillFile]
    simp only [hiwoth, decide_eq_true_iff, hlength, BitVec.ofNat_toNat, BitVec.setWidth_eq]
  refine ⟨?_, ?_, ?_, ?_, hwritable, ?_, ?_, ?_, hy.contents⟩
  · exact hmade.basename.trans hname
  · rw [hmade.name, hx.name, hname, hx.basename]
  · exact hplace.vendor.trans hback.vendor
  · exact hplace.device.trans hback.device
  · rw [hmade.flags, withWrite_fileFlags, hiroth, hixoth]
    simp only [if_true, decide_eq_true_iff, hwritable]
  · exact (addrFirst_place_user rpos hback.userpos).trans hback.ustart
  · exact (size_place _ rpos).trans hsize

/-- The flags come back exactly if the file was readable. -/
theorem flags_again {ws : List (Write Byte)} {x x' : FileEntry} {z : CString × RegularFile}
    (hx : MadeFrom z x) (h : Again ws blocksize x x') :
    busSpecific x'.1.record = busSpecific x.1.record ↔ z.2.iroth = true := by
  have hbus : busSpecific x.1.record = (if z.2.iroth then 0x04 else 0) |||
      (if decide (Writable x.1.record) = true then 0x02 else 0) ||| (if z.2.ixoth then 0x01 else 0) :=
    hx.flags.trans (withWrite_fileFlags z.2 _)
  have hexec : busSpecific x.1.record &&& SDB_DATA_EXEC ≠ 0 ↔ z.2.ixoth = true := by
    rw [hbus]
    cases z.2.iroth <;> cases decide (Writable x.1.record) <;> cases z.2.ixoth <;> decide
  have hflags : busSpecific x'.1.record = 0x04 |||
      (if decide (Writable x.1.record) = true then 0x02 else 0) ||| (if z.2.ixoth then 0x01 else 0) := by
    rw [h.flags]
    simp only [hexec, decide_eq_true_iff]
  rw [hflags, hbus]
  cases z.2.iroth <;> cases decide (Writable x.1.record) <;> cases z.2.ixoth <;> decide

/-- The same range, if the file is as long as it was. -/
theorem last_again {ws : List (Write Byte)} {x x' : FileEntry} (h : Again ws blocksize x x') :
    addrLast x'.1.record = addrLast x.1.record ↔
      (Writable x.1.record → sdbAlign blocksize (addrLast x.1.record + 1 - addrFirst x.1.record) =
        addrLast x.1.record + 1 - addrFirst x.1.record) := by
  have hlast : addrLast x'.1.record = addrLast x.1.record ↔
      addrLast x'.1.record + 1 - addrFirst x'.1.record =
        addrLast x.1.record + 1 - addrFirst x.1.record := by
    rw [h.first, BitVec.sub_left_inj, BitVec.add_left_inj]
  rw [hlast, h.size]
  by_cases hw : Writable x.1.record
  · rw [if_pos hw]
    exact ⟨fun h _ => h, fun h => h hw⟩
  · rw [if_neg hw]
    exact iff_of_true rfl fun hwrite => absurd hwrite hw

/-- **What comes back of a record is the record** exactly if it is as long as it was, and its
    file was readable. -/
theorem describe_again {ws ws' : List (Write Byte)} {x x' : FileEntry} {z : CString × RegularFile}
    (hx : MadeFrom z x) (h : Again ws blocksize x x')
    (hbytes : ∀ (i : Nat) (b : Byte), (rangeBytes ws x.1.record)[i]? = some b →
      imageByte ws' ((addrFirst x'.1.record).toNat + i) = b) :
    describe (rangeBytes ws' x'.1.record) x'.1.record = describe (rangeBytes ws x.1.record) x.1.record ↔
      z.2.iroth = true ∧
        (Writable x.1.record → sdbAlign blocksize (addrLast x.1.record + 1 - addrFirst x.1.record) =
          addrLast x.1.record + 1 - addrFirst x.1.record) := by
  rw [← flags_again hx h, ← last_again h]
  constructor
  · intro heq
    exact ⟨congrArg Description.flags heq, congrArg Description.last heq⟩
  · rintro ⟨hflags, hlast⟩
    have hcontents : rangeBytes ws' x'.1.record = rangeBytes ws x.1.record := by
      have hlength : (rangeBytes ws' x'.1.record).length = (rangeBytes ws x.1.record).length := by
        rw [rangeBytes_length, rangeBytes_length, h.first, hlast]
      refine List.ext_getElem hlength fun i hi hi' => ?_
      have hbyte := hbytes i _ (List.getElem?_eq_getElem hi')
      rw [← hbyte]
      simp only [rangeBytes, load, List.getElem_map, List.getElem_range]
    rw [describe, describe, h.name, h.vendor, h.device, hflags, h.first, hlast, hcontents]

/-! ## The second image -/

/-- The image that is made of the extracted directory. -/
structure AgainImage (ws : List (Write Byte)) (blocksize : BitVec 32) (config : Config)
    (dirents : Dirents) (tree : Tree) (xs : List FileEntry) (dot' : Sdbf) (xs' ys : List FileEntry) :
    Prop where
  image : FlatImage blocksize config dirents tree dot' xs'
  few : (dirFiles dirents).length < 0xffff
  perm : ys.Perm xs'
  again : List.Forall₂ (Again ws blocksize) xs ys

/-- **The image that is made of the extracted directory**, record by record. -/
theorem againImage (him : FlatImage blocksize config dirents tree dot xs)
    (hvalid : ValidInput blocksize config dirents tree) {ws : List (Write Byte)} {config' : Config}
    (hdirectives : ∀ part ∈ printedParts dot xs, directivesOf config' part.1 = part.2)
    {dirents' : Dirents} (hdir : DirectoryOf (xs.map (createdFor ws)) dirents') :
    ∃ tree' dot' xs' ys, prepareDir blocksize config' dirents' = some tree' ∧
      AgainImage ws blocksize config' dirents' tree' xs dot' xs' ys := by
  have hfiles := madeFrom_flatImage him hvalid.names
  obtain ⟨order, hperm, hstored⟩ := hdir.stored
  obtain ⟨files, hstored, hfperm⟩ := List.perm_comp_forall₂ hperm hstored
  have hstored := List.forall₂_map_left_iff.mp hstored
  -- the names are those of the first directory
  have hnames : files.map Prod.fst = (dirFiles dirents).map Prod.fst := by
    have hback := Paired.map_eq (hstored.imp fun x y hxy =>
      (chars_inj hxy.name : y.1 = x.1.basename).symm)
    exact hback.symm.trans (Paired.map_eq (hfiles.imp fun y x hyx => hyx.basename.symm)).symm
  have hinput : FlatInput dirents' := by
    refine ⟨hdir.flat, ?_, ?_⟩
    · have hnodup := hvalid.input.nodup
      rw [← hnames] at hnodup
      exact ((hfperm.map Prod.fst).cons dotName).nodup_iff.mp hnodup
    · have hlength := congrArg List.length hnames
      rw [List.length_map, List.length_map] at hlength
      rw [← hfperm.length_eq, hlength]
      exact hvalid.input.few
  obtain ⟨tree', hscan⟩ : ∃ tree', prepareDir blocksize config' dirents' = some tree' :=
    ⟨_, prepareDir_flat blocksize config' hinput⟩
  obtain ⟨dot', xs', him'⟩ := flatImage hinput hscan
  obtain ⟨ys, hplaced, hyperm⟩ := List.perm_comp_forall₂ hfperm him'.placed
  refine ⟨tree', dot', xs', ys, hscan, him', hinput.few, hyperm, ?_⟩
  refine (Paired.comp (Paired.with_mem hstored) hplaced).imp ?_
  rintro x x' ⟨y, ⟨hx, -, hxy⟩, rpos, rfl⟩
  obtain ⟨z, hz, hzx⟩ := Paired.exists_left hfiles x hx
  refine again_place hzx (hvalid.names z hz).fits hxy ?_ rpos
  rw [(chars_inj hxy.name : y.1 = x.1.basename)]
  exact hdirectives (x.1.basename, printed x.1.record)
    (List.mem_cons_of_mem _ (List.mem_map_of_mem hx))

section

variable {ws : List (Write Byte)} {config' : Config} {dirents' : Dirents} {tree' : Tree}
  {dot' : Sdbf} {xs' ys : List FileEntry}

/-- The directory itself, with what was printed for it. -/
theorem readBack_dot (h : AgainImage ws blocksize config' dirents' tree' xs dot' xs' ys)
    (hdirectives : directivesOf config' dotName = printed dot.record) :
    ReadBack dot.record (fillDot 0 ((dirFiles dirents').length + 1)) tree'.dot := by
  rw [h.image.tree_dot, configuredDot, hdirectives]
  exact readBack_printed dot.record _

/-- It has as many files. -/
theorem length_again (him : FlatImage blocksize config dirents tree dot xs)
    (h : AgainImage ws blocksize config' dirents' tree' xs dot' xs' ys) :
    (dirFiles dirents').length = (dirFiles dirents).length := by
  rw [h.image.placed.length_eq, him.placed.length_eq, ← h.perm.length_eq, h.again.length_eq]

/-- **The interconnect comes back**, if the directory was not moved and the files end where
    they did. -/
theorem describe_dot_again (him : FlatImage blocksize config dirents tree dot xs)
    (hfew : (dirFiles dirents).length < 0xffff)
    (h : AgainImage ws blocksize config' dirents' tree' xs dot' xs' ys)
    (hdirectives : directivesOf config' dotName = printed dot.record)
    (hstart : tree.dot.ustart = 0)
    (hlasts : List.Forall₂ (fun x y => addrLast y.1.record = addrLast x.1.record) xs ys) :
    describe [] dot'.record = describe [] dot.record := by
  have hdot := interconnect_flatImage him hfew
  have hdot' := interconnect_flatImage h.image h.few
  have hback := readBack_dot h hdirectives
  have hlength := length_again him h
  have hclose : Readdressed tree.dot.record dot.record := him.dot_eq ▸ readdressed_closeDir _ _ _
  have hclose' : Readdressed tree'.dot.record dot'.record :=
    h.image.dot_eq ▸ readdressed_closeDir _ _ _
  have hflags : busSpecific dot'.record = busSpecific dot.record := by
    have hbus := busSpecific_foldl 0 (fillDot 0 ((dirFiles dirents).length + 1))
      (directivesOf config dotName)
    have hbus' := busSpecific_foldl 0 (fillDot 0 ((dirFiles dirents').length + 1))
      (directivesOf config' dotName)
    rw [← configuredDot, ← him.tree_dot] at hbus
    rw [← configuredDot, ← h.image.tree_dot] at hbus'
    have hwritable : Writable tree'.dot.record ↔ Writable tree.dot.record := by
      refine hback.writable.trans (Iff.trans ?_ hclose.writable)
      rw [writable_iff_writeBit (fillDot _ _).record, writeBit_fillDot]
      exact or_iff_left Bool.false_ne_true
    rw [hclose'.busSpecific, hclose.busSpecific, hbus, hbus', hlength]
    simp only [hwritable]
  have hlast : addrLast dot'.record = addrLast dot.record := by
    have hread : ∀ (d : Sdbf) (last : ULong), addrLast (closeDir d 0 last).record = last :=
      fun d last => be64_setBytes _ (k := 0x10) (by decide) last
    have hrecords : records tree'.dot = records tree.dot := by
      rw [h.image.tree_dot, him.tree_dot, hlength,
        records_configuredDot _ (Nat.succ_lt_succ hfew), records_configuredDot _ (Nat.succ_lt_succ hfew)]
    have htable : behindTable blocksize tree'.dot = behindTable blocksize tree.dot := by
      rw [behindTable, behindTable, hback.ustart, hdot.first, hstart, hrecords]
    have hmap : xs.map (fun x => addrLast x.1.record) = ys.map fun x => addrLast x.1.record :=
      Paired.map_eq (hlasts.imp fun x y hxy => hxy.symm)
    have hperm := h.perm.map fun x => addrLast x.1.record
    rw [h.image.dot_eq, him.dot_eq, hread, hread, htable, hmap,
      List.Perm.foldl_eq (f := laterOf) hperm]
  rw [describe, describe, hdot'.name, hdot.name, hdot'.first, hdot.first, hflags, hlast,
    hclose'.vendor, hclose'.device, hback.vendor, hback.device]

/-- The second image is laid out as the first one was. -/
theorem writesApart_again (hlaid : LaidOut blocksize ⟨dot, entriesOf xs⟩) (hflat : FlatTree dot xs)
    (h : AgainImage ws blocksize config' dirents' tree' xs dot' xs' ys)
    (hstart : dot'.ustart = dot.ustart) : WritesApart dot' xs' := by
  have hagain : List.Forall₂ (fun x y => (∀ p, FileEntry.Takes y p → (rangeOf x).Has p) ∧
      addrFirst y.1.record = addrFirst x.1.record) xs ys := by
    refine h.again.imp fun x y hxy => ⟨fun p hp => ?_, hxy.first⟩
    have hsize : y.2.size = (addrLast x.1.record + 1 - addrFirst x.1.record).toNat :=
      (y.2.sized _ hxy.contents).symm.trans (rangeBytes_length ws x.1.record)
    rw [FileEntry.Takes, hxy.first, hsize] at hp
    exact hp
  refine ⟨?_, fun x' hx' => ?_, ?_⟩
  · rw [hstart]
    exact hlaid.start
  · obtain ⟨x, hx, -, hfirst⟩ := Paired.exists_left hagain x' (h.perm.mem_iff.mpr hx')
    rw [hfirst]
    exact (hlaid.writesApart hflat).long x hx
  · exact (hlaid.separate hflat).paired hstart (hagain.imp fun x y hxy => hxy.1) h.perm

end

/-! ## The two images, compared -/

/-- What an image says is what its table says. -/
theorem describe_image (hflat : FlatTree dot xs) (hapart : WritesApart dot xs) :
    imageRecord (writesOf blocksize dot xs) dot.ustart.toNat = dot.record ∧
      describeFiles (writesOf blocksize dot xs) dot.ustart.toNat = xs.map fun x =>
        describe (rangeBytes (writesOf blocksize dot xs) x.1.record) x.1.record := by
  have hholds := @holds_table blocksize _ _ hflat hapart
  have hdot : imageRecord (writesOf blocksize dot xs) dot.ustart.toNat = dot.record :=
    hholds.record (j := 0) rfl
  have hcount : (sdbRecords dot.record).toNat - 1 = xs.length :=
    congrArg (· - 1) hflat.records_eq
  have htable : tableFiles (writesOf blocksize dot xs) dot.ustart.toNat =
      xs.map fun x => x.1.record := by
    rw [tableFiles, hdot, hcount]
    refine List.ext_getElem (by rw [List.length_map, List.length_map, List.length_range]) ?_
    intro k hk hk'
    rw [List.length_map] at hk'
    rw [List.getElem_map, List.getElem_map, List.getElem_range]
    refine hholds.record (j := k + 1) ?_
    rw [List.getElem?_cons_succ, List.getElem?_map, List.getElem?_eq_getElem hk']
    rfl
  refine ⟨hdot, ?_⟩
  rw [describeFiles, htable, List.map_map]
  rfl

/-- The records are those of the configured files. -/
theorem whole_iff (him : FlatImage blocksize config dirents tree dot xs)
    (hvalid : ValidInput blocksize config dirents tree) :
    (∀ f ∈ sdbfs tree.entries, Writable f.record → sdbAlign blocksize f.size = f.size) ↔
      ∀ x ∈ xs, Writable x.1.record →
        sdbAlign blocksize (addrLast x.1.record + 1 - addrFirst x.1.record) =
          addrLast x.1.record + 1 - addrFirst x.1.record := by
  have hentries : sdbfs tree.entries =
      (dirFiles dirents).map fun y => (configured blocksize config y).1 := by
    rw [← Option.some.inj (hvalid.scanned.symm.trans
      (prepareDir_flat blocksize config hvalid.input)).symm, sdbfs_flat, List.map_map]
    rfl
  have hplaced := him.placed.imp (S := fun y x =>
    (Writable x.1.record ↔ Writable (configured blocksize config y).1.record) ∧
      addrLast x.1.record + 1 - addrFirst x.1.record = (configured blocksize config y).1.size) (by
    rintro y x ⟨rpos, rfl⟩
    exact ⟨(readdressed_place _ rpos).writable, size_place _ rpos⟩)
  rw [hentries, List.forall_mem_map]
  constructor
  · intro h x hx hw
    obtain ⟨y, hy, hwritable, hsize⟩ := Paired.exists_left hplaced x hx
    rw [hsize]
    exact h y hy (hwritable.mp hw)
  · intro h y hy hw
    obtain ⟨x, hx, hwritable, hsize⟩ := Paired.exists_right hplaced y hy
    have hwhole := h x hx (hwritable.mpr hw)
    rwa [hsize] at hwhole

/-- **Two images of one directory say the same** exactly if all files were readable, and those to
    be written to have whole blocks. -/
theorem sameImage_again (him : FlatImage blocksize config dirents tree dot xs)
    (hvalid : ValidInput blocksize config dirents tree) {config' : Config} {dirents' : Dirents}
    {tree' : Tree} {dot' : Sdbf} {xs' ys : List FileEntry}
    (h : AgainImage (writesOf blocksize dot xs) blocksize config' dirents' tree' xs dot' xs' ys)
    (hdirectives : directivesOf config' dotName = printed dot.record)
    (hstart : tree.dot.ustart = 0) :
    SameImage (writesOf blocksize dot xs) (writesOf blocksize dot' xs') tree.dot.ustart
        tree'.dot.ustart ↔
      (∀ y ∈ dirFiles dirents, y.2.iroth = true) ∧
        ∀ f ∈ sdbfs tree.entries, Writable f.record → sdbAlign blocksize f.size = f.size := by
  have hfiles := madeFrom_flatImage him hvalid.names
  have hlaid := hvalid.laidOut
  rw [him.allocated] at hlaid
  have hdot := interconnect_flatImage him hvalid.input.few
  have hstart' : tree'.dot.ustart = 0 := (readBack_dot h hdirectives).ustart.trans hdot.first
  have hdots : dot'.ustart = dot.ustart := by
    rw [ustart_flatImage h.image, ustart_flatImage him, hstart, hstart']
  have hapart' := writesApart_again hlaid him.flat h hdots
  obtain ⟨himage, hdescribe⟩ := @describe_image blocksize _ _ him.flat
    (hlaid.writesApart him.flat)
  obtain ⟨himage', hdescribe'⟩ := @describe_image blocksize _ _ h.image.flat hapart'
  rw [ustart_flatImage him] at himage hdescribe
  rw [ustart_flatImage h.image] at himage' hdescribe'
  -- record by record
  have heach : ∀ x x', x' ∈ xs' → Again (writesOf blocksize dot xs) blocksize x x' →
      ∀ z, MadeFrom z x → (describe (rangeBytes (writesOf blocksize dot' xs') x'.1.record)
          x'.1.record = describe (rangeBytes (writesOf blocksize dot xs) x.1.record) x.1.record ↔
        z.2.iroth = true ∧ (Writable x.1.record →
          sdbAlign blocksize (addrLast x.1.record + 1 - addrFirst x.1.record) =
            addrLast x.1.record + 1 - addrFirst x.1.record)) := by
    intro x x' hx' hagain z hzx
    refine describe_again hzx hagain fun i b hi => ?_
    exact file_contents hvalid.positive hvalid.int h.image.flat hapart' hx' hagain.contents hi
  rw [whole_iff him hvalid]
  constructor
  · intro hsame
    have hperm := hsame.files_perm
    rw [hdescribe, hdescribe'] at hperm
    have hall : ∀ x ∈ xs, ∀ z ∈ dirFiles dirents, MadeFrom z x → z.2.iroth = true ∧
        (Writable x.1.record →
          sdbAlign blocksize (addrLast x.1.record + 1 - addrFirst x.1.record) =
            addrLast x.1.record + 1 - addrFirst x.1.record) := by
      intro x hx z hz hzx
      obtain ⟨x', hx', heq⟩ := List.mem_map.mp (hperm.mem_iff.mpr (List.mem_map_of_mem hx))
      obtain ⟨x₀, hx₀, hagain⟩ := Paired.exists_left h.again x' (h.perm.mem_iff.mpr hx')
      obtain ⟨z₀, hz₀, hzx₀⟩ := Paired.exists_left hfiles x₀ hx₀
      -- the name tells which one it was
      have hpadded : paddedName z₀.1 = paddedName z.1 := by
        rw [← hzx₀.name, ← hagain.name, ← hzx.name]
        exact congrArg Description.name heq
      have hname : z₀.1 = z.1 := by
        have hboth := (extractName_padded (hvalid.names z₀ hz₀) hzx₀.name).symm.trans
          (extractName_padded (hvalid.names z hz) (hzx₀.name.trans hpadded))
        exact chars_inj (Option.some.inj hboth)
      have hnodup : (xs.map fun x => x.1.basename).Nodup := by
        have hnames := names_printedParts him hvalid.names
        rw [printedParts, List.map_cons, List.map_map] at hnames
        exact (List.nodup_cons.mp (hnames ▸ hvalid.input.nodup)).2
      have hx₀x : x₀ = x := List.inj_on_of_nodup_map hnodup hx₀ hx
        (by rw [hzx₀.basename, hname, hzx.basename])
      subst hx₀x
      exact (heach x₀ x' hx' hagain z hzx).mp heq
    refine ⟨fun z hz => ?_, fun x hx => ?_⟩
    · obtain ⟨x, -, -, hx, hzx⟩ := Paired.exists_right (Paired.with_mem hfiles) z hz
      exact (hall x hx z hz hzx).1
    · obtain ⟨z, hz, hzx⟩ := Paired.exists_left hfiles x hx
      exact (hall x hx z hz hzx).2
  · rintro ⟨hreadable, hwhole⟩
    have hagain : List.Forall₂ (fun x y => describe (rangeBytes (writesOf blocksize dot xs) x.1.record)
        x.1.record = describe (rangeBytes (writesOf blocksize dot' xs') y.1.record) y.1.record) xs ys := by
      refine (Paired.with_mem h.again).imp ?_
      rintro x y ⟨hx, hy, hxy⟩
      obtain ⟨z, hz, hzx⟩ := Paired.exists_left hfiles x hx
      exact ((heach x y (h.perm.mem_iff.mp hy) hxy z hzx).mpr ⟨hreadable z hz, hwhole x hx⟩).symm
    refine ⟨hstart'.trans hstart.symm, ?_, ?_⟩
    · rw [himage, himage']
      refine describe_dot_again him hvalid.input.few h hdirectives hstart (hagain.imp fun x y hxy => ?_)
      exact (congrArg Description.last hxy).symm
    · rw [hdescribe, hdescribe', Paired.map_eq hagain]
      exact (h.perm.map _).symm

end

/-! ## Extracting -/

/-- With more calls it ends the same way. -/
theorem extractLoop_mono {host : Host 64} {opens : List Byte → Bool} :
    ∀ (n : Nat) (fs : Sdbfs 64 Unit) (new : Bool) (xs : List (List Byte × Option CreatedFile)),
    extractLoop host opens n fs new = .done xs →
    ∀ k, extractLoop host opens (n + k) fs new = .done xs := by
  intro n
  induction n with
  | zero => exact fun fs new xs h => absurd h (fun h => by cases h)
  | succ n ih =>
      intro fs new xs h k
      rw [Nat.add_right_comm, extractLoop]
      rw [extractLoop] at h
      split at h
      · cases h
      next s d hscan =>
        by_cases hnull : d.isNull = true
        · rw [if_pos hnull] at h ⊢
          exact h
        · rw [if_neg hnull] at h ⊢
          split at h
          · cases h
          next x more hx hmore =>
            rw [hx, ih s false more hmore k]
            exact h
          next hrest => exact absurd h (hrest xs)

/-- A run has one result, however long it may take. -/
theorem sdbExtract_unique {host : Host 64} {opens : List Byte → Bool} {stack : Fin 4 → Byte}
    {data entry : BitVec 64} {new new' : Bool} {n m : Nat}
    {xs ys : List (List Byte × Option CreatedFile)}
    (hx : sdbExtract host opens stack data entry new n = .done (0, xs))
    (hy : sdbExtract host opens stack data entry new' m = .done (0, ys)) :
    new = true ∧ xs = ys := by
  have hloop : ∀ {new : Bool} {n : Nat} {xs : List (List Byte × Option CreatedFile)},
      sdbExtract host opens stack data entry new n = .done (0, xs) → ∃ fs err,
        sdbfsDevCreate host stack (imageDevice data entry) = some (fs, err) ∧ new = true ∧
          extractLoop host opens n fs true = .done xs := by
    intro new n xs h
    rw [sdbExtract] at h
    split at h
    · cases h
    next fs err hcreate =>
      refine ⟨fs, err, hcreate, ?_⟩
      split at h
      · cases h
      · split at h
        next hnew =>
          refine ⟨hnew, ?_⟩
          split at h
          next files hfiles =>
            cases h
            exact hfiles
          · cases h
          · cases h
        · cases h
  obtain ⟨fs, err, hcreate, hnew, hxs⟩ := hloop hx
  obtain ⟨fs', err', hcreate', -, hys⟩ := hloop hy
  cases hcreate.symm.trans hcreate'
  refine ⟨hnew, ?_⟩
  have hmore := extractLoop_mono n fs true xs hxs m
  rw [Nat.add_comm, extractLoop_mono m fs true ys hys n] at hmore
  cases hmore
  rfl

/-! ## The round trip -/

section

variable {host : Host 64} {stack : Fin 4 → Byte} {data : BitVec 64} {new : Bool}
  {prgname fsname : List Byte} {size : Nat} {blocksize : BitVec 32} {config : Config}
  {dirents : Dirents} {tree : Tree}

/-- There is such a directory. -/
theorem directoryOf_exists {ws : List (Write Byte)} {xs : List FileEntry}
    (hlong : ∀ x ∈ xs, (addrLast x.1.record + 1 - addrFirst x.1.record).toNat < 0x8000000000000000) :
    ∃ dirents, DirectoryOf (xs.map (createdFor ws)) dirents := by
  have hbuilt : ∃ dirents, Flat dirents ∧
      List.Forall₂ Stored (xs.map (createdFor ws)) (dirFiles dirents) := by
    induction xs with
    | nil => exact ⟨.nil, trivial, .nil⟩
    | cons x xs ih =>
        obtain ⟨rest, hflat, hstored⟩ := ih fun y hy => hlong y (List.mem_cons_of_mem x hy)
        let mode := fileMode x.1.record
        let file : RegularFile :=
          { size := (rangeBytes ws x.1.record).length
            contents := some (rangeBytes ws x.1.record)
            iroth := mode.testBit 2
            iwoth := mode.testBit 1
            ixoth := mode.testBit 0
            sized := fun bytes hbytes => congrArg List.length (Option.some.inj hbytes).symm
            size_lt := by
              rw [rangeBytes_length]
              exact hlong x List.mem_cons_self }
        exact ⟨.file x.1.basename file rest, hflat, .cons ⟨rfl, rfl, rfl, rfl, rfl⟩ hstored⟩
  obtain ⟨dirents, hflat, hstored⟩ := hbuilt
  exact ⟨dirents, hflat, _, .refl _, hstored⟩

/-- **The image comes back exactly if** nothing depends on `new`, the directory was not moved,
    every file was readable by others, and `SDB_ALIGN` leaves the length of those to be
    written to as it is. -/
theorem round_trip_iff (hvalid : ValidInput blocksize config dirents tree)
    (hlegible : Legible host data size prgname fsname blocksize config dirents tree) :
    RoundTrips host stack data new prgname fsname blocksize (gensdbfs blocksize 0 config dirents).2
        tree.dot.ustart ↔
      ComesBack new blocksize dirents tree := by
  obtain ⟨dot, xs, him⟩ := flatImage hvalid.input hvalid.scanned
  have hmapped := hlegible.mapped
  have hsize := hlegible.fileSize_le
  rw [him.image] at hmapped hsize ⊢
  obtain ⟨n, hextract⟩ := sdbExtract_image him hvalid hmapped hsize hlegible.ranges stack
  have hconfig := configOf_extractedText him hvalid hlegible.names prgname fsname
    (writesOf blocksize dot xs)
  have hdirectives := directivesOf_extractedText him hvalid hlegible.header
  have hdot := hdirectives (dotName, printed dot.record) List.mem_cons_self
  constructor
  · rintro ⟨m, records, hrun, ⟨dirents', hdir⟩, hall⟩
    obtain ⟨hnew, rfl⟩ := sdbExtract_unique hrun hextract
    obtain ⟨tree', hscan, -, hsame⟩ := hall dirents' hdir
    rw [filterMap_extracted] at hdir
    rw [prepareDirText_eq, hconfig] at hscan
    rw [gensdbfsText_eq, hconfig] at hsame
    obtain ⟨tree'', dot', xs', ys, hscan', hagain⟩ := againImage him hvalid hdirectives hdir
    cases hscan.symm.trans hscan'
    rw [hagain.image.image] at hsame
    have hstart : tree.dot.ustart = 0 := by
      rw [← hsame.start_eq, (readBack_dot hagain hdot).ustart,
        (interconnect_flatImage him hvalid.input.few).first]
    obtain ⟨hreadable, hwhole⟩ := (sameImage_again him hvalid hagain hdot hstart).mp hsame
    exact ⟨hnew, hstart, hreadable, hwhole⟩
  · rintro ⟨rfl, hstart, hreadable, hwhole⟩
    have hlaid := hvalid.laidOut
    rw [him.allocated] at hlaid
    refine ⟨n, _, hextract, ?_, fun dirents' hdir => ?_⟩
    · rw [filterMap_extracted]
      refine directoryOf_exists fun x hx => ?_
      have hrange : rangeOf x ∈ treeRanges ⟨dot, entriesOf xs⟩ := by
        rw [treeRanges_flat him.flat]
        exact List.mem_map_of_mem hx
      exact Nat.lt_of_le_of_lt (Nat.le_add_left _ _) (hlaid.long _ hrange)
    · rw [filterMap_extracted] at hdir
      obtain ⟨tree', dot', xs', ys, hscan, hagain⟩ := againImage him hvalid hdirectives hdir
      refine ⟨tree', ?_, ?_⟩
      · rw [prepareDirText_eq, hconfig, hscan]
      rw [gensdbfsText_eq, hconfig]
      refine ⟨?_, ?_⟩
      · rw [hagain.image.image]
      · rw [hagain.image.image]
        exact (sameImage_again him hvalid hagain hdot hstart).mpr ⟨hreadable, hwhole⟩

end

/-- An image, mapped at an address. -/
def mappedImage (ws : List (Write Byte)) : Host 64 where
  littleEndian := true
  mem := fun addr => imageByte ws (addr - 0x1000).toNat

/-- The machine maps the image. -/
theorem mapsImage_mappedImage (ws : List (Write Byte)) (entry : BitVec 64) :
    MapsImage (mappedImage ws) (imageDevice 0x1000 entry) (imageByte ws) 0x1000 := by
  refine ⟨show (0x1000 : BitVec 64) ≠ 0 by decide, fun k hk => ⟨?_, ?_⟩⟩
  · show imageByte ws (0x1000 + BitVec.ofNat 64 k - 0x1000).toNat = imageByte ws k
    rw [BitVec.add_comm, BitVec.add_sub_cancel, BitVec.toNat_ofNat, Nat.mod_eq_of_lt (by omega)]
  · show (0x1000 : BitVec 64) + BitVec.ofNat 64 k ≠ 0
    intro h
    have hzero := congrArg BitVec.toNat h
    rw [BitVec.toNat_add, BitVec.toNat_ofNat, Nat.mod_eq_of_lt (show k < 2 ^ 64 by omega)] at hzero
    have hsum : (0x1000 + k) % 2 ^ 64 = 0 := hzero
    omega

/-- "s", which has a place of its own, before "b", which can be written to and has a block. -/
def twoDirents : Dirents :=
  .file subName (readable [0x41, 0x42] (by decide)) (.file threeName (threeBytes true) .nil)

/-- The vendor of "s" is set, and its place. -/
def twoConfig : Config := [(subName, [.vendor 0xce42, .position 0x100])]

/-- What is scanned of it. -/
def twoTree : Tree :=
  let f := fillFile 64 0 subName (readable [0x41, 0x42] (by decide))
  ⟨fillDot 0 3, .file (applyDirective 0 (applyDirective 0 f (.vendor 0xce42)) (.position 0x100))
      (readable [0x41, 0x42] (by decide))
    (.file (fillFile 64 0 threeName (threeBytes true)) (threeBytes true) .nil)⟩

theorem two_scan : prepareDir 64 twoConfig twoDirents = some twoTree := rfl

/-- The place that was asked for is behind the one that follows the table. -/
theorem two_ranges : ∃ r s : FileRange, treeRanges (allocStorage 64 twoTree) = [r, s] ∧
    (r.first.toNat = 256 ∧ r.size.toNat = 2 ∧ r.file.size = 2) ∧
    (s.first.toNat = 192 ∧ s.size.toNat = 64 ∧ s.file.size = 3) :=
  ⟨_, _, rfl, ⟨by decide +kernel, by decide +kernel, rfl⟩,
    ⟨by decide +kernel, by decide +kernel, rfl⟩⟩

/-- The table takes three blocks. -/
theorem two_tables : tablesEnd 64 (allocStorage 64 twoTree) = 192 := by decide +kernel

/-- Nothing of it overlaps. -/
theorem two_apart : RecordsApart 64 (allocStorage 64 twoTree) where
  tables := List.pairwise_singleton _ _
  ranges := by
    obtain ⟨r, s, hrs, ⟨hrfirst, hrsize, -⟩, ⟨hsfirst, hssize, -⟩⟩ := two_ranges
    rw [hrs]
    refine List.pairwise_pair.mpr fun p hr hs => ?_
    rw [FileRange.Has, hrfirst, hrsize] at hr
    rw [FileRange.Has, hsfirst, hssize] at hs
    omega
  between := by
    obtain ⟨r, s, hrs, ⟨hrfirst, -⟩, ⟨hsfirst, -⟩⟩ := two_ranges
    rw [hrs]
    intro t ht p hp hcov
    have hend := two_tables
    rw [tablesEnd] at hend
    have hlt := lt_fileSize hcov
    rw [FileRange.Has] at hp
    rcases List.mem_pair.mp ht with rfl | rfl
    · omega
    · omega

/-- An image can be made of it, and what is extracted can be read. -/
theorem validInput_two : ValidInput 64 twoConfig twoDirents twoTree where
  input := by
    refine ⟨trivial, ?_, by decide⟩
    have hnames : ((dotName :: (dirFiles twoDirents).map Prod.fst).map CString.chars).Nodup := by
      decide
    exact hnames.of_map _
  names := by
    intro x hx
    rcases List.mem_pair.mp hx with rfl | rfl
    · exact ⟨by decide, by decide, by decide⟩
    · exact ⟨by decide, by decide, by decide⟩
  scanned := two_scan
  laidOut := by
    obtain ⟨r, s, hrs, ⟨hrfirst, hrsize, hrfile⟩, ⟨hsfirst, hssize, hsfile⟩⟩ := two_ranges
    refine ⟨two_apart, ?_, ?_, by decide⟩
    · rw [hrs]
      intro t ht
      rcases List.mem_pair.mp ht with rfl | rfl
      · omega
      · omega
    · rw [hrs]
      intro t ht
      rcases List.mem_pair.mp ht with rfl | rfl
      · omega
      · omega
  positive := by decide
  int := by decide

theorem legible_two :
    Legible (mappedImage (gensdbfs 64 0 twoConfig twoDirents).2) 0x1000 0x1000
      (ascii "sdb-extract") (ascii "b.sdb") 64 twoConfig twoDirents twoTree where
  names := by
    intro x hx
    rcases List.mem_pair.mp hx with rfl | rfl
    all_goals
      refine ⟨by decide, ?_, ?_⟩
      · rintro c ⟨⟩
        decide
      · rintro c ⟨⟩
        decide
  header := by
    rw [configOf_header (by decide) (by decide) (by decide)]
    exact fun part hpart => absurd hpart List.not_mem_nil
  mapped := mapsImage_mappedImage _ _
  ranges := by
    obtain ⟨r, s, hrs, ⟨hrfirst, hrsize, -⟩, ⟨hsfirst, hssize, -⟩⟩ := two_ranges
    rw [hrs]
    intro t ht
    refine Or.inr ?_
    rcases List.mem_pair.mp ht with rfl | rfl
    · omega
    · omega
  fileSize_le := by decide +kernel

/-- Both files come back, each at its place. -/
theorem round_trip_two : RoundTrips
    (mappedImage (gensdbfs 64 0 twoConfig twoDirents).2) zeroStack 0x1000 true
    (ascii "sdb-extract") (ascii "b.sdb") 64
    (gensdbfs 64 0 twoConfig twoDirents).2 twoTree.dot.ustart := by
  refine (round_trip_iff validInput_two legible_two).mpr ⟨rfl, rfl, ?_, ?_⟩
  · intro x hx
    rcases List.mem_pair.mp hx with rfl | rfl
    · rfl
    · rfl
  · intro f hf hwritable
    rcases List.mem_pair.mp hf with rfl | rfl
    · exact absurd hwritable (by decide +kernel)
    · decide +kernel

end SdbExtractRoundTrip
