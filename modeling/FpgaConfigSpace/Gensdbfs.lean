import FpgaConfigSpace.SdbFields
import FpgaConfigSpace.SdbfsOpen
import FpgaConfigSpace.Lib.FileWrites

/-! # Generating an image

    `gensdbfs` builds a tree from a directory and the configuration files in it, gives
    every file and every table a place, and writes them out.  The steps follow
    `gensdbfs.c`: `prepare_dir` with `scan_inputdir` and `scan_config`,
    `alloc_storage`, and `write_sdb`.

    Directories come in the order in which `readdir` returns their entries.  The lines
    of a configuration file are taken as parsed: a name in the first column, and the
    directives below it. -/

namespace Gensdbfs

open BigEndian SdbRecord SdbFields SdbfsOpen FileWrites

/-- An `unsigned long`. -/
abbrev ULong := BitVec 64

/-! ## What is read -/

/-- A regular file: what `stat` says of it, and what is read from it, if it can be
    opened. -/
structure RegularFile where
  size : Nat
  contents : Option (List Byte)
  iroth : Bool
  iwoth : Bool
  ixoth : Bool
  sized : ∀ bytes, contents = some bytes → bytes.length = size
  size_lt : size < 0x8000000000000000

/-- A directive of the configuration, as `parse_config_line` understands it. -/
inductive Directive where
  | vendor (id : BitVec 64)
  | device (id : Word)
  | write (on : Bool)
  | maxsize (size : ULong)
  | position (start : ULong)
  /-- Anything else is reported and left alone. -/
  | unknown

/-- The parts of a configuration file that stand below a name. -/
abbrev Config := List (CString × List Directive)

/-- What is in a directory, besides its "." and its "..". -/
inductive Dirents where
  | nil
  | file (name : CString) (file : RegularFile) (rest : Dirents)
  /-- Neither a file nor a directory, or the configuration file: it has no record. -/
  | other (name : CString) (rest : Dirents)
  /-- A file of which `stat` fails, or a directory that cannot be opened: the program
      gives up. -/
  | lost (name : CString) (rest : Dirents)
  | dir (name : CString) (config : Config) (sub : Dirents) (rest : Dirents)

/-! ## The tree -/

/-- `struct sdbf`, as far as it is used. -/
structure Sdbf where
  basename : CString
  record : Record
  ustart : ULong
  rstart : ULong
  base : ULong
  size : ULong
  userpos : Bool
  level : Nat

/-- The entries of a directory behind its dot.  A subdirectory has an entry, a dot of its
    own, and entries. -/
inductive Entries where
  | nil
  | file (f : Sdbf) (file : RegularFile) (rest : Entries)
  | subdir (f : Sdbf) (dot : Sdbf) (sub : Entries) (rest : Entries)

/-- A directory. -/
structure Tree where
  dot : Sdbf
  entries : Entries

/-- The entries of the directory itself. -/
def Entries.count : Entries → Nat
  | .nil => 0
  | .file _ _ rest => rest.count + 1
  | .subdir _ _ _ rest => rest.count + 1

variable (blocksize : BitVec 32)

/-- `SDB_ALIGN`.  The mask is an `unsigned`, so it clears the upper half as well. -/
def sdbAlign (x : ULong) : ULong :=
  (x + (blocksize - 1).setWidth 64) &&& (~~~(blocksize - 1)).setWidth 64

/-- "FileData". -/
def DEFAULT_VENDOR : BitVec 64 := 0x46696c6544617461

/-- `__fill_product`. -/
def fillProduct (r : Record) (name : CString) (recordType : Byte) : Record :=
  let field := name.chars.take 19
  let field := field ++ List.replicate (19 - field.length) 0x20
  let r := setName r field
  let r := setBytes r 0x20 (field.take 4)
  let r := setVendorId r DEFAULT_VENDOR
  let r := setVersion r 1
  setRecordType r recordType

/-- The record as `calloc` leaves it. -/
def emptyRecord : Record := fun _ => 0

/-- "." -/
def dotName : CString := ⟨[0x2e], by decide⟩

/-- `__fill_dot`, and the number of records, which is filled in behind the loop. -/
def fillDot (level records : Nat) : Sdbf :=
  let r := setSdbMagic emptyRecord SDB_MAGIC
  let r := setSdbVersion r 1
  let r := setSdbBusType r 1
  let r := fillProduct r dotName sdbTypeInterconnect
  ⟨dotName, setSdbRecords r (BitVec.ofNat 16 records), 0, 0, 0, 0, false, level⟩

/-- `__fill_dir`, without the directory. -/
def fillDir (level : Nat) (name : CString) : Sdbf :=
  ⟨name, fillProduct emptyRecord name sdbTypeBridge, 0, 0, 0, 0, false, level⟩

/-- The flags of a file. -/
def fileFlags (file : RegularFile) : Word :=
  (if file.iroth then 0x04 else 0) ||| (if file.iwoth then 0x02 else 0) |||
    (if file.ixoth then 0x01 else 0)

/-- `__fill_file`, for a regular file.  A file that can be written to is aligned to the
    block size. -/
def fillFile (level : Nat) (name : CString) (file : RegularFile) : Sdbf :=
  let size := BitVec.ofNat 64 file.size
  let size := if file.iwoth then sdbAlign blocksize size else size
  ⟨name, fillProduct (setBusSpecific emptyRecord (fileFlags file)) name sdbTypeDevice,
    0, 0, 0, size, false, level⟩

/-! ## `scan_config` -/

/-- `parse_config_line`, on a directory of some level. -/
def applyDirective (level : Nat) (f : Sdbf) : Directive → Sdbf
  | .vendor id => { f with record := setVendorId f.record id }
  | .device id => { f with record := setDeviceId f.record id }
  | .write on =>
      -- `bus_specific`, whatever the record is
      let bus := busSpecific f.record
      { f with record := setBusSpecific f.record (if on then bus ||| 0x02 else bus &&& ~~~0x02) }
  | .maxsize size => { f with size := size }
  | .position start =>
      -- can't set position in subdirs
      if level ≠ 0 then f else { f with userpos := true, ustart := start }
  | .unknown => f

/-- The records of a directory, its interconnect included, as the interconnect counts them. -/
def records (dot : Sdbf) : Nat := (sdbRecords dot.record).toNat

/-- Change the first entry of a name, of those that are left to look at. -/
def updateFirst (name : CString) (change : Sdbf → Sdbf) : (left : Nat) → Entries → Entries
  | 0, e => e
  | _, .nil => .nil
  | left + 1, .file f file rest =>
      if name.chars = f.basename.chars then .file (change f) file rest
      else .file f file (updateFirst name change left rest)
  | left + 1, .subdir f dot sub rest =>
      if name.chars = f.basename.chars then .subdir (change f) dot sub rest
      else .subdir f dot sub (updateFirst name change left rest)

/-- The directives below a name; `find_filename` looks for it among the records that the
    interconnect counts, and a name that is not found is skipped with them. -/
def configure (level : Nat) (tree : Tree) (part : CString × List Directive) : Tree :=
  let change := fun f => part.2.foldl (applyDirective level) f
  if records tree.dot = 0 then tree
  else if part.1.chars = tree.dot.basename.chars then { tree with dot := change tree.dot }
  else { tree with entries := updateFirst part.1 change (records tree.dot - 1) tree.entries }

/-- `scan_config`. -/
def scanConfig (level : Nat) (config : Config) (tree : Tree) : Tree :=
  config.foldl (configure level) tree

/-- `scan_inputdir`, and with it `prepare_dir` of the subdirectories. -/
def scanEntries (level : Nat) : Dirents → Option Entries
  | .nil => some .nil
  | .file name file rest =>
      (scanEntries level rest).map (.file (fillFile blocksize level name file) file)
  | .other _ rest => scanEntries level rest
  | .lost _ _ => none
  | .dir name config sub rest =>
      (scanEntries (level + 1) sub).bind fun e =>
        let tree := scanConfig (level + 1) config ⟨fillDot (level + 1) (e.count + 1), e⟩
        (scanEntries level rest).map (.subdir (fillDir level name) tree.dot tree.entries)

/-- `prepare_dir`, of the directory that the program is given. -/
def prepareDir (config : Config) (dirents : Dirents) : Option Tree :=
  (scanEntries blocksize 0 dirents).map fun e =>
    scanConfig 0 config ⟨fillDot 0 (e.count + 1), e⟩

/-! ## `alloc_storage` -/

/-- The first place behind the table. -/
def behindTable (dot : Sdbf) : ULong :=
  dot.ustart + sdbAlign blocksize (BitVec.ofNat 64 (records dot * 64))

/-- The interconnect, once the directory is allocated. -/
def closeDir (dot : Sdbf) (base last : ULong) : Sdbf :=
  { dot with base := base, record := setAddrLast (setAddrFirst dot.record 0) last }

/-- A subdirectory's entry, once the directory is allocated: its size "may have been set
    by the user". -/
def sizeDir (f : Sdbf) (rpos subsize : ULong) : Sdbf :=
  { f with
    size := if f.size < subsize then subsize else f.size
    record := setSdbChild f.record rpos }

/-- The end of an entry at a place. -/
def lastOf (f : Sdbf) (rpos : ULong) : ULong := (if f.userpos then f.ustart else rpos) + f.size - 1

/-- Give an entry its place: the one the user wants, or the next one. -/
def place (f : Sdbf) (rpos : ULong) : Sdbf :=
  if f.userpos then
    { f with record := setAddrLast (setAddrFirst f.record f.ustart) (lastOf f rpos) }
  else
    { f with
      rstart := rpos
      record := setAddrLast (setAddrFirst f.record rpos) (lastOf f rpos) }

/-- The next place, and the last byte in use. -/
def advance (f : Sdbf) (rpos last : ULong) : ULong × ULong :=
  (if f.userpos then rpos else sdbAlign blocksize (rpos + f.size),
    if last < lastOf f rpos then lastOf f rpos else last)

/-- The loop of `alloc_storage` over the entries that are left, in a directory at
    `base`. -/
def allocEntries (base : ULong) : (left : Nat) → Entries → (rpos last : ULong) → Entries × ULong
  | 0, e, _, last => (e, last)
  | _, .nil, _, last => (.nil, last)
  | left + 1, .file f file rest, rpos, last =>
      let next := advance blocksize f rpos last
      let r := allocEntries base left rest next.1 next.2
      (.file (place f rpos) file r.1, r.2)
  | left + 1, .subdir f dot sub rest, rpos, last =>
      -- if a directory, make it allocate itself
      let s := allocEntries (base + rpos) (records dot - 1) sub (behindTable blocksize dot)
        (behindTable blocksize dot)
      let f := sizeDir f rpos s.2
      let next := advance blocksize f rpos last
      let r := allocEntries base left rest next.1 next.2
      (.subdir (place f rpos) (closeDir dot (base + rpos) s.2) s.1 r.1, r.2)

/-- `alloc_storage`, of the whole tree. -/
def allocStorage (tree : Tree) : Tree :=
  let r := allocEntries blocksize tree.dot.base (records tree.dot - 1) tree.entries
    (behindTable blocksize tree.dot) (behindTable blocksize tree.dot)
  ⟨closeDir tree.dot tree.dot.base r.2, r.1⟩

/-! ## `write_sdb` -/

/-- The image file: the position, and what was written so far. -/
structure ImageFile where
  pos : Nat
  writes : List (Write Byte)

/-- `fseek`; a negative offset is refused. -/
def ImageFile.fseek (out : ImageFile) (offset : ULong) : ImageFile :=
  if offset.msb then out else { out with pos := offset.toNat }

/-- `fwrite`. -/
def ImageFile.fwrite (out : ImageFile) (data : List Byte) : ImageFile :=
  ⟨out.pos + data.length, out.writes ++ [⟨out.pos, data⟩]⟩

/-- The records of a table. -/
def tableRecords : (left : Nat) → Entries → List Record
  | 0, _ => []
  | _, .nil => []
  | left + 1, .file f _ rest => f.record :: tableRecords left rest
  | left + 1, .subdir f _ _ rest => f.record :: tableRecords left rest

/-- The records that the interconnect counts, itself included. -/
def tableOf (dot : Sdbf) (e : Entries) : List Record :=
  (dot.record :: tableRecords (records dot - 1) e).take (records dot)

/-- The bytes of a record. -/
def recordBytes (r : Record) : List Byte := List.ofFn r

/-- The pieces of a file that are copied: a block at a time, until the size is reached or
    nothing more is read.  `copied` and the result of `fread` are kept in an `int`. -/
def copyPieces (size : Nat) : (fuel : Nat) → (copied : BitVec 32) → List Byte → List (List Byte)
  | 0, _, _ => []
  | fuel + 1, copied, bytes =>
      if copied.toInt < size then
        let buf := bytes.take blocksize.toNat
        let j := BitVec.ofNat 32 buf.length
        if j.toInt ≤ 0 then []
        else buf :: copyPieces size fuel (copied + j) (bytes.drop blocksize.toNat)
      else []

/-- The pieces of a file; one that cannot be opened is ignored. -/
def filePieces (file : RegularFile) : List (List Byte) :=
  match file.contents with
  | none => []
  | some bytes => copyPieces blocksize file.size (bytes.length + 1) 0 bytes

/-- The image file, and `lastwritten`: the highest position that the contents of a file
    reach. -/
structure Output where
  file : ImageFile
  lastwritten : Nat

/-- A block of a file is copied; `ftell` tells how far that gets. -/
def Output.copy (out : Output) (buf : List Byte) : Output :=
  let file := out.file.fwrite buf
  ⟨file, if out.lastwritten < file.pos then file.pos else out.lastwritten⟩

/-- Copying writes to the file. -/
theorem foldl_copy_file (pieces : List (List Byte)) : ∀ out : Output,
    (pieces.foldl Output.copy out).file = pieces.foldl ImageFile.fwrite out.file := by
  induction pieces with
  | nil => exact fun _ => rfl
  | cons buf pieces ih => exact fun out => ih (out.copy buf)

/-- `write_sdb` for the entries of a directory that is written: its files and its
    subdirectories.  `opens n` tells whether `fopen` succeeds while `n` directories are open
    already; an entry that cannot be opened is ignored. -/
def outputEntries (opens : Nat → Bool) (base : ULong) : (left : Nat) → Entries → Output → Output
  | 0, _, out => out
  | _, .nil, out => out
  | left + 1, .file f file rest, out =>
      let out :=
        if opens 0 then
          match file.contents with
          | none => out
          | some _ =>
              (filePieces blocksize file).foldl Output.copy
                { out with file := out.file.fseek (if f.userpos then f.ustart else base + f.rstart) }
        else out
      outputEntries opens base left rest out
  | left + 1, .subdir f dot sub rest, out =>
      let out :=
        if opens 0 then
          let file := out.file.fseek (if f.userpos then f.ustart else base + f.rstart)
          let file := file.fseek (dot.base + dot.ustart)
          let file := ((tableOf dot sub).map recordBytes).foldl ImageFile.fwrite file
          -- the directory stays open meanwhile
          outputEntries (fun n => opens (n + 1)) dot.base (records dot - 1) sub
            { out with file := file }
        else out
      outputEntries opens base left rest out

/-- `write_sdb`, of the whole tree. -/
def outputTree (opens : Nat → Bool) (tree : Tree) (out : Output) : Output :=
  let file := out.file.fseek (tree.dot.base + tree.dot.ustart)
  let file := ((tableOf tree.dot tree.entries).map recordBytes).foldl ImageFile.fwrite file
  outputEntries blocksize opens tree.dot.base (records tree.dot - 1) tree.entries
    { out with file := file }

/-- There are always descriptors left: what is there can be opened. -/
def anyOpens : Nat → Bool := fun _ => true

/-- The image file that `write_sdb` leaves, with descriptors enough. -/
def writeSdb (tree : Tree) (out : ImageFile) : ImageFile :=
  (outputTree blocksize anyOpens tree ⟨out, 0⟩).file

end Gensdbfs
