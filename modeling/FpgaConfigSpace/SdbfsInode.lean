import FpgaConfigSpace.Lib.MemoWalk
import FpgaConfigSpace.SdbRecord

/-! # Inodes of the kernel file system

    `sdbfs-inode.c`: reading a directory, looking a name up in it, and `sdbfs_iget`,
    which takes an inode from the cache of the kernel by its number or sets a new one
    up from the record on the device.

    `w` is the width of `unsigned long`; devices have 32-bit addresses.  The image
    does not change, so the outcome of a device read depends on its arguments only.
    Inodes are made in zeroed memory and stay in the cache.  `none` is a lookup that
    the kernel does not survive: the record of a new inode cannot be read, and the
    error pointer is added to the directory cache. -/

namespace SdbfsInode

open BigEndian SdbRecord

variable {w : Nat}

/-! ## The device -/

/-- `struct sdbfs_dev`, its flag `SDBFS_F_FIXENDIAN`, and the byte order of the machine. -/
structure SdbfsDev (w : Nat) where
  entrypoint : BitVec w
  size : BitVec w
  fixEndian : Bool
  littleEndian : Bool
  /-- `ops->read`: what is returned, and what the buffer holds then. -/
  read : (begin : BitVec 32) → (count : Nat) → Int × (Fin count → Byte)

/-- The inode number of the root directory. -/
def SDBFS_ROOT (w : Nat) : BitVec w := 1

/-- `SDBFS_INO`: the number of the inode of a record. -/
def SDBFS_INO (offset : BitVec w) : BitVec w := offset + 2

/-- `SDBFS_OFFSET`, as it is stored in a `uint32_t`. -/
def SDBFS_OFFSET (inum : BitVec w) : BitVec 32 := (inum &&& ~~~15#w).setWidth 32

/-- `sdbfs_fix_endian` on a record. -/
def sdbfsFixEndian (sd : SdbfsDev w) (r : Record) : Record :=
  if sd.fixEndian && sd.littleEndian then swapWords r else r

/-- Read a whole record, or fail. -/
def readRecord (sd : SdbfsDev w) (offset : BitVec 32) : Option Record :=
  let r := sd.read offset 64
  if r.1 = 64 then some (sdbfsFixEndian sd r.2) else none

/-! ## Directories -/

/-- `struct sdbfs_info`: a record and its name. -/
structure Info where
  record : Record
  name : List Byte

/-- `strncpy` of the 19 characters of a name. -/
def strncpyName (name : List Byte) : List Byte :=
  let s := name.takeWhile (· != 0)
  s ++ List.replicate (19 - s.length) 0

/-- The trailing blanks are cut off. -/
def trimName (name : List Byte) : List Byte := (name.reverse.dropWhile (· == 0x20)).reverse

/-- The entry that `sdbfs_read_whole_dir` makes of a record, with the name as a string. -/
def infoOf (r : Record) : Info := ⟨r, trimName (strncpyName (productName r))⟩

/-- The records of a table, from an offset on. -/
def readRecords (sd : SdbfsDev w) : Nat → BitVec w → Option (List Info)
  | 0, _ => some []
  | n + 1, offset =>
      match readRecord sd (offset.setWidth 32) with
      | none => none
      | some r => (readRecords sd n (offset + 64)).map (infoOf r :: ·)

/-- What `sdbfs_read_whole_dir` leaves in `files`: nothing, if anything fails. -/
def readWholeDir (sd : SdbfsDev w) (baseSdb : BitVec w) : List Info :=
  match readRecord sd (baseSdb.setWidth 32) with
  | none => []
  | some intercon =>
      if sdbMagic intercon ≠ SDB_MAGIC then []
      else (readRecords sd (sdbRecords intercon).toNat baseSdb).getD []

/-! ## Inodes -/

/-- What `sdbfs_iget` makes of a record.  A file has no `base_sdb`, and the records
    it has no case for have no base at all. -/
inductive Kind (w : Nat) where
  | file (baseData : BitVec w)
  | directory (baseData baseSdb : BitVec w)
  | other
  deriving DecidableEq

/-- The part of an inode that is set up once. -/
structure Node (w : Nat) where
  info : Record
  kind : Kind w

/-- `struct sdbfs_inode`. -/
structure Inode (w : Nat) extends Node w where
  files : List Info

/-- The base of an inode's data, if it has one. -/
def Node.baseData (node : Node w) : Option (BitVec w) :=
  match node.kind with
  | .file baseData => some baseData
  | .directory baseData _ => some baseData
  | .other => none

/-- Byte `i` of a big-endian 64-bit number. -/
def be64Byte (x : BitVec 64) (i : Nat) : Byte := x.extractLsb' (56 - 8 * i) 8

/-- `sdbfs_iget_root`: the root directory is a fake bridge. -/
def rootNode (sd : SdbfsDev w) : Node w where
  info := fun i =>
    if i.val < 8 then be64Byte (sd.entrypoint.setWidth 64) i.val
    else if 16 ≤ i.val ∧ i.val < 24 then be64Byte (sd.size.setWidth 64) (i.val - 16)
    else if i.val = 63 then sdbTypeBridge
    else 0
  kind := .directory 0 sd.entrypoint

/-- The type switch of `sdbfs_iget`, below a parent with the given base. -/
def kindOf (parentData : BitVec w) (info : Record) : Kind w :=
  if recordType info = sdbTypeInterconnect ∨ recordType info = sdbTypeDevice then
    .file (parentData + (addrFirst info).setWidth w)
  else if recordType info = sdbTypeBridge then
    .directory (parentData + (addrFirst info).setWidth w) (parentData + (sdbChild info).setWidth w)
  else .other

/-- A new inode, from the record on the device. -/
def newNode (sd : SdbfsDev w) (parentData inum : BitVec w) : Option (Node w) :=
  (readRecord sd (SDBFS_OFFSET inum)).map fun info => ⟨info, kindOf parentData info⟩

/-- The inode cache, by number. -/
abbrev ICache (w : Nat) := BitVec w → Option (Inode w)

/-- `sdbfs_iget` below a parent. -/
def sdbfsIget (sd : SdbfsDev w) (cache : ICache w) (parentData inum : BitVec w) :
    Option (ICache w) :=
  match cache inum with
  | some _ => some cache
  | none =>
      (newNode sd parentData inum).map fun node =>
        Function.update cache inum (some { node with files := [] })

/-- A name that the VFS asks a file system for.  It splits a path at the slashes, and
    resolves `.`, `..` and empty components itself. -/
def LookedUp (name : List Byte) : Prop :=
  name ≠ [] ∧ name ≠ [0x2e] ∧ name ≠ [0x2e, 0x2e] ∧ 0x2f ∉ name ∧ 0 ∉ name

instance : DecidablePred LookedUp := fun name =>
  inferInstanceAs (Decidable (name ≠ [] ∧ name ≠ [0x2e] ∧ name ≠ [0x2e, 0x2e] ∧
    0x2f ∉ name ∧ 0 ∉ name))

/-- `d_name` of a dentry that is looked up. -/
structure DName where
  chars : List Byte
  looked : LookedUp chars

/-- The number of the inode that a name stands for, in a table that was read. -/
def entryInum (files : List Info) (baseSdb : BitVec w) (name : List Byte) : Option (BitVec w) :=
  (files.findIdx? fun info => info.name == name).map fun i =>
    SDBFS_INO (baseSdb + 64 * BitVec.ofNat w i)

/-- `sdbfs_lookup`: the number of the inode that is found.  In what is no directory
    there is nothing to look up. -/
def sdbfsLookup (sd : SdbfsDev w) (cache : ICache w) (dirInum : BitVec w) (dir : Inode w)
    (name : DName) : Option (ICache w × Option (BitVec w)) :=
  match dir.kind with
  | .directory baseData baseSdb =>
      let files := if dir.files = [] then readWholeDir sd baseSdb else dir.files
      let cache := Function.update cache dirInum (some { dir with files := files })
      match entryInum files baseSdb name.chars with
      | none => some (cache, none)
      | some inum => (sdbfsIget sd cache baseData inum).map fun cache => (cache, some inum)
  | _ => some (cache, none)

/-- The lookups along a path, from a directory on. -/
def walkPath (sd : SdbfsDev w) : ICache w → BitVec w → List DName →
    Option (ICache w × Option (BitVec w))
  | cache, inum, [] => some (cache, some inum)
  | cache, inum, name :: names =>
      match cache inum with
      | none => some (cache, none)
      | some dir =>
          match sdbfsLookup sd cache inum dir name with
          | none => none
          | some (cache, none) => some (cache, none)
          | some (cache, some inum) => walkPath sd cache inum names

/-- The cache after `sdbfs_fill_super`: the root inode. -/
def mounted (sd : SdbfsDev w) : ICache w :=
  Function.update (fun _ => none) (SDBFS_ROOT w) (some { rootNode sd with files := [] })

/-- Look up a path: the inode that is obtained, if there is one. -/
def lookupPath (sd : SdbfsDev w) (cache : ICache w) (path : List DName) :
    Option (ICache w × Option (Node w)) :=
  (walkPath sd cache (SDBFS_ROOT w) path).map fun r =>
    (r.1, r.2.bind fun inum => (r.1 inum).map Inode.toNode)

/-- Look up one path after the other. -/
def lookupPaths (sd : SdbfsDev w) : ICache w → List (List DName) → Option (ICache w)
  | cache, [] => some cache
  | cache, path :: paths =>
      match lookupPath sd cache path with
      | none => none
      | some (cache, _) => lookupPaths sd cache paths

/-! ## A table below two bridges -/

/-- A record's name and its type. -/
def nameBytes (name type : Byte) : List Byte := name :: List.replicate 18 0x20 ++ [type]

/-- A root table with bridges `a` and `b` at 0x100 and 0x200, and a table below both
    with a device `f` at 0x10. -/
def sharedBytes : List Byte :=
  [0x53, 0x44, 0x42, 0x2d, 0, 3, 1, 1] ++ List.replicate 56 0 ++
  (List.replicate 7 0 ++ [192] ++ List.replicate 6 0 ++ [1, 0] ++ List.replicate 28 0 ++
    nameBytes 0x61 2) ++
  (List.replicate 7 0 ++ [192] ++ List.replicate 6 0 ++ [2, 0] ++ List.replicate 28 0 ++
    nameBytes 0x62 2) ++
  ([0x53, 0x44, 0x42, 0x2d, 0, 2, 1, 1] ++ List.replicate 56 0) ++
  (List.replicate 15 0 ++ [0x10] ++ List.replicate 28 0 ++ nameBytes 0x66 1)

/-- The name "f". -/
def nameF : DName := ⟨[0x66], by decide⟩

/-- The path "a/f" to that device. -/
def pathAF : List DName := [⟨[0x61], by decide⟩, nameF]

/-- The path "b/f" to it. -/
def pathBF : List DName := [⟨[0x62], by decide⟩, nameF]

/-- A device that reads from a list of bytes. -/
def bytesDev (bytes : List Byte) : SdbfsDev 32 where
  entrypoint := 0
  size := BitVec.ofNat 32 bytes.length
  fixEndian := false
  littleEndian := true
  read := fun begin count =>
    (min count (bytes.length - begin.toNat), fun i => bytes.getD (begin.toNat + i.val) 0)

end SdbfsInode
