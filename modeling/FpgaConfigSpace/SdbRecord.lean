import FpgaConfigSpace.Lib.BigEndian

/-! # SDB records

    The 64-byte records of `sdb.h`.  A record is kept as its bytes, as they are
    stored; the fields are read out of it at their offsets, most significant byte
    first, which is what `ntohl`, `ntohs` and `ntohll` do on every host. -/

namespace SdbRecord

open BigEndian

/-- The bytes of one record. -/
abbrev Record := Fin 64 → Byte

/-- `sdb_type_interconnect`, the head of a table. -/
def sdbTypeInterconnect : Byte := 0x00

/-- `sdb_type_device`. -/
def sdbTypeDevice : Byte := 0x01
/-- `sdb_type_bridge`, an entry that points to a nested table. -/
def sdbTypeBridge : Byte := 0x02

/-- `sdb_type_integration`. -/
def sdbTypeIntegration : Byte := 0x80

/-- `sdb_type_repo_url`. -/
def sdbTypeRepoUrl : Byte := 0x81

/-- `sdb_type_synthesis`. -/
def sdbTypeSynthesis : Byte := 0x82

/-- `sdb_type_empty`. -/
def sdbTypeEmpty : Byte := 0xff

/-- `SDB_MAGIC`, "SDB-". -/
def SDB_MAGIC : Word := 0x5344422d

/-- The 32-bit field at an offset. -/
def be32 (r : Record) (k : Fin 64) : Word := wordOf (r k) (r (k + 1)) (r (k + 2)) (r (k + 3))

/-- The 64-bit field at an offset. -/
def be64 (r : Record) (k : Fin 64) : BitVec 64 := be32 r k ++ be32 r (k + 4)

/-- The same fields as a little-endian machine loads them. -/
def le32 (r : Record) (k : Fin 64) : Word := wordOf (r (k + 3)) (r (k + 2)) (r (k + 1)) (r k)

/-- Eight bytes, as a little-endian machine loads them. -/
def le64 (r : Record) (k : Fin 64) : BitVec 64 := le32 r (k + 4) ++ le32 r k

/-- Where `product.vendor_id` is. -/
def vendorOffset : Fin 64 := 0x18

/-- Where `product.device_id` is. -/
def deviceOffset : Fin 64 := 0x20

/-- The offset of `bus_specific`, in the view of a device. -/
def busOffset : Fin 64 := 0x04

/-- `sdb_magic`, of an interconnect. -/
def sdbMagic (r : Record) : Word := be32 r 0

/-- `sdb_records`, of an interconnect. -/
def sdbRecords (r : Record) : BitVec 16 := r 4 ++ r 5

/-- `sdb_version`, of an interconnect. -/
def sdbVersion (r : Record) : Byte := r 0x06

/-- `sdb_bus_type`, of an interconnect. -/
def sdbBusType (r : Record) : Byte := r 0x07

/-- `sdb_child`, of a bridge. -/
def sdbChild (r : Record) : BitVec 64 := be64 r 0

/-- `sdb_component.addr_first`. -/
def addrFirst (r : Record) : BitVec 64 := be64 r 0x08

/-- `sdb_component.addr_last`. -/
def addrLast (r : Record) : BitVec 64 := be64 r 0x10

/-- `product.record_type`. -/
def recordType (r : Record) : Byte := r 0x3f

/-- The 19 bytes of `product.name`. -/
def productName (r : Record) : List Byte := List.ofFn fun i : Fin 19 => r (0x2c + i.castLE (by decide))

/-- The record is the head of a table: an interconnect with the magic number. -/
def IsTable (r : Record) : Prop :=
  recordType r = sdbTypeInterconnect ∧ sdbMagic r = SDB_MAGIC

instance (r : Record) : Decidable (IsTable r) := inferInstanceAs (Decidable (_ ∧ _))

/-- The record says that there is a directory below it. -/
def IsBridge (r : Record) : Prop := recordType r = sdbTypeBridge

instance (r : Record) : Decidable (IsBridge r) := inferInstanceAs (Decidable (_ = _))

/-- The bytes of every 32-bit word in the opposite order. -/
def swapWords (r : Record) : Record := fun i =>
  r ⟨4 * (i.val / 4) + (3 - i.val % 4), by omega⟩

/-- Swapping twice changes nothing. -/
theorem swapWords_swapWords (r : Record) : swapWords (swapWords r) = r := by
  ext1 i
  refine congrArg r (Fin.ext ?_)
  show 4 * ((4 * (i.val / 4) + (3 - i.val % 4)) / 4)
    + (3 - (4 * (i.val / 4) + (3 - i.val % 4)) % 4) = i.val
  omega

/-- The head of a table is no bridge. -/
theorem IsTable.not_isBridge {r : Record} (h : IsTable r) : ¬ IsBridge r := by
  intro hb
  have hne : sdbTypeInterconnect ≠ sdbTypeBridge := by decide
  exact hne (h.1.symm.trans hb)

end SdbRecord
