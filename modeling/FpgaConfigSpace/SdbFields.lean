import FpgaConfigSpace.SdbRecord

/-! # Writing the fields of a record

    The tool that builds an image fills in its records field by field, through
    whichever of the views of `sdb.h` it has at hand.  A field is a few bytes at
    its offset: what is written there is read back, and the other fields keep
    their value. -/

namespace SdbFields

open BigEndian SdbRecord

/-- Byte `n` of a record. -/
def byteAt (r : Record) (n : Nat) : Byte := if h : n < 64 then r ⟨n, h⟩ else 0

/-- Copy bytes to an offset. -/
def setBytes (r : Record) (k : Nat) (bytes : List Byte) : Record := fun i =>
  if k ≤ i.val then bytes.getD (i.val - k) (r i) else r i

/-- `htonl` and `htons` and `htonll`: the bytes of a number in network order. -/
def htonll (v : BitVec 64) : List Byte :=
  bytesOf (v.extractLsb' 32 32) ++ bytesOf (v.extractLsb' 0 32)

/-- A 16-bit number in network order. -/
def htons (v : BitVec 16) : List Byte := [v.extractLsb' 8 8, v.extractLsb' 0 8]

@[simp] theorem htonll_length (v : BitVec 64) : (htonll v).length = 8 := rfl
@[simp] theorem htons_length (v : BitVec 16) : (htons v).length = 2 := rfl

/-! ## The fields, by their names -/

/-- `sdb_child`, of a bridge. -/
def setSdbChild (r : Record) (v : BitVec 64) : Record := setBytes r 0x00 (htonll v)

/-- `sdb_component.addr_first`. -/
def setAddrFirst (r : Record) (v : BitVec 64) : Record := setBytes r 0x08 (htonll v)

/-- `sdb_component.addr_last`. -/
def setAddrLast (r : Record) (v : BitVec 64) : Record := setBytes r 0x10 (htonll v)

/-- `product.vendor_id`. -/
def setVendorId (r : Record) (v : BitVec 64) : Record := setBytes r 0x18 (htonll v)

/-- `product.device_id`. -/
def setDeviceId (r : Record) (v : Word) : Record := setBytes r 0x20 (bytesOf v)

/-- `product.version`. -/
def setVersion (r : Record) (v : Word) : Record := setBytes r 0x24 (bytesOf v)

/-- `product.name`. -/
def setName (r : Record) (name : List Byte) : Record := setBytes r 0x2c name

/-- `product.record_type`. -/
def setRecordType (r : Record) (t : Byte) : Record := setBytes r 0x3f [t]

/-- `sdb_magic`, of an interconnect. -/
def setSdbMagic (r : Record) (v : Word) : Record := setBytes r 0x00 (bytesOf v)

/-- `sdb_records`, of an interconnect. -/
def setSdbRecords (r : Record) (n : BitVec 16) : Record := setBytes r 0x04 (htons n)

/-- `sdb_version`, of an interconnect. -/
def setSdbVersion (r : Record) (v : Byte) : Record := setBytes r 0x06 [v]

/-- `sdb_bus_type`, of an interconnect. -/
def setSdbBusType (r : Record) (v : Byte) : Record := setBytes r 0x07 [v]

/-- `bus_specific`, of a device. -/
def setBusSpecific (r : Record) (v : Word) : Record := setBytes r 0x04 (bytesOf v)

/-- `bus_specific`, of a device: the flags of a file. -/
def busSpecific (r : Record) : Word := be32 r busOffset

/-! ## Bytes -/

/-- A byte of a record of which some bytes were set. -/
theorem byteAt_setBytes (r : Record) (k : Nat) (bytes : List Byte) {n : Nat} (hn : n < 64) :
    byteAt (setBytes r k bytes) n =
      if k ≤ n then bytes.getD (n - k) (byteAt r n) else byteAt r n := by
  rw [byteAt, dif_pos hn, byteAt, dif_pos hn]
  rfl

/-- Bytes in front of or behind the copied ones. -/
theorem byteAt_setBytes_of_outside (r : Record) {k n : Nat} {bytes : List Byte}
    (h : n < k ∨ k + bytes.length ≤ n) : byteAt (setBytes r k bytes) n = byteAt r n := by
  by_cases hn : n < 64
  · rw [byteAt_setBytes r k bytes hn]
    by_cases hk : k ≤ n
    · rw [if_pos hk, List.getD_eq_getElem?_getD, List.getElem?_eq_none (by omega)]
      rfl
    · exact if_neg hk
  · rw [byteAt, byteAt, dif_neg hn, dif_neg hn]

/-- One of those that were set. -/
theorem byteAt_setBytes_add (r : Record) {k i : Nat} {bytes : List Byte} {b : Byte}
    (h : k + i < 64) (hb : bytes[i]? = some b) : byteAt (setBytes r k bytes) (k + i) = b := by
  rw [byteAt_setBytes r k bytes h, if_pos (Nat.le_add_right k i), Nat.add_sub_cancel_left,
    List.getD_eq_getElem?_getD, hb]
  rfl

theorem val_add {k j : Fin 64} (h : k.val + j.val < 64) : (k + j).val = k.val + j.val :=
  (Fin.val_add k j).trans (Nat.mod_eq_of_lt h)

theorem apply_eq_byteAt (r : Record) {k : Fin 64} {n : Nat} (h : k.val = n) : r k = byteAt r n := by
  subst h
  rw [byteAt, dif_pos k.isLt]

/-- A word of a record, by its bytes. -/
theorem be32_eq (r : Record) {k : Fin 64} (h : k.val + 4 ≤ 64) :
    be32 r k = wordOf (byteAt r k.val) (byteAt r (k.val + 1)) (byteAt r (k.val + 2))
      (byteAt r (k.val + 3)) := by
  have h1 : k.val + (1 : Fin 64).val < 64 := Nat.lt_of_lt_of_le (Nat.add_lt_add_left (by decide) _) h
  have h2 : k.val + (2 : Fin 64).val < 64 := Nat.lt_of_lt_of_le (Nat.add_lt_add_left (by decide) _) h
  have h3 : k.val + (3 : Fin 64).val < 64 := Nat.lt_of_lt_of_le (Nat.add_lt_add_left (by decide) _) h
  rw [be32, apply_eq_byteAt r rfl, apply_eq_byteAt r (val_add h1), apply_eq_byteAt r (val_add h2),
    apply_eq_byteAt r (val_add h3)]
  rfl

/-- A double word of a record, by its bytes. -/
theorem be64_eq (r : Record) {k : Fin 64} (h : k.val + 8 ≤ 64) :
    be64 r k = wordOf (byteAt r k.val) (byteAt r (k.val + 1)) (byteAt r (k.val + 2))
        (byteAt r (k.val + 3)) ++
      wordOf (byteAt r (k.val + 4)) (byteAt r (k.val + 5)) (byteAt r (k.val + 6))
        (byteAt r (k.val + 7)) := by
  have h4 : (k + 4).val = k.val + 4 :=
    val_add (Nat.lt_of_lt_of_le (Nat.add_lt_add_left (by decide : (4 : Fin 64).val < 8) _) h)
  rw [be64, be32_eq r (by omega), be32_eq r (by omega), h4]

/-! ## A field that is not written -/

section frame

variable (r : Record) {k : Nat} {bytes : List Byte}

/-- A word elsewhere stays. -/
theorem be32_setBytes_of_outside {j : Fin 64} (hj : j.val + 4 ≤ 64)
    (h : j.val + 4 ≤ k ∨ k + bytes.length ≤ j.val) : be32 (setBytes r k bytes) j = be32 r j := by
  rw [be32_eq _ hj, be32_eq _ hj, byteAt_setBytes_of_outside r (by omega),
    byteAt_setBytes_of_outside r (by omega), byteAt_setBytes_of_outside r (by omega),
    byteAt_setBytes_of_outside r (by omega)]

/-- So does a double word. -/
theorem be64_setBytes_of_outside {j : Fin 64} (hj : j.val + 8 ≤ 64)
    (h : j.val + 8 ≤ k ∨ k + bytes.length ≤ j.val) : be64 (setBytes r k bytes) j = be64 r j := by
  rw [be64_eq _ hj, be64_eq _ hj, byteAt_setBytes_of_outside r (by omega),
    byteAt_setBytes_of_outside r (by omega), byteAt_setBytes_of_outside r (by omega),
    byteAt_setBytes_of_outside r (by omega), byteAt_setBytes_of_outside r (by omega),
    byteAt_setBytes_of_outside r (by omega), byteAt_setBytes_of_outside r (by omega),
    byteAt_setBytes_of_outside r (by omega)]

end frame

/-! ## A field that is written -/

/-- A word that was set. -/
theorem be32_setBytes (r : Record) {k : Fin 64} (hk : k.val + 4 ≤ 64) (v : Word) :
    be32 (setBytes r k.val (bytesOf v)) k = v := by
  have h : ∀ i b, i < 4 → (bytesOf v)[i]? = some b →
      byteAt (setBytes r k.val (bytesOf v)) (k.val + i) = b :=
    fun i b hi hb => byteAt_setBytes_add r (by omega) hb
  rw [be32_eq _ hk, h 1 _ (by decide) rfl, h 2 _ (by decide) rfl, h 3 _ (by decide) rfl]
  exact (congrArg (wordOf · _ _ _) (h 0 _ (by decide) rfl)).trans (wordOf_byteOf v)

/-- A double word is its halves. -/
theorem extract_halves (v : BitVec 64) : v.extractLsb' 32 32 ++ v.extractLsb' 0 32 = v := by
  apply BitVec.eq_of_getLsbD_eq
  intro i hi
  rw [BitVec.getLsbD_append, BitVec.getLsbD_extractLsb', BitVec.getLsbD_extractLsb']
  by_cases h : i < 32
  · simp [h]
  · simp [h, show i - 32 < 32 by omega, show 32 + (i - 32) = i by omega]

/-- A double word that was set. -/
theorem be64_setBytes (r : Record) {k : Fin 64} (hk : k.val + 8 ≤ 64) (v : BitVec 64) :
    be64 (setBytes r k.val (htonll v)) k = v := by
  have h : ∀ i b, i < 8 → (htonll v)[i]? = some b →
      byteAt (setBytes r k.val (htonll v)) (k.val + i) = b :=
    fun i b hi hb => byteAt_setBytes_add r (by omega) hb
  rw [be64_eq _ hk, h 1 _ (by decide) rfl, h 2 _ (by decide) rfl, h 3 _ (by decide) rfl,
    h 4 _ (by decide) rfl, h 5 _ (by decide) rfl, h 6 _ (by decide) rfl, h 7 _ (by decide) rfl,
    wordOf_byteOf]
  exact (congrArg (wordOf · _ _ _ ++ _) (h 0 _ (by decide) rfl)).trans
    ((congrArg (· ++ _) (wordOf_byteOf _)).trans (extract_halves v))

/-- The count that was set. -/
theorem sdbRecords_setSdbRecords (r : Record) (n : BitVec 16) :
    sdbRecords (setSdbRecords r n) = n := by
  have h4 : byteAt (setSdbRecords r n) 4 = n.extractLsb' 8 8 :=
    byteAt_setBytes_add r (k := 4) (i := 0) (by decide) rfl
  have h5 : byteAt (setSdbRecords r n) 5 = n.extractLsb' 0 8 :=
    byteAt_setBytes_add r (k := 4) (i := 1) (by decide) rfl
  rw [byteAt, dif_pos (by decide)] at h4 h5
  refine (congrArg₂ (· ++ ·) h4 h5).trans ?_
  rw [BitVec.extractLsb'_append_extractLsb'_eq_extractLsb' (by decide)]
  exact BitVec.extractLsb'_eq_self

end SdbFields
