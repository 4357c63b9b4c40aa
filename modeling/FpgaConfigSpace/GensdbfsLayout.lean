import FpgaConfigSpace.Gensdbfs
import FpgaConfigSpace.Lib.Blocks

/-! # The layout of an image

    `alloc_storage` counts in `unsigned long` and rounds with a mask of 32 bits.  As
    long as the addresses stay below 2^32 the places are those of a layout in plain
    numbers: every entry at the first block behind the room of the one before.  The
    records and the writes of the image are read off that layout. -/

namespace GensdbfsLayout

open BigEndian SdbRecord SdbFields SdbfsOpen FileWrites Blocks Gensdbfs

/-! ## Plain numbers -/

/-- The room of a table. -/
def tableEnd (b n : Nat) : Nat := roundUp b (64 * n)

/-- The last byte that `alloc_storage` records for a directory, from the place of the
    next entry and the last byte so far. -/
def lastByte (b : Nat) : Entries → (pos last : Nat) → Nat
  | .nil, _, last => last
  | .file f _ rest, pos, last =>
      lastByte b rest (roundUp b (pos + f.size.toNat)) (max last (pos + f.size.toNat - 1))
  | .subdir f _ sub rest, pos, last =>
      let t := tableEnd b (sub.count + 1)
      let size := max f.size.toNat (lastByte b sub t t)
      lastByte b rest (roundUp b (pos + size)) (max last (pos + size - 1))

/-- The size a subdirectory is given: the number of its last byte, or what the user
    wants if that is more. -/
def subSize (b : Nat) (f : Sdbf) (sub : Entries) : Nat :=
  max f.size.toNat (lastByte b sub (tableEnd b (sub.count + 1)) (tableEnd b (sub.count + 1)))

/-- Every byte that an entry is given, and every byte of a file, is below 2^32. -/
def Fits (b : Nat) : Entries → (pos : Nat) → Prop
  | .nil, _ => True
  | .file f file rest, pos =>
      pos < 0x100000000 ∧ pos + f.size.toNat ≤ 0x100000000 ∧ pos + file.size ≤ 0x100000000 ∧
        Fits b rest (roundUp b (pos + f.size.toNat))
  | .subdir f _ sub rest, pos =>
      pos < 0x100000000 ∧ pos + subSize b f sub ≤ 0x100000000 ∧
        Fits b sub (pos + tableEnd b (sub.count + 1)) ∧ Fits b rest (roundUp b (pos + subSize b f sub))

/-- The entry's record at its place. -/
def placedRecord (r : Record) (pos size : Nat) : Record :=
  setAddrLast (setAddrFirst r (BitVec.ofNat 64 pos)) (BitVec.ofNat 64 (pos + size - 1))

/-- The records of the entries of a directory, the first one at a place. -/
def layoutRecords (b : Nat) : Entries → (pos : Nat) → List Record
  | .nil, _ => []
  | .file f _ rest, pos =>
      placedRecord f.record pos f.size.toNat ::
        layoutRecords b rest (roundUp b (pos + f.size.toNat))
  | .subdir f _ sub rest, pos =>
      placedRecord (setSdbChild f.record (BitVec.ofNat 64 pos)) pos (subSize b f sub) ::
        layoutRecords b rest (roundUp b (pos + subSize b f sub))

/-- The interconnect of a directory with a last byte. -/
def tableHead (dot : Sdbf) (last : Nat) : Record :=
  setAddrLast (setAddrFirst dot.record 0) (BitVec.ofNat 64 last)

/-- The table of a directory whose first entry is at a place. -/
def layoutTable (b : Nat) (dot : Sdbf) (e : Entries) (pos : Nat) : List Record :=
  tableHead dot (lastByte b e pos pos) :: layoutRecords b e pos

/-- What is written for the entries of a directory at `base`: their bytes, or their
    tables and what these lead to. -/
def written (blocksize : BitVec 32) : Entries → (base pos : Nat) → List (Write Byte)
  | .nil, _, _ => []
  | .file f file rest, base, pos =>
      consecutive (base + pos) (filePieces blocksize file) ++
        written blocksize rest base (roundUp blocksize.toNat (pos + f.size.toNat))
  | .subdir f dot sub rest, base, pos =>
      let t := tableEnd blocksize.toNat (sub.count + 1)
      consecutive (base + pos) ((layoutTable blocksize.toNat dot sub t).map recordBytes) ++
        (written blocksize sub (base + pos) t ++
          written blocksize rest base (roundUp blocksize.toNat (pos + subSize blocksize.toNat f sub)))

/-! ## Preorder -/

/-- A record of the image: where it is, what it is, and for a file the range that is
    set aside for its bytes. -/
structure Visit where
  pos : ULong
  record : Record
  region : Option (ULong × ULong)

/-- The records of an allocated directory, from the one at `slot` on, in preorder: those
    of a subdirectory follow its entry. -/
def visits (base : ULong) : (slot : ULong) → Entries → List Visit
  | _, .nil => []
  | slot, .file f _ rest =>
      ⟨slot, f.record, some (base + f.rstart, f.size)⟩ :: visits base (slot + 64) rest
  | slot, .subdir f dot sub rest =>
      ⟨slot, f.record, none⟩ :: ⟨dot.base + dot.ustart, dot.record, none⟩ ::
        (visits dot.base (dot.base + dot.ustart + 64) sub ++ visits base (slot + 64) rest)

/-- The records of an allocated tree. -/
def treeVisits (tree : Tree) : List Visit :=
  ⟨tree.dot.base + tree.dot.ustart, tree.dot.record, none⟩ ::
    visits tree.dot.base (tree.dot.base + tree.dot.ustart + 64) tree.entries

/-- The same by the layout. -/
def layoutVisits (b : Nat) : Entries → (base pos slot : Nat) → List Visit
  | .nil, _, _, _ => []
  | .file f _ rest, base, pos, slot =>
      ⟨BitVec.ofNat 64 slot, placedRecord f.record pos f.size.toNat,
          some (BitVec.ofNat 64 (base + pos), f.size)⟩ ::
        layoutVisits b rest base (roundUp b (pos + f.size.toNat)) (slot + 64)
  | .subdir f dot sub rest, base, pos, slot =>
      let t := tableEnd b (sub.count + 1)
      ⟨BitVec.ofNat 64 slot, placedRecord (setSdbChild f.record (BitVec.ofNat 64 pos)) pos
          (subSize b f sub), none⟩ ::
        ⟨BitVec.ofNat 64 (base + pos), tableHead dot (lastByte b sub t t), none⟩ ::
        (layoutVisits b sub (base + pos) t (base + pos + 64) ++
          layoutVisits b rest base (roundUp b (pos + subSize b f sub)) (slot + 64))

/-! ## `SDB_ALIGN` -/

/-- Masking the low bits of a number below 2^32. -/
theorem and_mask {k y : Nat} (hk : k < 32) (hy : y < 0x100000000) :
    y &&& (0x100000000 - 2 ^ k) = y / 2 ^ k * 2 ^ k := by
  have hmask : 0x100000000 - 2 ^ k = (2 ^ (32 - k) - 1) * 2 ^ k := by
    rw [Nat.sub_mul, ← Nat.pow_add, Nat.sub_add_cancel (by omega), Nat.one_mul]
  apply Nat.eq_of_testBit_eq
  intro j
  rw [Nat.testBit_and, hmask, Nat.testBit_mul_two_pow, Nat.testBit_mul_two_pow,
    Nat.testBit_two_pow_sub_one, Nat.testBit_div_two_pow]
  by_cases hj : k ≤ j
  · rw [Nat.sub_add_cancel hj]
    by_cases hlt : j < 32
    · simp [hj]
      omega
    · have hpow : (2 : Nat) ^ 32 ≤ 2 ^ j := Nat.pow_le_pow_right (by decide) (by omega)
      rw [Nat.testBit_lt_two_pow (Nat.lt_of_lt_of_le hy hpow)]
      simp
  · simp [hj]

section

variable {blocksize : BitVec 32} (hpow : blocksize.toNat.isPowerOfTwo)

include hpow

/-- The exponent of the block size. -/
theorem exponent_of_pow : ∃ k, k < 32 ∧ blocksize.toNat = 2 ^ k := by
  obtain ⟨k, hk⟩ := hpow
  have hsize := blocksize.isLt
  refine ⟨k, (Nat.pow_lt_pow_iff_right (a := 2) (by decide)).mp ?_, hk⟩
  omega

/-- The mask of `SDB_ALIGN`, in plain numbers. -/
theorem toNat_mask :
    ((~~~(blocksize - 1)).setWidth 64 : ULong).toNat = 0x100000000 - blocksize.toNat := by
  have hsize := blocksize.isLt
  have hpos : 0 < blocksize.toNat := Nat.pos_of_isPowerOfTwo hpow
  have hone : (blocksize - 1).toNat = blocksize.toNat - 1 := by
    rw [BitVec.toNat_sub_of_le]
    · rfl
    · exact hpos
  rw [BitVec.toNat_setWidth, BitVec.toNat_not, hone]
  omega

/-- What the macro returns is a whole number of blocks, whatever it is given. -/
theorem sdbAlign_dvd (x : ULong) : blocksize.toNat ∣ (sdbAlign blocksize x).toNat := by
  obtain ⟨k, hk32, hk⟩ := exponent_of_pow hpow
  have hpos : 0 < blocksize.toNat := Nat.pos_of_isPowerOfTwo hpow
  rw [sdbAlign, BitVec.toNat_and, toNat_mask hpow]
  generalize (x + (blocksize - 1).setWidth 64).toNat = y
  have hmask : 0x100000000 - blocksize.toNat < 2 ^ 32 := by omega
  have hlow : y &&& (0x100000000 - blocksize.toNat) =
      (y % 2 ^ 32) &&& (0x100000000 - blocksize.toNat) := by
    rw [← Nat.mod_eq_of_lt (Nat.lt_of_le_of_lt Nat.and_le_right hmask), Nat.and_mod_two_pow,
      Nat.mod_eq_of_lt hmask]
  have hround : (y % 2 ^ 32) &&& (0x100000000 - 2 ^ k) = (y % 2 ^ 32) / 2 ^ k * 2 ^ k :=
    and_mask hk32 (Nat.mod_lt y (by decide))
  rw [hlow, hk]
  exact hround ▸ Nat.dvd_mul_left _ _

end

/-- A size of the blocks the program is meant for. -/
structure BlockSize (blocksize : BitVec 32) : Prop where
  pow : blocksize.toNat.isPowerOfTwo
  le : 64 ≤ blocksize.toNat

section

variable {blocksize : BitVec 32} (hb : BlockSize blocksize)

include hb

theorem BlockSize.pos : 0 < blocksize.toNat := Nat.lt_of_lt_of_le (by decide) hb.le

/-- A power of two below 2^32 is at most 2^31. -/
theorem BlockSize.le_half : blocksize.toNat ≤ 0x80000000 := by
  obtain ⟨k, hk32, hk⟩ := exponent_of_pow hb.pow
  rw [hk]
  exact Nat.pow_le_pow_right (n := 2) (j := 31) (by decide) (by omega)

/-- The address space is a whole number of blocks. -/
theorem BlockSize.dvd : blocksize.toNat ∣ 0x100000000 := by
  obtain ⟨k, hk32, hk⟩ := exponent_of_pow hb.pow
  rw [hk]
  exact Nat.pow_dvd_pow 2 (n := 32) (Nat.le_of_lt hk32)

/-- A table ends below 2^32. -/
theorem tableEnd_lt {n : Nat} (hn : n ≤ 0xffff) : tableEnd blocksize.toNat n < 0x100000000 := by
  have hlt := roundUp_lt hb.pos (64 * n)
  have hle := hb.le_half
  rw [tableEnd]
  omega

/-- Below 2^32 the macro rounds up. -/
theorem sdbAlign_ofNat {x : Nat} (h : roundUp blocksize.toNat x < 0x100000000) :
    sdbAlign blocksize (BitVec.ofNat 64 x) = BitVec.ofNat 64 (roundUp blocksize.toNat x) := by
  obtain ⟨k, hk32, hk⟩ := exponent_of_pow hb.pow
  have hsize := blocksize.isLt
  have hle := le_roundUp hb.pos x
  have hsum : x + (blocksize.toNat - 1) < 0x100000000 := by
    obtain ⟨q, hq⟩ := dvd_roundUp blocksize.toNat x
    obtain ⟨m, hm⟩ := hb.dvd
    have hqm : q < m := by
      refine Nat.lt_of_mul_lt_mul_left (a := blocksize.toNat) ?_
      omega
    have hnext : blocksize.toNat * (q + 1) ≤ blocksize.toNat * m := Nat.mul_le_mul_left _ hqm
    rw [Nat.mul_add, Nat.mul_one] at hnext
    omega
  have hone : (blocksize - 1).toNat = blocksize.toNat - 1 := by
    rw [BitVec.toNat_sub_of_le]
    · rfl
    · exact hb.pos
  apply BitVec.eq_of_toNat_eq
  rw [sdbAlign, BitVec.toNat_and, toNat_mask hb.pow, BitVec.toNat_add, BitVec.toNat_setWidth, hone,
    BitVec.toNat_ofNat, BitVec.toNat_ofNat,
    Nat.mod_eq_of_lt (show roundUp blocksize.toNat x < 2 ^ 64 by omega),
    Nat.mod_eq_of_lt (show x < 2 ^ 64 by omega),
    Nat.mod_eq_of_lt (show blocksize.toNat - 1 < 2 ^ 64 by omega),
    Nat.mod_eq_of_lt (show x + (blocksize.toNat - 1) < 2 ^ 64 by omega),
    hk, and_mask hk32 (hk ▸ hsum), roundUp]

end

/-! ## Bounds of the layout -/

section

variable {b : Nat}

/-- A table ends at a block, behind its records. -/
theorem dvd_tableEnd (b n : Nat) : b ∣ tableEnd b n := dvd_roundUp b (64 * n)

theorem le_tableEnd (hb : 0 < b) (n : Nat) : 64 * n ≤ tableEnd b n := le_roundUp hb (64 * n)

/-- There is at least a block for a table. -/
theorem block_le_tableEnd (hb : 0 < b) (n : Nat) : b ≤ tableEnd b (n + 1) := by
  obtain ⟨k, hk⟩ := dvd_roundUp b (64 * (n + 1))
  have hle := le_roundUp hb (64 * (n + 1))
  rw [tableEnd, hk]
  rw [hk] at hle
  refine Nat.le_mul_of_pos_right b (Nat.pos_of_ne_zero ?_)
  rintro rfl
  omega

/-- The last byte is not before what was given. -/
theorem le_lastByte (e : Entries) : ∀ {pos last : Nat}, last ≤ lastByte b e pos last := by
  induction e with
  | nil => exact fun {_ _} => Nat.le_refl _
  | file f file rest ih => exact fun {_ _} => Nat.le_trans (Nat.le_max_left _ _) ih
  | subdir f dot sub rest _ ih => exact fun {_ _} => Nat.le_trans (Nat.le_max_left _ _) ih

/-- A subdirectory has room for its table. -/
theorem tableEnd_le_subSize (f : Sdbf) (sub : Entries) :
    tableEnd b (sub.count + 1) ≤ subSize b f sub :=
  Nat.le_trans (le_lastByte sub) (Nat.le_max_right _ _)

end

/-! ## What scanning leaves -/

/-- A size that makes room for a file. -/
def SizeOk (blocksize : BitVec 32) (file : RegularFile) (size : ULong) : Prop :=
  file.size ≤ size.toNat ∨ size = sdbAlign blocksize (BitVec.ofNat 64 file.size)

/-- A file as it is scanned, if the configuration asks for nothing unusual. -/
structure ScannedFile (blocksize : BitVec 32) (f : Sdbf) (file : RegularFile) : Prop where
  userpos_eq : f.userpos = false
  size_ok : SizeOk blocksize file f.size
  type_eq : recordType f.record = sdbTypeDevice

/-- A table with its interconnect and some records. -/
structure ScannedDot (dot : Sdbf) (n : Nat) : Prop where
  base_eq : dot.base = 0
  name_eq : dot.basename = dotName
  records_eq : records dot = n
  table : IsTable dot.record

/-- The entries of a directory. -/
def Scanned (blocksize : BitVec 32) : Entries → Prop
  | .nil => True
  | .file f file rest => ScannedFile blocksize f file ∧ Scanned blocksize rest
  | .subdir f dot sub rest =>
      (f.userpos = false ∧ recordType f.record = sdbTypeBridge) ∧
        (ScannedDot dot (sub.count + 1) ∧ dot.ustart = 0) ∧
        Scanned blocksize sub ∧ Scanned blocksize rest

/-- The count has 16 bits. -/
theorem records_le (dot : Sdbf) : records dot ≤ 0xffff := Nat.le_of_lt_succ (sdbRecords dot.record).isLt

/-! ## Placing an entry -/

theorem eq_ofNat (x : ULong) : x = BitVec.ofNat 64 x.toNat := by
  rw [BitVec.ofNat_toNat, BitVec.setWidth_eq]

/-- A place, from the base of its directory. -/
theorem add_ofNat (base : ULong) (pos : Nat) :
    base + BitVec.ofNat 64 pos = BitVec.ofNat 64 (base.toNat + pos) := by
  rw [BitVec.ofNat_add, ← eq_ofNat base]

/-- The number of records is not in the range that closing a directory fills in. -/
theorem records_closeDir (dot : Sdbf) (base last : ULong) :
    records (closeDir dot base last) = records dot := by
  have h : ∀ n : Nat, n < 8 → byteAt (closeDir dot base last).record n = byteAt dot.record n := by
    intro n hn
    rw [closeDir, setAddrLast, setAddrFirst, byteAt_setBytes_of_outside _ (Or.inl (by omega)),
      byteAt_setBytes_of_outside _ (Or.inl (by omega))]
  have h4 := h 4 (by decide)
  have h5 := h 5 (by decide)
  rw [byteAt, byteAt, dif_pos (by decide), dif_pos (by decide)] at h4 h5
  rw [records, records, sdbRecords, sdbRecords]
  exact congrArg BitVec.toNat (congrArg₂ (· ++ ·) h4 h5)

section

variable {f : Sdbf} {pos last size : Nat} (huser : f.userpos = false)
  (hsize : f.size = BitVec.ofNat 64 size)

include huser hsize

/-- The last address of an entry, in plain numbers. -/
theorem lastOf_ofNat (hpos : 0 < pos) :
    lastOf f (BitVec.ofNat 64 pos) = BitVec.ofNat 64 (pos + size - 1) := by
  have hadd : BitVec.ofNat 64 pos + BitVec.ofNat 64 size = BitVec.ofNat 64 (pos + size) :=
    (BitVec.ofNat_add pos size).symm
  rw [lastOf, if_neg (by rw [huser]; exact Bool.false_ne_true), hsize, hadd]
  exact (BitVec.ofNat_sub_ofNat_of_le (pos + size) 1 (by decide) (by omega))

/-- Placing an entry, in plain numbers. -/
theorem place_ofNat (hpos : 0 < pos) :
    place f (BitVec.ofNat 64 pos) =
      { f with rstart := BitVec.ofNat 64 pos, record := placedRecord f.record pos size } := by
  rw [place, if_neg (by rw [huser]; exact Bool.false_ne_true), lastOf_ofNat huser hsize hpos]
  rfl

/-- Moving on behind it, in plain numbers. -/
theorem advance_ofNat (blocksize : BitVec 32) (hpos : 0 < pos) (hend : pos + size ≤ 0x100000000)
    (hlast : last ≤ 0x100000000) :
    advance blocksize f (BitVec.ofNat 64 pos) (BitVec.ofNat 64 last) =
      (sdbAlign blocksize (BitVec.ofNat 64 (pos + size)),
        BitVec.ofNat 64 (max last (pos + size - 1))) := by
  have hlt : BitVec.ofNat 64 last < BitVec.ofNat 64 (pos + size - 1) ↔ last < pos + size - 1 := by
    rw [BitVec.lt_def, BitVec.toNat_ofNat, BitVec.toNat_ofNat, Nat.mod_eq_of_lt (by omega),
      Nat.mod_eq_of_lt (by omega)]
  rw [advance, if_neg (by rw [huser]; exact Bool.false_ne_true),
    lastOf_ofNat huser hsize hpos, hsize, BitVec.ofNat_add]
  refine congrArg _ ?_
  by_cases h : last < pos + size - 1
  · rw [if_pos (hlt.mpr h), Nat.max_eq_right (Nat.le_of_lt h)]
  · rw [if_neg (mt hlt.mp h), Nat.max_eq_left (Nat.not_lt.mp h)]

end

theorem next_slot (slot : Nat) :
    BitVec.ofNat 64 slot + 64 = (BitVec.ofNat 64 (slot + 64) : ULong) :=
  (BitVec.ofNat_add slot 64).symm

/-- A subdirectory's size, from the last byte that was allocated. -/
theorem sizeDir_last (f : Sdbf) (rpos : ULong) {last : Nat}
    (hsize : max f.size.toNat last ≤ 0x100000000) :
    sizeDir f rpos (BitVec.ofNat 64 last) =
      { f with
        size := BitVec.ofNat 64 (max f.size.toNat last)
        record := setSdbChild f.record rpos } := by
  have hlt : f.size < BitVec.ofNat 64 last ↔ f.size.toNat < last := by
    rw [BitVec.lt_def, BitVec.toNat_ofNat, Nat.mod_eq_of_lt (by omega)]
  rw [sizeDir]
  by_cases h : f.size.toNat < last
  · rw [if_pos (hlt.mpr h), Nat.max_eq_right (Nat.le_of_lt h)]
  · rw [if_neg (mt hlt.mp h), Nat.max_eq_left (Nat.not_lt.mp h), ← eq_ofNat]

/-- The size of a subdirectory, in plain numbers. -/
theorem sizeDir_ofNat (b : Nat) (f : Sdbf) (sub : Entries) (rpos : ULong)
    (hsize : subSize b f sub ≤ 0x100000000) :
    sizeDir f rpos (BitVec.ofNat 64
        (lastByte b sub (tableEnd b (sub.count + 1)) (tableEnd b (sub.count + 1)))) =
      { f with
        size := BitVec.ofNat 64 (subSize b f sub)
        record := setSdbChild f.record rpos } := sizeDir_last f rpos hsize

/-! ## Writing -/

/-- A small place is where `fseek` goes. -/
theorem fseek_ofNat (out : ImageFile) {n : Nat} (hn : n < 0x100000000) :
    out.fseek (BitVec.ofNat 64 n) = { out with pos := n } := by
  have htoNat : (BitVec.ofNat 64 n).toNat = n := by
    rw [BitVec.toNat_ofNat, Nat.mod_eq_of_lt (by omega)]
  rw [ImageFile.fseek, if_neg, htoNat]
  rw [BitVec.msb_eq_decide, htoNat]
  simp only [decide_eq_true_eq]
  omega

@[simp] theorem fseek_writes (out : ImageFile) (offset : ULong) :
    (out.fseek offset).writes = out.writes := by
  rw [ImageFile.fseek]
  split <;> rfl

/-- The pieces of a file are written one behind the other. -/
theorem foldl_fwrite (pieces : List (List Byte)) : ∀ out : ImageFile,
    pieces.foldl ImageFile.fwrite out =
      ⟨out.pos + pieces.flatten.length, out.writes ++ consecutive out.pos pieces⟩ := by
  induction pieces with
  | nil =>
      intro out
      simp [consecutive]
  | cons data pieces ih =>
      intro out
      rw [List.foldl_cons, ih, ImageFile.fwrite, List.flatten_cons, List.length_append, consecutive,
        ← Nat.add_assoc, List.append_assoc]
      rfl

/-- No more records are written than are counted. -/
theorem tableRecords_length (e : Entries) : ∀ left : Nat, (tableRecords left e).length ≤ left := by
  induction e with
  | nil => exact fun left => by cases left <;> exact Nat.zero_le _
  | file f file rest ih =>
      intro left
      cases left with
      | zero => exact Nat.le_refl 0
      | succ left => exact Nat.succ_le_succ (ih left)
  | subdir f dot sub rest _ ih =>
      intro left
      cases left with
      | zero => exact Nat.le_refl 0
      | succ left => exact Nat.succ_le_succ (ih left)

/-- A table with its interconnect. -/
theorem tableOf_eq {dot : Sdbf} {n : Nat} (h : records dot = n + 1) (e : Entries) :
    tableOf dot e = dot.record :: tableRecords n e := by
  rw [tableOf, h, Nat.add_sub_cancel]
  exact List.take_of_length_le (Nat.succ_le_succ (tableRecords_length e n))

/-- What allocating the entries of a directory gives: the last byte, the records, what is
    written for them, whatever was written before, and the records in preorder. -/
structure Placed (blocksize : BitVec 32) (base : ULong) (e : Entries) (pos last : Nat)
    (r : Entries × ULong) : Prop where
  last_eq : r.2 = BitVec.ofNat 64 (lastByte blocksize.toNat e pos last)
  records_eq : tableRecords e.count r.1 = layoutRecords blocksize.toNat e pos
  writes_eq : ∀ out, (outputEntries blocksize anyOpens base e.count r.1 out).file.writes =
    out.file.writes ++ written blocksize e base.toNat pos
  visits_eq : ∀ slot, visits base (BitVec.ofNat 64 slot) r.1 =
    layoutVisits blocksize.toNat e base.toNat pos slot

section

variable {blocksize : BitVec 32} {base : ULong}

/-- A directory with nothing in it. -/
theorem placed_nil (pos last : Nat) :
    Placed blocksize base .nil pos last (.nil, BitVec.ofNat 64 last) where
  last_eq := rfl
  records_eq := rfl
  writes_eq := fun out => (List.append_nil out.file.writes).symm
  visits_eq := fun _ => rfl

/-- The step lemma: a file. -/
theorem placed_file {f : Sdbf} {file : RegularFile} {rest : Entries} {pos last : Nat}
    {r : Entries × ULong} (hpos : 0 < pos) (haddr : base.toNat + pos < 0x100000000)
    (huser : f.userpos = false)
    (hrest : Placed blocksize base rest (roundUp blocksize.toNat (pos + f.size.toNat))
      (max last (pos + f.size.toNat - 1)) r) :
    Placed blocksize base (.file f file rest) pos last
      (.file (place f (BitVec.ofNat 64 pos)) file r.1, r.2) where
  last_eq := hrest.last_eq
  records_eq := by
    rw [place_ofNat huser (eq_ofNat f.size) hpos]
    exact congrArg _ hrest.records_eq
  writes_eq := by
    intro out
    rw [place_ofNat huser (eq_ofNat f.size) hpos]
    show (outputEntries blocksize anyOpens base rest.count r.1 _).file.writes = _
    rw [hrest.writes_eq, written, ← List.append_assoc]
    refine congrArg (· ++ _) ?_
    rw [if_pos (show anyOpens 0 = true from rfl), huser, add_ofNat]
    cases hc : file.contents with
    | none =>
        rw [filePieces, hc]
        exact (List.append_nil _).symm
    | some bytes =>
        show ((filePieces blocksize file).foldl Output.copy _).file.writes = _
        rw [foldl_copy_file, if_neg Bool.false_ne_true, fseek_ofNat out.file haddr, foldl_fwrite]
  visits_eq := by
    intro slot
    rw [place_ofNat huser (eq_ofNat f.size) hpos, visits, add_ofNat, next_slot, hrest.visits_eq]
    rfl

/-- The writes of a directory's table. -/
theorem writes_table {dot : Sdbf} {sub : Entries} {pos at' : Nat} {s : Entries × ULong}
    (out : ImageFile) (hat : at' < 0x100000000) (haddr : base + dot.ustart = BitVec.ofNat 64 at')
    (hrecords : records dot = sub.count + 1) (hsub : Placed blocksize base sub pos pos s) :
    (((tableOf (closeDir dot base s.2) s.1).map recordBytes).foldl
        ImageFile.fwrite (out.fseek (base + dot.ustart))).writes =
      out.writes ++ consecutive at' ((layoutTable blocksize.toNat dot sub pos).map recordBytes) := by
  rw [haddr, fseek_ofNat out hat, foldl_fwrite, tableOf_eq ((records_closeDir ..).trans hrecords),
    hsub.records_eq, hsub.last_eq]
  rfl

/-- The step lemma: a subdirectory, and what is behind it. -/
theorem placed_subdir {f dot : Sdbf} {sub rest : Entries} {pos last : Nat} {s r : Entries × ULong}
    (hpos : 0 < pos) (haddr : base.toNat + pos < 0x100000000) (huser : f.userpos = false)
    (hstart : dot.ustart = 0) (hrecords : records dot = sub.count + 1)
    (hsize : subSize blocksize.toNat f sub ≤ 0x100000000)
    (hsub : Placed blocksize (base + BitVec.ofNat 64 pos) sub
      (tableEnd blocksize.toNat (sub.count + 1)) (tableEnd blocksize.toNat (sub.count + 1)) s)
    (hrest : Placed blocksize base rest
      (roundUp blocksize.toNat (pos + subSize blocksize.toNat f sub))
      (max last (pos + subSize blocksize.toNat f sub - 1)) r) :
    Placed blocksize base (.subdir f dot sub rest) pos last
      (.subdir (place (sizeDir f (BitVec.ofNat 64 pos) s.2) (BitVec.ofNat 64 pos))
        (closeDir dot (base + BitVec.ofNat 64 pos) s.2) s.1 r.1, r.2) := by
  have hplace : place (sizeDir f (BitVec.ofNat 64 pos) s.2) (BitVec.ofNat 64 pos) =
      { f with
        size := BitVec.ofNat 64 (subSize blocksize.toNat f sub)
        rstart := BitVec.ofNat 64 pos
        record := placedRecord (setSdbChild f.record (BitVec.ofNat 64 pos)) pos
          (subSize blocksize.toNat f sub) } := by
    rw [hsub.last_eq, sizeDir_ofNat blocksize.toNat f sub _ hsize]
    exact place_ofNat huser rfl hpos
  have hbase : (base + BitVec.ofNat 64 pos).toNat = base.toNat + pos := by
    rw [add_ofNat, BitVec.toNat_ofNat, Nat.mod_eq_of_lt (by omega)]
  have hat : base + BitVec.ofNat 64 pos + dot.ustart = BitVec.ofNat 64 (base.toNat + pos) := by
    rw [hstart, add_ofNat]
    exact BitVec.add_zero _
  refine ⟨hrest.last_eq, ?_, ?_, ?_⟩
  · rw [hplace]
    exact congrArg _ hrest.records_eq
  · intro out
    rw [hplace]
    show (outputEntries blocksize anyOpens base rest.count r.1 (outputEntries blocksize anyOpens
      (base + BitVec.ofNat 64 pos) (records (closeDir dot (base + BitVec.ofNat 64 pos) s.2) - 1) s.1
        { out with file := List.foldl ImageFile.fwrite _ _ })).file.writes = _
    rw [hrest.writes_eq, records_closeDir]
    show (outputEntries blocksize anyOpens (base + BitVec.ofNat 64 pos) (records dot - 1) s.1
      (Output.mk (((tableOf (closeDir dot (base + BitVec.ofNat 64 pos) s.2) s.1).map
        recordBytes).foldl ImageFile.fwrite (ImageFile.fseek _ (base + BitVec.ofNat 64 pos +
          dot.ustart))) out.lastwritten)).file.writes ++ _ = _
    rw [hrecords, Nat.add_sub_cancel, hsub.writes_eq, writes_table _ haddr hat hrecords hsub,
      fseek_writes, hbase, written, List.append_assoc, List.append_assoc]
  · intro slot
    rw [hplace, visits]
    show _ :: ⟨base + BitVec.ofNat 64 pos + dot.ustart,
        (closeDir dot (base + BitVec.ofNat 64 pos) s.2).record, none⟩ ::
      (visits (base + BitVec.ofNat 64 pos) (base + BitVec.ofNat 64 pos + dot.ustart + 64) s.1 ++ _) = _
    rw [hat, next_slot, next_slot, hsub.visits_eq, hrest.visits_eq, hsub.last_eq, hbase]
    rfl

end

/-! ## The whole tree -/

section

variable {blocksize : BitVec 32} (hb : BlockSize blocksize)

include hb

/-- The next place, if there is an entry for it. -/
theorem sdbAlign_next {base : ULong} {x : Nat}
    (h : base.toNat + roundUp blocksize.toNat x < 0x100000000) :
    sdbAlign blocksize (BitVec.ofNat 64 x) = BitVec.ofNat 64 (roundUp blocksize.toNat x) :=
  sdbAlign_ofNat hb (by omega)

/-- Allocating follows the layout, if that fits.  A place is only given where an entry
    is left for it. -/
theorem allocEntries_placed {e : Entries} : ∀ {base : ULong} {pos last : Nat} {rpos : ULong},
    Scanned blocksize e → Fits blocksize.toNat e (base.toNat + pos) →
    blocksize.toNat ∣ base.toNat → blocksize.toNat ∣ pos → 0 < pos → last ≤ 0x100000000 →
    (base.toNat + pos < 0x100000000 → rpos = BitVec.ofNat 64 pos) →
    Placed blocksize base e pos last
      (allocEntries blocksize base e.count e rpos (BitVec.ofNat 64 last)) := by
  induction e with
  | nil => exact fun {base pos last rpos} _ _ _ _ _ _ _ => placed_nil pos last
  | file f file rest ih =>
      intro base pos last rpos hscan hfit hbase hdvd hpos hlast hrpos
      obtain ⟨⟨huser, _, _⟩, hscan⟩ := hscan
      obtain ⟨haddr, hsize, _, hfit⟩ := hfit
      rw [Nat.add_assoc, roundUp_add hb.pos hbase] at hfit
      rw [hrpos haddr]
      show Placed blocksize base _ pos last (Entries.file _ file (allocEntries blocksize base
        rest.count rest _ _).1, (allocEntries blocksize base rest.count rest _ _).2)
      rw [advance_ofNat huser (eq_ofNat f.size) blocksize hpos (by omega) hlast]
      refine placed_file hpos haddr huser ?_
      exact ih hscan hfit hbase (dvd_roundUp _ _)
        (Nat.lt_of_lt_of_le (by omega) (le_roundUp hb.pos _)) (by omega) (sdbAlign_next hb)
  | subdir f dot sub rest ihsub ih =>
      intro base pos last rpos hscan hfit hbase hdvd hpos hlast hrpos
      obtain ⟨⟨huser, _⟩, ⟨hdot, hstart⟩, hscanSub, hscan⟩ := hscan
      have hrecords := hdot.records_eq
      obtain ⟨haddr, hsize, hfitSub, hfit⟩ := hfit
      rw [Nat.add_assoc, roundUp_add hb.pos hbase] at hfit
      have htable := tableEnd_lt hb (hrecords ▸ records_le dot)
      have hbehind : behindTable blocksize dot =
          BitVec.ofNat 64 (tableEnd blocksize.toNat (sub.count + 1)) := by
        rw [behindTable, hstart, hrecords, Nat.mul_comm, sdbAlign_ofNat hb htable]
        exact BitVec.zero_add _
      have hto : (base + BitVec.ofNat 64 pos).toNat = base.toNat + pos := by
        rw [add_ofNat, BitVec.toNat_ofNat, Nat.mod_eq_of_lt (by omega)]
      have hblock := block_le_tableEnd hb.pos sub.count
      have hsub : Placed blocksize (base + BitVec.ofNat 64 pos) sub
          (tableEnd blocksize.toNat (sub.count + 1)) (tableEnd blocksize.toNat (sub.count + 1))
          (allocEntries blocksize (base + BitVec.ofNat 64 pos) sub.count sub
            (BitVec.ofNat 64 (tableEnd blocksize.toNat (sub.count + 1)))
            (BitVec.ofNat 64 (tableEnd blocksize.toNat (sub.count + 1)))) := by
        refine ihsub hscanSub ?_ ?_ (dvd_roundUp _ _) (Nat.lt_of_lt_of_le hb.pos hblock)
          (Nat.le_of_lt htable) (fun _ => rfl)
        · rw [hto]
          exact hfitSub
        · rw [hto]
          exact Nat.dvd_add hbase hdvd
      rw [hrpos haddr, Entries.count, allocEntries, hrecords, Nat.add_sub_cancel, hbehind]
      generalize allocEntries blocksize (base + BitVec.ofNat 64 pos) sub.count sub _ _ = s at hsub ⊢
      have hadvance : advance blocksize (sizeDir f (BitVec.ofNat 64 pos) s.2) (BitVec.ofNat 64 pos)
            (BitVec.ofNat 64 last) =
          (sdbAlign blocksize (BitVec.ofNat 64 (pos + subSize blocksize.toNat f sub)),
            BitVec.ofNat 64 (max last (pos + subSize blocksize.toNat f sub - 1))) := by
        rw [hsub.last_eq, sizeDir_ofNat blocksize.toNat f sub _ (by omega)]
        refine advance_ofNat ?_ ?_ blocksize hpos (by omega) hlast
        · exact huser
        · rfl
      rw [hadvance]
      refine placed_subdir hpos haddr huser hstart hrecords (by omega) hsub ?_
      exact ih hscan hfit hbase (dvd_roundUp _ _)
        (Nat.lt_of_lt_of_le (by omega) (le_roundUp hb.pos _)) (by omega) (sdbAlign_next hb)

/-- The first place behind the table of the top directory. -/
def firstPlace (b : Nat) (tree : Tree) : Nat :=
  tree.dot.ustart.toNat + tableEnd b (tree.entries.count + 1)

/-- All addresses of the image are below 2^32. -/
def AddressesFit (b : Nat) (tree : Tree) : Prop :=
  tree.dot.ustart.toNat + 64 * (tree.entries.count + 1) ≤ 0x100000000 ∧
    Fits b tree.entries (firstPlace b tree)

/-- The records of a tree, by the layout. -/
def layoutTreeVisits (b : Nat) (tree : Tree) : List Visit :=
  ⟨BitVec.ofNat 64 tree.dot.ustart.toNat,
      tableHead tree.dot (lastByte b tree.entries (firstPlace b tree) (firstPlace b tree)), none⟩ ::
    layoutVisits b tree.entries 0 (firstPlace b tree) (tree.dot.ustart.toNat + 64)

/-- The tree as it is scanned. -/
structure ScannedTree (blocksize : BitVec 32) (tree : Tree) : Prop where
  dot : ScannedDot tree.dot (tree.entries.count + 1)
  dvd : blocksize.toNat ∣ tree.dot.ustart.toNat
  entries : Scanned blocksize tree.entries

/-- What is written for a tree. -/
def treeWritten (blocksize : BitVec 32) (tree : Tree) : List (Write Byte) :=
  consecutive tree.dot.ustart.toNat
      ((layoutTable blocksize.toNat tree.dot tree.entries (firstPlace blocksize.toNat tree)).map
        recordBytes) ++
    written blocksize tree.entries 0 (firstPlace blocksize.toNat tree)

/-- Allocating the whole tree follows the layout. -/
theorem allocStorage_placed {tree : Tree} (hscan : ScannedTree blocksize tree)
    (hfit : AddressesFit blocksize.toNat tree) :
    ∃ r, allocStorage blocksize tree = ⟨closeDir tree.dot 0 r.2, r.1⟩ ∧
      Placed blocksize 0 tree.entries (firstPlace blocksize.toNat tree)
        (firstPlace blocksize.toNat tree) r := by
  obtain ⟨htable, hfit⟩ := hfit
  have hblock := block_le_tableEnd hb.pos tree.entries.count
  have hn : tree.entries.count + 1 ≤ 0xffff := hscan.dot.records_eq ▸ records_le tree.dot
  have hplace : firstPlace blocksize.toNat tree ≤ 0x100000000 := by
    rw [firstPlace, tableEnd, ← roundUp_add hb.pos hscan.dvd]
    exact roundUp_le hb.pos hb.dvd htable
  have hbehind : behindTable blocksize tree.dot =
      BitVec.ofNat 64 (firstPlace blocksize.toNat tree) := by
    rw [behindTable, hscan.dot.records_eq, Nat.mul_comm, sdbAlign_ofNat hb (tableEnd_lt hb hn),
      add_ofNat]
    rfl
  refine ⟨allocEntries blocksize 0 tree.entries.count tree.entries
    (BitVec.ofNat 64 (firstPlace blocksize.toNat tree))
    (BitVec.ofNat 64 (firstPlace blocksize.toNat tree)), ?_, ?_⟩
  · rw [allocStorage, hscan.dot.records_eq, Nat.add_sub_cancel, hbehind, hscan.dot.base_eq]
  · refine allocEntries_placed hb hscan.entries ?_ (Nat.dvd_zero _) ?_ ?_ hplace (fun _ => rfl)
    · exact (Nat.zero_add _).symm ▸ hfit
    · exact Nat.dvd_add hscan.dvd (dvd_roundUp _ _)
    · exact Nat.lt_of_lt_of_le hb.pos (Nat.le_trans hblock (Nat.le_add_left _ _))

omit hb in
theorem zero_add_ustart (dot : Sdbf) :
    (0 : ULong) + dot.ustart = BitVec.ofNat 64 dot.ustart.toNat := by
  rw [← eq_ofNat]
  exact BitVec.zero_add _

/-- The image is what the layout says. -/
theorem writeSdb_eq {tree : Tree} (hscan : ScannedTree blocksize tree)
    (hfit : AddressesFit blocksize.toNat tree) (out : ImageFile) :
    (writeSdb blocksize (allocStorage blocksize tree) out).writes =
      out.writes ++ treeWritten blocksize tree := by
  obtain ⟨r, halloc, hplaced⟩ := allocStorage_placed hb hscan hfit
  have hstart := hfit.1
  have hrec : records (closeDir tree.dot 0 r.2) - 1 = tree.entries.count := by
    rw [records_closeDir, hscan.dot.records_eq, Nat.add_sub_cancel]
  rw [halloc, writeSdb, outputTree]
  simp only [hrec]
  refine (hplaced.writes_eq _).trans ?_
  show (((tableOf (closeDir tree.dot 0 r.2) r.1).map recordBytes).foldl ImageFile.fwrite
    (out.fseek (0 + tree.dot.ustart))).writes ++ _ = _
  rw [writes_table out (by omega) (zero_add_ustart tree.dot) hscan.dot.records_eq hplaced,
    treeWritten, List.append_assoc]
  rfl

/-- So are its records. -/
theorem treeVisits_eq {tree : Tree} (hscan : ScannedTree blocksize tree)
    (hfit : AddressesFit blocksize.toNat tree) :
    treeVisits (allocStorage blocksize tree) = layoutTreeVisits blocksize.toNat tree := by
  obtain ⟨r, halloc, hplaced⟩ := allocStorage_placed hb hscan hfit
  rw [halloc]
  show ⟨0 + tree.dot.ustart, (closeDir tree.dot 0 r.2).record, none⟩ ::
    visits 0 (0 + tree.dot.ustart + 64) r.1 = _
  rw [zero_add_ustart, next_slot, hplaced.visits_eq, hplaced.last_eq]
  rfl

end

end GensdbfsLayout
