import Mathlib.Order.Bounds.Defs
import FpgaConfigSpace.GensdbfsMoved

/-! # Rounding to the block size

    `SDB_ALIGN` clears the bits of `blocksize - 1`.  That rounds to a multiple if `blocksize` is
    a power of two, and nothing checks that it is.  The mask is as wide as `blocksize`, 32 bits,
    so that it clears the upper half of an address as well. -/

namespace GensdbfsAlign

open BigEndian SdbRecord SdbFields SdbfsOpen Blocks Gensdbfs GensdbfsLayout GensdbfsConfig
open GensdbfsApart GensdbfsErase GensdbfsMoved

/-! ## Clearing bits -/

/-- The bits under a mask and the others make the number. -/
theorem toNat_and_not_add {w : Nat} (y mask : BitVec w) :
    (y &&& ~~~mask).toNat + (y &&& mask).toNat = y.toNat := by
  have hdisjoint : (y &&& ~~~mask) &&& (y &&& mask) = 0#w := by
    ext i hi
    simp only [BitVec.getElem_and, BitVec.getElem_not, BitVec.getElem_zero]
    cases y[i] <;> cases mask[i] <;> rfl
  rw [← BitVec.toNat_add_of_and_eq_zero hdisjoint, BitVec.add_eq_or_of_and_eq_zero _ _ hdisjoint]
  refine congrArg BitVec.toNat ?_
  ext i hi
  simp only [BitVec.getElem_or, BitVec.getElem_and, BitVec.getElem_not]
  cases y[i] <;> cases mask[i] <;> rfl

/-! ## The macro -/

/-- `-b`: `strtol` gives no more than `LONG_MAX`, and 32 bits of that are kept. -/
def blocksizeOf (b : Nat) : BitVec 32 := BitVec.ofNat 32 (min b 0x7fffffffffffffff)

/-- The macro gives the least multiple that is not below. -/
def RoundsUp (b : Nat) (x : ULong) : Prop :=
  IsLeast {m : Nat | b ∣ m ∧ x.toNat ≤ m} (sdbAlign (blocksizeOf b) x).toNat

/-- Nothing is to be rounded, or the sum is below 2^32 and its bits under the mask are what is
    over the last multiple. -/
def MaskRounds (b x : Nat) : Prop :=
  x = 0 ∨ (x + (b - 1) < 0x100000000 ∧ (x + (b - 1)) &&& (b - 1) = (x + (b - 1)) % b)

instance (b x : Nat) : Decidable (MaskRounds b x) :=
  inferInstanceAs (Decidable (x = 0 ∨
    (x + (b - 1) < 0x100000000 ∧ (x + (b - 1)) &&& (b - 1) = (x + (b - 1)) % b)))

/-- Rounding up gives the least multiple that is not smaller. -/
theorem isLeast_roundUp {b : Nat} (hb : 0 < b) (x : Nat) :
    IsLeast {m : Nat | b ∣ m ∧ x ≤ m} (roundUp b x) :=
  ⟨⟨dvd_roundUp b x, le_roundUp hb x⟩, fun _ hm => roundUp_le hb hm.1 hm.2⟩

/-- In plain numbers. -/
theorem roundsUp_iff {b : Nat} (hb : 0 < b) (x : ULong) :
    RoundsUp b x ↔ (sdbAlign (blocksizeOf b) x).toNat = roundUp b x.toNat := by
  constructor
  · exact fun h => Nat.le_antisymm (h.2 (isLeast_roundUp hb x.toNat).1)
      ((isLeast_roundUp hb x.toNat).2 h.1)
  · intro h
    rw [RoundsUp, h]
    exact isLeast_roundUp hb x.toNat

/-- What is left of the sum. -/
theorem sdbAlign_toNat (blocksize : BitVec 32) (x : ULong) :
    (sdbAlign blocksize x).toNat + ((x + (blocksize - 1).setWidth 64).setWidth 32 &&&
      (blocksize - 1)).toNat = (x.toNat + (blocksize - 1).toNat) % 0x100000000 := by
  have hlow : sdbAlign blocksize x = ((x + (blocksize - 1).setWidth 64).setWidth 32 &&&
      ~~~(blocksize - 1)).setWidth 64 := by
    ext i hi
    simp only [sdbAlign, BitVec.getElem_and, BitVec.getElem_setWidth, BitVec.getLsbD_and,
      BitVec.getLsbD_setWidth]
    by_cases hlow : i < 32
    · simp [hlow, BitVec.getLsbD_eq_getElem hi]
    · simp [BitVec.getLsbD_of_ge _ i (Nat.not_lt.mp hlow)]
  have hsum := toNat_and_not_add ((x + (blocksize - 1).setWidth 64).setWidth 32) (blocksize - 1)
  have hsmall := (blocksize - 1).isLt
  rw [hlow, BitVec.toNat_setWidth, Nat.mod_eq_of_lt (by omega), hsum, BitVec.toNat_setWidth,
    BitVec.toNat_add, BitVec.toNat_setWidth, Nat.mod_eq_of_lt (show (blocksize - 1).toNat < 2 ^ 64
      by omega)]
  exact Nat.mod_mod_of_dvd _ (Nat.pow_dvd_pow 2 (by decide : 32 ≤ 64))

/-- Zero stays zero, whatever the mask is. -/
theorem sdbAlign_zero (blocksize : BitVec 32) : (sdbAlign blocksize 0).toNat = 0 := by
  have hsplit := sdbAlign_toNat blocksize 0
  have hsame : ((0 : ULong) + (blocksize - 1).setWidth 64).setWidth 32 &&& (blocksize - 1) =
      blocksize - 1 := by
    rw [show (0 : ULong) = 0#64 from rfl, BitVec.zero_add,
      BitVec.setWidth_setWidth_of_le _ (by decide), BitVec.setWidth_eq, BitVec.and_self]
  rw [hsame, show (0 : ULong).toNat = 0 from rfl, Nat.zero_add,
    Nat.mod_eq_of_lt (blocksize - 1).isLt] at hsplit
  omega

/-- The sum that is masked, and what the mask should take away. -/
theorem roundUp_add_mod (b x : Nat) : roundUp b x + (x + (b - 1)) % b = x + (b - 1) := by
  rw [roundUp, Nat.mul_comm]
  exact Nat.div_add_mod _ b

section

variable {b : Nat} (hb : 0 < b)

include hb

theorem toNat_blocksizeOf (hsize : b < 0x100000000) : (blocksizeOf b - 1).toNat = b - 1 := by
  have hof : (blocksizeOf b).toNat = b := by
    rw [blocksizeOf, Nat.min_eq_left (by omega), BitVec.toNat_ofNat, Nat.mod_eq_of_lt hsize]
  rw [BitVec.toNat_sub_of_le]
  · rw [hof]
    rfl
  · rw [BitVec.le_def, hof]
    exact hb

/-- Below 2^32 the macro takes away the bits under the mask. -/
theorem sdbAlign_masked (hsize : b < 0x100000000) {x : ULong} (hsum : x.toNat + (b - 1) < 0x100000000) :
    (sdbAlign (blocksizeOf b) x).toNat + ((x.toNat + (b - 1)) &&& (b - 1)) = x.toNat + (b - 1) := by
  have hsplit := sdbAlign_toNat (blocksizeOf b) x
  have hmask := toNat_blocksizeOf hb hsize
  rw [hmask, Nat.mod_eq_of_lt hsum, BitVec.toNat_and, BitVec.toNat_setWidth, BitVec.toNat_add,
    BitVec.toNat_setWidth, hmask, Nat.mod_eq_of_lt (show b - 1 < 2 ^ 64 by omega),
    Nat.mod_eq_of_lt (show x.toNat + (b - 1) < 2 ^ 64 by omega), Nat.mod_eq_of_lt hsum] at hsplit
  exact hsplit

/-- **The macro rounds up exactly if the bits under the mask are the remainder.** -/
theorem roundsUp_iff_mask (x : ULong) : RoundsUp b x ↔ MaskRounds b x.toNat := by
  rw [roundsUp_iff hb]
  constructor
  · intro h
    refine Or.imp_right (fun hx => ?_) (Nat.eq_zero_or_pos x.toNat)
    -- the result has 32 bits, and so have the block size and the sum
    have hlow : (sdbAlign (blocksizeOf b) x).toNat < 0x100000000 := by
      have hsplit := sdbAlign_toNat (blocksizeOf b) x
      have hmod := Nat.mod_lt (x.toNat + (blocksizeOf b - 1).toNat) (show 0 < 0x100000000 by decide)
      omega
    have hle := le_roundUp hb x.toNat
    have hblock := Nat.le_of_dvd (Nat.lt_of_lt_of_le hx hle) (dvd_roundUp b x.toNat)
    have hsize : b < 0x100000000 := Nat.lt_of_le_of_lt hblock (h ▸ hlow)
    have hmask := toNat_blocksizeOf hb hsize
    have hround := roundUp_add_mod b x.toNat
    have hover := Nat.mod_lt (x.toNat + (b - 1)) hb
    have hsum : x.toNat + (b - 1) < 0x100000000 := by
      have hsplit := sdbAlign_toNat (blocksizeOf b) x
      rw [hmask] at hsplit
      omega
    have hmasked := sdbAlign_masked hb hsize hsum
    exact ⟨hsum, by omega⟩
  · intro h
    rcases Nat.eq_zero_or_pos x.toNat with hx | hx
    · rw [show x = 0 from BitVec.eq_of_toNat_eq hx, sdbAlign_zero]
      exact (roundUp_of_dvd hb (Nat.dvd_zero b)).symm
    · obtain ⟨hsum, hbits⟩ := h.resolve_left (Nat.ne_of_gt hx)
      have hmasked := sdbAlign_masked hb (by omega) hsum
      have hround := roundUp_add_mod b x.toNat
      omega

end

/-- A power of two is a block size for every sum below 2^32, and nothing else is. -/
theorem mask_rounds_all_iff {b : Nat} (hb : 0 < b) (hsize : b < 0x100000000) :
    (∀ x, x + (b - 1) < 0x100000000 → MaskRounds b x) ↔ b.isPowerOfTwo := by
  constructor
  · intro h
    rcases h 1 (by omega) with h | ⟨-, h⟩
    · exact absurd h Nat.one_ne_zero
    · rw [show 1 + (b - 1) = b by omega, Nat.mod_self] at h
      exact (Nat.and_sub_one_eq_zero_iff_isPowerOfTwo (Nat.ne_of_gt hb)).mp h
  · rintro ⟨k, rfl⟩ x hx
    exact Or.inr ⟨hx, Nat.and_two_pow_sub_one_eq_mod _ _⟩

/-! ## The loop of `alloc_storage` -/

variable (blocksize : BitVec 32)

/-- Something holds of every step of the loop over the entries that are left, with the directory's
    base, the entry and the next place, and of every table, here and below. -/
def EveryStep (step : ULong → Sdbf → ULong → Prop) (table : Sdbf → Prop) :
    (base : ULong) → (left : Nat) → Entries → (rpos : ULong) → Prop
  | _, 0, _, _ => True
  | _, _, .nil, _ => True
  | base, left + 1, .file f _ rest, rpos =>
      step base f rpos ∧ EveryStep step table base left rest (advance blocksize f rpos 0).1
  | base, left + 1, .subdir f dot sub rest, rpos =>
      let subsize := lastUsed blocksize (records dot - 1) sub (behindTable blocksize dot)
        (behindTable blocksize dot)
      let f := sizeDir f rpos subsize
      (table dot ∧ EveryStep step table (base + rpos) (records dot - 1) sub
        (behindTable blocksize dot)) ∧
      step base f rpos ∧ EveryStep step table base left rest (advance blocksize f rpos 0).1

/-- The loop over the top directory. -/
def EveryTreeStep (step : ULong → Sdbf → ULong → Prop) (table : Sdbf → Prop) (tree : Tree) : Prop :=
  table tree.dot ∧ EveryStep blocksize step table tree.dot.base (records tree.dot - 1) tree.entries
    (behindTable blocksize tree.dot)

/-- `rpos` never decreases. -/
def NeverBack (tree : Tree) : Prop :=
  EveryTreeStep blocksize (fun _ f rpos => rpos.toNat ≤ (advance blocksize f rpos 0).1.toNat)
    (fun _ => True) tree

/-- What is rounded up in a step is rounded right, and no sum wraps around. -/
def StepRounds (b : Nat) (base : ULong) (f : Sdbf) (rpos : ULong) : Prop :=
  base.toNat + rpos.toNat < 0x10000000000000000 ∧
    (f.userpos = false → MaskRounds b (rpos.toNat + f.size.toNat))

/-- And so is the size of a table. -/
def TableRounds (b : Nat) (dot : Sdbf) : Prop :=
  MaskRounds b (records dot * 64) ∧
    dot.ustart.toNat + roundUp b (records dot * 64) < 0x10000000000000000

/-- The files and subdirectories without a position are at multiples of `b`, and so are the tables
    of all subdirectories. -/
def AutoPlaced (b : Nat) : (base : ULong) → (left : Nat) → Entries → Prop
  | _, 0, _ => True
  | _, _, .nil => True
  | base, left + 1, .file f _ rest =>
      (f.userpos = false → b ∣ (base + f.rstart).toNat) ∧ AutoPlaced b base left rest
  | base, left + 1, .subdir f dot sub rest =>
      (f.userpos = false → b ∣ (base + f.rstart).toNat) ∧
        (b ∣ (dot.base + dot.ustart).toNat ∧ AutoPlaced b dot.base (records dot - 1) sub) ∧
        AutoPlaced b base left rest

/-- The same of an allocated tree, its table included. -/
def TreeAutoPlaced (b : Nat) (tree : Tree) : Prop :=
  b ∣ (tree.dot.base + tree.dot.ustart).toNat ∧
    AutoPlaced b tree.dot.base (records tree.dot - 1) tree.entries

section

variable {b : Nat} (hb : 0 < b)

include hb

/-- The macro, where it is right. -/
theorem toNat_sdbAlign {x : ULong} (h : MaskRounds b x.toNat) :
    (sdbAlign (blocksizeOf b) x).toNat = roundUp b x.toNat :=
  (roundsUp_iff hb x).mp ((roundsUp_iff_mask hb x).mpr h)

/-- The table ends at a multiple from an aligned start. -/
theorem behindTable_aligned {dot : Sdbf} (hstart : b ∣ dot.ustart.toNat) (h : TableRounds b dot) :
    b ∣ (behindTable (blocksizeOf b) dot).toNat := by
  have hsmall := records_le dot
  have hsize : (BitVec.ofNat 64 (records dot * 64)).toNat = records dot * 64 := by
    rw [BitVec.toNat_ofNat, Nat.mod_eq_of_lt (by omega)]
  rw [behindTable, BitVec.toNat_add, toNat_sdbAlign hb (hsize.symm ▸ h.1), hsize,
    Nat.mod_eq_of_lt h.2]
  exact Nat.dvd_add hstart (dvd_roundUp b _)

/-- One step: the next place is not below, and it is a multiple as well. -/
theorem advance_rounds {base rpos : ULong} {f : Sdbf} (hrpos : b ∣ rpos.toNat)
    (h : StepRounds b base f rpos) :
    rpos.toNat ≤ (advance (blocksizeOf b) f rpos 0).1.toNat ∧
      b ∣ (advance (blocksizeOf b) f rpos 0).1.toNat := by
  rw [advance]
  cases huser : f.userpos with
  | true => exact ⟨Nat.le_refl _, hrpos⟩
  | false =>
      have hmask := h.2 huser
      have hsum : (rpos + f.size).toNat = rpos.toNat + f.size.toNat := by
        rw [BitVec.toNat_add]
        refine Nat.mod_eq_of_lt ?_
        rcases hmask with hzero | ⟨hlt, -⟩
        · omega
        · omega
      have hround := toNat_sdbAlign hb (hsum.symm ▸ hmask)
      rw [hsum] at hround
      show rpos.toNat ≤ (sdbAlign (blocksizeOf b) (rpos + f.size)).toNat ∧
        b ∣ (sdbAlign (blocksizeOf b) (rpos + f.size)).toNat
      rw [hround]
      exact ⟨Nat.le_trans (Nat.le_add_right _ _) (le_roundUp hb _), dvd_roundUp b _⟩

omit hb in
/-- A place in a directory is aligned if both parts of it are. -/
theorem dvd_start {base rpos : ULong} (hbase : b ∣ base.toNat) (hrpos : b ∣ rpos.toNat)
    (hfits : base.toNat + rpos.toNat < 0x10000000000000000) : b ∣ (base + rpos).toNat := by
  rw [BitVec.toNat_add, Nat.mod_eq_of_lt hfits]
  exact Nat.dvd_add hbase hrpos

/-- **A run whose roundings are right never goes back.** -/
theorem everyStep_forward {e : Entries} : ∀ {level left : Nat} {base rpos : ULong},
    ScannedAt level e → b ∣ rpos.toNat →
    EveryStep (blocksizeOf b) (StepRounds b) (TableRounds b) base left e rpos →
    EveryStep (blocksizeOf b)
      (fun _ f rpos => rpos.toNat ≤ (advance (blocksizeOf b) f rpos 0).1.toNat) (fun _ => True)
      base left e rpos := by
  induction e with
  | nil => exact fun {_ left _ _} _ _ _ => by cases left <;> exact trivial
  | file f file rest ih =>
      intro level left base rpos hscan hrpos h
      cases left with
      | zero => exact trivial
      | succ left =>
          obtain ⟨hnext, hdvd⟩ := advance_rounds hb hrpos h.1
          exact ⟨hnext, ih hscan.2 hdvd h.2⟩
  | subdir f dot sub rest ihsub ih =>
      intro level left base rpos hscan hrpos h
      obtain ⟨-, ⟨hstart, -⟩, hscanSub, hscan⟩ := hscan
      cases left with
      | zero => exact trivial
      | succ left =>
          obtain ⟨⟨htable, hsub⟩, hstep, hrest⟩ := h
          obtain ⟨hnext, hdvd⟩ := advance_rounds hb hrpos hstep
          have hinside := behindTable_aligned hb (hstart ▸ Nat.dvd_zero b) htable
          exact ⟨⟨trivial, ihsub hscanSub hinside hsub⟩, hnext, ih hscan hdvd hrest⟩

/-- **And it places everything at multiples.** -/
theorem autoPlaced_alloc {e : Entries} : ∀ {level left : Nat} {base rpos last : ULong},
    ScannedAt level e → b ∣ base.toNat → b ∣ rpos.toNat →
    EveryStep (blocksizeOf b) (StepRounds b) (TableRounds b) base left e rpos →
    AutoPlaced b base left (allocEntries (blocksizeOf b) base left e rpos last).1 := by
  have hplaced : ∀ {base rpos : ULong} {f : Sdbf}, b ∣ base.toNat → b ∣ rpos.toNat →
      base.toNat + rpos.toNat < 0x10000000000000000 →
      (place f rpos).userpos = false → b ∣ (base + (place f rpos).rstart).toNat := by
    intro base rpos f hbase hrpos hfits huser
    rw [userpos_place] at huser
    rw [rstart_place rpos huser]
    exact dvd_start hbase hrpos hfits
  induction e with
  | nil => exact fun {_ left _ _ _} _ _ _ _ => by cases left <;> exact trivial
  | file f file rest ih =>
      intro level left base rpos last hscan hbase hrpos h
      cases left with
      | zero => exact trivial
      | succ left =>
          exact ⟨hplaced hbase hrpos h.1.1,
            ih hscan.2 hbase (advance_rounds hb hrpos h.1).2 h.2⟩
  | subdir f dot sub rest ihsub ih =>
      intro level left base rpos last hscan hbase hrpos h
      obtain ⟨-, ⟨hstart, -⟩, hscanSub, hscan⟩ := hscan
      cases left with
      | zero => exact trivial
      | succ left =>
          obtain ⟨⟨htable, hsub⟩, hstep, hrest⟩ := h
          have hinside := behindTable_aligned hb (hstart ▸ Nat.dvd_zero b) htable
          have hbelow := dvd_start hbase hrpos hstep.1
          rw [allocEntries, AutoPlaced, records_closeDir]
          simp only [allocEntries_last]
          refine ⟨hplaced hbase hrpos hstep.1, ⟨?_, ihsub hscanSub hbelow hinside hsub⟩,
            ih hscan hbase (advance_rounds hb hrpos hstep).2 hrest⟩
          rw [closeDir, hstart, show (0 : ULong) = 0#64 from rfl, BitVec.add_zero]
          exact hbelow

/-- **The macro rounds up exactly where the bits under the mask are the remainder, and a run whose
    roundings are all of that kind never goes back and places everything at multiples.** -/
theorem sdbAlign_right :
    (∀ x : ULong, RoundsUp b x ↔ MaskRounds b x.toNat) ∧
      ∀ (config : Config) (dirents : Dirents) (tree : Tree),
        prepareDir (blocksizeOf b) config dirents = some tree → b ∣ tree.dot.ustart.toNat →
        EveryTreeStep (blocksizeOf b) (StepRounds b) (TableRounds b) tree →
        NeverBack (blocksizeOf b) tree ∧
          TreeAutoPlaced b (allocStorage (blocksizeOf b) tree) := by
  refine ⟨roundsUp_iff_mask hb, ?_⟩
  intro config dirents tree htree hstart hsteps
  obtain ⟨hbase, hscan⟩ := prepareDir_top (blocksizeOf b) htree
  have hinside := behindTable_aligned hb hstart hsteps.1
  have hzero : b ∣ tree.dot.base.toNat := by
    rw [hbase]
    exact Nat.dvd_zero b
  refine ⟨⟨trivial, everyStep_forward hb hscan hinside hsteps.2⟩, ?_, ?_⟩
  · show b ∣ (tree.dot.base + tree.dot.ustart).toNat
    rw [hbase, show (0 : ULong) = 0#64 from rfl, BitVec.zero_add]
    exact hstart
  · rw [allocStorage, records_closeDir]
    exact autoPlaced_alloc hb hscan hzero hinside hsteps.2

end

/-- A directory "d" with a file "f", and a file "g", in blocks of 64 bytes. -/
theorem sdbAlign_right_nested :
    RoundsUp 64 192 ∧ ¬ RoundsUp 64 0x100000000 ∧
      NeverBack (blocksizeOf 64) (nestedTree (readable [0xaa, 0xbb] (by decide))) ∧
      TreeAutoPlaced 64 (allocStorage (blocksizeOf 64)
        (nestedTree (readable [0xaa, 0xbb] (by decide)))) := by
  have hall := @sdbAlign_right 64 (by decide)
  have hsteps : EveryTreeStep (blocksizeOf 64) (StepRounds 64) (TableRounds 64)
      (nestedTree (readable [0xaa, 0xbb] (by decide))) := by
    refine ⟨⟨by decide, by decide⟩, ⟨⟨by decide, by decide⟩, ⟨by decide, fun _ => by decide⟩,
      trivial⟩, ⟨by decide, fun _ => by decide⟩, ⟨by decide, fun _ => by decide⟩, trivial⟩
  refine ⟨(hall.1 192).mpr (by decide), fun h => ?_, ?_⟩
  · exact absurd ((hall.1 0x100000000).mp h) (by decide)
  · exact hall.2 [] (nested _) _ (nested_scan _) (Nat.dvd_zero 64) hsteps

/-- A file that ends just below 2^32. -/
def largeFile : RegularFile where
  size := 0xffffffc0
  contents := some (List.replicate 0xffffffc0 0)
  iroth := true
  iwoth := false
  ixoth := false
  sized := fun _ h => (congrArg List.length (Option.some.inj h).symm).trans List.length_replicate
  size_lt := by decide

/-- In blocks of 100 bytes 192 becomes 256, and in blocks of 64 bytes 2^32 becomes 0; behind a large
    file the next place is in front of it. -/
theorem sdbAlign_wrong :
    (roundUp 100 192 = 200 ∧ sdbAlign (blocksizeOf 100) 192 = 256 ∧ ¬ RoundsUp 100 192) ∧
    (roundUp 64 0x100000000 = 0x100000000 ∧ sdbAlign (blocksizeOf 64) 0x100000000 = 0 ∧
      ¬ RoundsUp 64 0x100000000) ∧
    ∃ tree, prepareDir (blocksizeOf 64) [] (.file threeName largeFile .nil) = some tree ∧
      64 ∣ tree.dot.ustart.toNat ∧ ¬ NeverBack (blocksizeOf 64) tree := by
  refine ⟨⟨by decide, by decide, fun h => ?_⟩, ⟨by decide, by decide, fun h => ?_⟩, ?_⟩
  · exact absurd ((roundsUp_iff_mask (by decide) 192).mp h) (by decide)
  · exact absurd ((roundsUp_iff_mask (by decide) 0x100000000).mp h) (by decide)
  · refine ⟨⟨fillDot 0 2, .file (fillFile 64 0 threeName largeFile) largeFile .nil⟩, rfl,
      Nat.dvd_zero 64, fun h => ?_⟩
    exact absurd h.2.1 (by decide)

end GensdbfsAlign
