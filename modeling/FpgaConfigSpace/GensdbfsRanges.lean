import FpgaConfigSpace.Lib.Extents
import FpgaConfigSpace.GensdbfsInput
import FpgaConfigSpace.GensdbfsErase

/-! # The ranges of directories

    `addr_last` is the number of a byte, and a size is a count.  A subdirectory is given
    `addr_last` of its interconnect for a size, so its own record ends one byte too early,
    unless the user has made it larger; and the running maximum that becomes `addr_last`
    starts behind the table, and counts a file of no bytes as if it ended in front of its
    place. -/

namespace GensdbfsRanges

open BigEndian SdbRecord SdbFields SdbfsOpen Blocks Extents Gensdbfs GensdbfsLayout GensdbfsConfig
open GensdbfsInput GensdbfsErase

/-! ## What the records say -/

/-- A position is in the range of a record of a directory. -/
def InRange (base : ULong) (r : Record) (q : Nat) : Prop :=
  (base + addrFirst r).toNat ≤ q ∧
    q < (base + addrFirst r).toNat + (addrLast r + 1 - addrFirst r).toNat

/-- A position is in the table of a directory. -/
def InTable (base : ULong) (dot : Sdbf) (q : Nat) : Prop :=
  (base + dot.ustart).toNat ≤ q ∧ q < (base + dot.ustart).toNat + 64 * records dot

/-- A position is used by a directory: by its table or by one of its entries. -/
def InUse (base : ULong) (dot : Sdbf) (e : Entries) (q : Nat) : Prop :=
  InTable base dot q ∨ ∃ r ∈ tableRecords (records dot - 1) e, InRange base r q

/-- The interconnect's `addr_last` is the last byte in use. -/
def LastExact (base : ULong) (dot : Sdbf) (e : Entries) : Prop :=
  InUse base dot e (base + addrLast dot.record).toNat ∧
    ∀ q, InUse base dot e q → q ≤ (base + addrLast dot.record).toNat

/-- The ranges of all subdirectories hold what is in them, and their interconnects know the
    last byte. -/
def SubdirsRight (base : ULong) : (left : Nat) → Entries → Prop
  | 0, _ => True
  | _, .nil => True
  | left + 1, .file _ _ rest => SubdirsRight base left rest
  | left + 1, .subdir f dot sub rest =>
      let below := base + addrFirst f.record
      (∀ q, InUse below dot sub q → InRange base f.record q) ∧ LastExact below dot sub ∧
        SubdirsRight below (records dot - 1) sub ∧ SubdirsRight base left rest

/-- The last address of every directory is exact, and a subdirectory's range has all that is in
    use below it. -/
def RangesRight (tree : Tree) : Prop :=
  LastExact 0 tree.dot tree.entries ∧ SubdirsRight 0 (records tree.dot - 1) tree.entries

/-! ## The same in plain numbers -/

/-- The places and sizes of the entries of a directory.  A subdirectory is given the number of
    its last byte, or what the user wants if that is more. -/
def places (b : Nat) : (left : Nat) → Entries → (pos : Nat) → List (Nat × Nat)
  | 0, _, _ => []
  | _, .nil, _ => []
  | left + 1, .file f _ rest, pos =>
      (pos, f.size.toNat) :: places b left rest (roundUp b (pos + f.size.toNat))
  | left + 1, .subdir f dot sub rest, pos =>
      let start := tableEnd b (records dot)
      let size := max f.size.toNat (lastIn start (places b (records dot - 1) sub start))
      (pos, size) :: places b left rest (roundUp b (pos + size))

/-- The number of the last byte of a subdirectory, in the subdirectory. -/
def dirLast (b : Nat) (dot : Sdbf) (sub : Entries) : Nat :=
  lastIn (tableEnd b (records dot)) (places b (records dot - 1) sub (tableEnd b (records dot)))

/-- Every entry has its place, and every byte of its range, below 2^32. -/
def PlacesFit (b : Nat) : (left : Nat) → Entries → (base pos : Nat) → Prop
  | 0, _, _, _ => True
  | _, .nil, _, _ => True
  | left + 1, .file f _ rest, base, pos =>
      base + pos < 0x100000000 ∧ base + pos + f.size.toNat ≤ 0x100000000 ∧
        PlacesFit b left rest base (roundUp b (pos + f.size.toNat))
  | left + 1, .subdir f dot sub rest, base, pos =>
      let size := max f.size.toNat (dirLast b dot sub)
      base + pos < 0x100000000 ∧ base + pos + size ≤ 0x100000000 ∧
        PlacesFit b (records dot - 1) sub (base + pos) (tableEnd b (records dot)) ∧
        PlacesFit b left rest base (roundUp b (pos + size))

/-- No entry has a place that the user wants. -/
def Unplaced : (left : Nat) → Entries → Prop
  | 0, _ => True
  | _, .nil => True
  | left + 1, .file f _ rest => f.userpos = false ∧ Unplaced left rest
  | left + 1, .subdir f dot sub rest =>
      f.userpos = false ∧ dot.ustart = 0 ∧ Unplaced (records dot - 1) sub ∧ Unplaced left rest

/-- In every subdirectory, what ends last is not empty, and the user has made it large enough
    for its last byte. -/
def SubdirsFull (b : Nat) : (left : Nat) → Entries → Prop
  | 0, _ => True
  | _, .nil => True
  | left + 1, .file _ _ rest => SubdirsFull b left rest
  | left + 1, .subdir f dot sub rest =>
      (EndsFull (places b (records dot - 1) sub (tableEnd b (records dot))) ∧
        dirLast b dot sub < f.size.toNat) ∧
      SubdirsFull b (records dot - 1) sub ∧ SubdirsFull b left rest

/-- Where the entries of the top directory begin. -/
def firstIn (b : Nat) (tree : Tree) : Nat := tree.dot.ustart.toNat + tableEnd b (records tree.dot)

/-- In every directory what ends last is not empty, and a subdirectory is large enough for its
    last byte. -/
def DirectoriesFull (b : Nat) (tree : Tree) : Prop :=
  EndsFull (places b (records tree.dot - 1) tree.entries (firstIn b tree)) ∧
    SubdirsFull b (records tree.dot - 1) tree.entries

/-- All addresses are below 2^32. -/
def TreeFits (b : Nat) (tree : Tree) : Prop :=
  tree.dot.ustart.toNat + 64 * records tree.dot ≤ 0x100000000 ∧
    PlacesFit b (records tree.dot - 1) tree.entries 0 (firstIn b tree)

/-! ## Bounds -/

section

variable {b : Nat}

/-- No place is before the first one. -/
theorem le_places (hb : 0 < b) (e : Entries) : ∀ {left pos : Nat}, ∀ p ∈ places b left e pos,
    pos ≤ p.1 := by
  induction e with
  | nil => exact fun {left _} p hp => by cases left <;> exact absurd hp List.not_mem_nil
  | file f file rest ih =>
      intro left pos p hp
      cases left with
      | zero => exact absurd hp List.not_mem_nil
      | succ left =>
          rcases List.mem_cons.mp hp with rfl | hp
          · exact Nat.le_refl _
          · have hle := le_roundUp hb (pos + f.size.toNat)
            have hrest := ih p hp
            omega
  | subdir f dot sub rest _ ih =>
      intro left pos p hp
      cases left with
      | zero => exact absurd hp List.not_mem_nil
      | succ left =>
          rcases List.mem_cons.mp hp with rfl | hp
          · exact Nat.le_refl _
          · have hle := le_roundUp hb (pos + max f.size.toNat (dirLast b dot sub))
            have hrest := ih p hp
            rw [dirLast] at hle
            omega

/-- All places are below 2^32. -/
theorem places_fit (e : Entries) : ∀ {left base pos : Nat}, PlacesFit b left e base pos →
    ∀ p ∈ places b left e pos, base + p.1 + p.2 ≤ 0x100000000 := by
  induction e with
  | nil => exact fun {left _ _} _ p hp => by cases left <;> exact absurd hp List.not_mem_nil
  | file f file rest ih =>
      intro left base pos h p hp
      cases left with
      | zero => exact absurd hp List.not_mem_nil
      | succ left =>
          rcases List.mem_cons.mp hp with rfl | hp
          · exact h.2.1
          · exact ih h.2.2 p hp
  | subdir f dot sub rest _ ih =>
      intro left base pos h p hp
      cases left with
      | zero => exact absurd hp List.not_mem_nil
      | succ left =>
          rcases List.mem_cons.mp hp with rfl | hp
          · exact h.2.1
          · exact ih h.2.2.2 p hp

end

/-! ## A directory -/

section

variable {blocksize : BitVec 32}

/-- What allocating the entries of a directory gives: the last byte, the positions in use,
    and the ranges of the subdirectories. -/
structure Ranged (b : Nat) (base : ULong) (left : Nat) (e : Entries) (pos last : Nat)
    (r : Entries × ULong) : Prop where
  last_eq : r.2 = BitVec.ofNat 64 (lastIn last (places b left e pos))
  used : ∀ q, (∃ rec ∈ tableRecords left r.1, InRange base rec q) ↔
    ∃ p ∈ places b left e pos, base.toNat + p.1 ≤ q ∧ q < base.toNat + p.1 + p.2
  right : SubdirsRight base left r.1 ↔ SubdirsFull b left e

/-- The last address that a directory is given. -/
theorem addrLast_closeDir (dot : Sdbf) (base last : ULong) :
    addrLast (closeDir dot base last).record = last := be64_setBytes _ (k := 0x10) (by decide) last

/-- The range of an entry that follows the one before it. -/
theorem inRange_place {f : Sdbf} {base : ULong} {pos q : Nat} (huser : f.userpos = false)
    (haddr : base.toNat + pos < 0x100000000) :
    InRange base (place f (BitVec.ofNat 64 pos)).record q ↔
      base.toNat + pos ≤ q ∧ q < base.toNat + pos + f.size.toNat := by
  have hfirst : (base + BitVec.ofNat 64 pos).toNat = base.toNat + pos := by
    rw [add_ofNat, BitVec.toNat_ofNat, Nat.mod_eq_of_lt (by omega)]
  rw [InRange, size_place, addrFirst_place _ huser, hfirst]

section

variable {b : Nat} {base : ULong} {dot : Sdbf} {e : Entries} {start : Nat} {s : Entries × ULong}
  (hb : 0 < b) (hrun : Ranged b base (records dot - 1) e start start s)
  (hstart : dot.ustart.toNat + 64 * records dot ≤ start)
  (htable : base.toNat + dot.ustart.toNat + 64 * records dot ≤ 0x100000000)
  (hbase : base.toNat < 0x100000000)
  (hlast : lastIn start (places b (records dot - 1) e start) ≤ 0x200000000)

include hrun htable

/-- The positions that a directory uses, from its base on. -/
theorem inUse_iff (q : Nat) : InUse base (closeDir dot base s.2) s.1 q ↔
    (base.toNat + dot.ustart.toNat ≤ q ∧
      q < base.toNat + dot.ustart.toNat + 64 * records dot) ∨
    ∃ p ∈ places b (records dot - 1) e start, base.toNat + p.1 ≤ q ∧
      q < base.toNat + p.1 + p.2 := by
  have hstart : (base + dot.ustart).toNat = base.toNat + dot.ustart.toNat := by
    rw [BitVec.toNat_add, Nat.mod_eq_of_lt (by omega)]
  rw [InUse, records_closeDir, hrun.used]
  refine or_congr_left ?_
  rw [InTable, records_closeDir]
  show (base + dot.ustart).toNat ≤ q ∧ q < (base + dot.ustart).toNat + _ ↔ _
  rw [hstart]

include hb hstart hbase hlast

/-- The interconnect's last byte is one in use if what ends last is not empty. -/
theorem lastExact_iff : LastExact base (closeDir dot base s.2) s.1 ↔
    EndsFull (places b (records dot - 1) e start) := by
  have hplaces : ∀ p ∈ places b (records dot - 1) e start, start ≤ p.1 := le_places hb e
  have hle := le_lastIn (places b (records dot - 1) e start) start
  have haddr : (base + addrLast (closeDir dot base s.2).record).toNat =
      base.toNat + lastIn start (places b (records dot - 1) e start) := by
    rw [addrLast_closeDir, hrun.last_eq, add_ofNat, BitVec.toNat_ofNat, Nat.mod_eq_of_lt (by omega)]
  rw [LastExact, haddr, ← used_lastIn_iff hplaces]
  simp only [inUse_iff hrun htable]
  constructor
  · rintro ⟨huse, -⟩
    rcases huse with hin | ⟨p, hp, hlo, hhi⟩
    · omega
    · exact ⟨p, hp, by omega, by omega⟩
  · rintro ⟨p, hp, hlo, hhi⟩
    refine ⟨Or.inr ⟨p, hp, by omega, by omega⟩, fun q huse => ?_⟩
    rcases huse with hin | ⟨p', hp', hlo', hhi'⟩
    · omega
    · have hend := end_le_lastIn start p' hp'
      omega

/-- A subdirectory's record holds what is in it, and the last byte is right, exactly if what
    ends last is not empty and the record is made larger than the number of the last byte. -/
theorem subdirRight_iff (size : Nat) (hzero : dot.ustart = 0) {range : Nat → Prop}
    (hrange : ∀ q, range q ↔ base.toNat ≤ q ∧ q < base.toNat +
      max size (lastIn start (places b (records dot - 1) e start))) :
    ((∀ q, InUse base (closeDir dot base s.2) s.1 q → range q) ∧
        LastExact base (closeDir dot base s.2) s.1) ↔
      EndsFull (places b (records dot - 1) e start) ∧
        lastIn start (places b (records dot - 1) e start) < size := by
  have hexact := lastExact_iff hb hrun hstart htable hbase hlast
  have hplaces : ∀ p ∈ places b (records dot - 1) e start, start ≤ p.1 := le_places hb e
  have hle := le_lastIn (places b (records dot - 1) e start) start
  have hnull : dot.ustart.toNat = 0 := by rw [hzero]; rfl
  rw [hexact]
  constructor
  · rintro ⟨hin, hfull⟩
    obtain ⟨p, hp, hlo, hhi⟩ := (used_lastIn_iff hplaces).mpr hfull
    have huse := (inUse_iff hrun htable
      (base.toNat + lastIn start (places b (records dot - 1) e start))).mpr
        (Or.inr ⟨p, hp, by omega, by omega⟩)
    have hlt := ((hrange _).mp (hin _ huse)).2
    exact ⟨hfull, by omega⟩
  · rintro ⟨hfull, hlt⟩
    refine ⟨fun q huse => (hrange q).mpr ?_, hfull⟩
    rcases (inUse_iff hrun htable q).mp huse with hin | ⟨p, hp, hlo, hhi⟩
    · omega
    · have hend := end_le_lastIn start p hp
      omega

end

/-! ## The loop -/

section

/-- An entry in front of the others. -/
theorem used_cons {b : Nat} {base : ULong} {left : Nat} {rest : Entries} {p : Nat × Nat}
    {next last : Nat}
    {r : Entries × ULong} {rec : Record}
    (hrest : Ranged b base left rest next last r)
    (hrec : ∀ q, InRange base rec q ↔ base.toNat + p.1 ≤ q ∧ q < base.toNat + p.1 + p.2) (q : Nat) :
    (∃ rec' ∈ rec :: tableRecords left r.1, InRange base rec' q) ↔
      ∃ p' ∈ p :: places b left rest next,
        base.toNat + p'.1 ≤ q ∧ q < base.toNat + p'.1 + p'.2 := by
  rw [List.exists_mem_cons_iff, List.exists_mem_cons_iff, hrec, hrest.used]

/-- **Allocating the entries of a directory, in plain numbers.**  A place is only needed where
    an entry is left for it. -/
theorem allocEntries_ranged (hb : BlockSize blocksize) {e : Entries} :
    ∀ {left pos last : Nat} {base rpos : ULong},
    Unplaced left e → PlacesFit blocksize.toNat left e base.toNat pos → (0 < left → 0 < pos) →
    (base.toNat + pos < 0x100000000 → rpos = BitVec.ofNat 64 pos ∧ last ≤ 0x100000000) →
    Ranged blocksize.toNat base left e pos last
      (allocEntries blocksize base left e rpos (BitVec.ofNat 64 last)) := by
  induction e with
  | nil =>
      intro left pos last base rpos _ _ _ _
      refine ⟨?_, fun q => ?_, ?_⟩
      · cases left <;> rfl
      · cases left <;> exact iff_of_false (fun h => absurd h.choose_spec.1 List.not_mem_nil)
          (fun h => absurd h.choose_spec.1 List.not_mem_nil)
      · cases left <;> exact Iff.rfl
  | file f file rest ih =>
      intro left pos last base rpos hplain hfit hpos hnext
      cases left with
      | zero =>
          exact ⟨rfl, fun q => iff_of_false (fun h => absurd h.choose_spec.1 List.not_mem_nil)
            (fun h => absurd h.choose_spec.1 List.not_mem_nil), Iff.rfl⟩
      | succ left =>
          obtain ⟨huser, hplain⟩ := hplain
          obtain ⟨haddr, hend, hfit⟩ := hfit
          obtain ⟨rfl, hlast⟩ := hnext haddr
          have hplace := hpos (Nat.succ_pos left)
          rw [allocEntries, advance_ofNat huser (eq_ofNat f.size) blocksize hplace (by omega) hlast]
          have hle := le_roundUp hb.pos (pos + f.size.toNat)
          have hrest : Ranged blocksize.toNat base left rest
              (roundUp blocksize.toNat (pos + f.size.toNat)) (max last (pos + f.size.toNat - 1))
              (allocEntries blocksize base left rest
                (sdbAlign blocksize (BitVec.ofNat 64 (pos + f.size.toNat)))
                (BitVec.ofNat 64 (max last (pos + f.size.toNat - 1)))) :=
            ih hplain hfit (fun _ => by omega) (fun h => ⟨sdbAlign_next hb h, by omega⟩)
          exact ⟨hrest.last_eq, used_cons hrest fun q => inRange_place huser haddr, hrest.right⟩
  | subdir f dot sub rest ihsub ih =>
      intro left pos last base rpos hplain hfit hpos hnext
      cases left with
      | zero =>
          exact ⟨rfl, fun q => iff_of_false (fun h => absurd h.choose_spec.1 List.not_mem_nil)
            (fun h => absurd h.choose_spec.1 List.not_mem_nil), Iff.rfl⟩
      | succ left =>
          obtain ⟨huser, hzero, hplainSub, hplain⟩ := hplain
          obtain ⟨haddr, hend, hfitSub, hfit⟩ := hfit
          obtain ⟨rfl, hlast⟩ := hnext haddr
          have hplace := hpos (Nat.succ_pos left)
          have htable := tableEnd_lt hb (records_le dot)
          have hroom := le_tableEnd hb.pos (records dot)
          have hbehind : behindTable blocksize dot =
              BitVec.ofNat 64 (tableEnd blocksize.toNat (records dot)) := by
            rw [behindTable, hzero, Nat.mul_comm, sdbAlign_ofNat hb htable]
            exact BitVec.zero_add _
          have hto : (base + BitVec.ofNat 64 pos).toNat = base.toNat + pos := by
            rw [add_ofNat, BitVec.toNat_ofNat, Nat.mod_eq_of_lt (by omega)]
          have hsub : Ranged blocksize.toNat (base + BitVec.ofNat 64 pos) (records dot - 1) sub
              (tableEnd blocksize.toNat (records dot)) (tableEnd blocksize.toNat (records dot))
              (allocEntries blocksize (base + BitVec.ofNat 64 pos) (records dot - 1) sub
                (BitVec.ofNat 64 (tableEnd blocksize.toNat (records dot)))
                (BitVec.ofNat 64 (tableEnd blocksize.toNat (records dot)))) := by
            refine ihsub hplainSub ?_ (fun _ => by omega) (fun _ => ⟨rfl, Nat.le_of_lt htable⟩)
            rw [hto]
            exact hfitSub
          have hlastSub : dirLast blocksize.toNat dot sub ≤ 0x100000000 := by
            refine lastIn_le (Nat.le_of_lt htable) fun p hp => ?_
            have hle := places_fit sub hfitSub p hp
            omega
          have hsizeDir := sizeDir_last f (BitVec.ofNat 64 pos)
            (show max f.size.toNat (dirLast blocksize.toNat dot sub) ≤ 0x100000000 by omega)
          have hdir : tableEnd blocksize.toNat (records dot) ≤ dirLast blocksize.toNat dot sub :=
            le_lastIn _ _
          rw [allocEntries, hbehind]
          generalize allocEntries blocksize (base + BitVec.ofNat 64 pos) (records dot - 1) sub _ _ = s
            at hsub ⊢
          have hlastEq : s.2 = BitVec.ofNat 64 (dirLast blocksize.toNat dot sub) := hsub.last_eq
          rw [← hlastEq] at hsizeDir
          generalize hsizeEq : max f.size.toNat (dirLast blocksize.toNat dot sub) = size
            at hend hfit hsizeDir
          have hfill : dirLast blocksize.toNat dot sub ≤ size := hsizeEq ▸ Nat.le_max_right _ _
          have hplaces : places blocksize.toNat (left + 1) (.subdir f dot sub rest) pos =
              (pos, size) ::
                places blocksize.toNat left rest (roundUp blocksize.toNat (pos + size)) := by
            rw [← hsizeEq]
            rfl
          have huserDir : (sizeDir f (BitVec.ofNat 64 pos) s.2).userpos = false := huser
          have hsizeTo : (sizeDir f (BitVec.ofNat 64 pos) s.2).size = BitVec.ofNat 64 size := by
            rw [hsizeDir]
          have htoNat : (sizeDir f (BitVec.ofNat 64 pos) s.2).size.toNat = size := by
            rw [hsizeTo, BitVec.toNat_ofNat, Nat.mod_eq_of_lt (by omega)]
          have hin : ∀ q, InRange base
              (place (sizeDir f (BitVec.ofNat 64 pos) s.2) (BitVec.ofNat 64 pos)).record q ↔
                base.toNat + pos ≤ q ∧ q < base.toNat + pos + size := by
            intro q
            rw [inRange_place huserDir haddr, htoNat]
          rw [advance_ofNat huserDir hsizeTo blocksize hplace (by omega) hlast]
          have hle := le_roundUp hb.pos (pos + size)
          have hrest : Ranged blocksize.toNat base left rest (roundUp blocksize.toNat (pos + size))
              (max last (pos + size - 1))
              (allocEntries blocksize base left rest
                (sdbAlign blocksize (BitVec.ofNat 64 (pos + size)))
                (BitVec.ofNat 64 (max last (pos + size - 1)))) :=
            ih hplain hfit (fun _ => by omega) (fun h => ⟨sdbAlign_next hb h, by omega⟩)
          refine ⟨?_, fun q => ?_, ?_⟩
          · rw [hplaces, lastIn_cons]
            exact hrest.last_eq
          · rw [hplaces]
            exact used_cons hrest hin q
          · have hnull : dot.ustart.toNat = 0 := by rw [hzero]; rfl
            have hright := subdirRight_iff hb.pos hsub (by omega) (by omega) (by omega)
              (show dirLast _ dot sub ≤ 0x200000000 by omega) f.size.toNat hzero
              (fun q => (hin q).trans (by rw [hto, ← hsizeEq]; rfl))
            simp only [SubdirsRight, addrFirst_place _ huserDir, records_closeDir]
            rw [← and_assoc, hright, hsub.right, hrest.right]
            rfl

end

/-! ## The whole tree -/

/-- Only "." has a position. -/
def NoPositions (config : Config) : Prop :=
  ∀ part ∈ config, ∀ start, Directive.position start ∈ part.2 → part.1.chars = dotName.chars

/-- No entry but "." has a place of its own. -/
theorem not_positioned {config : Config} (h : NoPositions config) (dirents : Dirents) {i : Nat}
    (hi : i ≠ 0) (level : Nat) : ¬ Positioned level (directivesAt config dirents i) := by
  rintro ⟨-, start, hmem⟩
  obtain ⟨part, hpart, hmem⟩ := List.mem_flatMap.mp hmem
  by_cases hindex : nameIndex dirents part.1 = some i
  · rw [if_pos hindex] at hmem
    have hname := h part hpart start hmem
    rw [nameIndex] at hindex
    cases hcounted : counted dirents with
    | zero =>
        rw [hcounted] at hindex
        cases hindex
    | succ n =>
        rw [hcounted, List.take_succ_cons, List.findIdx?_cons, beq_iff_eq.mpr hname] at hindex
        exact hi (Option.some.inj hindex).symm
  · rw [if_neg hindex] at hmem
    cases hmem

/-- So it is in the tree that is built. -/
theorem builtEntries_unplaced {dirents : Dirents} : ∀ {level i : Nat}
    {directives : Nat → List Directive} {e : Entries} (left : Nat),
    builtEntries blocksize level directives dirents i = some e →
    (∀ j, i ≤ j → ¬ Positioned level (directives j)) → Unplaced left e := by
  have huser : ∀ (level : Nat) (ds : List Directive) (f : Sdbf), f.userpos = false →
      ¬ Positioned level ds → (ds.foldl (applyDirective level) f).userpos = false := by
    intro level ds f hf hnot
    rw [← Bool.not_eq_true, foldl_userpos, hf]
    exact not_or.mpr ⟨Bool.false_ne_true, hnot⟩
  induction dirents with
  | nil =>
      intro level i directives e left h _
      cases h
      cases left <;> exact trivial
  | file name file rest ih =>
      intro level i directives e left h hnot
      obtain ⟨e, he, rfl⟩ := Option.map_eq_some_iff.mp h
      cases left with
      | zero => exact trivial
      | succ left =>
          exact ⟨huser level _ _ rfl (hnot i (Nat.le_refl i)),
            ih left he fun j hj => hnot j (Nat.le_of_succ_le hj)⟩
  | other name rest ih => exact fun left h => ih left h
  | lost name rest => exact fun _ h => absurd h (Option.some_ne_none _).symm
  | dir name config sub rest ihsub ih =>
      intro level i directives e left h hnot
      obtain ⟨s, hs, h⟩ := Option.bind_eq_some_iff.mp h
      obtain ⟨e, he, rfl⟩ := Option.map_eq_some_iff.mp h
      cases left with
      | zero => exact trivial
      | succ left =>
          refine ⟨huser level _ _ rfl (hnot i (Nat.le_refl i)), ?_, ihsub _ hs ?_,
            ih left he fun j hj => hnot j (Nat.le_of_succ_le hj)⟩
          · exact (foldl_unmoved (Or.inl (Nat.succ_ne_zero level))).2
          · exact fun _ _ hpos => Nat.succ_ne_zero level hpos.1

/-- **The ranges hold what is in the directories exactly if no directory ends with nothing, and
    every subdirectory has been made larger than the number of its last byte.** -/
theorem ranges_right (hb : BlockSize blocksize) {config : Config} {dirents : Dirents} {tree : Tree}
    (h : prepareDir blocksize config dirents = some tree) (hplain : NoPositions config)
    (hfit : TreeFits blocksize.toNat tree) :
    RangesRight (allocStorage blocksize tree) ↔ DirectoriesFull blocksize.toNat tree := by
  rw [prepareDir_built] at h
  obtain ⟨e, he, rfl⟩ := Option.map_eq_some_iff.mp h
  have hunplaced := builtEntries_unplaced (counted dirents - 1) he fun j hj =>
    not_positioned hplain dirents (Nat.ne_of_gt hj) 0
  have hsame := foldl_same 0 (directivesAt config dirents 0) (fillDot 0 (recordCount dirents + 1))
  have hrecords : records _ = counted dirents := hsame.records.trans (records_fillDot _ _)
  have hbase : _ = (0 : ULong) := hsame.base_eq
  generalize (directivesAt config dirents 0).foldl (applyDirective 0)
    (fillDot 0 (recordCount dirents + 1)) = dot at hrecords hbase hfit ⊢
  rw [← hrecords] at hunplaced
  obtain ⟨htable, hfit⟩ := hfit
  rw [firstIn] at hfit
  simp only at htable hfit
  have hend := tableEnd_lt hb (records_le dot)
  have hroom := le_tableEnd hb.pos (records dot)
  have hustart := dot.ustart.isLt
  have hbehind : behindTable blocksize dot =
      BitVec.ofNat 64 (dot.ustart.toNat + tableEnd blocksize.toNat (records dot)) := by
    rw [behindTable, Nat.mul_comm, sdbAlign_ofNat hb hend, add_ofNat]
    rfl
  have hzero : (0 : ULong).toNat = 0 := rfl
  have hrun : Ranged blocksize.toNat 0 (records dot - 1) e
      (dot.ustart.toNat + tableEnd blocksize.toNat (records dot))
      (dot.ustart.toNat + tableEnd blocksize.toNat (records dot))
      (allocEntries blocksize 0 (records dot - 1) e
        (BitVec.ofNat 64 (dot.ustart.toNat + tableEnd blocksize.toNat (records dot)))
        (BitVec.ofNat 64 (dot.ustart.toNat + tableEnd blocksize.toNat (records dot)))) := by
    refine allocEntries_ranged hb hunplaced hfit (fun _ => by omega) fun hlt => ⟨rfl, ?_⟩
    omega
  have hlast : lastIn (dot.ustart.toNat + tableEnd blocksize.toNat (records dot))
      (places blocksize.toNat (records dot - 1) e
        (dot.ustart.toNat + tableEnd blocksize.toNat (records dot))) ≤ 0x200000000 := by
    refine lastIn_le (by omega) fun p hp => ?_
    have hle := places_fit e hfit p hp
    omega
  have hexact := lastExact_iff hb.pos hrun (by omega) (by omega) (by decide) hlast
  rw [RangesRight, DirectoriesFull, firstIn, allocStorage, hbase, hbehind]
  simp only [records_closeDir]
  rw [hexact, hrun.right]

end

/-! ## A subdirectory with a file -/

/-- "e", a directory that holds a file of three bytes. -/
def eName : CString := ⟨[0x65], by decide⟩

/-- A directory "e" with a file "b" of three bytes. -/
def eDirents : Dirents := .dir eName [] (.file threeName (threeBytes false) .nil) .nil

/-- Its tree, with a size for the directory. -/
def eTree (size : ULong) : Tree :=
  ⟨fillDot 0 2, .subdir { fillDir 0 eName with size := size } (fillDot 1 2)
    (.file (fillFile 64 1 threeName (threeBytes false)) (threeBytes false) .nil) .nil⟩

/-- The small tree fits, without a size and with one. -/
theorem eTree_fits : TreeFits 64 (eTree 0) ∧ TreeFits 64 (eTree 256) := by
  refine ⟨⟨by decide +kernel, ?_⟩, by decide +kernel, ?_⟩
  · exact ⟨by decide +kernel, by decide +kernel, ⟨by decide +kernel, by decide +kernel, trivial⟩,
      trivial⟩
  · exact ⟨by decide +kernel, by decide +kernel, ⟨by decide +kernel, by decide +kernel, trivial⟩,
      trivial⟩

/-- With 256 bytes for the directory, everything is where its record says. -/
theorem ranges_right_maxsize : ∃ tree,
    prepareDir 64 [(eName, [.maxsize 256])] eDirents = some tree ∧
      RangesRight (allocStorage 64 tree) := by
  have hscan : prepareDir 64 [(eName, [.maxsize 256])] eDirents = some (eTree 256) := rfl
  have hplain : NoPositions [(eName, [.maxsize 256])] := by
    intro part hpart start hmem
    rw [List.mem_singleton.mp hpart] at hmem
    cases List.mem_singleton.mp hmem
  refine ⟨_, hscan, (ranges_right ⟨⟨6, rfl⟩, by decide⟩ hscan hplain eTree_fits.2).mpr ⟨?_, ⟨?_, ?_⟩,
    trivial, trivial⟩⟩
  · exact ⟨_, List.mem_cons_self, by decide +kernel, by decide +kernel⟩
  · exact ⟨_, List.mem_cons_self, by decide +kernel, by decide +kernel⟩
  · decide +kernel

/-- Without, the last byte of the file is at 258, and the range of the directory ends at 257. -/
theorem ranges_right_short : ∃ tree, prepareDir 64 [] eDirents = some tree ∧ NoPositions [] ∧
    TreeFits 64 tree ∧ ¬ RangesRight (allocStorage 64 tree) := by
  refine ⟨eTree 0, rfl, fun part hpart => absurd hpart List.not_mem_nil, eTree_fits.1, fun h => ?_⟩
  have hrange := h.2.1 258 (Or.inr ⟨_, List.mem_cons_self, by decide +kernel, by decide +kernel⟩)
  exact absurd hrange.2 (by decide +kernel)

end GensdbfsRanges
