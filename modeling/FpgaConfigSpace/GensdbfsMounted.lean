import Mathlib.Data.List.Pairwise
import FpgaConfigSpace.GensdbfsScan
import FpgaConfigSpace.GensdbfsInput
import FpgaConfigSpace.GensdbfsAlign
import FpgaConfigSpace.SdbExtractFields
import FpgaConfigSpace.SdbfsInodeCache

/-! # The directory behind a mount

    The kernel reads the tables of an image by other means than the library: it asks for
    names, keeps inodes by number, and follows the tables to any depth.  Mounted, the image
    of a directory is that directory: a path leads to what it leads to in the directory
    that the image was made of, whatever was looked up before. -/

namespace GensdbfsMounted

open BigEndian SdbRecord SdbFields SdbfsOpen SdbfsSearch FileWrites Blocks MemoWalk
open Gensdbfs GensdbfsLayout GensdbfsConfig GensdbfsInput GensdbfsFrame GensdbfsApart
open GensdbfsTables GensdbfsScan GensdbfsFlat SdbExtractFields SdbfsInode SdbfsInodeCache
open GensdbfsMain (filePieces_flatten)

/-! ## Paths in a directory -/

/-- What a path leads to. -/
inductive Item where
  | file (file : RegularFile)
  | dir (sub : Dirents)

/-- The first entry with a name. -/
def findEntry (name : List Byte) : Dirents → Option Item
  | .nil => none
  | .file n file rest => if n.chars = name then some (.file file) else findEntry name rest
  | .other _ rest => findEntry name rest
  | .lost _ rest => findEntry name rest
  | .dir n _ sub rest => if n.chars = name then some (.dir sub) else findEntry name rest

/-- The item at the end of a path, from another item on. -/
def itemAt : Item → List DName → Option Item
  | item, [] => some item
  | .dir sub, name :: names => (findEntry name.chars sub).bind fun item => itemAt item names
  | .file _, _ :: _ => none

theorem itemAt_nil (item : Item) : itemAt item [] = some item := by
  cases item <;> rfl

/-- One name of a path. -/
theorem itemAt_name (sub : Dirents) (name : DName) :
    itemAt (.dir sub) [name] = findEntry name.chars sub := by
  rw [itemAt]
  simp only [itemAt_nil]
  exact Option.bind_fun_some _

/-- A path is followed name by name. -/
theorem itemAt_cons (item : Item) (name : DName) (names : List DName) :
    itemAt item (name :: names) =
      (itemAt item [name]).bind fun item' => itemAt item' names := by
  cases item with
  | file file => rfl
  | dir sub => rw [itemAt_name, itemAt]

/-- Every name fits into a record. -/
def NamesFit : Dirents → Prop
  | .nil => True
  | .file name _ rest => FieldName name ∧ NamesFit rest
  | .other _ rest => NamesFit rest
  | .lost _ rest => NamesFit rest
  | .dir name _ sub rest => FieldName name ∧ NamesFit sub ∧ NamesFit rest

/-! ## The entries that are made of it -/

/-- The entry of a name. -/
structure EntryOf (name : CString) (f : Sdbf) : Prop where
  field : FieldName name
  name_eq : productName f.record = paddedName name

/-- The entries that a directory makes. -/
inductive Makes : Dirents → Entries → Prop where
  | nil : Makes .nil .nil
  | file {name : CString} {file : RegularFile} {rest : Dirents} {f : Sdbf} {e : Entries}
      (hentry : EntryOf name f) (hrest : Makes rest e) :
      Makes (.file name file rest) (.file f file e)
  | other {name : CString} {rest : Dirents} {e : Entries} (hrest : Makes rest e) :
      Makes (.other name rest) e
  | dir {name : CString} {config : Config} {sub rest : Dirents} {f dot : Sdbf} {s e : Entries}
      (hentry : EntryOf name f) (hdot : EntryOf dotName dot) (hsub : Makes sub s)
      (hrest : Makes rest e) : Makes (.dir name config sub rest) (.subdir f dot s e)

/-- No directive changes a name. -/
theorem entryOf_foldl {name : CString} (h : FieldName name) (r : Record) (t : Byte) (level : Nat)
    {f : Sdbf} (hf : f.record = fillProduct r name t) (ds : List Directive) :
    EntryOf name (ds.foldl (applyDirective level) f) := by
  refine ⟨h, (foldl_unnamed level f ds).product.1.trans ?_⟩
  rw [hf]
  exact productName_fillProduct h.fits r t

/-- Nor does anything in front of it. -/
theorem productName_setBytes (r : Record) {k : Nat} {bytes : List Byte}
    (h : k + bytes.length ≤ 0x2c) : productName (setBytes r k bytes) = productName r := by
  refine congrArg List.ofFn (funext fun i => ?_)
  have hi := i.isLt
  rw [apply_eq_byteAt (setBytes r k bytes) rfl, apply_eq_byteAt r rfl]
  refine byteAt_setBytes_of_outside r (Or.inr ?_)
  rw [val_add (by show 0x2c + i.val < 64; omega)]
  exact Nat.le_trans h (Nat.le_add_right _ _)

/-- The interconnect that is filled in has the name ".". -/
theorem entryOf_dot (level n : Nat) (ds : List Directive) :
    EntryOf dotName (ds.foldl (applyDirective level) (fillDot level n)) :=
  ⟨fieldName_dot, (foldl_unnamed level (fillDot level n) ds).product.1.trans
    ((productName_setBytes _ (by simp [htons])).trans
      (productName_fillProduct fieldName_dot.fits _ _))⟩

/-- What is scanned has the names of the directory. -/
theorem builtEntries_makes {blocksize : BitVec 32} {dirents : Dirents} : ∀ {level i : Nat}
    {directives : Nat → List Directive} {e : Entries}, NamesFit dirents →
    builtEntries blocksize level directives dirents i = some e → Makes dirents e := by
  induction dirents with
  | nil =>
      intro level i directives e _ h
      cases h
      exact Makes.nil
  | file name file rest ih =>
      rintro level i directives e ⟨hname, hrest⟩ h
      obtain ⟨s, hs, rfl⟩ := Option.map_eq_some_iff.mp h
      exact Makes.file (entryOf_foldl hname _ _ level rfl _) (ih hrest hs)
  | other name rest ih => exact fun hrest h => Makes.other (ih hrest h)
  | lost name rest => exact fun _ h => by cases h
  | dir name config sub rest ihsub ih =>
      rintro level i directives e ⟨hname, hsub, hrest⟩ h
      obtain ⟨s, hs, h⟩ := Option.bind_eq_some_iff.mp h
      obtain ⟨r, hr, rfl⟩ := Option.map_eq_some_iff.mp h
      exact Makes.dir (entryOf_foldl hname _ _ level rfl _) (entryOf_dot _ _ _) (ihsub hsub hs)
        (ih hrest hr)

/-- **What is prepared is made of the directory**, name by name. -/
theorem prepareDir_makes {blocksize : BitVec 32} {config : Config} {dirents : Dirents} {tree : Tree}
    (hnames : NamesFit dirents) (h : prepareDir blocksize config dirents = some tree) :
    Makes dirents tree.entries ∧ EntryOf dotName tree.dot := by
  rw [prepareDir_built] at h
  obtain ⟨e, he, rfl⟩ := Option.map_eq_some_iff.mp h
  exact ⟨builtEntries_makes hnames he, entryOf_dot _ _ _⟩

/-! ## Names as the kernel reads them -/

/-- The blanks of the field are trimmed. -/
theorem infoOf_name {name : CString} (h : FieldName name) {r : Record}
    (hname : productName r = paddedName name) : (infoOf r).name = name.chars := by
  have htext : (paddedName name).takeWhile (· != 0) = paddedName name := by
    refine List.takeWhile_eq_self_iff.mpr fun c hc => bne_iff_ne.mpr ?_
    rw [paddedName] at hc
    rcases List.mem_append.mp hc with hc | hc
    · exact fun hzero => name.noNul (hzero ▸ hc)
    · rw [(List.mem_replicate.mp hc).2]
      decide
  have hlen : (paddedName name).length = 19 := by
    have hfits := h.fits
    rw [paddedName, List.length_append, List.length_replicate]
    omega
  obtain ⟨front, c, hsplit⟩ : ∃ front c, name.chars = front ++ [c] :=
    ⟨_, _, (List.dropLast_append_getLast h.nonempty).symm⟩
  have hc : c ≠ 0x20 := by
    rintro rfl
    exact h.last (by rw [hsplit, List.getLast?_concat])
  show trimName (strncpyName (productName r)) = _
  rw [hname, strncpyName]
  simp only [htext, hlen, Nat.sub_self, List.replicate_zero, List.append_nil]
  rw [trimName, paddedName, List.reverse_append, List.reverse_replicate,
    List.dropWhile_append_of_pos (fun d hd => by rw [(List.mem_replicate.mp hd).2]; decide), hsplit,
    List.reverse_concat, List.dropWhile_cons_of_neg (by simpa using hc), List.reverse_cons,
    List.reverse_reverse]

/-- The places of a record say nothing about its name. -/
theorem EntryOf.placed {name : CString} {f : Sdbf} (h : EntryOf name f) (pos size : Nat) :
    productName (placedRecord f.record pos size) = paddedName name :=
  (readdressed f.record _ _).product.1.trans h.name_eq

/-- The record of a subdirectory keeps its name. -/
theorem EntryOf.bridge {name : CString} {f : Sdbf} (h : EntryOf name f) (child : BitVec 64)
    (pos size : Nat) :
    productName (placedRecord (setSdbChild f.record child) pos size) = paddedName name :=
  (readdressed _ _ _).product.1.trans
    ((productName_setBytes f.record (by rw [htonll_length]; decide)).trans h.name_eq)

/-- So does an interconnect. -/
theorem EntryOf.head {dot : Sdbf} (h : EntryOf dotName dot) (last : Nat) :
    productName (tableHead dot last) = paddedName dotName :=
  (readdressed dot.record _ _).product.1.trans h.name_eq

/-- The file system takes the name of a file or a subdirectory for its name, and that of an
    interconnect for ".". -/
theorem infoOf_placed {name : CString} {f : Sdbf} (h : EntryOf name f) (pos size : Nat) :
    (infoOf (placedRecord f.record pos size)).name = name.chars :=
  infoOf_name h.field (h.placed pos size)

theorem infoOf_bridge {name : CString} {f : Sdbf} (h : EntryOf name f) (child : BitVec 64)
    (pos size : Nat) :
    (infoOf (placedRecord (setSdbChild f.record child) pos size)).name = name.chars :=
  infoOf_name h.field (h.bridge child pos size)

theorem infoOf_head {dot : Sdbf} (h : EntryOf dotName dot) (last : Nat) :
    (infoOf (tableHead dot last)).name = dotName.chars :=
  infoOf_name h.field (h.head last)

/-! ## The tables are apart -/

/-- A table ends before another one begins. -/
def Clear (s t : Nat × List Record) : Prop :=
  s.1 + 64 * s.2.length ≤ t.1 ∨ t.1 + 64 * t.2.length ≤ s.1

instance : Std.Symm Clear := ⟨fun _ _ h => h.symm⟩

/-- The tables of a directory are behind its start. -/
theorem tables_behind {b : Nat} (hpos : 0 < b) {e : Entries} : ∀ {base pos : Nat},
    ∀ tbl ∈ tables b e base pos, base + pos ≤ tbl.1 := by
  induction e with
  | nil => exact fun _ h => absurd h List.not_mem_nil
  | file f file rest ih =>
      intro base pos tbl htbl
      have hnext := le_roundUp hpos (pos + f.size.toNat)
      have hrest := ih tbl htbl
      omega
  | subdir f dot sub rest ihsub ih =>
      intro base pos tbl htbl
      have hnext := le_roundUp hpos (pos + subSize b f sub)
      rcases List.mem_cons.mp htbl with rfl | htbl
      · exact Nat.le_refl _
      · rcases List.mem_append.mp htbl with htbl | htbl
        · exact Nat.le_trans (Nat.le_add_right _ _) (ihsub tbl htbl)
        · have hrest := ih tbl htbl
          omega

/-- Tables are clear of each other, because each ends at a block. -/
theorem tables_pairwise {b : Nat} (hpos : 0 < b) (h64 : 64 ∣ b) {e : Entries} :
    ∀ {base pos : Nat}, levelsBelow e < 64 → b ∣ base → b ∣ pos →
    (tables b e base pos).Pairwise Clear := by
  induction e with
  | nil => exact fun _ _ _ => List.Pairwise.nil
  | file f file rest ih => exact fun hlevels hbase _ => ih hlevels hbase (dvd_roundUp _ _)
  | subdir f dot sub rest ihsub ih =>
      intro base pos hlevels hbase hdvd
      have hsub : levelsBelow sub < 64 :=
        Nat.lt_of_succ_lt (Nat.lt_of_le_of_lt (Nat.le_max_left _ _) hlevels)
      have hrest : levelsBelow rest < 64 := Nat.lt_of_le_of_lt (Nat.le_max_right _ _) hlevels
      have htable := le_tableEnd hpos (sub.count + 1)
      have hsize := tableEnd_le_subSize (b := b) f sub
      have hnext := le_roundUp hpos (pos + subSize b f sub)
      refine List.pairwise_cons.mpr ⟨fun tbl htbl => Or.inl ?_, List.pairwise_append.mpr
        ⟨ihsub hsub (Nat.dvd_add hbase hdvd) (dvd_tableEnd _ _),
          ih hrest hbase (dvd_roundUp _ _), fun s hs t ht => Or.inl ?_⟩⟩
      · show base + pos + 64 * (layoutTable b dot sub (tableEnd b (sub.count + 1))).length ≤ tbl.1
        rw [layoutTable_length]
        rcases List.mem_append.mp htbl with htbl | htbl
        · have hge := tables_behind hpos tbl htbl
          omega
        · have hge := tables_behind hpos tbl htbl
          omega
      · exact Nat.le_trans (tables_inside hpos h64 hbase hdvd hsub s hs) (tables_behind hpos t ht)

/-- So are those of the tree. -/
theorem treeTables_pairwise {blocksize : BitVec 32} (hb : BlockSize blocksize) {tree : Tree}
    (hdvd : blocksize.toNat ∣ tree.dot.ustart.toNat) (hlevels : levelsBelow tree.entries < 64) :
    (treeTables blocksize.toNat tree).Pairwise Clear := by
  refine List.pairwise_cons.mpr ⟨fun tbl htbl => Or.inl ?_, tables_pairwise hb.pos
    (blockSize_dvd64 hb) hlevels (Nat.dvd_zero _) (Nat.dvd_add hdvd (dvd_tableEnd _ _))⟩
  have hge := tables_behind hb.pos tbl htbl
  have htable := le_tableEnd hb.pos (tree.entries.count + 1)
  rw [firstPlace] at hge
  rw [layoutTable_length]
  omega

/-! ## The tables as the kernel reads them -/

variable {w : Nat}

/-- The driver reads the records of an image, in the byte order of the image. -/
structure Serves (sd : SdbfsDev w) (ws : List (Write Byte)) : Prop where
  record : ∀ p, p + 64 ≤ fileSize ws →
    readRecord sd (BitVec.ofNat 32 p) = some (imageRecord ws p)

/-- A table is read from its place. -/
def ReadsTable (sd : SdbfsDev w) (start : Nat) (rs : List Record) : Prop :=
  ∀ j r, rs[j]? = some r → readRecord sd (BitVec.ofNat 32 (start + 64 * j)) = some r

/-- A table of the image can be read. -/
theorem Serves.readsTable {sd : SdbfsDev w} {ws : List (Write Byte)} (h : Serves sd ws)
    {tbl : Nat × List Record} (hholds : Holds ws tbl) : ReadsTable sd tbl.1 tbl.2 := by
  intro j r hr
  rw [h.record _ (hholds.lt_fileSize hr), hholds.record hr]

/-- An address below 2^32 is the same in an `unsigned long`. -/
theorem toNat_ofNat_of_lt (hw : 32 ≤ w) {n : Nat} (hn : n < 0x100000000) :
    (BitVec.ofNat w n).toNat = n := by
  have hpow : (2 : Nat) ^ 32 ≤ 2 ^ w := Nat.pow_le_pow_right (by decide) hw
  rw [BitVec.toNat_ofNat, Nat.mod_eq_of_lt (Nat.lt_of_lt_of_le hn hpow)]

theorem setWidth_ofNat32 (hw : 32 ≤ w) {n : Nat} (hn : n < 0x100000000) :
    (BitVec.ofNat w n).setWidth 32 = BitVec.ofNat 32 n := by
  apply BitVec.eq_of_toNat_eq
  rw [BitVec.toNat_setWidth, toNat_ofNat_of_lt hw hn, BitVec.toNat_ofNat]

section

variable {sd : SdbfsDev w}

/-- The rest of a table can be read. -/
theorem ReadsTable.tail {start : Nat} {r : Record} {rs : List Record}
    (h : ReadsTable sd start (r :: rs)) : ReadsTable sd (start + 64) rs := by
  intro j r' hr
  have hnext := h (j + 1) r' hr
  rwa [show start + 64 * (j + 1) = start + 64 + 64 * j by omega] at hnext

/-- `sdbfs_read_whole_dir` reads all of a table. -/
theorem readRecords_table (hw : 32 ≤ w) : ∀ {rs : List Record} {start : Nat},
    ReadsTable sd start rs → start + 64 * rs.length ≤ 0x100000000 →
    readRecords sd rs.length (BitVec.ofNat w start) = some (rs.map infoOf) := by
  intro rs
  induction rs with
  | nil => exact fun _ _ => rfl
  | cons r rs ih =>
      intro start h hend
      rw [List.length_cons] at hend
      have hhead : readRecord sd ((BitVec.ofNat w start).setWidth 32) = some r := by
        rw [setWidth_ofNat32 hw (by omega)]
        exact h 0 r rfl
      rw [List.length_cons, readRecords, hhead]
      simp only
      rw [slot_next, ih h.tail (by omega)]
      rfl

/-- The kernel reads a whole table. -/
theorem readWholeDir_table (hw : 32 ≤ w) {head : Record} {rs : List Record} {start : Nat}
    (h : ReadsTable sd start (head :: rs)) (hend : start + 64 * (rs.length + 1) ≤ 0x100000000)
    (hmagic : sdbMagic head = SDB_MAGIC) (hcount : (sdbRecords head).toNat = rs.length + 1) :
    readWholeDir sd (BitVec.ofNat w start) = (head :: rs).map infoOf := by
  have hhead : readRecord sd ((BitVec.ofNat w start).setWidth 32) = some head := by
    rw [setWidth_ofNat32 hw (by omega)]
    exact h 0 head rfl
  rw [readWholeDir, hhead]
  simp only
  rw [if_neg (not_not.mpr hmagic), hcount]
  exact congrArg (Option.getD · []) (readRecords_table hw h hend)

/-! ## Numbers of inodes -/

/-- The number of the inode of a record, and the place it stands for. -/
theorem inum_eq (start j : Nat) : SDBFS_INO (BitVec.ofNat w start + 64 * BitVec.ofNat w j) =
    BitVec.ofNat w (start + 64 * j + 2) := by
  rw [SDBFS_INO, BitVec.ofNat_add, BitVec.ofNat_add, BitVec.ofNat_mul]
  rfl

/-- The offset of a record is found again in its inode number. -/
theorem offset_inum (hw : 32 ≤ w) {p : Nat} (h16 : 16 ∣ p) (hp : p + 2 < 0x100000000) :
    SDBFS_OFFSET (BitVec.ofNat w (p + 2)) = BitVec.ofNat 32 p := by
  have hmask : (15#w).toNat = 15 := toNat_ofNat_of_lt hw (by decide)
  have hlow : (BitVec.ofNat w (p + 2) &&& 15#w).toNat = 2 := by
    rw [BitVec.toNat_and, hmask, toNat_ofNat_of_lt hw hp,
      Nat.and_two_pow_sub_one_eq_mod (p + 2) 4]
    omega
  have hsum := GensdbfsAlign.toNat_and_not_add (BitVec.ofNat w (p + 2)) 15#w
  rw [hlow, toNat_ofNat_of_lt hw hp] at hsum
  apply BitVec.eq_of_toNat_eq
  rw [SDBFS_OFFSET, BitVec.toNat_setWidth, BitVec.toNat_ofNat]
  exact congrArg (· % _) (by omega)

end

/-! ## What the records stand for -/

section

variable (blocksize : BitVec 32) (tree : Tree)

/-- The entries of a directory at `base`, from the place `pos` in it on, are a part of the
    image of a tree. -/
structure Laid (e : Entries) (base pos : Nat) : Prop where
  scanned : Scanned blocksize e
  fits : Fits blocksize.toNat e (base + pos)
  base_dvd : blocksize.toNat ∣ base
  pos_dvd : blocksize.toNat ∣ pos
  pos_pos : 0 < pos
  below : ∀ tbl ∈ tables blocksize.toNat e base pos,
    tbl ∈ tables blocksize.toNat tree.entries 0 (firstPlace blocksize.toNat tree)
  writes : written blocksize e base pos <:+: treeWritten blocksize tree

/-- A directory has its table at `start`, and its files behind `base`: for all but the top
    directory that is the same. -/
structure DirAt (dirents : Dirents) (base start : Nat) : Prop where
  made : ∃ dot e pos, Makes dirents e ∧ EntryOf dotName dot ∧ ScannedDot dot (e.count + 1) ∧
    Laid blocksize tree e base pos ∧ start + 64 * (e.count + 1) ≤ 0x100000000 ∧
    (start, layoutTable blocksize.toNat dot e pos) ∈ treeTables blocksize.toNat tree
  place : (start = tree.dot.ustart.toNat ∧ base = 0) ∨
    (tree.dot.ustart.toNat + 64 ≤ start ∧ base = start)

/-- The record of an item, in a directory at `base`. -/
def Stands (base : Nat) (r : Record) : Item → Prop
  | .file file => recordType r = sdbTypeDevice ∧ ∃ pos size,
      addrFirst r = BitVec.ofNat 64 pos ∧ 0 < pos ∧ base + pos + size.toNat ≤ 0x100000000 ∧
        base + pos + file.size ≤ 0x100000000 ∧ addrLast r + 1 - addrFirst r = size ∧
        SizeOk blocksize file size ∧ file.size ≤ size.toNat ∧
        consecutive (base + pos) (filePieces blocksize file) <:+: treeWritten blocksize tree
  | .dir sub => recordType r = sdbTypeBridge ∧ ∃ pos,
      addrFirst r = BitVec.ofNat 64 pos ∧ sdbChild r = BitVec.ofNat 64 pos ∧
        base + pos < 0x100000000 ∧ DirAt blocksize tree sub (base + pos) (base + pos)

end

section

variable {blocksize : BitVec 32} {tree : Tree} (hb : BlockSize blocksize)

/-- The size that a record says is the one it was given. -/
theorem addrLast_size {r : Record} {pos : Nat} {size : ULong} (hpos : 0 < pos) :
    addrLast (placedRecord r pos size.toNat) + 1 - addrFirst (placedRecord r pos size.toNat) =
      size := by
  rw [addrLast_placedRecord, addrFirst_placedRecord]
  have hnext : BitVec.ofNat 64 (pos + size.toNat - 1) + 1 = BitVec.ofNat 64 pos + size := by
    have hadd := BitVec.ofNat_add (n := 64) (pos + size.toNat - 1) 1
    rw [Nat.sub_add_cancel (by omega), BitVec.ofNat_add, ← eq_ofNat] at hadd
    exact hadd.symm
  rw [hnext, BitVec.add_comm]
  exact BitVec.add_sub_cancel _ _

include hb

/-- The entries behind a file. -/
theorem Laid.behind_file {f : Sdbf} {file : RegularFile} {rest : Entries} {base pos : Nat}
    (h : Laid blocksize tree (.file f file rest) base pos) :
    Laid blocksize tree rest base (roundUp blocksize.toNat (pos + f.size.toNat)) := by
  have hfits := h.fits.2.2.2
  rw [Nat.add_assoc, roundUp_add hb.pos h.base_dvd] at hfits
  have hnext := le_roundUp hb.pos (pos + f.size.toNat)
  have hpos := h.pos_pos
  exact ⟨h.scanned.2, hfits, h.base_dvd, dvd_roundUp _ _, by omega, h.below,
    (List.suffix_append _ _).isInfix.trans h.writes⟩

/-- The entries behind a subdirectory. -/
theorem Laid.behind_dir {f dot : Sdbf} {sub rest : Entries} {base pos : Nat}
    (h : Laid blocksize tree (.subdir f dot sub rest) base pos) :
    Laid blocksize tree rest base (roundUp blocksize.toNat (pos + subSize blocksize.toNat f sub)) := by
  have hfits := h.fits.2.2.2
  rw [Nat.add_assoc base pos (subSize _ _ _), roundUp_add hb.pos h.base_dvd] at hfits
  have hnext := le_roundUp hb.pos (pos + subSize blocksize.toNat f sub)
  have hpos := h.pos_pos
  refine ⟨h.scanned.2.2.2, hfits, h.base_dvd, dvd_roundUp _ _, by omega,
    fun tbl htbl => h.below tbl (List.mem_cons_of_mem _ (List.mem_append_right _ htbl)), ?_⟩
  exact ((List.suffix_append _ _).trans (List.suffix_append _ _)).isInfix.trans h.writes

/-- The entries of a subdirectory. -/
theorem Laid.inside {f dot : Sdbf} {sub rest : Entries} {base pos : Nat}
    (h : Laid blocksize tree (.subdir f dot sub rest) base pos) :
    Laid blocksize tree sub (base + pos) (tableEnd blocksize.toNat (sub.count + 1)) := by
  have hblock := block_le_tableEnd hb.pos sub.count
  have hbpos := hb.pos
  refine ⟨h.scanned.2.2.1, h.fits.2.2.1, Nat.dvd_add h.base_dvd h.pos_dvd, dvd_tableEnd _ _, by omega,
    fun tbl htbl => h.below tbl (List.mem_cons_of_mem _ (List.mem_append_left _ htbl)), ?_⟩
  exact (List.infix_append' _ _ _).trans h.writes

/-- A subdirectory. -/
theorem Laid.dirAt {f dot : Sdbf} {sub rest : Entries} {base pos : Nat} {d : Dirents}
    (h : Laid blocksize tree (.subdir f dot sub rest) base pos) (hmade : Makes d sub)
    (hdot : EntryOf dotName dot) : DirAt blocksize tree d (base + pos) (base + pos) := by
  obtain ⟨-, ⟨hscanned, -⟩, -⟩ := h.scanned
  obtain ⟨haddr, hend, -⟩ := h.fits
  have htable := le_tableEnd hb.pos (sub.count + 1)
  have hsize := tableEnd_le_subSize (b := blocksize.toNat) f sub
  have hown := h.below _ List.mem_cons_self
  have hplace := tables_behind hb.pos _ hown
  have hroot := le_tableEnd hb.pos (tree.entries.count + 1)
  refine ⟨⟨dot, sub, tableEnd blocksize.toNat (sub.count + 1), hmade, hdot, hscanned, h.inside hb,
    by omega, List.mem_cons_of_mem _ hown⟩, Or.inr ⟨?_, rfl⟩⟩
  rw [firstPlace] at hplace
  simp only at hplace
  omega

/-- The first record with a name stands for what has the name in the directory. -/
theorem find_stands {d : Dirents} {e : Entries} (hmade : Makes d e) (name : List Byte) :
    ∀ {base pos : Nat}, Laid blocksize tree e base pos →
    match findEntry name d with
    | none => (layoutRecords blocksize.toNat e pos).findIdx?
        (fun r => (infoOf r).name == name) = none
    | some item => ∃ j r, (layoutRecords blocksize.toNat e pos).findIdx?
        (fun r => (infoOf r).name == name) = some j ∧
        (layoutRecords blocksize.toNat e pos)[j]? = some r ∧ Stands blocksize tree base r item := by
  induction hmade with
  | nil => exact fun _ => rfl
  | other _ ih => exact ih
  | @file n file rest f e hentry hrest ih =>
      intro base pos h
      have hname := infoOf_placed hentry pos f.size.toNat
      rw [findEntry, layoutRecords, List.findIdx?_cons, hname]
      by_cases hn : n.chars = name
      · rw [if_pos hn, if_pos (beq_iff_eq.mpr hn)]
        obtain ⟨haddr, hend, hfile, -⟩ := h.fits
        have hblock := Nat.le_of_dvd h.pos_pos h.pos_dvd
        refine ⟨0, _, rfl, rfl, (recordType_placedRecord _ _ _).trans h.scanned.1.type_eq, pos, _,
          addrFirst_placedRecord _ _ _, h.pos_pos, hend, hfile, addrLast_size h.pos_pos, h.scanned.1.size_ok,
          size_le hb h.scanned.1.size_ok hblock (by omega), ?_⟩
        exact (List.prefix_append _ _).isInfix.trans h.writes
      · rw [if_neg hn, if_neg fun hbeq => hn (beq_iff_eq.mp hbeq)]
        have hfind := ih (h.behind_file hb)
        cases hitem : findEntry name rest with
        | none =>
            rw [hitem] at hfind
            simp only at hfind
            simp only [hfind, Option.map_none]
        | some item =>
            rw [hitem] at hfind
            obtain ⟨j, r, hj, hr, hstands⟩ := hfind
            exact ⟨j + 1, r, by rw [hj]; rfl, hr, hstands⟩
  | @dir n config sub rest f dot s e hentry hdot hsub hrest _ ih =>
      intro base pos h
      have hname := infoOf_bridge hentry (BitVec.ofNat 64 pos) pos
        (subSize blocksize.toNat f s)
      rw [findEntry, layoutRecords, List.findIdx?_cons, hname]
      by_cases hn : n.chars = name
      · rw [if_pos hn, if_pos (beq_iff_eq.mpr hn)]
        refine ⟨0, _, rfl, rfl, (recordType_placedRecord _ _ _).trans ?_, pos,
          addrFirst_placedRecord _ _ _, sdbChild_placedRecord _ _ _ _, h.fits.1,
          h.dirAt hb hsub hdot⟩
        exact h.scanned.1.2
      · rw [if_neg hn, if_neg fun hbeq => hn (beq_iff_eq.mp hbeq)]
        have hfind := ih (h.behind_dir hb)
        cases hitem : findEntry name rest with
        | none =>
            rw [hitem] at hfind
            simp only at hfind
            simp only [hfind, Option.map_none]
        | some item =>
            rw [hitem] at hfind
            obtain ⟨j, r, hj, hr, hstands⟩ := hfind
            exact ⟨j + 1, r, by rw [hj]; rfl, hr, hstands⟩

/-- A name in a table.  The interconnect of the table is called ".", which is not looked up. -/
theorem dirAt_find {d : Dirents} {base start : Nat} (h : DirAt blocksize tree d base start)
    (hholds : ∀ tbl ∈ treeTables blocksize.toNat tree, Holds (treeWritten blocksize tree) tbl)
    (hw : 32 ≤ w) {sd : SdbfsDev w} (hserves : Serves sd (treeWritten blocksize tree))
    (name : DName) :
    match findEntry name.chars d with
    | none =>
        entryInum (readWholeDir sd (BitVec.ofNat w start)) (BitVec.ofNat w start) name.chars = none
    | some item => ∃ j r rs,
        entryInum (readWholeDir sd (BitVec.ofNat w start)) (BitVec.ofNat w start) name.chars =
          some (BitVec.ofNat w (start + 64 * j + 2)) ∧
        (start, rs) ∈ treeTables blocksize.toNat tree ∧ j < rs.length ∧
        start + 64 * rs.length ≤ 0x100000000 ∧
        readRecord sd (BitVec.ofNat 32 (start + 64 * j)) = some r ∧
        Stands blocksize tree base r item := by
  obtain ⟨dot, e, pos, hmade, hdot, hscanned, hlaid, hend, htbl⟩ := h.made
  have hreads := hserves.readsTable (hholds _ htbl)
  have hlen := layoutTable_length blocksize.toNat dot e pos
  have hwhole : readWholeDir sd (BitVec.ofNat w start) =
      (layoutTable blocksize.toNat dot e pos).map infoOf := by
    have htable := isTable_tableHead (lastByte blocksize.toNat e pos pos) hscanned.table
    refine readWholeDir_table hw hreads ?_ htable.2 ?_
    · rw [layoutRecords_length]
      exact hend
    · rw [layoutRecords_length, sdbRecords_tableHead, hscanned.records_eq]
  have hindex : entryInum (readWholeDir sd (BitVec.ofNat w start)) (BitVec.ofNat w start)
      name.chars =
      ((layoutTable blocksize.toNat dot e pos).findIdx? fun r => (infoOf r).name == name.chars).map
        fun j => BitVec.ofNat w (start + 64 * j + 2) := by
    rw [hwhole, entryInum, List.findIdx?_map]
    exact congrArg (fun f => Option.map f _) (funext fun j => inum_eq start j)
  have hdotName : (dotName.chars == name.chars) = false :=
    beq_eq_false_iff_ne.mpr fun h => name.looked.2.1 h.symm
  rw [hindex, layoutTable, List.findIdx?_cons, infoOf_head hdot, hdotName,
    if_neg Bool.false_ne_true]
  have hfind := find_stands hb hmade name.chars hlaid
  cases hitem : findEntry name.chars d with
  | none =>
      rw [hitem] at hfind
      simp only at hfind
      simp only [hfind, Option.map_none]
  | some item =>
      rw [hitem] at hfind
      obtain ⟨j, r, hj, hr, hstands⟩ := hfind
      have hlt := (List.getElem?_eq_some_iff.mp hr).1
      rw [layoutRecords_length] at hlt
      exact ⟨j + 1, r, _, by rw [hj]; rfl, htbl, by omega, by omega, hreads (j + 1) r hr, hstands⟩

/-! ## Inodes -/

variable (blocksize tree) in
/-- The inode of an item. -/
def Shown (node : Node w) : Item → Prop
  | .file file => recordType node.info = sdbTypeDevice ∧ ∃ start size,
      node.kind = .file (BitVec.ofNat w start) ∧ start + file.size ≤ 0x100000000 ∧
        addrLast node.info + 1 - addrFirst node.info = size ∧ SizeOk blocksize file size ∧
        consecutive start (filePieces blocksize file) <:+: treeWritten blocksize tree
  | .dir sub => recordType node.info = sdbTypeBridge ∧ ∃ base start,
      node.kind = .directory (BitVec.ofNat w base) (BitVec.ofNat w start) ∧
        DirAt blocksize tree sub base start

omit hb in
/-- The inode that is made of a record stands for what the record stands for. -/
theorem shown_of_stands {base : Nat} {r : Record} {item : Item}
    (h : Stands blocksize tree base r item) :
    Shown blocksize tree ⟨r, kindOf (BitVec.ofNat w base) r⟩ item := by
  cases item with
  | file file =>
      obtain ⟨htype, pos, size, hfirst, -, -, hend, hsize, hok, -, hwritten⟩ := h
      refine ⟨htype, base + pos, size, ?_, hend, hsize, hok, hwritten⟩
      show kindOf _ r = _
      rw [kindOf, if_pos (Or.inr htype), hfirst, setWidth_ofNat (by omega), BitVec.ofNat_add]
  | dir sub =>
      obtain ⟨htype, pos, hfirst, hchild, haddr, hdir⟩ := h
      refine ⟨htype, base + pos, base + pos, ?_, hdir⟩
      show kindOf _ r = _
      have hplain : ¬ (recordType r = sdbTypeInterconnect ∨ recordType r = sdbTypeDevice) := by
        rw [htype]
        decide
      rw [kindOf, if_neg hplain, if_pos htype, hfirst, hchild, setWidth_ofNat (by omega),
        BitVec.ofNat_add]

/-- A name in a directory leads to the record of what it stands for. -/
theorem step_stands {sd : SdbfsDev w} {node : Node w} {sub : Dirents} {base start : Nat}
    (hkind : node.kind = .directory (BitVec.ofNat w base) (BitVec.ofNat w start))
    (hdir : DirAt blocksize tree sub base start)
    (hholds : ∀ tbl ∈ treeTables blocksize.toNat tree, Holds (treeWritten blocksize tree) tbl)
    (hw : 32 ≤ w) (hserves : Serves sd (treeWritten blocksize tree))
    (hdvd : ∀ tbl ∈ treeTables blocksize.toNat tree, 64 ∣ tbl.1) {name : DName} {item : Item}
    (hname : findEntry name.chars sub = some item) :
    ∃ inum r, (imageGraph sd).find node name = some inum ∧
      (imageGraph sd).make node inum = some ⟨r, kindOf (BitVec.ofNat w base) r⟩ ∧
      Stands blocksize tree base r item := by
  have hfind := dirAt_find hb hdir hholds hw hserves name
  rw [hname] at hfind
  obtain ⟨j, r, rs, hinum, htbl, hj, hend, hread, hstands⟩ := hfind
  obtain ⟨k, hk⟩ := hdvd _ htbl
  simp only at hk
  refine ⟨BitVec.ofNat w (start + 64 * j + 2), r, ?_, ?_, hstands⟩
  · simp only [imageGraph, hkind]
    exact hinum
  · simp only [imageGraph, hkind, newNode]
    rw [offset_inum hw ⟨4 * k + 4 * j, by omega⟩ (by omega), hread]
    rfl

/-- One step of a path. -/
theorem shown_step {sd : SdbfsDev w} {node : Node w} {item : Item}
    (hholds : ∀ tbl ∈ treeTables blocksize.toNat tree, Holds (treeWritten blocksize tree) tbl)
    (hw : 32 ≤ w) (hserves : Serves sd (treeWritten blocksize tree))
    (hdvd : ∀ tbl ∈ treeTables blocksize.toNat tree, 64 ∣ tbl.1)
    (h : Shown blocksize tree node item) (name : DName) :
    match itemAt item [name] with
    | none => (imageGraph sd).find node name = none
    | some item' => ∃ inum node', (imageGraph sd).find node name = some inum ∧
        (imageGraph sd).make node inum = some node' ∧ Shown blocksize tree node' item' := by
  cases item with
  | file file =>
      obtain ⟨-, start, size, hkind, -⟩ := h
      simp only [itemAt, imageGraph, hkind]
  | dir sub =>
      obtain ⟨-, base, start, hkind, hdir⟩ := h
      rw [itemAt_name]
      cases hname : findEntry name.chars sub with
      | none =>
          have hfind := dirAt_find hb hdir hholds hw hserves name
          rw [hname] at hfind
          simp only [imageGraph, hkind]
          exact hfind
      | some item =>
          obtain ⟨inum, r, hfind, hmake, hstands⟩ := step_stands hb hkind hdir hholds hw hserves hdvd
            hname
          exact ⟨inum, _, hfind, hmake, shown_of_stands hstands⟩

/-- A path leads to the inode of what it leads to. -/
theorem walk_shown {sd : SdbfsDev w}
    (hholds : ∀ tbl ∈ treeTables blocksize.toNat tree, Holds (treeWritten blocksize tree) tbl)
    (hw : 32 ≤ w) (hserves : Serves sd (treeWritten blocksize tree))
    (hdvd : ∀ tbl ∈ treeTables blocksize.toNat tree, 64 ∣ tbl.1) :
    ∀ (path : List DName) {node : Node w} {item : Item}, Shown blocksize tree node item →
    match itemAt item path with
    | none => walk (imageGraph sd) node path = some none
    | some item' => ∃ node', walk (imageGraph sd) node path = some (some node') ∧
        Shown blocksize tree node' item' := by
  intro path
  induction path with
  | nil =>
      intro node item h
      rw [itemAt_nil]
      exact ⟨node, rfl, h⟩
  | cons name names ih =>
      intro node item h
      have hstep := shown_step hb hholds hw hserves hdvd h name
      rw [itemAt_cons, walk]
      cases hitem : itemAt item [name] with
      | none =>
          rw [hitem] at hstep
          simp only at hstep
          simp only [hstep, Option.bind_none]
      | some item' =>
          rw [hitem] at hstep
          obtain ⟨inum, node', hfind, hmake, hshown⟩ := hstep
          simp only [hfind, hmake, Option.bind_some]
          exact ih hshown

/-! ## One base for every inode -/

/-- The tables that paths lead to are those of the directories. -/
theorem table_dirAt {sd : SdbfsDev w}
    (hholds : ∀ tbl ∈ treeTables blocksize.toNat tree, Holds (treeWritten blocksize tree) tbl)
    (hw : 32 ≤ w) (hserves : Serves sd (treeWritten blocksize tree))
    (hdvd : ∀ tbl ∈ treeTables blocksize.toNat tree, 64 ∣ tbl.1) {dirents : Dirents}
    (hroot : DirAt blocksize tree dirents 0 tree.dot.ustart.toNat)
    (hentry : sd.entrypoint = BitVec.ofNat w tree.dot.ustart.toNat) {base table : BitVec w}
    (h : Table sd base table) :
    ∃ sub n m, base = BitVec.ofNat w n ∧ table = BitVec.ofNat w m ∧ DirAt blocksize tree sub n m := by
  induction h with
  | root => exact ⟨dirents, 0, tree.dot.ustart.toNat, rfl, hentry, hroot⟩
  | @bridge base table inum name rec _ hname hrec hbridge ih =>
      obtain ⟨sub, n, m, rfl, rfl, hdir⟩ := ih
      have hfind := dirAt_find hb hdir hholds hw hserves name
      cases hitem : findEntry name.chars sub with
      | none =>
          rw [hitem] at hfind
          exact absurd (hname.symm.trans hfind) (Option.some_ne_none _)
      | some item =>
          rw [hitem] at hfind
          obtain ⟨j, r, rs, hinum, htbl, hj, hend, hread, hstands⟩ := hfind
          obtain ⟨k, hk⟩ := hdvd _ htbl
          simp only at hk
          cases Option.some.inj (hname.symm.trans hinum)
          rw [offset_inum hw ⟨4 * k + 4 * j, by omega⟩ (by omega), hread] at hrec
          rw [Option.some.inj hrec] at hstands
          have hbridge : recordType rec = sdbTypeBridge := hbridge
          cases item with
          | file file => exact absurd (hbridge.symm.trans hstands.1) (by decide)
          | dir sub' =>
              obtain ⟨-, pos, hfirst, hchild, haddr, hsub⟩ := hstands
              refine ⟨sub', n + pos, n + pos, ?_, ?_, hsub⟩
              · rw [hfirst, setWidth_ofNat (by omega), BitVec.ofNat_add]
              · rw [hchild, setWidth_ofNat (by omega), BitVec.ofNat_add]

omit hb in
/-- Directories with their tables at one place have one base. -/
theorem base_of_start {d d' : Dirents} {base base' start : Nat}
    (h : DirAt blocksize tree d base start) (h' : DirAt blocksize tree d' base' start) :
    base = base' := by
  rcases h.place with ⟨hs, hbase⟩ | ⟨hs, hbase⟩
  · rcases h'.place with ⟨_, hbase'⟩ | ⟨hs', _⟩
    · rw [hbase, hbase']
    · omega
  · rcases h'.place with ⟨hs', _⟩ | ⟨_, hbase'⟩
    · omega
    · rw [hbase, hbase']

/-- **No record of an image is reached below two bases.** -/
theorem oneBase {sd : SdbfsDev w}
    (hholds : ∀ tbl ∈ treeTables blocksize.toNat tree, Holds (treeWritten blocksize tree) tbl)
    (hw : 32 ≤ w) (hserves : Serves sd (treeWritten blocksize tree))
    (hdvd : ∀ tbl ∈ treeTables blocksize.toNat tree, 64 ∣ tbl.1)
    (hclear : (treeTables blocksize.toNat tree).Pairwise Clear) {dirents : Dirents}
    (hroot : DirAt blocksize tree dirents 0 tree.dot.ustart.toNat)
    (hentry : sd.entrypoint = BitVec.ofNat w tree.dot.ustart.toNat) : OneBase sd := by
  -- a record that paths lead to is in the table of a directory
  have hleads : ∀ inum base, Leads sd inum base → ∃ sub n m j rs, base = BitVec.ofNat w n ∧
      DirAt blocksize tree sub n m ∧ (m, rs) ∈ treeTables blocksize.toNat tree ∧ j < rs.length ∧
      m + 64 * rs.length ≤ 0x100000000 ∧ 64 ∣ m ∧ inum = BitVec.ofNat w (m + 64 * j + 2) := by
    rintro inum base ⟨table, name, ht, hname⟩
    obtain ⟨sub, n, m, rfl, rfl, hdir⟩ := table_dirAt hb hholds hw hserves hdvd hroot hentry ht
    have hfind := dirAt_find hb hdir hholds hw hserves name
    cases hitem : findEntry name.chars sub with
    | none =>
        rw [hitem] at hfind
        exact absurd (hname.symm.trans hfind) (Option.some_ne_none _)
    | some item =>
        rw [hitem] at hfind
        obtain ⟨j, r, rs, hinum, htbl, hj, hend, -⟩ := hfind
        exact ⟨sub, n, m, j, rs, rfl, hdir, htbl, hj, hend, hdvd _ htbl,
          Option.some.inj (hname.symm.trans hinum)⟩
  refine ⟨fun inum base base' rec h h' _ _ => ?_, fun base h => ?_⟩
  · obtain ⟨sub, n, m, j, rs, rfl, hdir, htbl, hj, hend, -, hinum⟩ := hleads inum base h
    obtain ⟨sub', n', m', j', rs', rfl, hdir', htbl', hj', hend', -, hinum'⟩ := hleads inum base' h'
    have hplace := congrArg BitVec.toNat (hinum.symm.trans hinum')
    rw [toNat_ofNat_of_lt hw (by omega), toNat_ofNat_of_lt hw (by omega)] at hplace
    have hsame : m = m' := by
      by_contra hne
      have happart := hclear.forall htbl htbl' fun heq => hne (congrArg Prod.fst heq)
      rcases happart with hle | hle
      · simp only at hle
        omega
      · simp only at hle
        omega
    subst hsame
    rw [base_of_start hdir hdir']
  · obtain ⟨sub, n, m, j, rs, -, -, -, hj, hend, ⟨k, rfl⟩, hinum⟩ := hleads _ base h
    have hone : (SDBFS_ROOT w).toNat = 1 := toNat_ofNat_of_lt hw (n := 1) (by decide)
    rw [hinum, toNat_ofNat_of_lt hw (by omega)] at hone
    omega

end

/-! ## The mounted directory -/

/-- One more lookup at the end of a history. -/
theorem lookupPaths_snoc {sd : SdbfsDev w} {path : List DName} {cache' : ICache w}
    {r : Option (Node w)} : ∀ {paths : List (List DName)} {start cache : ICache w},
    lookupPaths sd start paths = some cache → lookupPath sd cache path = some (cache', r) →
    lookupPaths sd start (paths ++ [path]) = some cache' := by
  intro paths
  induction paths with
  | nil =>
      intro start cache hpaths hpath
      cases hpaths
      rw [List.nil_append, lookupPaths, hpath]
      rfl
  | cons p paths ih =>
      intro start cache hpaths hpath
      rw [List.cons_append, lookupPaths]
      rw [lookupPaths] at hpaths
      cases hp : lookupPath sd start p with
      | none =>
          rw [hp] at hpaths
          cases hpaths
      | some found =>
          rw [hp] at hpaths
          exact ih hpaths hpath

/-- If every path leads somewhere in the image, no lookup fails. -/
theorem lookupPaths_survive {sd : SdbfsDev w} (hindep : OrderIndependent sd)
    (hresolve : ∀ path, resolve sd path ≠ none) :
    ∀ (history : List (List DName)) {earlier : List (List DName)} {cache : ICache w},
    lookupPaths sd (mounted sd) earlier = some cache →
    ∃ cache', lookupPaths sd cache history = some cache' ∧
      lookupPaths sd (mounted sd) (earlier ++ history) = some cache' := by
  intro history
  induction history with
  | nil =>
      intro earlier cache h
      exact ⟨cache, rfl, by rw [List.append_nil, h]⟩
  | cons path history ih =>
      intro earlier cache h
      have hpath := hindep earlier cache h path
      cases hl : lookupPath sd cache path with
      | none =>
          rw [hl] at hpath
          exact absurd hpath.symm (hresolve path)
      | some found =>
          obtain ⟨next, r⟩ := found
          obtain ⟨cache', hrun, hall⟩ := ih (lookupPaths_snoc h hl)
          refine ⟨cache', ?_, by rw [← List.append_cons] at hall; exact hall⟩
          rw [lookupPaths, hl]
          exact hrun

/-- What the file system makes of an item: the inode of a file has the address, and the
    record the size, that the contents were given. -/
def Presented (blocksize : BitVec 32) (ws : List (Write Byte)) (node : Node w) : Item → Prop
  | .file file => recordType node.info = sdbTypeDevice ∧ ∃ start size,
      node.kind = .file (BitVec.ofNat w start) ∧ start + file.size ≤ 0x100000000 ∧
        addrLast node.info + 1 - addrFirst node.info = size ∧ SizeOk blocksize file size ∧
        (ws.Pairwise Write.Apart → ∀ bytes, file.contents = some bytes →
          ∀ k b, bytes[k]? = some b → imageByte ws (start + k) = b)
  | .dir _ => recordType node.info = sdbTypeBridge ∧ ∃ base table, node.kind = .directory base table

section

variable {blocksize : BitVec 32} {tree : Tree}

/-- What is shown to the file system, as it presents it. -/
theorem presented_of_shown (hpos : 0 < blocksize.toNat) (hint : blocksize.toNat < 0x80000000)
    {node : Node w} {item : Item} (h : Shown blocksize tree node item) :
    Presented blocksize (treeWritten blocksize tree) node item := by
  cases item with
  | file file =>
      obtain ⟨htype, start, size, hkind, hend, hsize, hok, hwritten⟩ := h
      refine ⟨htype, start, size, hkind, hend, hsize, hok, ?_⟩
      intro hapart bytes hc k b hk
      have hlast : lastAt (start + k) (consecutive start (filePieces blocksize file)) = some b := by
        rw [lastAt_consecutive _ (Nat.le_add_right start k), Nat.add_sub_cancel_left,
          filePieces_flatten hpos hint hc]
        exact hk
      rw [imageByte, lastAt_infix hwritten hapart hlast]
      rfl
  | dir sub =>
      obtain ⟨htype, base, start, hkind, -⟩ := h
      exact ⟨htype, _, _, hkind⟩

/-- Every table is at a multiple of 64. -/
theorem treeTables_aligned (hb : BlockSize blocksize) (hscan : ScannedTree blocksize tree) :
    ∀ tbl ∈ treeTables blocksize.toNat tree, 64 ∣ tbl.1 := by
  intro tbl htbl
  rcases List.mem_cons.mp htbl with rfl | htbl
  · exact Nat.dvd_trans (blockSize_dvd64 hb) hscan.dvd
  · exact tables_aligned (blockSize_dvd64 hb) (Nat.dvd_zero _)
      (Nat.dvd_add hscan.dvd (dvd_tableEnd _ _)) tbl htbl

/-- The entries of the top directory are laid out behind its table. -/
theorem laid_root (hb : BlockSize blocksize) (hscan : ScannedTree blocksize tree)
    (hfit : AddressesFit blocksize.toNat tree) :
    Laid blocksize tree tree.entries 0 (firstPlace blocksize.toNat tree) := by
  have hblock := block_le_tableEnd hb.pos tree.entries.count
  have hbpos := hb.pos
  refine ⟨hscan.entries, (Nat.zero_add _).symm ▸ hfit.2, Nat.dvd_zero _,
    Nat.dvd_add hscan.dvd (dvd_tableEnd _ _), ?_, fun _ h => h, (List.suffix_append _ _).isInfix⟩
  rw [firstPlace]
  omega

/-- The top directory. -/
theorem dirAt_root (hb : BlockSize blocksize) {config : Config} {dirents : Dirents}
    (hscan : ScannedTree blocksize tree) (hfit : AddressesFit blocksize.toNat tree)
    (hnames : NamesFit dirents) (htree : prepareDir blocksize config dirents = some tree) :
    DirAt blocksize tree dirents 0 tree.dot.ustart.toNat := by
  obtain ⟨hmade, hdot⟩ := prepareDir_makes hnames htree
  exact ⟨⟨tree.dot, tree.entries, firstPlace blocksize.toNat tree, hmade, hdot, hscan.dot,
    laid_root hb hscan hfit, hfit.1, List.mem_cons_self⟩, Or.inl ⟨rfl, rfl⟩⟩

/-- No lookup fails, and each leads where the image leads. -/
theorem lookups_walk (hb : BlockSize blocksize) {config : Config} {dirents : Dirents}
    (hscan : ScannedTree blocksize tree) (hnames : NamesFit dirents)
    (htree : prepareDir blocksize config dirents = some tree)
    (hfit : AddressesFit blocksize.toNat tree) (hlevels : levelsBelow tree.entries < 64)
    (hw : 32 ≤ w) {sd : SdbfsDev w} (hentry : sd.entrypoint = BitVec.ofNat w tree.dot.ustart.toNat)
    (hserves : Serves sd (treeWritten blocksize tree)) (history : List (List DName)) :
    ∃ cache, lookupPaths sd (mounted sd) history = some cache ∧
      ∀ path, ∃ cache' r, lookupPath sd cache path = some (cache', r) ∧
        walk (imageGraph sd) (rootNode sd) path = some r := by
  have hholds := treeWritten_holds hb hscan.dvd hlevels
  have hroot := dirAt_root hb hscan hfit hnames htree
  have hdvd := treeTables_aligned hb hscan
  have hindep : OrderIndependent sd := (orderIndependent_iff sd).trans
    (transparent_iff.trans determined_iff) |>.mpr
      (oneBase hb hholds hw hserves hdvd (treeTables_pairwise hb hscan.dvd hlevels) hroot hentry)
  have hshown : Shown blocksize tree (rootNode sd) (.dir dirents) :=
    ⟨rfl, 0, tree.dot.ustart.toNat, congrArg (Kind.directory 0) hentry, hroot⟩
  have hresolve : ∀ path, resolve sd path ≠ none := by
    intro path hnone
    have hpath := walk_shown hb hholds hw hserves hdvd path hshown
    rw [resolve] at hnone
    cases hitem : itemAt (.dir dirents) path with
    | none =>
        rw [hitem] at hpath
        exact absurd (hnone.symm.trans hpath) (by simp)
    | some item =>
        rw [hitem] at hpath
        obtain ⟨node, hpath, -⟩ := hpath
        exact absurd (hnone.symm.trans hpath) (by simp)
  obtain ⟨cache, hrun, -⟩ := @lookupPaths_survive w sd hindep hresolve history [] _ rfl
  refine ⟨cache, hrun, fun path => ?_⟩
  have hpath := hindep history cache hrun path
  cases hlook : lookupPath sd cache path with
  | none =>
      rw [hlook] at hpath
      exact absurd hpath.symm (hresolve path)
  | some found =>
      rw [hlook] at hpath
      exact ⟨found.1, found.2, rfl, hpath.symm⟩

end

/-! ## A directory in a directory -/

/-- A device that reads an image as far as it goes. -/
def imageDev (ws : List (Write Byte)) (size : BitVec 32) : SdbfsDev 32 where
  entrypoint := 0
  size := size
  fixEndian := false
  littleEndian := true
  read := fun begin count =>
    (min count (size.toNat - begin.toNat), fun i => imageByte ws (begin.toNat + i.val))

/-- It serves the records of the image. -/
theorem imageDev_serves {ws : List (Write Byte)} {size : BitVec 32} (h : fileSize ws = size.toNat) :
    Serves (imageDev ws size) ws := by
  refine ⟨fun p hp => ?_⟩
  have hsize := size.isLt
  have hnat : (BitVec.ofNat 32 p).toNat = p := toNat_ofNat_of_lt (Nat.le_refl 32) (by omega)
  have hcount : (min 64 (size.toNat - (BitVec.ofNat 32 p).toNat) : Int) = 64 := by
    rw [hnat]
    omega
  rw [readRecord]
  simp only [imageDev, hnat] at hcount ⊢
  rw [if_pos (by exact_mod_cast hcount)]
  rfl

/-- In the small image no byte is written twice. -/
theorem nested_apart : nestedWrites.Pairwise Write.Apart := by
  have hscan : ScannedTree 64 (nestedTree (readable [0xaa, 0xbb] (by decide))) :=
    prepareDir_scanned (nested_ok _) (nested_scan _)
  rw [nestedWrites, writeSdb_eq blockSize_64 hscan nested_fit, List.nil_append,
    pairwise_treeWritten blockSize_64 hscan nested_fit.2]
  refine ⟨trivial, trivial, ?_⟩
  rintro k (h | h)
  · have hend : 384 + 64 * k < 320 + 2 := h.2
    omega
  · exact h.elim

theorem nested_names (f : RegularFile) : NamesFit (nested f) := by
  have hname : ∀ c : Byte, (hc : c ≠ 0x20) → (hn : (0 : Byte) ∉ [c]) → FieldName ⟨[c], hn⟩ :=
    fun c hc _ => ⟨List.cons_ne_nil _ _, (by decide : 1 ≤ 19), fun h => hc (Option.some.inj h)⟩
  exact ⟨hname 0x64 (by decide) _, ⟨hname 0x66 (by decide) _, trivial⟩, hname 0x67 (by decide) _,
    trivial⟩

/-- The name "d". -/
def nameD : DName := ⟨[0x64], by decide⟩

end GensdbfsMounted
