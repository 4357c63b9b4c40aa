import FpgaConfigSpace.GensdbfsMounted
import FpgaConfigSpace.SdbfsReaddir
import FpgaConfigSpace.SdbfsReadLoop

/-! # A mounted image, listed and read

    `sdbfs_readdir` and `sdbfs_read` on the inodes that paths lead to in an image of
    `gensdbfs`.  A directory is listed with the names it was made of.  A file is read from the
    place that its record names, which is counted from its directory: what is in the top
    directory is read where it stands, and what is below it is not. -/

namespace GensdbfsBrowsed

open BigEndian SdbRecord SdbFields SdbfsInode SdbfsInodeCache SdbfsTree SdbfsFile SdbfsReadLoop
open SdbfsReaddir FileCursor CyclicBuffer FileWrites Blocks MemoWalk
open Gensdbfs GensdbfsLayout GensdbfsConfig GensdbfsInput GensdbfsApart GensdbfsTables GensdbfsScan
open GensdbfsFlat GensdbfsMounted SdbExtractFields
open GensdbfsMain (filePieces_flatten)

variable {w : Nat}

/-- A driver serves the image of a directory, as it is: bytes are not swapped. -/
structure ServesImage (blocksize : BitVec 32) (config : Config) (dirents : Dirents) (tree : Tree)
    (sd : SdbfsDev w) (storage : BitVec w → Byte) (ws : List (Write Byte)) : Prop where
  block : BlockSize blocksize
  int : blocksize.toNat < 0x80000000
  input : InputOk blocksize.toNat config dirents
  names : NamesFit dirents
  made : prepareDir blocksize config dirents = some tree
  fit : AddressesFit blocksize.toNat tree
  levels : levelsBelow tree.entries < 64
  writes : (writeSdb blocksize (allocStorage blocksize tree) ⟨0, []⟩).writes = ws
  size : fileSize ws ≤ 0x100000000
  wide : 32 ≤ w ∧ w ≤ 64
  entry : sd.entrypoint = tree.dot.ustart.setWidth w
  plain : (sd.fixEndian && sd.littleEndian) = false
  serves : SdbfsReadLoop.Serves sd storage
  image : ∀ p < fileSize ws, storage (BitVec.ofNat w p) = imageByte ws p

section

variable {blocksize : BitVec 32} {config : Config} {dirents : Dirents} {tree : Tree}
  {sd : SdbfsDev w} {storage : BitVec w → Byte} {ws : List (Write Byte)}

theorem ServesImage.scanned (h : ServesImage blocksize config dirents tree sd storage ws) :
    ScannedTree blocksize tree := prepareDir_scanned h.input h.made

theorem ServesImage.written (h : ServesImage blocksize config dirents tree sd storage ws) :
    treeWritten blocksize tree = ws := by
  rw [← h.writes, writeSdb_eq h.block h.scanned h.fit, List.nil_append]

/-- Records are read as they are. -/
theorem ServesImage.records (h : ServesImage blocksize config dirents tree sd storage ws) :
    GensdbfsMounted.Serves sd (treeWritten blocksize tree) := by
  rw [h.written]
  refine ⟨fun p hp => ?_⟩
  have hsize := h.size
  obtain ⟨hret, hbytes⟩ := h.serves (BitVec.ofNat 32 p) 64
  have hbegin : (BitVec.ofNat 32 p).setWidth w = BitVec.ofNat w p := by
    apply BitVec.eq_of_toNat_eq
    rw [BitVec.toNat_setWidth, BitVec.toNat_ofNat, BitVec.toNat_ofNat,
      Nat.mod_eq_of_lt (show p < 2 ^ 32 by omega)]
  rw [readRecord]
  simp only [hret]
  rw [if_pos (by rfl), sdbfsFixEndian, h.plain, if_neg Bool.false_ne_true]
  refine congrArg some (funext fun i => ?_)
  have hi := i.isLt
  rw [hbytes i, hbegin, ← BitVec.ofNat_add, h.image _ (by omega)]
  rfl

/-- The entry point is where the top table is. -/
theorem ServesImage.start (h : ServesImage blocksize config dirents tree sd storage ws) :
    sd.entrypoint = BitVec.ofNat w tree.dot.ustart.toNat := by
  rw [h.entry, eq_ofNat tree.dot.ustart, setWidth_ofNat tree.dot.ustart.isLt, ← eq_ofNat]

/-- The tables are in the image. -/
theorem ServesImage.holds (h : ServesImage blocksize config dirents tree sd storage ws) :
    ∀ tbl ∈ treeTables blocksize.toNat tree, Holds (treeWritten blocksize tree) tbl :=
  treeWritten_holds h.block h.scanned.dvd h.levels

/-! ## Directories on a path -/

/-- A path to a directory leads to its table; only the top directory has no base. -/
theorem walk_dir (h : ServesImage blocksize config dirents tree sd storage ws)
    {path : List DName} {sub : Dirents} (hitem : itemAt (.dir dirents) path = some (.dir sub)) :
    ∃ node base start, walk (imageGraph sd) (rootNode sd) path = some (some node) ∧
      node.kind = .directory (BitVec.ofNat w base) (BitVec.ofNat w start) ∧
      DirAt blocksize tree sub base start ∧ (path = [] → base = 0) := by
  have hroot := dirAt_root h.block h.scanned h.fit h.names h.made
  have hrootKind : (rootNode sd).kind =
      .directory (BitVec.ofNat w 0) (BitVec.ofNat w tree.dot.ustart.toNat) :=
    congrArg (Kind.directory 0) h.start
  cases path with
  | nil =>
      rw [itemAt_nil] at hitem
      cases hitem
      exact ⟨rootNode sd, 0, _, rfl, hrootKind, hroot, fun _ => rfl⟩
  | cons name names =>
      have hwalk := walk_shown h.block h.holds h.wide.1 h.records
        (treeTables_aligned h.block h.scanned) (name :: names)
        (show Shown blocksize tree (rootNode sd) (.dir dirents) from ⟨rfl, 0, _, hrootKind, hroot⟩)
      rw [hitem] at hwalk
      obtain ⟨node, hwalk, -, base, start, hkind, hdir⟩ := hwalk
      exact ⟨node, base, start, hwalk, hkind, hdir, fun hnil => by cases hnil⟩

/-- A path is followed to its directory first. -/
theorem itemAt_append (item : Item) (names names' : List DName) :
    itemAt item (names ++ names') = (itemAt item names).bind fun item' => itemAt item' names' := by
  induction names generalizing item with
  | nil => rw [itemAt_nil, List.nil_append, Option.bind_some]
  | cons name names ih =>
      rw [List.cons_append, itemAt_cons, itemAt_cons item name names, Option.bind_assoc]
      exact congrArg (Option.bind _) (funext fun item' => ih item')

/-- So it is in a graph. -/
theorem walk_append {κ α ν : Type} (G : Graph κ α ν) (names names' : List α) : ∀ {v u : ν},
    walk G v names = some (some u) → walk G v (names ++ names') = walk G u names' := by
  induction names with
  | nil =>
      intro v u h
      cases h
      rfl
  | cons a names ih =>
      intro v u h
      rw [List.cons_append, walk]
      rw [walk] at h
      cases hfind : G.find v a with
      | none =>
          rw [hfind] at h
          cases h
      | some k =>
          rw [hfind] at h
          simp only at h ⊢
          cases hmake : G.make v k with
          | none =>
              rw [hmake] at h
              cases h
          | some u' =>
              rw [hmake] at h
              exact ih h

/-- A path to a file leads to its record, with the base of the directory that it is in. -/
theorem walk_file (h : ServesImage blocksize config dirents tree sd storage ws)
    {path : List DName} {name : DName} {file : RegularFile}
    (hitem : itemAt (.dir dirents) (path ++ [name]) = some (.file file)) :
    ∃ dir base start r, walk (imageGraph sd) (rootNode sd) path = some (some dir) ∧
      dir.kind = .directory (BitVec.ofNat w base) (BitVec.ofNat w start) ∧
      (path = [] → base = 0) ∧ walk (imageGraph sd) (rootNode sd) (path ++ [name]) =
        some (some ⟨r, kindOf (BitVec.ofNat w base) r⟩) ∧
      Stands blocksize tree base r (.file file) := by
  rw [itemAt_append] at hitem
  obtain ⟨item, hnames, hname⟩ := Option.bind_eq_some_iff.mp hitem
  cases item with
  | file file' => cases hname
  | dir sub =>
      rw [itemAt_name] at hname
      obtain ⟨dir, base, start, hwalk, hkind, hdir, htop⟩ := walk_dir h hnames
      obtain ⟨inum, r, hfind, hmake, hstands⟩ := step_stands h.block hkind hdir h.holds h.wide.1
        h.records (treeTables_aligned h.block h.scanned) hname
      refine ⟨dir, base, start, r, hwalk, hkind, htop, ?_, hstands⟩
      rw [walk_append _ _ _ hwalk]
      simp only [walk, hfind, hmake]

/-! ## The directory is listed -/

/-- The names of a directory, and whether they are directories themselves. -/
def entryNames : Dirents → List (List Byte × Bool)
  | .nil => []
  | .file name _ rest => (name.chars, false) :: entryNames rest
  | .other _ rest => entryNames rest
  | .lost _ rest => entryNames rest
  | .dir name _ _ rest => (name.chars, true) :: entryNames rest

/-- The listing of a directory: the interconnect has a name as well. -/
def dirListing (dirents : Dirents) : List (List Byte × Bool) :=
  ([0x2e], true) :: ([0x2e, 0x2e], true) :: (dotName.chars, false) :: entryNames dirents

/-- The name and the type that `filldir` is given of a record. -/
def shownInfo (info : Info) : List Byte × Bool :=
  (info.name, recordType info.record == sdbTypeBridge)

/-- The records of a table are shown as the entries they were made of. -/
theorem shownInfo_records {d : Dirents} {e : Entries} (hmade : Makes d e) : ∀ {pos : Nat},
    Scanned blocksize e →
    (layoutRecords blocksize.toNat e pos).map (fun r => shownInfo (infoOf r)) = entryNames d := by
  induction hmade with
  | nil => exact fun _ => rfl
  | other _ ih => exact ih
  | @file n file rest f e hentry hrest ih =>
      rintro pos ⟨hfile, hscan⟩
      have htype : recordType (placedRecord f.record pos f.size.toNat) = sdbTypeDevice :=
        (recordType_placedRecord _ _ _).trans hfile.type_eq
      rw [layoutRecords, List.map_cons, entryNames, ih hscan, shownInfo, infoOf_placed hentry]
      show (n.chars, recordType (placedRecord f.record pos f.size.toNat) == sdbTypeBridge) :: _ = _
      rw [htype]
      rfl
  | @dir n config sub rest f dot s e hentry hdot hsub hrest _ ih =>
      rintro pos ⟨⟨-, hbridge⟩, -, -, hscan⟩
      have htype : recordType (placedRecord (setSdbChild f.record (BitVec.ofNat 64 pos)) pos
          (subSize blocksize.toNat f s)) = sdbTypeBridge :=
        (recordType_placedRecord _ _ _).trans hbridge
      rw [layoutRecords, List.map_cons, entryNames, ih hscan, shownInfo, infoOf_bridge hentry]
      show (n.chars, recordType (placedRecord (setSdbChild f.record (BitVec.ofNat 64 pos)) pos
        (subSize blocksize.toNat f s)) == sdbTypeBridge) :: _ = _
      rw [htype]
      rfl

/-- The table of a directory is read whole. -/
theorem dirAt_table (h : ServesImage blocksize config dirents tree sd storage ws) {sub : Dirents}
    {base start : Nat} (hdir : DirAt blocksize tree sub base start) :
    ∃ files, TableRead sd (BitVec.ofNat w start) files ∧
      files.map shownInfo = (dotName.chars, false) :: entryNames sub := by
  obtain ⟨dot, e, pos, hmade, hdot, hscanned, hlaid, hend, htbl⟩ := hdir.made
  have hreads := h.records.readsTable (h.holds _ htbl)
  have htable := isTable_tableHead (lastByte blocksize.toNat e pos pos) hscanned.table
  have hlen := layoutTable_length blocksize.toNat dot e pos
  have hcount : (sdbRecords (tableHead dot (lastByte blocksize.toNat e pos pos))).toNat =
      (layoutTable blocksize.toNat dot e pos).length := by
    rw [sdbRecords_tableHead, hscanned.records_eq, hlen]
  refine ⟨(layoutTable blocksize.toNat dot e pos).map infoOf,
    ⟨tableHead dot (lastByte blocksize.toNat e pos pos), ?_, htable.2, ?_⟩, ?_⟩
  · rw [setWidth_ofNat32 h.wide.1 (by omega)]
    exact hreads 0 _ rfl
  · rw [hcount]
    exact readRecords_table h.wide.1 hreads (by rw [hlen]; exact hend)
  · rw [List.map_map, layoutTable, List.map_cons]
    refine congrArg₂ List.cons ?_ (shownInfo_records hmade hlaid.scanned)
    show shownInfo (infoOf _) = _
    rw [shownInfo, infoOf_head hdot]
    refine congrArg (Prod.mk _) ?_
    show (recordType (tableHead dot (lastByte blocksize.toNat e pos pos)) == sdbTypeBridge) = false
    rw [htable.1]
    rfl

/-- What a listing shows of its entries. -/
def shownEntry (x : Dirent w) : List Byte × Bool := (x.name, x.isDir)

theorem shownEntry_records (number : Nat → BitVec w) (files : List Info) : ∀ i : Nat,
    (recordEntries number i files).map shownEntry = files.map shownInfo := by
  induction files with
  | nil => exact fun _ => rfl
  | cons info files ih => exact fun i => congrArg (List.cons _) (ih (i + 1))

end

/-! ## A file is read -/

/-- `sdbfs_read` called again and again on an open file: the position, and what every call has
    copied. -/
def readCalls (sd : SdbfsDev w) (info : Record) : Nat → List Nat → Option (Nat × List (List Byte))
  | offp, [] => some (offp, [])
  | offp, count :: counts =>
      (sdbfsRead sd info count offp).bind fun r =>
        (readCalls sd info r.offp counts).map fun rest => (rest.1, r.copied.map Copied.byte :: rest.2)

/-- The bytes of a device, from an address on. -/
def bytesFrom (storage : BitVec w → Byte) (start : BitVec w) (size : Nat) : List Byte :=
  load (fun p => storage (start + BitVec.ofNat w p)) 0 size

theorem bytesFrom_length (storage : BitVec w → Byte) (start : BitVec w) (size : Nat) :
    (bytesFrom storage start size).length = size := load_length _ _ _

/-- Byte `k` of a range of the storage. -/
theorem bytesFrom_getElem? (storage : BitVec w → Byte) (start : BitVec w) {size k : Nat}
    (hk : k < size) :
    (bytesFrom storage start size)[k]? = some (storage (start + BitVec.ofNat w k)) := by
  simp [bytesFrom, load, hk]

section

variable {sd : SdbfsDev w} {storage : BitVec w → Byte} {info : Record} {place size : Nat}

/-- A record whose range is below 2^32. -/
structure PlacedAt (w : Nat) (info : Record) (place size : Nat) : Prop where
  start : (fileStart info : BitVec w) = BitVec.ofNat w place
  length : (SdbfsFile.fileSize info : BitVec w).toNat = size
  end_le : place + size ≤ 0x100000000

/-- **A call for one chunk delivers it**, from the position on. -/
theorem sdbfsRead_chunk (hw : 32 ≤ w) (hs : SdbfsReadLoop.Serves sd storage)
    (hp : PlacedAt w info place size) {count offp : Nat} (hcount : count ≤ 16) (hoffp : offp ≤ size) :
    ∃ r, sdbfsRead sd info count offp = some r ∧
      r.copied.map Copied.byte = delivered (bytesFrom storage (fileStart info) size) offp ⟨none, count⟩ ∧
      r.offp = next (bytesFrom storage (fileStart info) size) offp ⟨none, count⟩ := by
  have hend := hp.end_le
  obtain ⟨all, hread, hstored, -, hlen⟩ := @sdbfsRead_serves w sd storage hs info count offp
    (by rw [hp.length]; exact hoffp)
  have hbounded : boundedCount w info count offp = min count (size - offp) := by
    rw [boundedCount, hp.length, Nat.mod_eq_of_lt (show offp + count < 0x10000000000000000 by omega)]
    split <;> omega
  rw [hbounded] at hlen
  have hall : all.length = min count (size - offp) := hlen.mpr (Or.inl (by omega))
  have hdelivered := delivered_length (bytesFrom storage (fileStart info) size) offp ⟨none, count⟩
  rw [bytesFrom_length] at hdelivered
  have hdelivered : (delivered (bytesFrom storage (fileStart info) size) offp ⟨none, count⟩).length =
      min count (size - offp) := hdelivered
  have hbytes : all.map Copied.byte =
      delivered (bytesFrom storage (fileStart info) size) offp ⟨none, count⟩ := by
    refine List.ext_getElem? fun k => ?_
    by_cases hk : k < all.length
    · have hsum : place + offp < 0x100000000 := by omega
      have haddr := sdbfsRead_addr hread (List.getElem?_eq_getElem hk)
      have hplace : (fileStart info : BitVec w).toNat = place := by
        rw [hp.start, toNat_ofNat_of_lt hw (by omega)]
      have hbegin : (readBegin (fileStart info : BitVec w) offp).setWidth w =
          BitVec.ofNat w (place + offp) := by
        apply BitVec.eq_of_toNat_eq
        rw [readBegin, hplace, BitVec.toNat_setWidth, BitVec.toNat_ofNat, BitVec.toNat_ofNat,
          Nat.mod_eq_of_lt hsum]
      rw [hbegin, Nat.mod_eq_of_lt (by omega), ← BitVec.ofNat_add] at haddr
      have hchunk : (delivered (bytesFrom storage (fileStart info) size) offp ⟨none, count⟩)[k]? =
          (bytesFrom storage (fileStart info) size)[offp + k]? := by
        show ((((bytesFrom storage (fileStart info) size).drop offp).take count))[k]? = _
        rw [List.getElem?_take_of_lt (by omega), List.getElem?_drop]
      rw [List.getElem?_map, List.getElem?_eq_getElem hk, Option.map_some,
        hstored _ (List.getElem_mem hk), haddr, hchunk, bytesFrom_getElem? _ _ (by omega), hp.start,
        ← BitVec.ofNat_add, Nat.add_assoc]
    · rw [List.getElem?_eq_none (by rw [List.length_map]; omega), List.getElem?_eq_none (by omega)]
  refine ⟨_, hread, hbytes, ?_⟩
  show offp + all.length = _
  have hnil : delivered (bytesFrom storage (fileStart info) size) offp ⟨none, count⟩ = [] ↔ all.length = 0 := by
    rw [← List.length_eq_zero_iff, hdelivered, hall]
  rw [next]
  by_cases hzero : all.length = 0
  · rw [if_pos (hnil.mpr hzero), hzero, Nat.add_zero]
  · rw [if_neg (hnil.not.mpr hzero), hdelivered, hall]
    rfl

/-- Calls for one chunk each read the file from front to end. -/
theorem readCalls_run (hw : 32 ≤ w) (hs : SdbfsReadLoop.Serves sd storage)
    (hp : PlacedAt w info place size) : ∀ {counts : List Nat} {offp : Nat},
    (∀ count ∈ counts, count ≤ 16) → offp ≤ size →
    readCalls sd info offp counts = some (run (bytesFrom storage (fileStart info) size) offp
      (counts.map fun count => ⟨none, count⟩)) := by
  intro counts
  induction counts with
  | nil => exact fun _ _ => rfl
  | cons count counts ih =>
      intro offp hcounts hoffp
      obtain ⟨r, hread, hbytes, hnext⟩ := sdbfsRead_chunk hw hs hp
        (hcounts count List.mem_cons_self) hoffp
      have hle : next (bytesFrom storage (fileStart info) size) offp ⟨none, count⟩ ≤
          (bytesFrom storage (fileStart info) size).length := by
        refine next_le (by rw [bytesFrom_length]; exact hoffp) fun p hplace => ?_
        cases hplace
      rw [← hnext, bytesFrom_length] at hle
      rw [readCalls, hread, Option.bind_some,
        ih (fun c hc => hcounts c (List.mem_cons_of_mem _ hc)) hle, Option.map_some, List.map_cons,
        run_cons, hbytes, hnext]

/-- Every byte is read once, and enough calls read all of them. -/
theorem readCalls_all (hw : 32 ≤ w) (hs : SdbfsReadLoop.Serves sd storage)
    (hp : PlacedAt w info place size) {counts : List Nat} (hcounts : ∀ count ∈ counts, count ≤ 16) :
    ∃ offp parts, readCalls sd info 0 counts = some (offp, parts) ∧
      parts.flatten ++ (bytesFrom storage (fileStart info) size).drop offp = bytesFrom storage (fileStart info) size ∧
      ((∀ count ∈ counts, 0 < count) → size ≤ counts.length →
        parts.flatten = bytesFrom storage (fileStart info) size) := by
  have hgo : ∀ r ∈ counts.map fun count => (⟨none, count⟩ : Request), r.place = none := by
    intro r hr
    obtain ⟨count, -, rfl⟩ := List.mem_map.mp hr
    rfl
  have hall := @run_append Byte (bytesFrom storage (fileStart info) size) 0 _ hgo
  refine ⟨_, _, readCalls_run hw hs hp hcounts (Nat.zero_le _), hall, fun hpos henough => ?_⟩
  rw [run_end (Nat.zero_le _) ?_ ?_, List.drop_length, List.append_nil] at hall
  · exact hall
  · intro r hr
    obtain ⟨count, hcount, rfl⟩ := List.mem_map.mp hr
    exact ⟨rfl, hpos count hcount⟩
  · rw [bytesFrom_length, List.length_map]
    omega

end

section

variable {blocksize : BitVec 32} {config : Config} {dirents : Dirents} {tree : Tree}
  {sd : SdbfsDev w} {storage : BitVec w → Byte} {ws : List (Write Byte)}

/-- The contents of a file are where its record says, counted from the base. -/
theorem stands_bytes (h : ServesImage blocksize config dirents tree sd storage ws)
    (hapart : ws.Pairwise Write.Apart) {file : RegularFile} {place : Nat}
    (hwritten : consecutive place (filePieces blocksize file) <:+: treeWritten blocksize tree)
    {bytes : List Byte} (hc : file.contents = some bytes) {k : Nat} {b : Byte}
    (hk : bytes[k]? = some b) : storage (BitVec.ofNat w (place + k)) = b := by
  rw [← h.written] at hapart
  have hlast : lastAt (place + k) (consecutive place (filePieces blocksize file)) = some b := by
    rw [lastAt_consecutive _ (Nat.le_add_right place k), Nat.add_sub_cancel_left,
      filePieces_flatten h.block.pos h.int hc]
    exact hk
  have hin := lastAt_infix hwritten hapart hlast
  rw [h.written] at hin
  have hcov : Covers ws (place + k) := by
    by_contra hnot
    rw [lastAt_of_not_covers hnot] at hin
    cases hin
  rw [h.image _ (lt_fileSize hcov), imageByte, hin]
  rfl

end

/-! ## The directory "d" is listed, the file "g" is read -/

/-- An image at the start of a device. -/
def imageStorage (ws : List (Write Byte)) (addr : BitVec 32) : Byte := imageByte ws addr.toNat

/-- A driver serves the image of the small directory. -/
theorem nested_serves : ServesImage 64 [] (nested (readable [0xaa, 0xbb] (by decide)))
    (nestedTree (readable [0xaa, 0xbb] (by decide))) (storageDev (imageStorage nestedWrites))
    (imageStorage nestedWrites) nestedWrites where
  block := blockSize_64
  int := by decide
  input := nested_ok _
  names := nested_names _
  made := nested_scan _
  fit := nested_fit
  levels := by decide
  writes := rfl
  size := by rw [nested_fileSize]; decide
  wide := ⟨by decide, by decide⟩
  entry := rfl
  plain := rfl
  serves := fun _ _ => ⟨rfl, fun _ => rfl⟩
  image := by
    intro p hp
    rw [nested_fileSize] at hp
    rw [imageStorage, toNat_ofNat_of_lt (Nat.le_refl 32) (by omega)]

/-- The name "g". -/
def nameG : DName := ⟨[0x67], by decide⟩

end GensdbfsBrowsed
