import FpgaConfigSpace.Lib.FileCursor
import FpgaConfigSpace.SdbfsInode

/-! # Reading a directory

    `sdbfs_readdir` hands ".", ".." and the records of the table to `filldir` until that refuses,
    and goes on from `f_pos` when it is called again.  Its `offset` is that of the table, and stays
    that for all the records. -/

namespace SdbfsReaddir

open BigEndian SdbRecord SdbfsInode FileCursor

variable {w : Nat}

/-! ## `sdbfs_readdir` -/

/-- What `filldir` is given. -/
structure Dirent (w : Nat) where
  name : List Byte
  pos : Nat
  ino : BitVec w
  isDir : Bool

/-- The numbers of a directory and its parent, and its `base_sdb`. -/
structure Directory (w : Nat) where
  ino : BitVec w
  parentIno : BitVec w
  baseSdb : BitVec w

/-- `f_pos` of the open directory, and `files` of its inode. -/
structure OpenDir where
  fPos : Nat
  files : List Info

/-- The entry of the directory itself. -/
def dotEntry (dir : Directory w) : Dirent w := ⟨[0x2e], 0, dir.ino, true⟩

/-- The entry of its parent. -/
def dotdotEntry (dir : Directory w) : Dirent w := ⟨[0x2e, 0x2e], 1, dir.parentIno, true⟩

/-- A record, as it is handed to `filldir`. -/
def recordEntry (info : Info) (i : Nat) (ino : BitVec w) : Dirent w :=
  ⟨info.name, i + 2, ino, recordType info.record == sdbTypeBridge⟩

/-- The loop over the records that are left; `filldir` has room for some of them. -/
def fillRecords (offset : BitVec w) : (left : List Info) → (i room : Nat) → List (Dirent w)
  | [], _, _ => []
  | _ :: _, _, 0 => []
  | info :: left, i, room + 1 =>
      recordEntry info i (SDBFS_INO offset) :: fillRecords offset left (i + 1) room

/-- "Then our stuff". -/
def fillTable (sd : SdbfsDev w) (dir : Directory w) (s : OpenDir) (room : Nat) :
    OpenDir × List (Dirent w) :=
  let files := if s.files = [] then readWholeDir sd dir.baseSdb else s.files
  let entries := fillRecords dir.baseSdb (files.drop (s.fPos - 2)) (s.fPos - 2) room
  (⟨s.fPos + entries.length, files⟩, entries)

/-- ".." -/
def fillDotdot (sd : SdbfsDev w) (dir : Directory w) (s : OpenDir) (room : Nat) :
    OpenDir × List (Dirent w) :=
  if s.fPos = 1 then
    match room with
    | 0 => (s, [])
    | room + 1 =>
        let r := fillTable sd dir { s with fPos := 2 } room
        (r.1, dotdotEntry dir :: r.2)
  else fillTable sd dir s room

/-- `sdbfs_readdir`, with a `filldir` that takes some entries and refuses the next one. -/
def sdbfsReaddir (sd : SdbfsDev w) (dir : Directory w) (s : OpenDir) (room : Nat) :
    OpenDir × List (Dirent w) :=
  if s.fPos = 0 then
    match room with
    | 0 => (s, [])
    | room + 1 =>
        let r := fillDotdot sd dir { s with fPos := 1 } room
        (r.1, dotEntry dir :: r.2)
  else fillDotdot sd dir s room

/-- One call after the other: where they leave the directory, and what each of them emits. -/
def readdirCalls (sd : SdbfsDev w) (dir : Directory w) : OpenDir → List Nat →
    OpenDir × List (List (Dirent w))
  | s, [] => (s, [])
  | s, room :: rooms =>
      let r := sdbfsReaddir sd dir s room
      let rest := readdirCalls sd dir r.1 rooms
      (rest.1, r.2 :: rest.2)

/-! ## What is to be emitted -/

/-- The records of a table, with inode numbers. -/
def recordEntries (number : Nat → BitVec w) : (i : Nat) → List Info → List (Dirent w)
  | _, [] => []
  | i, info :: files => recordEntry info i (number i) :: recordEntries number (i + 1) files

/-- A directory, with inode numbers for the records. -/
def listing (number : Nat → BitVec w) (dir : Directory w) (files : List Info) : List (Dirent w) :=
  dotEntry dir :: dotdotEntry dir :: recordEntries number 0 files

/-- The number of the inode of a record. -/
def recordIno (dir : Directory w) (i : Nat) : BitVec w :=
  SDBFS_INO (dir.baseSdb + 64 * BitVec.ofNat w i)

/-- The table of a directory can be read. -/
structure TableRead (sd : SdbfsDev w) (base : BitVec w) (files : List Info) : Prop where
  intercon : ∃ r, readRecord sd (base.setWidth 32) = some r ∧ sdbMagic r = SDB_MAGIC ∧
    readRecords sd (sdbRecords r).toNat base = some files

/-- The calls emit ".", ".." and the records once each, in the order of the table, and what is not
    emitted yet is behind `f_pos`; enough calls that make progress emit everything.  The numbers are
    those of `sdbfs_lookup`, and all different. -/
structure ReaddirRight (sd : SdbfsDev w) (dir : Directory w) (files : List Info) : Prop where
  once : ∀ cached, cached = [] ∨ cached = files → ∀ rooms,
    (readdirCalls sd dir ⟨0, cached⟩ rooms).2.flatten ++
      (listing (recordIno dir) dir files).drop (readdirCalls sd dir ⟨0, cached⟩ rooms).1.fPos =
        listing (recordIno dir) dir files
  all : ∀ cached, cached = [] ∨ cached = files → ∀ rooms, (∀ room ∈ rooms, 0 < room) →
    files.length + 2 ≤ rooms.length →
      (readdirCalls sd dir ⟨0, cached⟩ rooms).2.flatten = listing (recordIno dir) dir files
  lookup : ∀ name i, (files.findIdx? fun info => info.name == name) = some i →
    entryInum files dir.baseSdb name =
      (((listing (recordIno dir) dir files).drop 2)[i]?).map Dirent.ino
  distinct : ((listing (recordIno dir) dir files).drop 2).Pairwise fun a b => a.ino ≠ b.ino

/-! ## A call is a read from `f_pos` on -/

/-- All records are shown with the number of the first one. -/
theorem fillRecords_eq (offset : BitVec w) (left : List Info) : ∀ i room : Nat,
    fillRecords offset left i room =
      (recordEntries (fun _ => SDBFS_INO offset) i left).take room := by
  induction left with
  | nil => exact fun i room => (List.take_nil).symm
  | cons info left ih =>
      intro i room
      cases room with
      | zero => rfl
      | succ room => exact congrArg (List.cons _) (ih (i + 1) room)

/-- The entries from one of them on. -/
theorem recordEntries_drop (number : Nat → BitVec w) (files : List Info) : ∀ i k : Nat,
    (recordEntries number i files).drop k = recordEntries number (i + k) (files.drop k) := by
  induction files with
  | nil => exact fun i k => by rw [List.drop_nil]; exact List.drop_nil
  | cons info files ih =>
      intro i k
      cases k with
      | zero => rfl
      | succ k =>
          rw [recordEntries, List.drop_succ_cons, List.drop_succ_cons, ih (i + 1) k,
            Nat.add_right_comm, Nat.add_assoc]

/-- There is an entry for every record. -/
theorem recordEntries_length (number : Nat → BitVec w) (files : List Info) : ∀ i : Nat,
    (recordEntries number i files).length = files.length := by
  induction files with
  | nil => exact fun _ => rfl
  | cons info files ih => exact fun i => congrArg (· + 1) (ih (i + 1))

/-- A table that is read without an error. -/
theorem readWholeDir_eq {sd : SdbfsDev w} {base : BitVec w} {files : List Info}
    (h : TableRead sd base files) : readWholeDir sd base = files := by
  obtain ⟨r, hread, hmagic, hrecords⟩ := h.intercon
  rw [readWholeDir, hread]
  simp only [hmagic, ne_eq, not_true_eq_false, if_false, hrecords, Option.getD_some]

/-- What the code emits: the number of the first record for all of them. -/
def codeListing (dir : Directory w) (files : List Info) : List (Dirent w) :=
  listing (fun _ => SDBFS_INO dir.baseSdb) dir files

/-- The listing behind the two dots. -/
theorem codeListing_drop (dir : Directory w) (files : List Info) (k : Nat) :
    (codeListing dir files).drop (k + 2) =
      recordEntries (fun _ => SDBFS_INO dir.baseSdb) k (files.drop k) := by
  rw [codeListing, listing, List.drop_succ_cons, List.drop_succ_cons, recordEntries_drop,
    Nat.zero_add]

section

variable {sd : SdbfsDev w} {dir : Directory w} {files : List Info}
  (hread : TableRead sd dir.baseSdb files)

include hread

/-- The table is in the inode, or read now. -/
theorem cached_eq {cached : List Info} (hcached : cached = [] ∨ cached = files) :
    (if cached = [] then readWholeDir sd dir.baseSdb else cached) = files := by
  rw [readWholeDir_eq hread]
  split
  · rfl
  · next hne => exact hcached.resolve_left hne

/-- Where a call leaves the directory, and what it emits. -/
structure CallOf (dir : Directory w) (files : List Info) (s : OpenDir) (room : Nat)
    (r : OpenDir × List (Dirent w)) : Prop where
  emitted : r.2 = ((codeListing dir files).drop s.fPos).take room
  moved : r.1.fPos = s.fPos + r.2.length
  cached : r.1.files = [] ∨ r.1.files = files

/-- A call from the third entry on, from the second, and from any. -/
theorem fillTable_call {s : OpenDir} (hcached : s.files = [] ∨ s.files = files)
    (hpos : 2 ≤ s.fPos) (room : Nat) : CallOf dir files s room (fillTable sd dir s room) := by
  obtain ⟨k, hk⟩ := Nat.exists_eq_add_of_le' hpos
  rw [fillTable, cached_eq hread hcached]
  refine ⟨?_, rfl, Or.inr rfl⟩
  rw [hk, Nat.add_sub_cancel, codeListing_drop]
  exact fillRecords_eq _ _ _ _

theorem fillDotdot_call {s : OpenDir} (hcached : s.files = [] ∨ s.files = files)
    (hpos : 1 ≤ s.fPos) (room : Nat) : CallOf dir files s room (fillDotdot sd dir s room) := by
  rw [fillDotdot.eq_def]
  by_cases hone : s.fPos = 1
  · rw [if_pos hone]
    cases room with
    | zero => exact ⟨List.take_zero.symm, rfl, hcached⟩
    | succ room =>
        have hrest := @fillTable_call _ sd dir files hread { s with fPos := 2 } hcached
          (Nat.le_refl 2) room
        refine ⟨?_, ?_, hrest.cached⟩
        · rw [hone]
          exact congrArg (List.cons _) hrest.emitted
        · rw [hone, hrest.moved, List.length_cons, Nat.add_comm _ 1, ← Nat.add_assoc]
  · rw [if_neg hone]
    exact fillTable_call hread hcached (by omega) room

theorem sdbfsReaddir_call {s : OpenDir} (hcached : s.files = [] ∨ s.files = files) (room : Nat) :
    CallOf dir files s room (sdbfsReaddir sd dir s room) := by
  rw [sdbfsReaddir.eq_def]
  by_cases hzero : s.fPos = 0
  · rw [if_pos hzero]
    cases room with
    | zero => exact ⟨List.take_zero.symm, rfl, hcached⟩
    | succ room =>
        have hrest := @fillDotdot_call _ sd dir files hread { s with fPos := 1 } hcached
          (Nat.le_refl 1) room
        refine ⟨?_, ?_, hrest.cached⟩
        · rw [hzero]
          exact congrArg (List.cons _) hrest.emitted
        · rw [hzero, hrest.moved, List.length_cons, Nat.add_comm _ 1, ← Nat.add_assoc]
  · rw [if_neg hzero]
    exact fillDotdot_call hread hcached (by omega) room

omit hread in
/-- A call moves `f_pos` as a read moves its position. -/
theorem CallOf.next {s : OpenDir} {room : Nat} {r : OpenDir × List (Dirent w)}
    (h : CallOf dir files s room r) :
    r.2 = delivered (codeListing dir files) s.fPos ⟨none, room⟩ ∧
      r.1.fPos = FileCursor.next (codeListing dir files) s.fPos ⟨none, room⟩ := by
  have hemitted : r.2 = delivered (codeListing dir files) s.fPos ⟨none, room⟩ := h.emitted
  refine ⟨hemitted, ?_⟩
  rw [h.moved, FileCursor.next, ← hemitted]
  split
  · next hnil => rw [hnil, List.length_nil, Nat.add_zero]
  · rfl

/-- **Calls of `sdbfs_readdir` are reads of the listing, each from where the last one stopped.** -/
theorem readdirCalls_run (rooms : List Nat) : ∀ {s : OpenDir}, s.files = [] ∨ s.files = files →
    (readdirCalls sd dir s rooms).1.fPos =
        (run (codeListing dir files) s.fPos (rooms.map fun room => ⟨none, room⟩)).1 ∧
      (readdirCalls sd dir s rooms).2 =
        (run (codeListing dir files) s.fPos (rooms.map fun room => ⟨none, room⟩)).2 := by
  induction rooms with
  | nil => exact fun _ => ⟨rfl, rfl⟩
  | cons room rooms ih =>
      intro s hcached
      have hcall := sdbfsReaddir_call hread hcached room
      obtain ⟨hemitted, hpos⟩ := hcall.next
      obtain ⟨hend, hrest⟩ := ih hcall.cached
      rw [hpos] at hend hrest
      refine ⟨hend, ?_⟩
      rw [List.map_cons, run_cons, ← hrest, ← hemitted]
      rfl

/-- Whatever is emitted is emitted once and in order. -/
theorem readdirCalls_once {cached : List Info} (hcached : cached = [] ∨ cached = files)
    (rooms : List Nat) :
    (readdirCalls sd dir ⟨0, cached⟩ rooms).2.flatten ++
      (codeListing dir files).drop (readdirCalls sd dir ⟨0, cached⟩ rooms).1.fPos =
        codeListing dir files := by
  obtain ⟨hpos, hemitted⟩ := @readdirCalls_run _ sd dir files hread rooms ⟨0, cached⟩ hcached
  rw [hpos, hemitted]
  refine run_append fun r hr => ?_
  obtain ⟨room, -, rfl⟩ := List.mem_map.mp hr
  rfl

/-- Calls that make progress emit everything. -/
theorem readdirCalls_all {cached : List Info} (hcached : cached = [] ∨ cached = files)
    {rooms : List Nat} (hrooms : ∀ room ∈ rooms, 0 < room)
    (henough : files.length + 2 ≤ rooms.length) :
    (readdirCalls sd dir ⟨0, cached⟩ rooms).2.flatten = codeListing dir files := by
  have hlength : (codeListing dir files).length = files.length + 2 :=
    congrArg (· + 2) (recordEntries_length _ _ _)
  have honce := readdirCalls_once hread hcached rooms
  obtain ⟨hpos, -⟩ := @readdirCalls_run _ sd dir files hread rooms ⟨0, cached⟩ hcached
  rw [hpos, run_end (Nat.zero_le _), List.drop_length, List.append_nil] at honce
  · exact honce
  · intro r hr
    obtain ⟨room, hroom, rfl⟩ := List.mem_map.mp hr
    exact ⟨rfl, hrooms room hroom⟩
  · rw [hlength, List.length_map]
    exact henough

end

/-! ## The numbers -/

/-- As many records are read as are counted. -/
theorem readRecords_length {sd : SdbfsDev w} : ∀ {n : Nat} {offset : BitVec w} {files : List Info},
    readRecords sd n offset = some files → files.length = n := by
  intro n
  induction n with
  | zero =>
      intro offset files h
      cases h
      rfl
  | succ n ih =>
      intro offset files h
      rw [readRecords] at h
      split at h
      · cases h
      · obtain ⟨rest, hrest, rfl⟩ := Option.map_eq_some_iff.mp h
        exact congrArg (· + 1) (ih hrest)

/-- A table has fewer than 65536 records. -/
theorem TableRead.length_lt {sd : SdbfsDev w} {base : BitVec w} {files : List Info}
    (h : TableRead sd base files) : files.length < 0x10000 := by
  obtain ⟨r, -, -, hrecords⟩ := h.intercon
  rw [readRecords_length hrecords]
  exact (sdbRecords r).isLt

/-- The numbers that `sdbfs_lookup` uses are different. -/
theorem recordIno_injective (hw : 32 ≤ w) (dir : Directory w) {i j : Nat} (hi : i < 0x10000)
    (hj : j < 0x10000) (h : recordIno dir i = recordIno dir j) : i = j := by
  have hpow : 2 ^ 32 ≤ 2 ^ w := Nat.pow_le_pow_right (by decide) hw
  have hof : ∀ k : Nat, k < 0x10000 → (64 * BitVec.ofNat w k).toNat = 64 * k := by
    intro k hk
    have h64 : (64 : BitVec w).toNat = 64 :=
      Nat.mod_eq_of_lt (Nat.lt_of_lt_of_le (by decide : 64 < 2 ^ 32) hpow)
    rw [BitVec.toNat_mul, h64, BitVec.toNat_ofNat, Nat.mul_mod_mod]
    exact Nat.mod_eq_of_lt (by omega)
  have hsame : 64 * BitVec.ofNat w i = 64 * BitVec.ofNat w j := by
    rw [recordIno, recordIno, SDBFS_INO, SDBFS_INO, BitVec.add_left_inj, BitVec.add_right_inj] at h
    exact h
  have hnat := congrArg BitVec.toNat hsame
  rw [hof i hi, hof j hj] at hnat
  omega

/-- An entry of a record has its number. -/
theorem recordEntries_getElem? (number : Nat → BitVec w) (files : List Info) : ∀ i k : Nat,
    (recordEntries number i files)[k]? =
      (files[k]?).map fun info => recordEntry info (i + k) (number (i + k)) := by
  induction files with
  | nil => exact fun _ _ => rfl
  | cons info files ih =>
      intro i k
      cases k with
      | zero => rfl
      | succ k =>
          rw [recordEntries, List.getElem?_cons_succ, List.getElem?_cons_succ, ih (i + 1) k,
            Nat.add_right_comm, Nat.add_assoc]

/-- So are those of the entries. -/
theorem pairwise_recordEntries {number : Nat → BitVec w} {n : Nat}
    (hinj : ∀ i j, i < n → j < n → number i = number j → i = j) (files : List Info) :
    ∀ i : Nat, i + files.length ≤ n →
      (recordEntries number i files).Pairwise fun a b => a.ino ≠ b.ino := by
  induction files with
  | nil => exact fun _ _ => List.Pairwise.nil
  | cons info files ih =>
      intro i hn
      rw [List.length_cons] at hn
      refine List.Pairwise.cons (fun b hb heq => ?_) (ih (i + 1) (by omega))
      obtain ⟨k, hk⟩ := List.mem_iff_getElem?.mp hb
      rw [recordEntries_getElem?] at hk
      obtain ⟨info', hinfo, rfl⟩ := Option.map_eq_some_iff.mp hk
      have hlt := (List.getElem?_eq_some_iff.mp hinfo).1
      have hsame : number i = number (i + 1 + k) := heq
      have hcontra := hinj i (i + 1 + k) (by omega) (by omega) hsame
      omega

/-- One number for all the records is right for one record. -/
theorem codeListing_eq_iff (hw : 32 ≤ w) (dir : Directory w) (files : List Info) :
    codeListing dir files = listing (recordIno dir) dir files ↔ files.length ≤ 1 := by
  have hfirst : recordIno dir 0 = SDBFS_INO dir.baseSdb := by
    rw [recordIno]
    exact congrArg SDBFS_INO (by simp)
  constructor
  · intro h
    refine Nat.le_of_not_lt fun hmany => ?_
    have hsecond := congrArg (fun l : List (Dirent w) => l[3]?) h
    simp only [codeListing, listing, List.getElem?_cons_succ, recordEntries_getElem?,
      List.getElem?_eq_getElem hmany, Option.map_some, Option.some.injEq, recordEntry,
      Dirent.mk.injEq, true_and, and_true, Nat.zero_add] at hsecond
    rw [← hfirst] at hsecond
    exact absurd (recordIno_injective hw dir (by decide) (by decide) hsecond) (by decide)
  · intro h
    cases files with
    | nil => rfl
    | cons info files =>
        have hnil : files = [] := List.eq_nil_of_length_eq_zero (by rw [List.length_cons] at h; omega)
        rw [hnil, codeListing, listing, listing, recordEntries, ← hfirst]
        rfl

/-- **`sdbfs_readdir` is right exactly for the tables with one record at most.** -/
theorem readdir_right_iff (hw : 32 ≤ w) {sd : SdbfsDev w} {dir : Directory w} {files : List Info}
    (hread : TableRead sd dir.baseSdb files) :
    ReaddirRight sd dir files ↔ files.length ≤ 1 := by
  rw [← codeListing_eq_iff hw dir files]
  constructor
  · intro h
    -- one entry in every call
    have hones : ∀ room ∈ List.replicate (files.length + 2) 1, 0 < room :=
      fun room hroom => List.eq_of_mem_replicate hroom ▸ Nat.one_pos
    have henough : files.length + 2 ≤ (List.replicate (files.length + 2) 1).length :=
      Nat.le_of_eq List.length_replicate.symm
    exact (readdirCalls_all hread (Or.inl rfl) hones henough).symm.trans
      (h.all [] (Or.inl rfl) _ hones henough)
  · intro h
    refine ⟨fun cached hcached rooms => ?_, fun cached hcached rooms hrooms henough => ?_,
      fun name i hfind => ?_, ?_⟩
    · rw [← h]
      exact readdirCalls_once hread hcached rooms
    · rw [← h]
      exact readdirCalls_all hread hcached hrooms henough
    · have hlt := (List.findIdx?_eq_some_iff_getElem.mp hfind).1
      rw [entryInum, hfind, listing, List.drop_succ_cons, List.drop_succ_cons, List.drop_zero,
        recordEntries_getElem?, List.getElem?_eq_getElem hlt, Nat.zero_add]
      rfl
    · refine pairwise_recordEntries (n := 0x10000) (fun i j hi hj => recordIno_injective hw dir hi hj)
        files 0 ?_
      have hlt := hread.length_lt
      omega

/-! ## Two tables -/

/-- A table that has nothing but its interconnect. -/
def aloneBytes : List Byte := [0x53, 0x44, 0x42, 0x2d, 0, 1, 1, 1] ++ List.replicate 56 0

/-- The root directory of a device that starts with its table. -/
def rootDirectory : Directory 32 := ⟨SDBFS_ROOT 32, SDBFS_ROOT 32, 0⟩

theorem readdir_right_alone : ∃ files,
    TableRead (bytesDev aloneBytes) rootDirectory.baseSdb files ∧ files.length = 1 ∧
      ReaddirRight (bytesDev aloneBytes) rootDirectory files := by
  obtain ⟨files, hfiles⟩ : ∃ files, readRecords (bytesDev aloneBytes) 1 0 = some files := ⟨_, rfl⟩
  have hread : TableRead (bytesDev aloneBytes) rootDirectory.baseSdb files :=
    ⟨⟨_, rfl, by decide, hfiles⟩⟩
  have hlength := readRecords_length hfiles
  exact ⟨files, hread, hlength, (readdir_right_iff (Nat.le_refl 32) hread).mpr (Nat.le_of_eq hlength)⟩

/-- The records of a table of three are all emitted with the number of the first. -/
theorem readdir_wrong : ∃ files, TableRead (bytesDev sharedBytes) rootDirectory.baseSdb files ∧
    files.length = 3 ∧ rootDirectory.baseSdb.toNat % 64 = 0 ∧
    ((readdirCalls (bytesDev sharedBytes) rootDirectory ⟨0, []⟩ [5]).2.flatten.map Dirent.ino =
      [1, 1, 2, 2, 2]) ∧ ¬ ReaddirRight (bytesDev sharedBytes) rootDirectory files := by
  have hsome : (readRecords (bytesDev sharedBytes) 3 0).isSome = true := by decide +kernel
  have hhead : (readRecord (bytesDev sharedBytes) 0).map (fun r => (sdbMagic r, (sdbRecords r).toNat)) =
      some (SDB_MAGIC, 3) := by decide +kernel
  obtain ⟨files, hfiles⟩ := Option.isSome_iff_exists.mp hsome
  obtain ⟨r, hr, hfields⟩ := Option.map_eq_some_iff.mp hhead
  obtain ⟨hmagic, hcount⟩ := Prod.mk.inj hfields
  have hread : TableRead (bytesDev sharedBytes) rootDirectory.baseSdb files :=
    ⟨⟨r, hr, hmagic, hcount ▸ hfiles⟩⟩
  have hlength := readRecords_length hfiles
  refine ⟨files, hread, hlength, rfl, by decide +kernel, fun h => ?_⟩
  have hones : ∀ room ∈ List.replicate 5 1, 0 < room :=
    fun room hroom => List.eq_of_mem_replicate hroom ▸ Nat.one_pos
  have henough : files.length + 2 ≤ (List.replicate 5 1).length := by rw [hlength]; decide
  have hall := h.all [] (Or.inl rfl) _ hones henough
  have hcode := readdirCalls_all hread (Or.inl rfl) hones henough
  have hone := (codeListing_eq_iff (Nat.le_refl 32) rootDirectory files).mp (hcode.symm.trans hall)
  rw [hlength] at hone
  exact absurd hone (by decide)

end SdbfsReaddir
