import FpgaConfigSpace.Lib.Trace
import FpgaConfigSpace.SdbfsInode

/-! # The tables that kernel inodes hold

    `sdbfs_read_whole_dir`, `sdbfs_readdir`, `sdbfs_lookup`, `sdbfs_alloc_inode` and
    `sdbfs_destroy_inode` of `sdbfs-inode.c`, as far as the array `files` goes: where
    it is allocated, filled, read and freed, and the count `nfiles`, which doubles as
    the flag that the directory has been read.

    A ledger numbers the arrays in the order of their allocation, keeps their
    contents, and counts how often each was freed.  The slab cache has no
    constructor, so the memory of a new inode holds what was there before.  `sd` is
    the device as it answers when it does; in any call it may fail to answer, and
    memory may be short.  `ι` names an inode. -/

namespace SdbfsLedger

open BigEndian SdbRecord SdbfsInode Trace

variable {ι : Type} {w : Nat}

/-- "I/O error", as the kernel numbers it. -/
def EIO : Int := 5

/-- "Out of memory". -/
def ENOMEM : Int := 12

/-- "Invalid argument". -/
def EINVAL : Int := 22

/-! ## The arrays -/

/-- A pointer to `struct sdbfs_info`: `NULL`, what `kmalloc` returns for no bytes, an
    array, or an address that was never an array. -/
inductive Ptr where
  | null
  | zeroSize
  | array (n : Nat)
  | stray (addr : Nat)
deriving DecidableEq

/-- The arrays that were allocated, with their contents, and how often each was freed. -/
structure Ledger where
  count : Nat
  contents : Nat → List Info
  frees : Nat → Nat
  /-- how often something was freed that is no array -/
  strays : Nat

/-- `kmalloc` of an array of `nfiles` members, which may fail. -/
def Ledger.kmalloc (l : Ledger) (available : Bool) (nfiles : Nat) : Ptr × Ledger :=
  if nfiles = 0 then (.zeroSize, l)
  else if available then (.array l.count, { l with count := l.count + 1 })
  else (.null, l)

/-- What is written to the members of an array. -/
def Ledger.store (l : Ledger) (files : Ptr) (infos : List Info) : Ledger :=
  match files with
  | .array n => { l with contents := Function.update l.contents n infos }
  | _ => l

/-- `kfree`, which does nothing for a null pointer. -/
def Ledger.kfree (l : Ledger) : Ptr → Ledger
  | .null => l
  | .zeroSize => l
  | .array n => { l with frees := Function.update l.frees n (l.frees n + 1) }
  | .stray _ => { l with strays := l.strays + 1 }

/-- Member `i` of a live array. -/
def Ledger.member (l : Ledger) (files : Ptr) (i : Nat) : Option Info :=
  match files with
  | .array n => if n < l.count ∧ l.frees n = 0 then (l.contents n)[i]? else none
  | _ => none

/-! ## The functions -/

/-- `struct sdbfs_inode`, without the record it was made from. -/
structure Inode (w : Nat) where
  nfiles : Int
  files : Ptr
  baseSdb : BitVec w

/-- What the environment of one call does: is there memory for one record and for the
    table, and which device reads fail, in their order. -/
structure Answers where
  header : Bool
  table : Bool
  fails : Nat → Bool

/-- The `i`-th device read of a call. -/
def readAt (sd : SdbfsDev w) (io : Answers) (i : Nat) (offset : BitVec w) : Option Record :=
  if io.fails i then none else readRecord sd (offset.setWidth 32)

/-- The loop of `sdbfs_read_whole_dir`: the members that were filled, and whether all
    of them were. -/
def fillTable (sd : SdbfsDev w) (io : Answers) : Nat → Nat → BitVec w → List Info × Bool
  | 0, _, _ => ([], true)
  | n + 1, i, offset =>
      match readAt sd io (i + 1) offset with
      | none => ([], false)
      | some r =>
          let rest := fillTable sd io n (i + 1) (offset + 64)
          (infoOf r :: rest.1, rest.2)

/-- `sdbfs_read_whole_dir`, when it knows the number of records. -/
def fetchTable (sd : SdbfsDev w) (io : Answers) (n : Nat) (inode : Inode w) (l : Ledger) :
    Inode w × Ledger × Int :=
  let inode := { inode with nfiles := n }
  let p := l.kmalloc io.table n
  if p.1 = .null then ({ inode with nfiles := 0 }, p.2, -ENOMEM)
  else
    let inode := { inode with files := p.1 }
    let filled := fillTable sd io n 0 inode.baseSdb
    let l := p.2.store p.1 filled.1
    if filled.2 then (inode, l, 0)
    else ({ inode with nfiles := 0 }, l.kfree p.1, - EIO)

/-- `sdbfs_read_whole_dir`, behind the check of `nfiles`. -/
def readTable (sd : SdbfsDev w) (io : Answers) (inode : Inode w) (l : Ledger) :
    Inode w × Ledger × Int :=
  if !io.header then (inode, l, -ENOMEM)
  else
    match readAt sd io 0 inode.baseSdb with
    | none => (inode, l, - EIO)
    | some intercon =>
        if sdbMagic intercon ≠ SDB_MAGIC then (inode, l, -EINVAL)
        else fetchTable sd io (sdbRecords intercon).toNat inode l

/-- `sdbfs_read_whole_dir`. -/
def sdbfsReadWholeDir (sd : SdbfsDev w) (io : Answers) (inode : Inode w) (l : Ledger) :
    Inode w × Ledger × Int :=
  if inode.nfiles ≠ 0 then (inode, l, 0) else readTable sd io inode l

/-- One call of `filldir`. -/
structure Dirent (w : Nat) where
  name : List Byte
  inum : BitVec w
  pos : Nat
  type : Nat

/-- The type of a directory. -/
def DT_DIR : Nat := 4

/-- The type of a regular file. -/
def DT_REG : Nat := 8

/-- The loop of `sdbfs_readdir`; `none` if it reads what is no member of a live array. -/
def listFiles (l : Ledger) (inode : Inode w) (filldir : Nat → Bool) :
    Nat → Nat → Option (List (Dirent w))
  | 0, _ => some []
  | n + 1, i =>
      match l.member inode.files i with
      | none => none
      | some info =>
          let type := if recordType info.record = sdbTypeBridge then DT_DIR else DT_REG
          if !filldir (i + 2) then some []
          else (listFiles l inode filldir n (i + 1)).map
            (⟨info.name, SDBFS_INO inode.baseSdb, i + 2, type⟩ :: ·)

/-- The entries `.` and `..`, as far as they are asked for and taken, and the position
    behind them; `none` if `filldir` does not take one. -/
def listDots (filldir : Nat → Bool) (ino parent : BitVec w) (fPos : Nat) :
    List (Dirent w) × Option Nat :=
  if fPos = 0 ∧ filldir 0 = false then ([], none)
  else
    let dot := if fPos = 0 then [⟨[0x2e], ino, 0, DT_DIR⟩] else []
    if fPos ≤ 1 ∧ filldir 1 = false then (dot, none)
    else if fPos ≤ 1 then (dot ++ [⟨[0x2e, 0x2e], parent, 1, DT_DIR⟩], some 2)
    else (dot, some fPos)

/-- What a call does to the inode and the arrays, the result of
    `sdbfs_read_whole_dir` if it was called, and the result of the call, unless it
    reads what is no member of a live array. -/
structure Access (w : Nat) (ρ : Type) where
  inode : Inode w
  ledger : Ledger
  read : Option Int
  result : Option ρ

/-- `sdbfs_readdir`. -/
def sdbfsReaddir (sd : SdbfsDev w) (io : Answers) (filldir : Nat → Bool) (ino parent : BitVec w)
    (fPos : Nat) (inode : Inode w) (l : Ledger) : Access w (List (Dirent w)) :=
  match listDots filldir ino parent fPos with
  | (dots, none) => ⟨inode, l, none, some dots⟩
  | (dots, some pos) =>
      let r := sdbfsReadWholeDir sd io inode l
      ⟨r.1, r.2.1, some r.2.2,
        (listFiles r.2.1 r.1 filldir (r.1.nfiles.toNat - (pos - 2)) (pos - 2)).map (dots ++ ·)⟩

/-- The loop of `sdbfs_lookup`: the index of a name. -/
def findName (l : Ledger) (inode : Inode w) (name : List Byte) : Nat → Nat → Option (Option Nat)
  | 0, _ => some none
  | n + 1, i =>
      match l.member inode.files i with
      | none => none
      | some info => if info.name = name then some (some i) else findName l inode name n (i + 1)

/-- `sdbfs_lookup`: the number of the inode that `sdbfs_iget` is called with. -/
def sdbfsLookup (sd : SdbfsDev w) (io : Answers) (name : List Byte) (inode : Inode w) (l : Ledger) :
    Access w (Option (BitVec w)) :=
  let r := sdbfsReadWholeDir sd io inode l
  ⟨r.1, r.2.1, some r.2.2, (findName r.2.1 r.1 name r.1.nfiles.toNat 0).map fun found =>
    found.map fun i => SDBFS_INO (r.1.baseSdb + 64 * BitVec.ofNat w i)⟩

/-- `sdbfs_alloc_inode`: `inode_init_once` sets up the embedded `struct inode` only. -/
def sdbfsAllocInode (mem : Inode w) : Inode w := mem

/-- `sdbfs_destroy_inode`. -/
def sdbfsDestroyInode (inode : Inode w) (l : Ledger) : Ledger := l.kfree inode.files

/-! ## Runs -/

/-- The inodes and the arrays; `wasRead` is not in the source: it says of which inodes
    the directory has been read to its end. -/
structure Kernel (ι : Type) (w : Nat) where
  inodes : ι → Option (Inode w)
  wasRead : ι → Bool
  ledger : Ledger

/-- A new inode is made by `sdbfs_alloc_inode`, in memory with any contents, and given
    its `base_sdb` by `sdbfs_iget`; for a file, that is what the memory held. -/
inductive Call (ι : Type) (w : Nat) where
  | iget (i : ι) (mem : Inode w) (baseSdb : BitVec w)
  | readdir (i : ι) (io : Answers) (filldir : Nat → Bool) (ino parent : BitVec w) (fPos : Nat)
  | lookup (i : ι) (io : Answers) (name : List Byte)
  | destroy (i : ι)

section step

variable [DecidableEq ι]

/-- What an access to an inode leaves behind. -/
def Kernel.access {ρ : Type} (k : Kernel ι w) (i : ι) (inode : Inode w) (a : Access w ρ) :
    Kernel ι w where
  inodes := Function.update k.inodes i (some a.inode)
  wasRead := if inode.nfiles = 0 ∧ a.read = some 0 then Function.update k.wasRead i true
    else k.wasRead
  ledger := a.ledger

/-- One call, if there is such an inode, or none yet. -/
def step (sd : SdbfsDev w) (k : Kernel ι w) : Call ι w → Option (Kernel ι w)
  | .iget i mem baseSdb =>
      match k.inodes i with
      | some _ => none
      | none => some { k with
          inodes := Function.update k.inodes i
            (some { sdbfsAllocInode mem with baseSdb := baseSdb })
          wasRead := Function.update k.wasRead i false }
  | .readdir i io filldir ino parent fPos =>
      (k.inodes i).map fun inode =>
        k.access i inode (sdbfsReaddir sd io filldir ino parent fPos inode k.ledger)
  | .lookup i io name =>
      (k.inodes i).map fun inode => k.access i inode (sdbfsLookup sd io name inode k.ledger)
  | .destroy i =>
      (k.inodes i).map fun inode => { k with
        inodes := Function.update k.inodes i none
        ledger := sdbfsDestroyInode inode k.ledger }

end step

/-- No inodes, and no arrays. -/
def start : Kernel ι w := ⟨fun _ => none, fun _ => false, ⟨0, fun _ => [], fun _ => 0, 0⟩⟩

/-! ## What should hold -/

/-- The records of the table at `base` are these. -/
structure TableAt (sd : SdbfsDev w) (base : BitVec w) (infos : List Info) : Prop where
  intercon : ∃ r, readRecord sd (base.setWidth 32) = some r ∧ sdbMagic r = SDB_MAGIC ∧
    infos.length = (sdbRecords r).toNat
  records : ∀ i info, infos[i]? = some info →
    ∃ r, readRecord sd ((base + 64 * BitVec.ofNat w i).setWidth 32) = some r ∧ info = infoOf r

/-- The array `n` is live and holds the table of the inode. -/
structure Holds (sd : SdbfsDev w) (l : Ledger) (inode : Inode w) (n : Nat) : Prop where
  files : inode.files = .array n
  allocated : n < l.count
  live : l.frees n = 0
  nfiles : inode.nfiles = (l.contents n).length
  table : TableAt sd inode.baseSdb (l.contents n)

/-- The array is that of some inode. -/
def Kernel.Held (k : Kernel ι w) (n : Nat) : Prop :=
  ∃ i inode, k.inodes i = some inode ∧ inode.files = .array n

/-- The next access reads the directory. -/
def ReadsAgain (sd : SdbfsDev w) (inode : Inode w) (l : Ledger) : Prop :=
  ∀ io, sdbfsReadWholeDir sd io inode l = readTable sd io inode l

/-- Every inode has no table or holds one, of its own; an array is freed once, when no
    inode has it any more, and nothing else is freed; a directory that has not been
    read to its end is read again. -/
structure Sound (sd : SdbfsDev w) (k : Kernel ι w) : Prop where
  files : ∀ i inode, k.inodes i = some inode →
    (inode.nfiles = 0 ∧ inode.files = .null) ∨ ∃ n, Holds sd k.ledger inode n
  alone : ∀ i j inode inode' n, k.inodes i = some inode → k.inodes j = some inode' →
    inode.files = .array n → inode'.files = .array n → i = j
  freed : ∀ n, n < k.ledger.count →
    (k.ledger.frees n = 0 ∧ k.Held n) ∨ (k.ledger.frees n = 1 ∧ ¬ k.Held n)
  nothingElse : k.ledger.strays = 0 ∧ ∀ n, k.ledger.count ≤ n → k.ledger.frees n = 0
  again : ∀ i inode, k.inodes i = some inode → k.wasRead i = false →
    ReadsAgain sd inode k.ledger

/-- Whenever this call gets to the records of the table, there are some, and if there
    is memory for them none of their reads fails. -/
def ReadsOk (sd : SdbfsDev w) (io : Answers) (base : BitVec w) : Prop :=
  ∀ intercon, io.header = true → readAt sd io 0 base = some intercon →
    sdbMagic intercon = SDB_MAGIC → (sdbRecords intercon).toNat ≠ 0 ∧
      (io.table = true → ∀ j, j < (sdbRecords intercon).toNat →
        readAt sd io (j + 1) (base + 64 * BitVec.ofNat w j) ≠ none)

/-- The memory of a new inode is zero where `nfiles` and `files` are, and a call that
    reads a directory reads the whole table, or nothing of it. -/
def Careful (sd : SdbfsDev w) (k : Kernel ι w) : Call ι w → Prop
  | .iget _ mem _ => mem.nfiles = 0 ∧ mem.files = .null
  | .readdir i io filldir ino parent fPos => (listDots filldir ino parent fPos).2 ≠ none →
      ∀ inode, k.inodes i = some inode → inode.nfiles = 0 → ReadsOk sd io inode.baseSdb
  | .lookup i io _ =>
      ∀ inode, k.inodes i = some inode → inode.nfiles = 0 → ReadsOk sd io inode.baseSdb
  | .destroy _ => True

/-! ## Reading a table -/

section read

variable {sd : SdbfsDev w} {io : Answers}

theorem offset_succ (offset : BitVec w) (j : Nat) :
    offset + 64 * BitVec.ofNat w (j + 1) = offset + 64 + 64 * BitVec.ofNat w j := by
  have hone : (64 : BitVec w) * 1#w = 64 := BitVec.mul_one 64#w
  rw [Nat.add_comm j 1, BitVec.ofNat_add, BitVec.mul_add, hone, BitVec.add_assoc]

/-- The loop fills the table if it can read every record. -/
theorem fillTable_all (n : Nat) : ∀ (i : Nat) (offset : BitVec w),
    (fillTable sd io n i offset).2 = true ↔
      ∀ j, j < n → readAt sd io (i + j + 1) (offset + 64 * BitVec.ofNat w j) ≠ none := by
  induction n with
  | zero =>
      intro i offset
      exact ⟨fun _ j hj => absurd hj (Nat.not_lt_zero j), fun _ => rfl⟩
  | succ n ih =>
      intro i offset
      have hzero : offset + 64 * BitVec.ofNat w 0 = offset := by
        rw [BitVec.mul_zero, BitVec.add_zero]
      rw [fillTable]
      cases hread : readAt sd io (i + 1) offset with
      | none =>
          constructor
          · intro h
            cases h
          · intro h
            have hfirst := h 0 (Nat.succ_pos n)
            rw [hzero] at hfirst
            exact absurd hread hfirst
      | some r =>
          refine (ih (i + 1) (offset + 64)).trans ⟨?_, ?_⟩
          · intro h j hj
            cases j with
            | zero =>
                rw [hzero, Nat.add_zero, hread]
                exact Option.some_ne_none r
            | succ j =>
                rw [offset_succ, ← Nat.add_assoc i j 1, Nat.add_right_comm i j 1]
                exact h j (Nat.lt_of_succ_lt_succ hj)
          · intro h j hj
            have hnext := h (j + 1) (Nat.succ_lt_succ hj)
            rwa [offset_succ, ← Nat.add_assoc i j 1, Nat.add_right_comm i j 1] at hnext

/-- What it fills in are the records of the table. -/
theorem fillTable_contents (n : Nat) : ∀ (i : Nat) (offset : BitVec w),
    (fillTable sd io n i offset).2 = true →
    (fillTable sd io n i offset).1.length = n ∧
      ∀ j info, (fillTable sd io n i offset).1[j]? = some info →
        ∃ r, readRecord sd ((offset + 64 * BitVec.ofNat w j).setWidth 32) = some r ∧
          info = infoOf r := by
  induction n with
  | zero =>
      intro i offset _
      refine ⟨rfl, ?_⟩
      intro j info h
      cases h
  | succ n ih =>
      intro i offset h
      rw [fillTable] at h ⊢
      cases hread : readAt sd io (i + 1) offset with
      | none =>
          rw [hread] at h
          cases h
      | some r =>
          rw [hread] at h
          obtain ⟨hlength, hrest⟩ := ih (i + 1) (offset + 64) h
          refine ⟨congrArg Nat.succ hlength, ?_⟩
          intro j info hinfo
          cases j with
          | zero =>
              cases hinfo
              rw [readAt] at hread
              split at hread
              · cases hread
              · refine ⟨r, ?_, rfl⟩
                rw [BitVec.mul_zero, BitVec.add_zero]
                exact hread
          | succ j =>
              obtain ⟨r', hr', rfl⟩ := hrest j info hinfo
              refine ⟨r', ?_, rfl⟩
              rw [offset_succ]
              exact hr'

/-- What fetching a table can do: there is no memory, and everything is as it was; or
    there is an array of the table; or it goes wrong, and the inode has no records but a
    pointer to no array, or to one that has been freed. -/
theorem fetchTable_cases {inode : Inode w} (h0 : inode.nfiles = 0) (l : Ledger) (n : Nat) :
    (n ≠ 0 ∧ io.table = false ∧ fetchTable sd io n inode l = (inode, l, -ENOMEM)) ∨
    (n ≠ 0 ∧ (fillTable sd io n 0 inode.baseSdb).2 = true ∧
      fetchTable sd io n inode l =
        ({ inode with nfiles := n, files := .array l.count },
          { l with
            count := l.count + 1
            contents := Function.update l.contents l.count (fillTable sd io n 0 inode.baseSdb).1 },
          0)) ∨
    ((n = 0 ∨ (io.table = true ∧ (fillTable sd io n 0 inode.baseSdb).2 = false)) ∧
      (fetchTable sd io n inode l).1.nfiles = 0 ∧
      ((fetchTable sd io n inode l).1.files = .zeroSize ∨
        ((fetchTable sd io n inode l).1.files = .array l.count ∧
          (fetchTable sd io n inode l).2.1.frees l.count ≠ 0))) := by
  rw [fetchTable]
  by_cases hn : n = 0
  · subst hn
    exact Or.inr (Or.inr ⟨Or.inl rfl, rfl, Or.inl rfl⟩)
  · cases htable : io.table with
    | false =>
        refine Or.inl ⟨hn, rfl, ?_⟩
        rw [Ledger.kmalloc, if_neg hn]
        rcases inode with ⟨nfiles, files, baseSdb⟩
        cases h0
        rfl
    | true =>
        have hmalloc : l.kmalloc true n = (.array l.count, { l with count := l.count + 1 }) := by
          rw [Ledger.kmalloc, if_neg hn]
          rfl
        rw [hmalloc]
        cases hfilled : (fillTable sd io n 0 inode.baseSdb).2 with
        | true =>
            refine Or.inr (Or.inl ⟨hn, rfl, ?_⟩)
            simp only [Ledger.store, hfilled]
            rfl
        | false =>
            refine Or.inr (Or.inr ⟨Or.inr ⟨rfl, rfl⟩, ?_⟩)
            simp only [Ledger.store, hfilled]
            refine ⟨rfl, Or.inr ⟨rfl, ?_⟩⟩
            simp [Ledger.kfree]

section header

variable {inode : Inode w} {intercon : Record} (hheader : io.header = true)
  (hread : readAt sd io 0 inode.baseSdb = some intercon) (hmagic : sdbMagic intercon = SDB_MAGIC)

include hheader hread hmagic

/-- Behind a good header the number of records is known. -/
theorem readTable_eq (l : Ledger) :
    readTable sd io inode l = fetchTable sd io (sdbRecords intercon).toNat inode l := by
  rw [readTable, hheader, hread]
  exact if_neg (not_not.mpr hmagic)

/-- When a table is read without an error. -/
theorem readsOk_iff : ReadsOk sd io inode.baseSdb ↔ (sdbRecords intercon).toNat ≠ 0 ∧
    (io.table = true → (fillTable sd io (sdbRecords intercon).toNat 0 inode.baseSdb).2 = true) := by
  constructor
  · intro h
    obtain ⟨hn, hall⟩ := h intercon hheader hread hmagic
    refine ⟨hn, fun htable => (fillTable_all _ 0 inode.baseSdb).mpr ?_⟩
    intro j hj
    rw [Nat.zero_add]
    exact hall htable j hj
  · rintro ⟨hn, hall⟩ intercon' _ hread' _
    rw [hread] at hread'
    cases hread'
    refine ⟨hn, ?_⟩
    intro htable j hj
    have hj' := (fillTable_all _ 0 inode.baseSdb).mp (hall htable) j hj
    rwa [Nat.zero_add] at hj'

end header

/-- What reading a directory can do, and when. -/
theorem readTable_cases {inode : Inode w} (h0 : inode.nfiles = 0) (l : Ledger) :
    (ReadsOk sd io inode.baseSdb ∧ ∃ ret, ret ≠ 0 ∧
      readTable sd io inode l = (inode, l, ret)) ∨
    (ReadsOk sd io inode.baseSdb ∧ ∃ infos, infos ≠ [] ∧ TableAt sd inode.baseSdb infos ∧
      readTable sd io inode l =
        ({ inode with nfiles := infos.length, files := .array l.count },
          { l with count := l.count + 1, contents := Function.update l.contents l.count infos },
          0)) ∨
    (¬ ReadsOk sd io inode.baseSdb ∧ (readTable sd io inode l).1.nfiles = 0 ∧
      ((readTable sd io inode l).1.files = .zeroSize ∨
        ((readTable sd io inode l).1.files = .array l.count ∧
          (readTable sd io inode l).2.1.frees l.count ≠ 0))) := by
  cases hheader : io.header with
  | false =>
      refine Or.inl ⟨?_, -ENOMEM, by decide, ?_⟩
      · intro intercon h
        rw [hheader] at h
        cases h
      · rw [readTable, hheader]
        rfl
  | true =>
      cases hread : readAt sd io 0 inode.baseSdb with
      | none =>
          refine Or.inl ⟨?_, - EIO, by decide, ?_⟩
          · intro intercon _ h
            rw [hread] at h
            cases h
          · rw [readTable, hheader, hread]
            rfl
      | some intercon =>
          by_cases hmagic : sdbMagic intercon = SDB_MAGIC
          · have hok := readsOk_iff hheader hread hmagic
            rw [readTable_eq hheader hread hmagic]
            rcases fetchTable_cases h0 l (sdbRecords intercon).toNat with
              ⟨hn, htable, hfetch⟩ | ⟨hn, hfilled, hfetch⟩ | ⟨hwhy, hbad⟩
            · refine Or.inl ⟨hok.mpr ⟨hn, ?_⟩, -ENOMEM, by decide, hfetch⟩
              intro h
              rw [htable] at h
              cases h
            · obtain ⟨hlength, hcontents⟩ := fillTable_contents _ 0 inode.baseSdb hfilled
              refine Or.inr (Or.inl ⟨hok.mpr ⟨hn, fun _ => hfilled⟩, _, ?_, ⟨?_, hcontents⟩, ?_⟩)
              · intro hnil
                rw [hnil] at hlength
                exact hn hlength.symm
              · rw [readAt] at hread
                split at hread
                · cases hread
                · exact ⟨intercon, hread, hmagic, hlength⟩
              · rw [hfetch, hlength]
            · refine Or.inr (Or.inr ⟨?_, hbad⟩)
              rw [hok]
              rintro ⟨hn, hall⟩
              rcases hwhy with h | ⟨htable, hfilled⟩
              · exact hn h
              · rw [hall htable] at hfilled
                cases hfilled
          · refine Or.inl ⟨?_, -EINVAL, by decide, ?_⟩
            · intro intercon' _ h hmagic'
              rw [hread] at h
              cases h
              exact absurd hmagic' hmagic
            · rw [readTable, hheader, hread]
              exact if_pos hmagic

end read

/-! ## One call -/

/-- What holds between calls: the property itself, and that `nfiles` tells whether the
    inode has a table, and whether its directory has been read. -/
structure Kept (sd : SdbfsDev w) (k : Kernel ι w) : Prop extends Sound sd k where
  nonempty : ∀ i inode n, k.inodes i = some inode → inode.files = .array n → inode.nfiles ≠ 0
  unread : ∀ i inode, k.inodes i = some inode → k.wasRead i = false → inode.nfiles = 0

/-- A directory without records is read again. -/
theorem readsAgain_of_zero {sd : SdbfsDev w} {inode : Inode w} (h : inode.nfiles = 0) (l : Ledger) :
    ReadsAgain sd inode l := by
  intro io
  rw [sdbfsReadWholeDir, if_neg (not_not.mpr h)]

section kept

variable {sd : SdbfsDev w} {k : Kernel ι w} {i : ι} {inode : Inode w}

/-- An array that an inode has is live. -/
theorem Kept.live (hk : Kept sd k) (hi : k.inodes i = some inode) {n : Nat}
    (hfiles : inode.files = .array n) : n < k.ledger.count ∧ k.ledger.frees n = 0 := by
  rcases hk.files i inode hi with ⟨-, hnull⟩ | ⟨n', hholds⟩
  · rw [hnull] at hfiles
    cases hfiles
  · rw [hholds.files] at hfiles
    cases hfiles
    exact ⟨hholds.allocated, hholds.live⟩

/-- An inode without records has no table. -/
theorem Kept.null (hk : Kept sd k) (hi : k.inodes i = some inode) (h0 : inode.nfiles = 0) :
    inode.files = .null := by
  rcases hk.files i inode hi with ⟨-, hnull⟩ | ⟨n, hholds⟩
  · exact hnull
  · exact absurd h0 (hk.nonempty i inode n hi hholds.files)

/-- What an inode holds does not depend on the rest of the ledger. -/
theorem Holds.frame {l l' : Ledger} {n : Nat} (h : Holds sd l inode n) (hcount : l.count ≤ l'.count)
    (hcontents : l'.contents n = l.contents n) (hfrees : l'.frees n = l.frees n) :
    Holds sd l' inode n := by
  refine ⟨h.files, Nat.lt_of_lt_of_le h.allocated hcount, ?_, ?_, ?_⟩
  · rw [hfrees]
    exact h.live
  · rw [hcontents]
    exact h.nfiles
  · rw [hcontents]
    exact h.table

variable [DecidableEq ι]

/-- An inode is the new one, or it was there. -/
theorem update_some {f : ι → Option (Inode w)} {new : Option (Inode w)} {j : ι} {x : Inode w}
    (h : Function.update f i new j = some x) : (j = i ∧ new = some x) ∨ (j ≠ i ∧ f j = some x) := by
  by_cases hj : j = i
  · subst hj
    rw [Function.update_self] at h
    exact Or.inl ⟨rfl, h⟩
  · rw [Function.update_of_ne hj] at h
    exact Or.inr ⟨hj, h⟩

/-- An array stays with who has it when an inode changes that does not. -/
theorem held_update {k' : Kernel ι w} {new : Option (Inode w)} {n : Nat}
    (hk' : k'.inodes = Function.update k.inodes i new)
    (hold : ∀ x, k.inodes i = some x → x.files ≠ .array n)
    (hnew : ∀ x, new = some x → x.files ≠ .array n) : k'.Held n ↔ k.Held n := by
  rw [Kernel.Held, hk']
  constructor
  · rintro ⟨j, x, hj, hx⟩
    rcases update_some hj with ⟨-, h⟩ | ⟨-, hj⟩
    · exact absurd hx (hnew x h)
    · exact ⟨j, x, hj, hx⟩
  · rintro ⟨j, x, hj, hx⟩
    refine ⟨j, x, ?_, hx⟩
    rw [Function.update_of_ne, hj]
    rintro rfl
    exact hold x hj hx

omit [DecidableEq ι] in
/-- Then it has been freed as often as before, and rightly so. -/
theorem Kept.freed_frame (hk : Kept sd k) {k' : Kernel ι w} {n : Nat} (hn : n < k.ledger.count)
    (hfrees : k'.ledger.frees n = k.ledger.frees n) (hheld : k'.Held n ↔ k.Held n) :
    (k'.ledger.frees n = 0 ∧ k'.Held n) ∨ (k'.ledger.frees n = 1 ∧ ¬ k'.Held n) := by
  rw [hfrees, hheld]
  exact hk.freed n hn

/-- One inode changes, is made or goes: the others are as before, this one has no table
    or one of its own, and the ledger is right. -/
theorem Kept.change (hk : Kept sd k) {k' : Kernel ι w} {new : Option (Inode w)}
    (hk' : k'.inodes = Function.update k.inodes i new)
    (hread : ∀ j, j ≠ i → k'.wasRead j = k.wasRead j)
    (hothers : ∀ j x n, j ≠ i → k.inodes j = some x → Holds sd k.ledger x n →
      Holds sd k'.ledger x n)
    (hnew : ∀ x, new = some x → (x.nfiles = 0 ∧ x.files = .null) ∨
      ∃ n, Holds sd k'.ledger x n ∧ x.nfiles ≠ 0 ∧
        ∀ j y, j ≠ i → k.inodes j = some y → y.files ≠ .array n)
    (hunread : ∀ x, new = some x → k'.wasRead i = false → x.nfiles = 0)
    (hfreed : ∀ n, n < k'.ledger.count →
      (k'.ledger.frees n = 0 ∧ k'.Held n) ∨ (k'.ledger.frees n = 1 ∧ ¬ k'.Held n))
    (hnothing : k'.ledger.strays = 0 ∧ ∀ n, k'.ledger.count ≤ n → k'.ledger.frees n = 0) :
    Kept sd k' := by
  have hown : ∀ x n, new = some x → x.files = .array n → x.nfiles ≠ 0 ∧
      ∀ j y, j ≠ i → k.inodes j = some y → y.files ≠ .array n := by
    intro x n hx hn
    rcases hnew x hx with ⟨-, hnull⟩ | ⟨n', hholds, hne, hapart⟩
    · rw [hnull] at hn
      cases hn
    · rw [hholds.files] at hn
      cases hn
      exact ⟨hne, hapart⟩
  have hzero : ∀ j x, k'.inodes j = some x → k'.wasRead j = false → x.nfiles = 0 := by
    intro j x hj hfalse
    rw [hk'] at hj
    rcases update_some hj with ⟨rfl, hx⟩ | ⟨hne, hj⟩
    · exact hunread x hx hfalse
    · rw [hread j hne] at hfalse
      exact hk.unread j x hj hfalse
  refine ⟨⟨?_, ?_, hfreed, hnothing, ?_⟩, ?_, hzero⟩
  · intro j x hj
    rw [hk'] at hj
    rcases update_some hj with ⟨rfl, hx⟩ | ⟨hne, hj⟩
    · exact (hnew x hx).imp_right fun ⟨n, hholds, _⟩ => ⟨n, hholds⟩
    · exact (hk.files j x hj).imp_right fun ⟨n, hholds⟩ => ⟨n, hothers j x n hne hj hholds⟩
  · intro j j' x x' n hj hj' hx hx'
    rw [hk'] at hj hj'
    rcases update_some hj with ⟨rfl, hjx⟩ | ⟨hne, hold⟩
    · rcases update_some hj' with ⟨rfl, -⟩ | ⟨hne', hold'⟩
      · rfl
      · exact absurd hx' ((hown x n hjx hx).2 j' x' hne' hold')
    · rcases update_some hj' with ⟨rfl, hjx'⟩ | ⟨-, hold'⟩
      · exact absurd hx ((hown x' n hjx' hx').2 j x hne hold)
      · exact hk.alone j j' x x' n hold hold' hx hx'
  · intro j x hj hfalse
    exact readsAgain_of_zero (hzero j x hj hfalse) _
  · intro j x n hj hx
    rw [hk'] at hj
    rcases update_some hj with ⟨rfl, hjx⟩ | ⟨-, hj⟩
    · exact (hown x n hjx hx).1
    · exact hk.nonempty j x n hj hx

/-- `sdbfs_alloc_inode` in zeroed memory. -/
theorem Kept.iget (hk : Kept sd k) (hi : k.inodes i = none) {mem : Inode w}
    (hnfiles : mem.nfiles = 0) (hfiles : mem.files = .null) (base : BitVec w) :
    Kept sd { k with
      inodes := Function.update k.inodes i (some { sdbfsAllocInode mem with baseSdb := base })
      wasRead := Function.update k.wasRead i false } := by
  refine hk.change (i := i) rfl ?_ ?_ ?_ ?_ ?_ hk.nothingElse
  · exact fun j hj => Function.update_of_ne hj _ _
  · exact fun _ _ _ _ _ h => h
  · rintro x hx
    cases hx
    exact Or.inl ⟨hnfiles, hfiles⟩
  · rintro x hx -
    cases hx
    exact hnfiles
  · intro n hn
    refine hk.freed_frame hn rfl (held_update (i := i) rfl ?_ ?_)
    · intro x hx
      rw [hi] at hx
      cases hx
    · rintro x hx hn
      cases hx
      have hnull : Ptr.null = .array n := hfiles.symm.trans hn
      cases hnull

/-- `sdbfs_destroy_inode`. -/
theorem Kept.destroy (hk : Kept sd k) (hi : k.inodes i = some inode) :
    Kept sd { k with
      inodes := Function.update k.inodes i none
      ledger := sdbfsDestroyInode inode k.ledger } := by
  rcases hk.files i inode hi with ⟨-, hnull⟩ | ⟨n, hholds⟩
  · -- nothing is freed
    have hledger : sdbfsDestroyInode inode k.ledger = k.ledger := by
      rw [sdbfsDestroyInode, hnull]
      rfl
    rw [hledger]
    refine hk.change (i := i) rfl (fun _ _ => rfl) (fun _ _ _ _ _ h => h)
      (fun _ h => by cases h) (fun _ h => by cases h) ?_ hk.nothingElse
    intro n hn
    refine hk.freed_frame hn rfl (held_update (i := i) rfl ?_ fun _ h => by cases h)
    intro x hx
    rw [hi] at hx
    cases hx
    rw [hnull]
    exact fun h => by cases h
  · have hledger : sdbfsDestroyInode inode k.ledger = { k.ledger with
        frees := Function.update k.ledger.frees n 1 } := by
      rw [sdbfsDestroyInode, hholds.files, Ledger.kfree, hholds.live]
    rw [hledger]
    -- nobody else has the array
    have hothers : ∀ j x, j ≠ i → k.inodes j = some x → x.files ≠ .array n := by
      intro j x hne hj hx
      exact hne (hk.alone j i x inode n hj hi hx hholds.files)
    refine hk.change (i := i) rfl (fun _ _ => rfl) ?_ (fun _ h => by cases h)
      (fun _ h => by cases h) ?_ ?_
    · intro j x n' hne hj hx
      refine hx.frame (Nat.le_refl _) rfl (Function.update_of_ne ?_ _ _)
      rintro rfl
      exact hothers j x hne hj hx.files
    · intro n' hn'
      by_cases hsame : n' = n
      · subst hsame
        right
        refine ⟨Function.update_self .., ?_⟩
        rintro ⟨j, x, hj, hx⟩
        rcases update_some hj with ⟨-, h⟩ | ⟨hne, hj⟩
        · cases h
        · exact hothers j x hne hj hx
      · refine hk.freed_frame hn' (Function.update_of_ne hsame _ _)
          (held_update (i := i) rfl ?_ fun _ h => by cases h)
        intro x hx h
        rw [hi] at hx
        cases hx
        rw [hholds.files] at h
        exact hsame (Ptr.array.inj h).symm
    · refine ⟨hk.nothingElse.1, ?_⟩
      intro n' hn'
      refine (Function.update_of_ne ?_ _ _).trans (hk.nothingElse.2 n' hn')
      rintro rfl
      exact absurd hholds.allocated (Nat.not_lt.mpr hn')

/-- A read that changes nothing. -/
theorem access_same (hi : k.inodes i = some inode) {ρ : Type} {a : Access w ρ}
    (hinode : a.inode = inode) (hledger : a.ledger = k.ledger)
    (hread : ¬ (inode.nfiles = 0 ∧ a.read = some 0)) : k.access i inode a = k := by
  rw [Kernel.access, if_neg hread, hinode, hledger, ← hi, Function.update_eq_self]

/-- The table was read, and no other one. -/
theorem wasRead_access_self {ρ : Type} {a : Access w ρ} (h : inode.nfiles = 0 ∧ a.read = some 0) :
    (k.access i inode a).wasRead i = true := by
  simp [Kernel.access, h]

theorem wasRead_access_of_ne {ρ : Type} {a : Access w ρ} {j : ι} (hj : j ≠ i) :
    (k.access i inode a).wasRead j = k.wasRead j := by
  rw [Kernel.access]
  split
  · exact Function.update_of_ne hj _ _
  · rfl

/-- A directory that is read, or has been. -/
theorem Kept.read (hk : Kept sd k) (hi : k.inodes i = some inode) {io : Answers}
    (hok : inode.nfiles = 0 → ReadsOk sd io inode.baseSdb) {ρ : Type} (result : Option ρ) :
    Kept sd (k.access i inode
      ⟨(sdbfsReadWholeDir sd io inode k.ledger).1, (sdbfsReadWholeDir sd io inode k.ledger).2.1,
        some (sdbfsReadWholeDir sd io inode k.ledger).2.2, result⟩) := by
  by_cases h0 : inode.nfiles = 0
  · rw [sdbfsReadWholeDir, if_neg (not_not.mpr h0)]
    rcases readTable_cases h0 k.ledger with
      ⟨-, ret, hret, htable⟩ | ⟨-, infos, hinfos, htable, hread⟩ | ⟨hnot, -⟩
    · -- it failed before there was an array
      rw [htable, access_same hi rfl rfl fun h => hret (Option.some.inj h.2)]
      exact hk
    · rw [hread]
      have hfresh : ∀ j x, k.inodes j = some x → x.files ≠ .array k.ledger.count :=
        fun j x hj hx => Nat.lt_irrefl _ (hk.live hj hx).1
      have hlength : (infos.length : Int) ≠ 0 := fun h =>
        hinfos (List.length_eq_zero_iff.mp (Int.ofNat.inj h))
      refine hk.change (i := i) rfl ?_ ?_ ?_ ?_ ?_ ?_
      · exact fun j hj => wasRead_access_of_ne hj
      · intro j x n _ hj hholds
        refine hholds.frame (Nat.le_succ _) (Function.update_of_ne ?_ _ _) rfl
        exact Nat.ne_of_lt hholds.allocated
      · intro x hx
        cases hx
        have hcontents : Function.update k.ledger.contents k.ledger.count infos k.ledger.count =
            infos := Function.update_self ..
        refine Or.inr ⟨k.ledger.count, ⟨rfl, Nat.lt_succ_self _, ?_, ?_, ?_⟩, hlength, ?_⟩
        · exact hk.nothingElse.2 _ (Nat.le_refl _)
        · exact congrArg (fun l => (List.length l : Int)) hcontents.symm
        · show TableAt sd inode.baseSdb
            (Function.update k.ledger.contents k.ledger.count infos k.ledger.count)
          rw [hcontents]
          exact htable
        · exact fun j y _ hj => hfresh j y hj
      · intro x _ hfalse
        rw [wasRead_access_self ⟨h0, rfl⟩] at hfalse
        cases hfalse
      · intro n hn
        by_cases hnew : n = k.ledger.count
        · subst hnew
          refine Or.inl ⟨hk.nothingElse.2 _ (Nat.le_refl _), i, _, Function.update_self .., rfl⟩
        · have hlt : n < k.ledger.count := Nat.lt_of_le_of_ne (Nat.le_of_lt_succ hn) hnew
          refine hk.freed_frame hlt rfl (held_update (i := i) rfl ?_ ?_)
          · intro x hx h
            rw [hi] at hx
            cases hx
            rw [hk.null hi h0] at h
            cases h
          · rintro x hx h
            cases hx
            exact hnew (Ptr.array.inj h).symm
      · exact ⟨hk.nothingElse.1, fun n hn => hk.nothingElse.2 n (Nat.le_of_succ_le hn)⟩
    · exact absurd (hok h0) hnot
  · rw [sdbfsReadWholeDir, if_pos h0, access_same hi rfl rfl fun h => h0 h.1]
    exact hk

/-- A read that gets stuck, or finds no records, leaves the inode without a live array. -/
theorem not_sound_read {io : Answers} (h0 : inode.nfiles = 0)
    (hnot : ¬ ReadsOk sd io inode.baseSdb) {ρ : Type} (result : Option ρ) :
    ¬ Sound sd (k.access i inode
      ⟨(sdbfsReadWholeDir sd io inode k.ledger).1, (sdbfsReadWholeDir sd io inode k.ledger).2.1,
        some (sdbfsReadWholeDir sd io inode k.ledger).2.2, result⟩) := by
  rw [sdbfsReadWholeDir, if_neg (not_not.mpr h0)]
  rcases readTable_cases h0 k.ledger with ⟨hok, -⟩ | ⟨hok, -⟩ | ⟨-, -, hbad⟩
  · exact absurd hok hnot
  · exact absurd hok hnot
  · intro hsound
    rcases hsound.files i _ (Function.update_self ..) with ⟨-, hnull⟩ | ⟨n, hholds⟩
    · rcases hbad with hzero | ⟨harray, -⟩
      · have h := hzero.symm.trans hnull
        cases h
      · have h := harray.symm.trans hnull
        cases h
    · rcases hbad with hzero | ⟨harray, hfreed⟩
      · have h := hzero.symm.trans hholds.files
        cases h
      · have h := harray.symm.trans hholds.files
        cases h
        exact hfreed hholds.live

/-- Nor has an inode one that is made of memory with something else in it. -/
theorem not_sound_iget (hk : Kept sd k) (hi : k.inodes i = none) {mem : Inode w}
    (hmem : ¬ (mem.nfiles = 0 ∧ mem.files = .null)) (base : BitVec w) :
    ¬ Sound sd { k with
      inodes := Function.update k.inodes i (some { sdbfsAllocInode mem with baseSdb := base })
      wasRead := Function.update k.wasRead i false } := by
  intro hsound
  rcases hsound.files i _ (Function.update_self ..) with h | ⟨n, hholds⟩
  · exact hmem h
  · -- a live array belongs to another inode
    rcases hk.freed n hholds.allocated with ⟨-, j, x, hj, hx⟩ | ⟨hone, -⟩
    · have hne : j ≠ i := by
        rintro rfl
        rw [hi] at hj
        cases hj
      have hj' : Function.update k.inodes i (some { sdbfsAllocInode mem with baseSdb := base }) j =
          some x := by rwa [Function.update_of_ne hne]
      exact hne (hsound.alone j i x _ n hj' (Function.update_self ..) hx hholds.files)
    · rw [hholds.live] at hone
      cases hone

end kept

/-! ## Every run -/

section run

variable {sd : SdbfsDev w} [DecidableEq ι] {k k' : Kernel ι w} {c : Call ι w}

/-- A careful call keeps everything. -/
theorem Kept.step (hk : Kept sd k) (hc : Careful sd k c)
    (hstep : SdbfsLedger.step sd k c = some k') : Kept sd k' := by
  cases c with
  | iget i mem base =>
      rw [SdbfsLedger.step] at hstep
      cases hi : k.inodes i with
      | some inode =>
          rw [hi] at hstep
          cases hstep
      | none =>
          rw [hi] at hstep
          cases hstep
          exact hk.iget hi hc.1 hc.2 base
  | readdir i io filldir ino parent fPos =>
      obtain ⟨inode, hi, rfl⟩ := Option.map_eq_some_iff.mp hstep
      rw [sdbfsReaddir]
      cases hdots : listDots filldir ino parent fPos with
      | mk dots pos =>
          cases pos with
          | none =>
              rw [access_same hi rfl rfl fun h => by cases h.2]
              exact hk
          | some pos =>
              refine hk.read hi (fun h0 => hc ?_ inode hi h0) _
              rw [hdots]
              exact Option.some_ne_none pos
  | lookup i io name =>
      obtain ⟨inode, hi, rfl⟩ := Option.map_eq_some_iff.mp hstep
      exact hk.read hi (hc inode hi) _
  | destroy i =>
      obtain ⟨inode, hi, rfl⟩ := Option.map_eq_some_iff.mp hstep
      exact hk.destroy hi

/-- One that is not breaks the property at once. -/
theorem not_sound_step (hk : Kept sd k) (hc : ¬ Careful sd k c)
    (hstep : SdbfsLedger.step sd k c = some k') : ¬ Sound sd k' := by
  cases c with
  | iget i mem base =>
      rw [SdbfsLedger.step] at hstep
      cases hi : k.inodes i with
      | some inode =>
          rw [hi] at hstep
          cases hstep
      | none =>
          rw [hi] at hstep
          cases hstep
          exact not_sound_iget hk hi hc base
  | readdir i io filldir ino parent fPos =>
      obtain ⟨inode, hi, rfl⟩ := Option.map_eq_some_iff.mp hstep
      rw [Careful] at hc
      push Not at hc
      obtain ⟨hpos, inode', hi', h0, hnot⟩ := hc
      rw [hi] at hi'
      cases hi'
      rw [sdbfsReaddir]
      cases hdots : listDots filldir ino parent fPos with
      | mk dots pos =>
          cases pos with
          | none =>
              rw [hdots] at hpos
              exact absurd rfl hpos
          | some pos => exact not_sound_read h0 hnot _
  | lookup i io name =>
      obtain ⟨inode, hi, rfl⟩ := Option.map_eq_some_iff.mp hstep
      rw [Careful] at hc
      push Not at hc
      obtain ⟨inode', hi', h0, hnot⟩ := hc
      rw [hi] at hi'
      cases hi'
      exact not_sound_read h0 hnot _
  | destroy i => exact absurd trivial hc

omit [DecidableEq ι] in
/-- The invariant holds in the beginning. -/
theorem kept_start : Kept sd (start : Kernel ι w) := by
  refine ⟨⟨?_, ?_, ?_, ⟨rfl, fun _ _ => rfl⟩, ?_⟩, ?_, ?_⟩
  · intro i inode h
    cases h
  · intro i j inode inode' n h
    cases h
  · exact fun n hn => absurd hn (Nat.not_lt_zero n)
  · intro i inode h
    cases h
  · intro i inode n h
    cases h
  · intro i inode h
    cases h

/-- **The tables are right as long as memory is zero and no table is read in part.**
    In every order of calls on any number of inodes, whatever the device and the
    allocator answer: in every state of the run each inode has no table or a live array
    with exactly its records, which is freed once, and a directory that was not read is
    read again; unless an inode is made in memory that is not zero, or a table turns out
    to have no records, or one of its records cannot be read. -/
theorem tables_sound (sd : SdbfsDev w) (calls : List (Call ι w)) :
    (∀ t ∈ trace (SdbfsLedger.step sd) (start : Kernel ι w) calls, Sound sd t.behind) ↔
      ∀ t ∈ trace (SdbfsLedger.step sd) (start : Kernel ι w) calls, Careful sd t.before t.act :=
  trace_iff (fun _ hk => hk.toSound) (fun _ _ _ hk hc h => hk.step hc h)
    (fun _ _ _ hk hc h => not_sound_step hk hc h) kept_start

end run

/-- The read of a record in the middle of a table fails, and the inode is destroyed: the
    table is freed twice. -/
theorem tables_sound_failing :
    ¬ ∀ t ∈ trace (step (bytesDev sharedBytes)) (start : Kernel Unit 32)
        [.iget () ⟨0, .null, 0⟩ 0, .lookup () ⟨true, true, fun i => i == 2⟩ [0x61], .destroy ()],
      Sound (bytesDev sharedBytes) t.behind := by
  intro hall
  have htwice : ((trace (step (bytesDev sharedBytes)) (start : Kernel Unit 32)
      [.iget () ⟨0, .null, 0⟩ 0, .lookup () ⟨true, true, fun i => i == 2⟩ [0x61],
        .destroy ()])[2]?).map (fun t => (t.behind.ledger.count, t.behind.ledger.frees 0)) =
      some (1, 2) := by decide +kernel
  obtain ⟨t, ht, hcount⟩ := Option.map_eq_some_iff.mp htwice
  obtain ⟨hcount, hfrees⟩ := Prod.mk.inj hcount
  rcases (hall t (List.mem_of_getElem? ht)).freed 0 (by rw [hcount]; exact Nat.one_pos) with
    ⟨hzero, -⟩ | ⟨hone, -⟩
  · rw [hfrees] at hzero
    cases hzero
  · rw [hfrees] at hone
    cases hone

end SdbfsLedger
