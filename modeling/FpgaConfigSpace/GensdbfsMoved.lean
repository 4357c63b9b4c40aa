import FpgaConfigSpace.GensdbfsSubdir
import FpgaConfigSpace.GensdbfsInput
import FpgaConfigSpace.GensdbfsErase

/-! # A subdirectory with a position

    A position is where the doc has the records of the directory.  `alloc_storage` makes it
    `addr_first`, but it has let the subdirectory allocate itself at the next place before,
    and that is where the table is written and where `sdb_child` leads.  The reader adds
    `addr_first` up, so it comes to the files only if the two places are one. -/

namespace GensdbfsMoved

open BigEndian SdbRecord SdbFields SdbfsDevice SdbfsOpen FileWrites Gensdbfs GensdbfsLayout
open GensdbfsTables GensdbfsScan GensdbfsConfig GensdbfsInput GensdbfsErase GensdbfsMain
open GensdbfsBelow GensdbfsSubdir
open GensdbfsText (sdbfs)

/-! ## What the doc says -/

/-- A subdirectory is at its position: its table is there in the image, its bridge says so, and
    the scan returns what is below, every file at the place where it was written. -/
structure PositionRight (ws : List (Write Byte)) (f dot : Sdbf) (sub : Entries) : Prop where
  table : Holds ws (f.ustart.toNat, tableOf dot sub)
  first : addrFirst f.record = f.ustart
  child : sdbChild f.record = f.ustart
  scan : ∀ {w : Nat} {σ : Type} (host : Host w) (fs : Sdbfs w σ) (content : BitVec w → Record),
    Reader host fs content ws (dirVisits dot sub) → AtBridge host fs f.record →
    ∀ n, (dirVisits dot sub).length < n →
      ∃ rs, scanBelow host n fs = .done rs ∧ List.Forall₂ (Found fs) (dirVisits dot sub) rs

/-! ## Where the subdirectory is -/

/-- What is left of a directory behind some entries. -/
def dropEntries : Nat → Entries → Entries
  | 0, e => e
  | _, .nil => .nil
  | i + 1, .file _ _ rest => dropEntries i rest
  | i + 1, .subdir _ _ _ rest => dropEntries i rest

/-- A subdirectory among the entries of the top directory. -/
def SubdirAt (tree : Tree) (i : Nat) (f dot : Sdbf) (sub rest : Entries) : Prop :=
  i < records tree.dot - 1 ∧ dropEntries i tree.entries = .subdir f dot sub rest

variable (blocksize : BitVec 32)

/-- The last byte in use in a directory, from the sizes and positions of its entries; where
    the directory is makes no difference. -/
def lastUsed (left : Nat) (e : Entries) (rpos last : ULong) : ULong :=
  (allocEntries blocksize 0 left e rpos last).2

/-- The next place, behind the first entries of a directory. -/
def nextPlace (i : Nat) (e : Entries) (rpos : ULong) : ULong :=
  ((sdbfs (allocEntries blocksize 0 i e rpos 0).1).take i).foldl
    (fun rpos f => (advance blocksize f rpos 0).1) rpos

/-- The place that an entry of the top directory is given if it has no position. -/
def placeInTurn (tree : Tree) (i : Nat) : ULong :=
  nextPlace blocksize i tree.entries (behindTable blocksize tree.dot)

/-- A subdirectory of an allocated tree, `left` entries before its end, collides with nothing:
    its tables are inside a file and count their records, and nothing is written over them. -/
structure Undisturbed (left : Nat) (dot : Sdbf) (sub rest : Entries) : Prop where
  counted : records dot = sub.count + 1 ∧ Counted sub
  offsets : ∀ place ∈ (dot.base + dot.ustart) :: tablePlaces sub, place.msb = false
  kept : TablesKept (dirParts blocksize dot sub) (entryParts blocksize 0 left rest
    (behindParts (dot.base + dot.ustart).toNat (dirParts blocksize dot sub)))

/-! ## What scanning leaves -/

/-- Entries with the types of their records.  Only those of the top directory have positions. -/
def ScannedAt (level : Nat) : Entries → Prop
  | .nil => True
  | .file f _ rest =>
      ((f.userpos = true → level = 0) ∧ recordType f.record = sdbTypeDevice) ∧ ScannedAt level rest
  | .subdir f dot sub rest =>
      ((f.userpos = true → level = 0) ∧ recordType f.record = sdbTypeBridge) ∧
        (dot.ustart = 0 ∧ IsTable dot.record) ∧ ScannedAt (level + 1) sub ∧ ScannedAt level rest

/-- Only 16 bits of the count matter. -/
theorem fillDot_mod (level n : Nat) : fillDot level n = fillDot level (n % 0x10000) := by
  have hcount : BitVec.ofNat 16 (n % 0x10000) = BitVec.ofNat 16 n := by
    apply BitVec.eq_of_toNat_eq
    rw [BitVec.toNat_ofNat, BitVec.toNat_ofNat]
    exact Nat.mod_mod n _
  rw [fillDot, fillDot, hcount]

theorem isTable_fillDot (level n : Nat) : IsTable (fillDot level n).record := by
  rw [fillDot_mod]
  exact (scannedDot_fillDot level (Nat.mod_lt n (by decide))).table

/-- What is built is as `scan_inputdir` leaves it. -/
theorem builtEntries_scanned {dirents : Dirents} : ∀ {level i : Nat}
    {directives : Nat → List Directive} {e : Entries},
    builtEntries blocksize level directives dirents i = some e → ScannedAt level e := by
  have huser : ∀ (level : Nat) (ds : List Directive) (f : Sdbf), f.userpos = false →
      (ds.foldl (applyDirective level) f).userpos = true → level = 0 := by
    intro level ds f hf hpos
    rcases (foldl_userpos level ds f).mp hpos with h | h
    · rw [hf] at h
      cases h
    · exact h.1
  induction dirents with
  | nil =>
      intro level i directives e h
      cases h
      exact trivial
  | file name file rest ih =>
      intro level i directives e h
      obtain ⟨e, he, rfl⟩ := Option.map_eq_some_iff.mp h
      exact ⟨⟨huser level _ _ rfl, (foldl_same level (directives i) _).recordType.trans
        (recordType_fillProduct _ _ _)⟩, ih he⟩
  | other name rest ih => exact fun h => ih h
  | lost name rest => exact fun h => absurd h (Option.some_ne_none _).symm
  | dir name config sub rest ihsub ih =>
      intro level i directives e h
      obtain ⟨s, hs, h⟩ := Option.bind_eq_some_iff.mp h
      obtain ⟨e, he, rfl⟩ := Option.map_eq_some_iff.mp h
      refine ⟨⟨huser level _ _ rfl, ?_⟩, ⟨?_, ?_⟩, ihsub hs, ih he⟩
      · exact (foldl_same level (directives i) _).recordType.trans (recordType_fillProduct _ _ _)
      · exact (foldl_unmoved (Or.inl (Nat.succ_ne_zero level))).2
      · exact (foldl_same (level + 1) _ _).isTable (isTable_fillDot _ _)

/-- So are the entries from one of them on. -/
theorem ScannedAt.drop {level : Nat} (i : Nat) : ∀ {e : Entries}, ScannedAt level e →
    ScannedAt level (dropEntries i e) := by
  induction i with
  | zero => exact fun h => h
  | succ i ih =>
      intro e h
      cases e with
      | nil => exact h
      | file f file rest => exact ih h.2
      | subdir f dot sub rest => exact ih h.2.2.2

/-! ## What allocating makes of it -/

/-- The last byte in use does not depend on where the directory is. -/
theorem allocEntries_last (e : Entries) : ∀ (base : ULong) (left : Nat) (rpos last : ULong),
    (allocEntries blocksize base left e rpos last).2 = lastUsed blocksize left e rpos last := by
  suffices hbase : ∀ (base base' : ULong) (left : Nat) (rpos last : ULong),
      (allocEntries blocksize base left e rpos last).2 =
        (allocEntries blocksize base' left e rpos last).2 from fun base => hbase base 0
  induction e with
  | nil => exact fun base base' left rpos last => by cases left <;> rfl
  | file f file rest ih =>
      intro base base' left rpos last
      cases left with
      | zero => rfl
      | succ left => exact ih base base' left _ _
  | subdir f dot sub rest ihsub ih =>
      intro base base' left rpos last
      cases left with
      | zero => rfl
      | succ left =>
          rw [allocEntries, allocEntries]
          simp only [ihsub (base + rpos) (base' + rpos)]
          exact ih base base' left _ _

/-- The entries do not depend on the last byte in use before them. -/
theorem sdbfs_allocEntries (e : Entries) : ∀ (base : ULong) (left : Nat) (rpos last last' : ULong),
    sdbfs (allocEntries blocksize base left e rpos last).1 =
      sdbfs (allocEntries blocksize base left e rpos last').1 := by
  induction e with
  | nil => exact fun base left rpos last last' => by cases left <;> rfl
  | file f file rest ih =>
      intro base left rpos last last'
      cases left with
      | zero => rfl
      | succ left => exact congrArg (List.cons _) (ih base left _ _ _)
  | subdir f dot sub rest _ ih =>
      intro base left rpos last last'
      cases left with
      | zero => rfl
      | succ left => exact congrArg (List.cons _) (ih base left _ _ _)

/-- An entry takes the same room once it has its place. -/
theorem advance_place (f : Sdbf) (here rpos last : ULong) :
    (advance blocksize (place f here) rpos last).1 = (advance blocksize f rpos last).1 := by
  have hsize : (place f here).size = f.size := by
    rw [place]
    split <;> rfl
  rw [advance, advance, userpos_place, hsize]

/-- The next place behind a file. -/
theorem nextPlace_file (i : Nat) (f : Sdbf) (file : RegularFile) (rest : Entries) (rpos : ULong) :
    nextPlace blocksize (i + 1) (.file f file rest) rpos =
      nextPlace blocksize i rest (advance blocksize f rpos 0).1 := by
  rw [nextPlace, allocEntries]
  simp only [sdbfs, List.take_succ_cons, List.foldl_cons, advance_place]
  rw [sdbfs_allocEntries blocksize rest 0 i _ _ 0, nextPlace]

/-- The next place behind a subdirectory. -/
theorem nextPlace_subdir (i : Nat) (f dot : Sdbf) (sub rest : Entries) (rpos : ULong) :
    nextPlace blocksize (i + 1) (.subdir f dot sub rest) rpos =
      nextPlace blocksize i rest (advance blocksize (sizeDir f rpos (lastUsed blocksize
        (records dot - 1) sub (behindTable blocksize dot) (behindTable blocksize dot))) rpos 0).1 := by
  rw [nextPlace, allocEntries]
  simp only [sdbfs, List.take_succ_cons, List.foldl_cons, advance_place, allocEntries_last]
  rw [sdbfs_allocEntries blocksize rest 0 i _ _ 0, nextPlace]

/-- The entries behind some others are allocated from the next place on. -/
theorem allocEntries_drop (base : ULong) (i : Nat) : ∀ {left : Nat} {e : Entries} {rpos last : ULong},
    i ≤ left → ∃ last', dropEntries i (allocEntries blocksize base left e rpos last).1 =
      (allocEntries blocksize base (left - i) (dropEntries i e) (nextPlace blocksize i e rpos)
        last').1 := by
  induction i with
  | zero => exact fun _ => ⟨_, rfl⟩
  | succ i ih =>
      intro left e rpos last hi
      obtain ⟨left, rfl⟩ : ∃ k, left = k + 1 := ⟨left - 1, by omega⟩
      rw [Nat.add_sub_add_right]
      cases e with
      | nil => exact ⟨last, by cases left - i <;> rfl⟩
      | file f file rest =>
          rw [nextPlace_file]
          exact ih (Nat.le_of_succ_le_succ hi)
      | subdir f dot sub rest =>
          rw [allocEntries, nextPlace_subdir]
          simp only [dropEntries, allocEntries_last]
          exact ih (Nat.le_of_succ_le_succ hi)

/-- Allocation neither adds nor loses an entry. -/
theorem count_allocEntries (e : Entries) : ∀ (base : ULong) (left : Nat) (rpos last : ULong),
    (allocEntries blocksize base left e rpos last).1.count = e.count := by
  induction e with
  | nil => exact fun base left rpos last => by cases left <;> rfl
  | file f file rest ih =>
      intro base left rpos last
      cases left with
      | zero => rfl
      | succ left => exact congrArg (· + 1) (ih base left _ _)
  | subdir f dot sub rest _ ih =>
      intro base left rpos last
      cases left with
      | zero => rfl
      | succ left => exact congrArg (· + 1) (ih base left _ _)

/-- Allocating changes no number of records. -/
theorem counted_allocEntries (e : Entries) : ∀ (base : ULong) (left : Nat) (rpos last : ULong),
    Counted (allocEntries blocksize base left e rpos last).1 ↔ Counted e := by
  induction e with
  | nil => exact fun base left rpos last => by cases left <;> exact Iff.rfl
  | file f file rest ih =>
      intro base left rpos last
      cases left with
      | zero => exact Iff.rfl
      | succ left => exact ih base left _ _
  | subdir f dot sub rest ihsub ih =>
      intro base left rpos last
      cases left with
      | zero => exact Iff.rfl
      | succ left =>
          rw [allocEntries, Counted, Counted, records_closeDir, count_allocEntries, ihsub, ih]

section

variable (f : Sdbf) (rpos : ULong)

/-- An entry with a place of its own is there. -/
theorem addrFirst_place_user {f : Sdbf} (huser : f.userpos = true) :
    addrFirst (place f rpos).record = f.ustart := by
  rw [place, if_pos huser]
  exact (be64_setBytes_of_outside _ (by decide) (Or.inl (by decide))).trans
    (be64_setBytes f.record (k := 0x08) (by decide) f.ustart)

/-- One without has the next place. -/
theorem rstart_place {f : Sdbf} (huser : f.userpos = false) : (place f rpos).rstart = rpos := by
  rw [place, if_neg (by rw [huser]; exact Bool.false_ne_true)]

/-- The child of a bridge is where its subdirectory was allocated, wherever the user wants it. -/
theorem sdbChild_place (subsize : ULong) :
    sdbChild (place (sizeDir f rpos subsize) rpos).record = rpos := by
  have hchild : ∀ first last : ULong,
      sdbChild (setAddrLast (setAddrFirst (setSdbChild f.record rpos) first) last) = rpos :=
    fun first last =>
      (be64_setBytes_of_outside _ (by decide) (Or.inl (by decide))).trans
        ((be64_setBytes_of_outside _ (by decide) (Or.inl (by decide))).trans
          (be64_setBytes f.record (k := 0x00) (by decide) rpos))
  rw [place]
  split
  · exact hchild _ _
  · exact hchild _ _

theorem place_size : (place f rpos).size = f.size := by
  rw [place]
  split <;> rfl

theorem recordType_place : recordType (place f rpos).record = recordType f.record := by
  have htype : ∀ first last : ULong,
      recordType (setAddrLast (setAddrFirst f.record first) last) = recordType f.record :=
    fun _ _ => rfl
  rw [place]
  split
  · exact htype _ _
  · exact htype _ _

/-- Closing a directory leaves its interconnect one. -/
theorem isTable_closeDir {dot : Sdbf} (base last : ULong) (h : IsTable dot.record) :
    IsTable (closeDir dot base last).record := by
  have hhead := isTable_tableHead last.toNat h
  rw [tableHead, ← eq_ofNat] at hhead
  exact hhead

end

/-! ## The records and the places agree -/

/-- The interconnect of an allocated subdirectory. -/
theorem dotAt_closeDir {dot : Sdbf} {n : Nat} (base last : ULong) (hstart : dot.ustart = 0)
    (htable : IsTable dot.record) (hrecords : records dot = n + 1) :
    DotAt base (closeDir dot base last) n where
  base_eq := rfl
  ustart_eq := hstart
  table := isTable_closeDir base last htable
  records_eq := (records_closeDir dot base last).trans hrecords

/-- In a subdirectory, where nothing has a position, they do. -/
theorem allocEntries_coherent {e : Entries} : ∀ {level : Nat} {base rpos last : ULong},
    ScannedAt level e → level ≠ 0 → Counted e →
    Coherent base (allocEntries blocksize base e.count e rpos last).1 := by
  induction e with
  | nil => exact fun _ _ _ => trivial
  | file f file rest ih =>
      intro level base rpos last hscan hlevel hcounted
      obtain ⟨⟨huser, htype⟩, hscan⟩ := hscan
      have hplain : f.userpos = false := Bool.eq_false_iff.mpr fun h => hlevel (huser h)
      refine ⟨⟨?_, ?_, ?_⟩, ih hscan hlevel hcounted⟩
      · exact (recordType_place f rpos).trans htype
      · rw [addrFirst_place rpos hplain, rstart_place rpos hplain]
      · exact (size_place f rpos).trans (place_size f rpos).symm
  | subdir f dot sub rest ihsub ih =>
      intro level base rpos last hscan hlevel hcounted
      obtain ⟨⟨huser, htype⟩, ⟨hstart, htable⟩, hscanSub, hscan⟩ := hscan
      obtain ⟨hrecords, hcountedSub, hcounted⟩ := hcounted
      have hplain : f.userpos = false := Bool.eq_false_iff.mpr fun h => hlevel (huser h)
      rw [Entries.count, allocEntries, hrecords, Nat.add_sub_cancel]
      generalize hsub : allocEntries blocksize (base + rpos) sub.count sub _ _ = s
      have hfirst : addrFirst (place (sizeDir f rpos s.2) rpos).record = rpos :=
        addrFirst_place rpos hplain
      have hcount : s.1.count = sub.count := hsub ▸ count_allocEntries blocksize sub _ _ _ _
      refine ⟨⟨?_, (sdbChild_place f rpos s.2).trans hfirst.symm⟩, ?_, ?_, ?_⟩
      · exact (recordType_place _ rpos).trans htype
      · rw [hfirst, hcount]
        exact dotAt_closeDir _ _ hstart htable hrecords
      · rw [hfirst, ← hsub]
        exact ihsub hscanSub (Nat.succ_ne_zero level) hcountedSub
      · exact ih hscan hlevel hcounted

/-! ## The image -/

/-- What is written for the entries behind some others comes behind what is written for these. -/
theorem entryParts_drop (base : ULong) (i : Nat) : ∀ {left : Nat} {e : Entries} {pos : Nat},
    i ≤ left → ∃ before pos', entryParts blocksize base left e pos =
      before ++ entryParts blocksize base (left - i) (dropEntries i e) pos' := by
  induction i with
  | zero => exact fun _ => ⟨[], _, rfl⟩
  | succ i ih =>
      intro left e pos hi
      obtain ⟨left, rfl⟩ : ∃ k, left = k + 1 := ⟨left - 1, by omega⟩
      rw [Nat.add_sub_add_right]
      cases e with
      | nil => exact ⟨[], pos, by cases left - i <;> rfl⟩
      | file f file rest =>
          rw [entryParts_file]
          cases file.contents with
          | none => exact ih (Nat.le_of_succ_le_succ hi)
          | some bytes =>
              obtain ⟨before, pos', h⟩ := @ih left rest _ (Nat.le_of_succ_le_succ hi)
              exact ⟨_ :: before, pos', congrArg (List.cons _) h⟩
      | subdir f dot sub rest =>
          obtain ⟨before, pos', h⟩ := @ih left rest _ (Nat.le_of_succ_le_succ hi)
          rw [entryParts_subdir, h]
          exact ⟨_ ++ before, pos', (List.append_assoc _ _ _).symm⟩

/-- A subdirectory of the allocated tree, and the one it was before. -/
theorem subdirAt_allocated {tree : Tree} {i : Nat} {f dot : Sdbf} {sub rest : Entries}
    (hat : SubdirAt (allocStorage blocksize tree) i f dot sub rest) :
    ∃ f₀ dot₀ sub₀ rest₀ s, dropEntries i tree.entries = .subdir f₀ dot₀ sub₀ rest₀ ∧
      s = allocEntries blocksize (tree.dot.base + placeInTurn blocksize tree i) (records dot₀ - 1)
        sub₀ (behindTable blocksize dot₀) (behindTable blocksize dot₀) ∧
      f = place (sizeDir f₀ (placeInTurn blocksize tree i) s.2) (placeInTurn blocksize tree i) ∧
      dot = closeDir dot₀ (tree.dot.base + placeInTurn blocksize tree i) s.2 ∧ sub = s.1 := by
  obtain ⟨hi, hdrop⟩ := hat
  rw [allocStorage, records_closeDir] at hi
  obtain ⟨last', hentries⟩ := @allocEntries_drop blocksize tree.dot.base i _ tree.entries
    (behindTable blocksize tree.dot) (behindTable blocksize tree.dot) (Nat.le_of_lt hi)
  obtain ⟨m, hm⟩ : ∃ m, records tree.dot - 1 - i = m + 1 := ⟨records tree.dot - 1 - i - 1, by omega⟩
  rw [hm] at hentries
  have hallocated := hentries.symm.trans hdrop
  cases h : dropEntries i tree.entries with
  | nil =>
      rw [h] at hallocated
      cases hallocated
  | file f₀ file rest₀ =>
      rw [h] at hallocated
      cases hallocated
  | subdir f₀ dot₀ sub₀ rest₀ =>
      rw [h, allocEntries] at hallocated
      cases hallocated
      exact ⟨f₀, dot₀, sub₀, rest₀, _, rfl, rfl, rfl, rfl, rfl⟩

/-- What is written for the image, with the part for a subdirectory. -/
theorem writes_split {tree : Tree} (hbase : tree.dot.base = 0) {i : Nat} {f dot : Sdbf}
    {sub rest : Entries} (hat : SubdirAt tree i f dot sub rest)
    (hstart : (dot.base + dot.ustart).msb = false) :
    ∃ before, (writeSdb blocksize tree ⟨0, []⟩).writes = before ++ (dirParts blocksize dot sub ++
      entryParts blocksize 0 (records tree.dot - 1 - (i + 1)) rest
        (behindParts (dot.base + dot.ustart).toNat (dirParts blocksize dot sub))).flatMap
          Part.writes := by
  obtain ⟨hi, hdrop⟩ := hat
  have hwrites := writeSdb_parts blocksize tree
  obtain ⟨before, pos, hparts⟩ := entryParts_drop blocksize tree.dot.base i (Nat.le_of_lt hi)
    (e := tree.entries)
  obtain ⟨m, hm⟩ : ∃ m, records tree.dot - 1 - i = m + 1 := ⟨records tree.dot - 1 - i - 1, by omega⟩
  have hleft : records tree.dot - 1 - (i + 1) = m := by omega
  rw [hdrop, hm, entryParts_subdir, seek_place hstart, hbase] at hparts
  rw [hwrites, treeParts, hbase, hparts, hleft, List.flatMap_cons, List.flatMap_append,
    ← List.append_assoc]
  exact ⟨_, rfl⟩

/-- The top directory as it is prepared. -/
theorem prepareDir_top {config : Config} {dirents : Dirents} {tree : Tree}
    (h : prepareDir blocksize config dirents = some tree) :
    tree.dot.base = 0 ∧ ScannedAt 0 tree.entries := by
  rw [prepareDir_built] at h
  obtain ⟨e, he, rfl⟩ := Option.map_eq_some_iff.mp h
  exact ⟨(foldl_same 0 _ _).base_eq, builtEntries_scanned blocksize he⟩

/-- The bridge of a subdirectory whose position is the place it has in turn. -/
theorem bridgeTo_allocated {tree : Tree} (hbase : tree.dot.base = 0)
    (hscan : ScannedAt 0 tree.entries) {i : Nat} {f dot : Sdbf} {sub rest : Entries}
    (hat : SubdirAt (allocStorage blocksize tree) i f dot sub rest)
    (hfirst : addrFirst f.record = placeInTurn blocksize tree i)
    (hrecords : records dot = sub.count + 1) (hcounted : Counted sub) :
    BridgeTo f.record dot sub := by
  obtain ⟨f₀, dot₀, sub₀, rest₀, s, hdrop, hs, rfl, rfl, rfl⟩ := subdirAt_allocated blocksize hat
  have hdropped := hscan.drop i
  rw [hdrop] at hdropped
  obtain ⟨⟨-, htype⟩, ⟨hstart, htable⟩, hscanSub, -⟩ := hdropped
  have hzero : tree.dot.base + placeInTurn blocksize tree i = placeInTurn blocksize tree i := by
    rw [hbase]
    exact BitVec.zero_add _
  rw [records_closeDir] at hrecords
  have hcount : s.1.count = sub₀.count := hs ▸ count_allocEntries blocksize sub₀ _ _ _ _
  rw [hcount] at hrecords
  rw [hrecords, Nat.add_sub_cancel, hzero] at hs
  refine ⟨(recordType_place _ _).trans htype, (sdbChild_place _ _ _).trans hfirst.symm, ?_, ?_⟩
  · rw [hfirst, hcount, hzero]
    exact dotAt_closeDir _ _ hstart htable hrecords
  · rw [hfirst, hs]
    rw [hs] at hcounted
    exact allocEntries_coherent blocksize hscanSub Nat.one_ne_zero
      ((counted_allocEntries blocksize sub₀ _ _ _ _).mp hcounted)

/-- **A subdirectory with a position is found there only if that is its place in turn**; then, if
    nothing is written over its tables, exactly if the library is deep enough for it. -/
theorem position_right {config : Config} {dirents : Dirents} {tree : Tree}
    (h : prepareDir blocksize config dirents = some tree) {i : Nat} {f dot : Sdbf}
    {sub rest : Entries} (hat : SubdirAt (allocStorage blocksize tree) i f dot sub rest)
    (huser : f.userpos = true) :
    (PositionRight (writeSdb blocksize (allocStorage blocksize tree) ⟨0, []⟩).writes f dot sub →
      f.ustart = placeInTurn blocksize tree i) ∧
    (f.ustart = placeInTurn blocksize tree i →
      Undisturbed blocksize (records tree.dot - 1 - (i + 1)) dot sub rest →
      (PositionRight (writeSdb blocksize (allocStorage blocksize tree) ⟨0, []⟩).writes f dot sub ↔
        levelsBelow sub + 1 < SDBFS_DEPTH)) := by
  obtain ⟨hbase, hscan⟩ := prepareDir_top blocksize h
  have hchild : sdbChild f.record = placeInTurn blocksize tree i := by
    obtain ⟨f₀, _, _, _, s, -, -, rfl, -, -⟩ := subdirAt_allocated blocksize hat
    exact sdbChild_place f₀ _ s.2
  have hfirst : addrFirst f.record = f.ustart := by
    obtain ⟨f₀, _, _, _, s, -, -, rfl, -, -⟩ := subdirAt_allocated blocksize hat
    rw [userpos_place] at huser
    rw [addrFirst_place_user _ huser, place, if_pos huser]
  refine ⟨fun hright => hright.child.symm.trans hchild, fun hplace hclear => ?_⟩
  obtain ⟨⟨hrecords, hcounted⟩, hoffsets, hkept⟩ := hclear
  have hbridge := bridgeTo_allocated blocksize hbase hscan hat (hfirst.trans hplace) hrecords hcounted
  have hstart : dot.base + dot.ustart = f.ustart := by
    rw [hbridge.dot_at.base_eq, hbridge.dot_at.ustart_eq, hfirst]
    exact BitVec.add_zero _
  have hbaseImage : (allocStorage blocksize tree).dot.base = 0 := hbase
  have hrecordsImage : records (allocStorage blocksize tree).dot = records tree.dot :=
    records_closeDir _ _ _
  obtain ⟨before, hwrites⟩ := writes_split blocksize hbaseImage hat
    (hoffsets _ List.mem_cons_self)
  rw [hrecordsImage] at hwrites
  have hheld := held_of_kept (dirParts blocksize dot sub) before hkept
  rw [← hwrites] at hheld
  have hshown := dirVisits_shown blocksize hrecords hcounted hoffsets hheld
  have hroom : 2 ≤ SDBFS_DEPTH := by decide
  constructor
  · intro hright
    by_contra hdeep
    have hless : (reachedDir (SDBFS_DEPTH - 2) dot sub).length < (dirVisits dot sub).length :=
      Nat.succ_lt_succ (reached_length_lt (by omega))
    obtain ⟨rs, hrun, hall⟩ := hright.scan _ _ _ (bridgeDevice_reads f.record hshown)
      (bridgeDevice_at _ f.record) _ (Nat.lt_succ_self _)
    obtain ⟨rs', hrun', hreached⟩ := scanBelow_reached hbridge hshown
      (bridgeDevice_reads f.record hshown) (bridgeDevice_at _ f.record) (Nat.lt_succ_of_lt hless)
    have hsame : rs = rs' := Outcome.done.inj (hrun.symm.trans hrun')
    have hlength := hall.length_eq
    rw [hsame, ← hreached.length_eq] at hlength
    omega
  · intro hlevels
    have hall : reachedDir (SDBFS_DEPTH - 2) dot sub = dirVisits dot sub :=
      congrArg _ (reached_eq (by omega))
    refine ⟨?_, hfirst, hchild.trans hplace.symm, ?_⟩
    · rw [← hstart]
      exact hheld _ List.mem_cons_self rfl _ rfl
    · intro w σ host fs content hreader hbridgeAt n hn
      rw [← hall] at hn
      have hrun := scanBelow_reached hbridge hshown hreader hbridgeAt hn
      rwa [hall] at hrun

/-! ## A directory with a file -/

/-- The name "s". -/
def subName : CString := ⟨[0x73], by decide⟩

/-- The tree of a directory with a position, and a file of three bytes in it. -/
def movedTree (start : ULong) : Tree :=
  ⟨fillDot 0 2, .subdir { fillDir 0 subName with userpos := true, ustart := start } (fillDot 1 2)
    (.file (fillFile 64 1 threeName (threeBytes false)) (threeBytes false) .nil) .nil⟩

theorem moved_scan (start : ULong) : prepareDir 64 [(subName, [.position start])]
    (.dir subName [] (.file threeName (threeBytes false) .nil) .nil) = some (movedTree start) := rfl

/-- What is written for it is a table, and behind it the bytes. -/
theorem moved_undisturbed {dot : Sdbf} {sub : Entries}
    (h : ∃ t c, dirParts 64 dot sub = [t, c] ∧ c.isTable = false ∧ t.behind ≤ c.pos) :
    TablesKept (dirParts 64 dot sub) [] := by
  obtain ⟨t, c, hparts, hcontents, hbehind⟩ := h
  rw [hparts]
  refine ⟨fun _ p htable hcov => ?_, fun hc => ?_, trivial⟩
  · rw [Part.writes, covers_consecutive] at htable
    rw [List.append_nil, List.flatMap_cons, List.flatMap_nil, List.append_nil, Part.writes,
      covers_consecutive] at hcov
    rw [Part.behind] at hbehind
    omega
  · rw [hcontents] at hc
    cases hc

/-- At the place behind the top table, it is found. -/
theorem position_right_turn : ∃ f dot sub,
    SubdirAt (allocStorage 64 (movedTree 128)) 0 f dot sub .nil ∧ f.ustart = 128 ∧
      PositionRight (writeSdb 64 (allocStorage 64 (movedTree 128)) ⟨0, []⟩).writes f dot sub := by
  have hat : ∃ f dot sub, SubdirAt (allocStorage 64 (movedTree 128)) 0 f dot sub .nil ∧
      f.userpos = true ∧ f.ustart = 128 ∧ levelsBelow sub = 0 ∧
      (records dot = sub.count + 1 ∧ Counted sub) ∧
      (∀ place ∈ (dot.base + dot.ustart) :: tablePlaces sub, place.msb = false) ∧
      ∃ t c, dirParts 64 dot sub = [t, c] ∧ c.isTable = false ∧ t.behind ≤ c.pos := by
    refine ⟨_, _, _, ⟨by decide +kernel, rfl⟩, rfl, rfl, rfl, ⟨by decide +kernel, trivial⟩, ?_,
      _, _, rfl, rfl, by decide +kernel⟩
    intro place hplace
    rw [List.mem_singleton.mp hplace]
    decide +kernel
  obtain ⟨f, dot, sub, hat, huser, hstart, hlevels, hcounted, hoffsets, hparts⟩ := hat
  have hturn : f.ustart = placeInTurn 64 (movedTree 128) 0 := hstart.trans (by decide +kernel)
  refine ⟨f, dot, sub, hat, hstart, ((position_right 64 (moved_scan 128) hat huser).2 hturn
    ⟨hcounted, hoffsets, moved_undisturbed hparts⟩).mpr ?_⟩
  rw [hlevels]
  decide

/-- Farther away, where nothing else is written, it is not. -/
theorem position_right_far : ∃ f dot sub,
    prepareDir 64 [(subName, [.position 512])]
      (.dir subName [] (.file threeName (threeBytes false) .nil) .nil) = some (movedTree 512) ∧
    SubdirAt (allocStorage 64 (movedTree 512)) 0 f dot sub .nil ∧ f.userpos = true ∧
    (∀ p, Covers (writeSdb 64 (allocStorage 64 (movedTree 512)) ⟨0, []⟩).writes p → p < 512) ∧
    ¬ PositionRight (writeSdb 64 (allocStorage 64 (movedTree 512)) ⟨0, []⟩).writes f dot sub := by
  refine ⟨_, _, _, moved_scan 512, ⟨by decide +kernel, rfl⟩, rfl, ?_, fun h => ?_⟩
  · exact fileSize_le_iff.mp (by decide +kernel)
  · have hchild := h.child
    revert hchild
    decide +kernel

end GensdbfsMoved
