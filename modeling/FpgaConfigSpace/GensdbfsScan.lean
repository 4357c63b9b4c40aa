import FpgaConfigSpace.GensdbfsTables
import FpgaConfigSpace.SdbfsModes
import FpgaConfigSpace.Lib.Paired

/-! # Scanning a generated image

    The writer gives out places from the top down, before it knows the sizes; the
    reader adds up `addr_first` over the bridges it has entered.  Both come to the same
    addresses: a bridge's `addr_first` and `sdb_child` are where the writer has put
    the subdirectory, relative to its parent. -/

namespace GensdbfsScan

open BigEndian SdbRecord SdbFields SdbfsDevice SdbfsScan SdbfsOpen SdbfsTree SdbfsRuns FileWrites
  Blocks Gensdbfs GensdbfsLayout GensdbfsConfig GensdbfsApart GensdbfsTables

variable {w : Nat} {σ : Type} {host : Host w} {content : BitVec w → Record}

/-! ## Opening every record -/

/-- What the caller has after a record was returned and opened. -/
structure Opened (w : Nat) where
  dev : RecordPtr w
  record : Record
  fOffset : BitVec w
  fLen : BitVec w

/-- Call `sdbfs_scan` until it returns `NULL`, and open every record it returns. -/
def scanOpen (host : Host w) : Nat → Sdbfs w σ → Bool → Outcome (Sdbfs w σ × List (Opened w))
  | 0, _, _ => .running
  | n + 1, fs, new =>
      match sdbfsScan host fs new with
      | none => .undefined
      | some (fs, d) =>
          if d.isNull then .done (fs, [])
          else
            match fs.deref host d with
            | none => .undefined
            | some dev =>
                let fs := openCurrent fs dev
                match scanOpen host n fs false with
                | .done (fs', more) => .done (fs', ⟨d, dev, fs.fOffset, fs.fLen⟩ :: more)
                | rest => rest

/-- An entry of the traversal, as it should be returned and opened. -/
def opened (fs : Sdbfs w σ) (e : Entry w) : Opened w :=
  ⟨recordPtr fs e.pos, e.record, e.fOffset,
    (addrLast e.record + 1 - addrFirst e.record).setWidth w⟩

/-- What is opened does not depend on the state of the scan. -/
theorem opened_same {fs fs' : Sdbfs w σ} (h : SameDevice fs fs') :
    (opened fs' : Entry w → Opened w) = opened fs := by
  ext1 e
  rw [opened, opened, h.recordPtr]

/-- The loop ends where the scan does. -/
theorem scanOpen_ends {fs fs' : Sdbfs w σ} {new : Bool}
    (h : sdbfsScan host fs new = some (fs', RecordPtr.NULL w)) (n : Nat) :
    scanOpen host (n + 1) fs new = .done (fs', []) := by
  rw [scanOpen, h]
  exact if_pos (RecordPtr.isNull_NULL w)

/-- Opening a record does not disturb the scan. -/
theorem arrived_opened {fs fs' : Sdbfs w σ} {dev : RecordPtr w} {e : Entry w}
    {rest : List (Entry w)} (h : Arrived host content fs fs' dev e rest) :
    SameDevice fs (openCurrent fs' e.record) ∧ OnPath (openCurrent fs' e.record) e.path ∧
      (openCurrent fs' e.record).deref host (openCurrent fs' e.record).currentp = some e.record ∧
      pending content (openCurrent fs' e.record) e.path e.record = rest := by
  have hsame : SameDevice fs' (openCurrent fs' e.record) := ⟨rfl, rfl, rfl⟩
  refine ⟨h.same, ⟨h.onPath.depth, h.onPath.base, h.onPath.nleft⟩, ?_, ?_⟩
  · exact (deref_congr hsame rfl _).trans (h.current ▸ h.record)
  · rw [← h.pending, pending, pending]
    exact congrArg _ (levels_congr fun _ _ => ⟨rfl, rfl, rfl⟩)

/-- A call that arrives at a record is the first of the loop. -/
theorem scanOpen_arrives {fs fs' fs'' : Sdbfs w σ} {new : Bool} {dev : RecordPtr w} {e : Entry w}
    {rest : List (Entry w)} {more : List (Opened w)} {n : Nat}
    (h : sdbfsScan host fs new = some (fs', dev)) (harr : Arrived host content fs fs' dev e rest)
    (hmore : scanOpen host n (openCurrent fs' e.record) false = .done (fs'', more)) :
    scanOpen host (n + 1) fs new = .done (fs'', opened fs e :: more) := by
  have hoffset : (openCurrent fs' e.record).fOffset = e.fOffset := by
    show fs'.base fs'.depth + _ = baseOf e.path + _
    rw [harr.onPath.depth, harr.onPath.base e.path (List.suffix_refl _)]
  rw [scanOpen, h]
  show (if dev.isNull then _ else _) = _
  rw [if_neg (Bool.eq_false_iff.mp harr.nonnull), harr.record]
  simp only [hmore]
  rw [hoffset, harr.ptr]
  rfl

/-- From a state between two calls, what is pending is returned and opened. -/
theorem scanOpen_pending : ∀ (rest : List (Entry w)) (fs : Sdbfs w σ) (path : List Record)
    (rec : Record), Delivers host fs content → OnPath fs path →
    fs.deref host fs.currentp = some rec → pending content fs path rec = rest →
    (∀ e ∈ rest, ¬ NullAt fs e.pos) → AllDeclared rest →
    ∀ n, rest.length < n →
      ∃ fs', scanOpen host n fs false = .done (fs', rest.map (opened fs)) := by
  intro rest
  induction rest with
  | nil =>
      intro fs path rec hd hp hcur hpend _ _ n hn
      obtain ⟨fs', hscan⟩ := sdbfsScan_ends hd hp hcur hpend
      obtain ⟨k, rfl⟩ : ∃ k, n = k + 1 := ⟨n - 1, by omega⟩
      exact ⟨fs', scanOpen_ends hscan k⟩
  | cons e rest ih =>
      intro fs path rec hd hp hcur hpend hnull hdecl n hn
      obtain ⟨fs', dev, hscan, harr⟩ := sdbfsScan_arrives hd hp hcur hpend
        (hnull e List.mem_cons_self) (hdecl e List.mem_cons_self)
      obtain ⟨k, rfl⟩ : ∃ k, n = k + 1 := ⟨n - 1, by omega⟩
      obtain ⟨hsame, hpath, hrecord, hrest⟩ := arrived_opened harr
      obtain ⟨fs'', hmore⟩ := ih _ e.path e.record (hd.same hsame) hpath hrecord hrest
        (fun e' he' h => hnull e' (List.mem_cons_of_mem e he') (hsame.nullAt h))
        (fun e' he' => hdecl e' (List.mem_cons_of_mem e he'))
        k (Nat.lt_of_succ_lt_succ hn)
      rw [opened_same hsame] at hmore
      exact ⟨fs'', scanOpen_arrives hscan harr hmore⟩

/-- A new scan returns the traversal, and opens it. -/
theorem scanOpen_preorder {fs : Sdbfs w σ} (hd : Delivers host fs content)
    (hnull : ∀ e ∈ preorder content fs.entrypoint, ¬ NullAt fs e.pos)
    (hdecl : AllDeclared (preorder content fs.entrypoint)) {n : Nat}
    (hn : (preorder content fs.entrypoint).length < n) :
    ∃ fs', scanOpen host n fs true =
      .done (fs', (preorder content fs.entrypoint).map (opened fs)) := by
  obtain ⟨k, rfl⟩ : ∃ k, n = k + 1 := ⟨n - 1, by omega⟩
  cases hpre : preorder content fs.entrypoint with
  | nil =>
      obtain ⟨fs', hscan⟩ := sdbfsScan_new_ends hd hpre
      exact ⟨fs', scanOpen_ends hscan k⟩
  | cons e rest =>
      rw [hpre] at hnull hdecl hn
      obtain ⟨fs', dev, hscan, harr⟩ := sdbfsScan_new_arrives hd hpre
        (hnull e List.mem_cons_self) (hdecl e List.mem_cons_self)
      obtain ⟨hsame, hpath, hrecord, hrest⟩ := arrived_opened harr
      obtain ⟨fs'', hmore⟩ := scanOpen_pending rest _ e.path e.record (hd.same hsame) hpath hrecord
        hrest (fun e' he' h => hnull e' (List.mem_cons_of_mem e he') (hsame.nullAt h))
        (fun e' he' => hdecl e' (List.mem_cons_of_mem e he')) k (Nat.lt_of_succ_lt_succ hn)
      rw [opened_same hsame] at hmore
      exact ⟨fs'', scanOpen_arrives hscan harr hmore⟩

/-- No pointer that is opened is null. -/
theorem scanOpen_nonnull : ∀ {n : Nat} {fs fs' : Sdbfs w σ} {new : Bool} {rs : List (Opened w)},
    scanOpen host n fs new = .done (fs', rs) → ∀ r ∈ rs, r.dev.isNull = false := by
  intro n
  induction n with
  | zero =>
      intro fs fs' new rs h
      cases h
  | succ n ih =>
      intro fs fs' new rs h r hr
      rw [scanOpen] at h
      split at h
      · cases h
      next fs₁ d _ =>
        by_cases hd : d.isNull = true
        · rw [if_pos hd] at h
          cases h
          exact absurd hr List.not_mem_nil
        · rw [if_neg hd] at h
          split at h
          · cases h
          · next dev _ =>
            simp only at h
            split at h
            · next fs₂ more hmore =>
              cases h
              rcases List.mem_cons.mp hr with rfl | hr
              · exact Bool.eq_false_iff.mpr hd
              · exact ih hmore r hr
            · next hnot =>
              exact absurd h (hnot fs' rs)

/-! ## The fields of a placed record -/

section

variable (r : Record) (pos size : Nat)

/-- A place is in the sixteen bytes behind the first eight. -/
theorem byteAt_placedRecord {n : Nat} (hn : n < 8 ∨ 0x18 ≤ n) :
    byteAt (placedRecord r pos size) n = byteAt r n := by
  rw [placedRecord, setAddrLast, setAddrFirst,
    byteAt_setBytes_of_outside _ (by rw [htonll_length]; omega),
    byteAt_setBytes_of_outside _ (by rw [htonll_length]; omega)]

theorem recordType_placedRecord : recordType (placedRecord r pos size) = recordType r :=
  byteAt_placedRecord r pos size (n := 0x3f) (Or.inr (by decide))

/-- The first and the last address of a record that was placed. -/
theorem addrFirst_placedRecord : addrFirst (placedRecord r pos size) = BitVec.ofNat 64 pos := by
  rw [addrFirst, placedRecord, setAddrLast,
    be64_setBytes_of_outside _ (by decide) (Or.inl (by decide))]
  exact be64_setBytes r (k := 0x08) (by decide) _

theorem addrLast_placedRecord :
    addrLast (placedRecord r pos size) = BitVec.ofNat 64 (pos + size - 1) :=
  be64_setBytes _ (k := 0x10) (by decide) _

/-- Its `sdb_child` stays. -/
theorem sdbChild_placedRecord (child : BitVec 64) :
    sdbChild (placedRecord (setSdbChild r child) pos size) = child := by
  rw [sdbChild, placedRecord, setAddrLast, setAddrFirst,
    be64_setBytes_of_outside _ (by decide) (Or.inl (by decide)),
    be64_setBytes_of_outside _ (by decide) (Or.inl (by decide))]
  exact be64_setBytes r (k := 0x00) (by decide) _

/-- The head of a table is an interconnect. -/
theorem isTable_tableHead {dot : Sdbf} (last : Nat) (h : IsTable dot.record) :
    IsTable (tableHead dot last) := by
  refine ⟨h.1, ?_⟩
  rw [sdbMagic, tableHead, setAddrLast, setAddrFirst,
    be32_setBytes_of_outside _ (by decide) (Or.inl (by decide)),
    be32_setBytes_of_outside _ (by decide) (Or.inl (by decide))]
  exact h.2

theorem sdbRecords_tableHead (dot : Sdbf) (last : Nat) :
    (sdbRecords (tableHead dot last)).toNat = records dot :=
  records_closeDir dot 0 (BitVec.ofNat 64 last)

end

/-! ## The traversal of the image -/

/-- A record of the image, as the traversal comes to it. -/
structure Matches (v : Visit) (e : Entry w) : Prop where
  pos_eq : e.pos = v.pos.setWidth w
  record_eq : e.record = v.record
  declared : e.head = true → 1 ≤ (sdbRecords e.record).toNat
  region : ∀ start size, v.region = some (start, size) →
    e.fOffset = start.setWidth w ∧ addrLast e.record + 1 - addrFirst e.record = size ∧
      start.toNat < 0x100000000 ∧ size.toNat < 0x100000000

/-- The tables are in the storage. -/
def Shows (content : BitVec w → Record) (tbls : List (Nat × List Record)) : Prop :=
  ∀ tbl ∈ tbls, ∀ j r, tbl.2[j]? = some r → content (BitVec.ofNat w (tbl.1 + 64 * j)) = r

theorem setWidth_ofNat {n : Nat} (hn : n < 0x10000000000000000) :
    (BitVec.ofNat 64 n).setWidth w = BitVec.ofNat w n := by
  apply BitVec.eq_of_toNat_eq
  rw [BitVec.toNat_setWidth, BitVec.toNat_ofNat, BitVec.toNat_ofNat, Nat.mod_eq_of_lt hn]

theorem slot_next (slot : Nat) : BitVec.ofNat w slot + 64 = BitVec.ofNat w (slot + 64) := by
  rw [BitVec.ofNat_add]
  rfl

/-- The records behind the first of a table. -/
theorem slots_tail {r : Record} {rs : List Record} {slot : Nat}
    (h : ∀ j r', (r :: rs)[j]? = some r' → content (BitVec.ofNat w (slot + 64 * j)) = r') :
    ∀ j r', rs[j]? = some r' → content (BitVec.ofNat w (slot + 64 + 64 * j)) = r' := by
  intro j r' hr
  have hnext := h (j + 1) r' hr
  rwa [show slot + 64 * (j + 1) = slot + 64 + 64 * j by omega] at hnext

/-- The first of some slots. -/
theorem slots_head {r : Record} {rs : List Record} {slot : Nat}
    (h : ∀ j r', (r :: rs)[j]? = some r' → content (BitVec.ofNat w (slot + 64 * j)) = r') :
    content (BitVec.ofNat w slot) = r := h 0 r rfl

/-- A file's record, where the traversal comes to it. -/
theorem matches_file {f : Sdbf} {base pos slot : Nat} {path : List Record} (hpos : 0 < pos)
    (hslot : slot < 0x100000000) (hbase : baseOf path = BitVec.ofNat w base)
    (haddr : base + pos < 0x100000000) (hend : base + pos + f.size.toNat ≤ 0x100000000) :
    Matches ⟨BitVec.ofNat 64 slot, placedRecord f.record pos f.size.toNat,
        some (BitVec.ofNat 64 (base + pos), f.size)⟩
      (⟨BitVec.ofNat w slot, path, placedRecord f.record pos f.size.toNat, false⟩ : Entry w) where
  pos_eq := (setWidth_ofNat (by omega)).symm
  record_eq := rfl
  declared := fun h => absurd h Bool.false_ne_true
  region := by
    intro start size h
    obtain ⟨rfl, rfl⟩ := Prod.mk.inj (Option.some.inj h)
    refine ⟨?_, ?_, ?_, ?_⟩
    · rw [Entry.fOffset, hbase, addrFirst_placedRecord, setWidth_ofNat (by omega),
        setWidth_ofNat (by omega), BitVec.ofNat_add]
    · have hnext : BitVec.ofNat 64 (pos + f.size.toNat - 1) + 1 = BitVec.ofNat 64 pos + f.size := by
        have hadd := BitVec.ofNat_add (n := 64) (pos + f.size.toNat - 1) 1
        rw [Nat.sub_add_cancel (by omega), BitVec.ofNat_add, ← eq_ofNat] at hadd
        exact hadd.symm
      rw [addrFirst_placedRecord, addrLast_placedRecord, hnext, BitVec.add_comm]
      exact BitVec.add_sub_cancel _ _
    · rw [BitVec.toNat_ofNat, Nat.mod_eq_of_lt (by omega)]
      exact haddr
    · omega

/-- The record of a directory, or of its table. -/
theorem matches_plain {r : Record} {slot : Nat} (path : List Record) (hslot : slot < 0x100000000)
    {head : Bool} (hdecl : head = true → 1 ≤ (sdbRecords r).toNat) :
    Matches ⟨BitVec.ofNat 64 slot, r, none⟩ (⟨BitVec.ofNat w slot, path, r, head⟩ : Entry w) where
  pos_eq := (setWidth_ofNat (by omega)).symm
  record_eq := rfl
  declared := hdecl
  region := fun _ _ h => by cases h

/-- A table that is in the storage is entered. -/
theorem table_matches {dot : Sdbf} {n start last k : Nat} {path : List Record} {vs : List Visit}
    (hdot : ScannedDot dot (n + 1)) (hstart : start < 0x100000000)
    (hhead : content (BitVec.ofNat w start) = tableHead dot last)
    (hentries : List.Forall₂ Matches vs
      (entries content (below content k) path (BitVec.ofNat w (start + 64)) n)) :
    List.Forall₂ Matches (⟨BitVec.ofNat 64 start, tableHead dot last, none⟩ :: vs)
      (table content (below content k) path (BitVec.ofNat w start)) := by
  have hrecords : (sdbRecords (tableHead dot last)).toNat = n + 1 := by
    rw [sdbRecords_tableHead, hdot.records_eq]
  rw [table, hhead, if_pos (isTable_tableHead last hdot.table), hrecords, Nat.add_sub_cancel,
    slot_next]
  refine List.Forall₂.cons (matches_plain path hstart fun _ => ?_) hentries
  rw [hrecords]
  exact Nat.succ_pos n

section

variable {blocksize : BitVec 32} (hb : BlockSize blocksize)

include hb

/-- The traversal of a directory is its preorder, if the tables are in the storage. -/
theorem entries_matches {e : Entries} : ∀ {base pos slot k : Nat} {path : List Record},
    Scanned blocksize e → Fits blocksize.toNat e (base + pos) → levelsBelow e ≤ k →
    blocksize.toNat ∣ base → blocksize.toNat ∣ pos → 0 < pos →
    slot + 64 * e.count ≤ 0x100000000 →
    baseOf path = BitVec.ofNat w base →
    (∀ j r, (layoutRecords blocksize.toNat e pos)[j]? = some r →
      content (BitVec.ofNat w (slot + 64 * j)) = r) →
    Shows content (tables blocksize.toNat e base pos) →
    List.Forall₂ Matches (layoutVisits blocksize.toNat e base pos slot)
      (entries content (below content k) path (BitVec.ofNat w slot) e.count) := by
  induction e with
  | nil => exact fun _ _ _ _ _ _ _ _ _ _ => List.Forall₂.nil
  | file f file rest ih =>
      intro base pos slot k path hscan hfit hlevels hbdvd hpdvd hpos hslot hbase hslots hshows
      obtain ⟨hfile, hscan⟩ := hscan
      obtain ⟨haddr, hend, _, hfit⟩ := hfit
      rw [Nat.add_assoc, roundUp_add hb.pos hbdvd] at hfit
      have hcount : slot + 64 * (rest.count + 1) ≤ 0x100000000 := hslot
      have hdevice : ¬ IsBridge (placedRecord f.record pos f.size.toNat) := by
        rw [IsBridge, recordType_placedRecord, hfile.type_eq]
        decide
      have hnext := le_roundUp hb.pos (pos + f.size.toNat)
      rw [Entries.count, entries, slots_head hslots, below_of_not_isBridge hdevice, List.nil_append,
        slot_next]
      refine List.Forall₂.cons (matches_file hpos (by omega) hbase haddr hend) ?_
      exact ih hscan hfit hlevels hbdvd (dvd_roundUp _ _) (by omega) (by omega) hbase
        (slots_tail hslots) hshows
  | subdir f dot sub rest ihsub ih =>
      intro base pos slot k path hscan hfit hlevels hbdvd hpdvd hpos hslot hbase hslots hshows
      obtain ⟨⟨_, htype⟩, ⟨hdot, _⟩, hscanSub, hscan⟩ := hscan
      obtain ⟨haddr, hend, hfitSub, hfit⟩ := hfit
      rw [Nat.add_assoc base pos (subSize _ _ _), roundUp_add hb.pos hbdvd] at hfit
      have hcount : slot + 64 * (rest.count + 1) ≤ 0x100000000 := hslot
      have hbelow := Nat.le_trans (Nat.le_max_left _ _) hlevels
      obtain ⟨k, rfl⟩ : ∃ j, k = j + 1 := ⟨k - 1, by omega⟩
      have htable := le_tableEnd hb.pos (sub.count + 1)
      have hsize := tableEnd_le_subSize (b := blocksize.toNat) f sub
      have hnext := le_roundUp hb.pos (pos + subSize blocksize.toNat f sub)
      have hbridge : IsBridge (placedRecord (setSdbChild f.record (BitVec.ofNat 64 pos)) pos
          (subSize blocksize.toNat f sub)) := by
        rw [IsBridge, recordType_placedRecord]
        exact htype
      have hchild : childPos path (placedRecord (setSdbChild f.record (BitVec.ofNat 64 pos)) pos
          (subSize blocksize.toNat f sub)) = BitVec.ofNat w (base + pos) := by
        rw [childPos, sdbChild_placedRecord, hbase, setWidth_ofNat (by omega), BitVec.ofNat_add]
      have hinside : baseOf (placedRecord (setSdbChild f.record (BitVec.ofNat 64 pos)) pos
          (subSize blocksize.toNat f sub) :: path) = BitVec.ofNat w (base + pos) := by
        rw [baseOf, addrFirst_placedRecord, hbase, setWidth_ofNat (by omega), BitVec.ofNat_add]
      have hown := hshows _ List.mem_cons_self
      have hentries := ihsub hscanSub hfitSub (Nat.le_of_succ_le_succ hbelow)
        (Nat.dvd_add hbdvd hpdvd) (dvd_tableEnd _ _) (by omega) (by omega) hinside (slots_tail hown)
        (fun tbl htbl => hshows tbl (List.mem_cons_of_mem _ (List.mem_append_left _ htbl)))
      rw [Entries.count, entries, slots_head hslots, below, if_pos hbridge, hchild, slot_next]
      refine List.Forall₂.cons (matches_plain path (by omega) fun h => ?_) ?_
      · exact absurd h Bool.false_ne_true
      · refine List.rel_append (table_matches hdot haddr (slots_head hown) hentries) ?_
        exact ih hscan hfit (Nat.le_trans (Nat.le_max_right _ _) hlevels) hbdvd
          (dvd_roundUp _ _) (by omega) (by omega) hbase (slots_tail hslots)
          (fun tbl htbl => hshows tbl (List.mem_cons_of_mem _ (List.mem_append_right _ htbl)))

/-- So is that of the whole image. -/
theorem preorder_matches {tree : Tree} {entrypoint : BitVec w} (hscan : ScannedTree blocksize tree)
    (hfit : AddressesFit blocksize.toNat tree) (hlevels : levelsBelow tree.entries < SDBFS_DEPTH)
    (hentry : entrypoint = tree.dot.ustart.setWidth w)
    (hshows : Shows content (treeTables blocksize.toNat tree)) :
    List.Forall₂ Matches (layoutTreeVisits blocksize.toNat tree) (preorder content entrypoint) := by
  have hown := hshows _ List.mem_cons_self
  have hblock := block_le_tableEnd hb.pos tree.entries.count
  have htable := hfit.1
  have hstart : entrypoint = BitVec.ofNat w tree.dot.ustart.toNat := by
    rw [hentry, eq_ofNat tree.dot.ustart, setWidth_ofNat (by omega), ← eq_ofNat]
  have hpos : 0 < firstPlace blocksize.toNat tree :=
    Nat.lt_of_lt_of_le hb.pos (Nat.le_trans hblock (Nat.le_add_left _ _))
  have hfits : Fits blocksize.toNat tree.entries (0 + firstPlace blocksize.toNat tree) := by
    rw [Nat.zero_add]
    exact hfit.2
  have hroot : baseOf ([] : List Record) = BitVec.ofNat w 0 := rfl
  have hentries := entries_matches hb (k := SDBFS_DEPTH - 1) hscan.entries hfits
    (Nat.le_of_lt_succ hlevels) (Nat.dvd_zero _) (Nat.dvd_add hscan.dvd (dvd_tableEnd _ _)) hpos
    (show tree.dot.ustart.toNat + 64 + 64 * tree.entries.count ≤ 0x100000000 by omega) hroot
    (slots_tail hown) (fun tbl htbl => hshows tbl (List.mem_cons_of_mem _ htbl))
  rw [hstart]
  exact table_matches hscan.dot (by omega) (slots_head hown) hentries

end

/-! ## The writer and the reader agree -/

/-- The storage holds an image: the record at every position inside it. -/
def Presents (content : BitVec w → Record) (ws : List (Write Byte)) : Prop :=
  ∀ p, p + 64 ≤ fileSize ws → content (BitVec.ofNat w p) = imageRecord ws p

/-- A record was returned from its place, and a file was opened where it was put. -/
structure Found (fs : Sdbfs w σ) (v : Visit) (r : Opened w) : Prop where
  dev_eq : r.dev = recordPtr fs (v.pos.setWidth w)
  record_eq : r.record = v.record
  region : ∀ start size, v.region = some (start, size) →
    r.fOffset.toNat = start.toNat ∧ r.fLen.toNat = size.toNat

theorem toNat_setWidth_of_lt (hw : 32 ≤ w) {x : BitVec 64} (hx : x.toNat < 0x100000000) :
    (x.setWidth w).toNat = x.toNat := by
  have hpow : (2 : Nat) ^ 32 ≤ 2 ^ w := Nat.pow_le_pow_right (by decide) hw
  rw [BitVec.toNat_setWidth, Nat.mod_eq_of_lt (Nat.lt_of_lt_of_le hx hpow)]

/-- A record that matches is what the library finds. -/
theorem found_of_matches (hw : 32 ≤ w) (fs : Sdbfs w σ) {v : Visit} {e : Entry w}
    (h : Matches v e) : Found fs v (opened fs e) where
  dev_eq := congrArg (recordPtr fs) h.pos_eq
  record_eq := h.record_eq
  region := by
    intro start size hregion
    obtain ⟨hoffset, hlen, hstart, hsize⟩ := h.region start size hregion
    refine ⟨?_, ?_⟩
    · exact (congrArg BitVec.toNat hoffset).trans (toNat_setWidth_of_lt hw hstart)
    · rw [opened, hlen]
      exact toNat_setWidth_of_lt hw hsize

/-- A device that presents the image shows its tables. -/
theorem shows_of_presents {tbls : List (Nat × List Record)} {ws : List (Write Byte)}
    (h : Presents content ws) (hholds : ∀ tbl ∈ tbls, Holds ws tbl) : Shows content tbls := by
  intro tbl htbl j r hr
  rw [h _ ((hholds tbl htbl).lt_fileSize hr), (hholds tbl htbl).record hr]

/-- **The reader finds what the writer has written.**  The image of a directory of at
    most `SDBFS_DEPTH` levels, however the library accesses it: the scan returns the
    records of the tree in preorder, each from its place, and every file is opened at
    the bytes that were set aside for it; unless a record is used in place at address 0. -/
theorem scan_image {blocksize : BitVec 32} (hb : BlockSize blocksize) {config : Config}
    {dirents : Dirents} {tree : Tree} (hok : InputOk blocksize.toNat config dirents)
    (htree : prepareDir blocksize config dirents = some tree)
    (hfit : AddressesFit blocksize.toNat tree) (hlevels : levelsBelow tree.entries < SDBFS_DEPTH)
    (hw : 32 ≤ w) (host : Host w) (fs : Sdbfs w σ) (content : BitVec w → Record)
    (hd : Delivers host fs content)
    (himage : Presents content (writeSdb blocksize (allocStorage blocksize tree) ⟨0, []⟩).writes)
    (hentry : fs.entrypoint = tree.dot.ustart.setWidth w) :
    (∀ n, (treeVisits (allocStorage blocksize tree)).length < n →
      ∃ fs' rs, scanOpen host n fs true = .done (fs', rs) ∧
        List.Forall₂ (Found fs) (treeVisits (allocStorage blocksize tree)) rs) ↔
    ∀ v ∈ layoutTreeVisits blocksize.toNat tree, ¬ NullAt fs (v.pos.setWidth w) := by
  have hscan := prepareDir_scanned hok htree
  rw [treeVisits_eq hb hscan hfit]
  rw [writeSdb_eq hb hscan hfit, List.nil_append] at himage
  constructor
  · intro h v hv hnull
    obtain ⟨fs', rs, hrun, hfound⟩ := h _ (Nat.lt_succ_self _)
    obtain ⟨r, hr, hvr⟩ := Paired.exists_right hfound v hv
    have hnonnull := scanOpen_nonnull hrun r hr
    rw [hvr.dev_eq, (recordPtr_isNull fs _).mpr hnull] at hnonnull
    cases hnonnull
  · intro hnull n hn
    have hheld := treeWritten_holds hb hscan.dvd (Nat.lt_of_lt_of_le hlevels (by decide))
    have hmatches := preorder_matches hb hscan hfit hlevels hentry (shows_of_presents himage hheld)
    have hback := Paired.exists_left hmatches
    obtain ⟨fs', hrun⟩ := scanOpen_preorder hd
      (fun e he => by
        obtain ⟨v, hv, hm⟩ := hback e he
        rw [hm.pos_eq]
        exact hnull v hv)
      (fun e he => by
        obtain ⟨v, _, hm⟩ := hback e he
        exact hm.declared)
      (hmatches.length_eq ▸ hn)
    refine ⟨fs', _, hrun, List.forall₂_map_right_iff.mpr ?_⟩
    exact hmatches.imp fun _ _ hm => found_of_matches hw fs hm

/-! ## A directory and a file, read and mapped -/

/-- What is written for a directory "d" with a file "f" of two bytes, and a file "g". -/
def nestedWrites : List (Write Byte) :=
  (writeSdb 64 (allocStorage 64 (nestedTree (readable [0xaa, 0xbb] (by decide)))) ⟨0, []⟩).writes

theorem nested_fit : AddressesFit 64 (nestedTree (readable [0xaa, 0xbb] (by decide))) :=
  ⟨by decide, by decide, by decide, ⟨by decide, by decide, by decide, trivial⟩,
    by decide, by decide, by decide, trivial⟩

theorem nested_fileSize : fileSize nestedWrites = 385 := by decide +kernel

/-- The image, as the `read` method of a driver delivers it. -/
theorem presents_read :
    Presents (fun (pos : BitVec 32) i => imageByte nestedWrites ((intOffset pos).toNat + i.val))
      nestedWrites := by
  intro p hp
  rw [nested_fileSize] at hp
  have hnat : (BitVec.ofNat 32 p).toNat = p := by
    rw [BitVec.toNat_ofNat, Nat.mod_eq_of_lt (by omega)]
  ext1 i
  show imageByte nestedWrites ((intOffset (BitVec.ofNat 32 p)).toNat + i.val) = _
  rw [SdbfsModes.intOffset_eq (by omega), hnat]
  rfl

/-- The small image, behind a `read` method. -/
theorem scan_image_read :
    ∃ fs' rs, scanOpen ⟨true, fun _ => 0⟩ 6
        (SdbfsModes.readDevice (imageByte nestedWrites)) true = .done (fs', rs) ∧
      List.Forall₂ (Found (SdbfsModes.readDevice (imageByte nestedWrites)))
        (treeVisits (allocStorage 64 (nestedTree (readable [0xaa, 0xbb] (by decide))))) rs := by
  refine (scan_image blockSize_64 (nested_ok _) (nested_scan _) nested_fit (by decide)
    (Nat.le_refl 32) ⟨true, fun _ => 0⟩ (SdbfsModes.readDevice (imageByte nestedWrites))
    (fun pos i => imageByte nestedWrites ((intOffset pos).toNat + i.val)) ?_ presents_read
    rfl).mpr ?_ 6 (by decide)
  · exact ⟨SdbfsModes.readImage (imageByte nestedWrites), rfl, fun _ _ _ => rfl⟩
  · rintro v _ ⟨hmapped, _⟩
    exact absurd hmapped (by decide)

/-- The same image at address 0. -/
def nestedHost : Host 32 := ⟨true, fun addr => imageByte nestedWrites addr.toNat⟩

/-- The small image, mapped. -/
theorem presents_mapped :
    Presents (fun pos : BitVec 32 => nestedHost.recordAt (0 + pos)) nestedWrites := by
  intro p hp
  rw [nested_fileSize] at hp
  ext1 i
  have hi := i.isLt
  have hnat : (0#32 + BitVec.ofNat 32 p + BitVec.ofNat 32 i.val).toNat = p + i.val := by
    rw [BitVec.zero_add, ← BitVec.ofNat_add, BitVec.toNat_ofNat, Nat.mod_eq_of_lt (by omega)]
  exact congrArg (imageByte nestedWrites) hnat

/-- Mapped at address 0, as `SDBFS_F_ZEROBASED` allows it to be, the image is not
    found. -/
theorem scan_image_zeroBased : ∃ dirents tree,
    InputOk 64 [] dirents ∧ prepareDir 64 [] dirents = some tree ∧ AddressesFit 64 tree ∧
    levelsBelow tree.entries < SDBFS_DEPTH ∧
    ∃ (host : Host 32) (fs : Sdbfs 32 Unit) (content : BitVec 32 → Record),
      Delivers host fs content ∧
      Presents content (writeSdb 64 (allocStorage 64 tree) ⟨0, []⟩).writes ∧
      fs.entrypoint = tree.dot.ustart.setWidth 32 ∧
      ¬ ∀ n, (treeVisits (allocStorage 64 tree)).length < n →
        ∃ fs' rs, scanOpen host n fs true = .done (fs', rs) ∧
          List.Forall₂ (Found fs) (treeVisits (allocStorage 64 tree)) rs := by
  refine ⟨nested (readable [0xaa, 0xbb] (by decide)), nestedTree (readable [0xaa, 0xbb] (by decide)),
    nested_ok _, nested_scan _, nested_fit, by decide, nestedHost,
    mapped (SDBFS_F_ZEROBASED 32) 0, fun pos => nestedHost.recordAt (0 + pos), fun _ => rfl,
    presents_mapped, rfl, ?_⟩
  intro h
  obtain ⟨fs', rs, hrun, hfound⟩ := h _ (Nat.lt_succ_self _)
  obtain ⟨r, hr, hhead⟩ := Paired.exists_right hfound _ List.mem_cons_self
  have hnonnull := scanOpen_nonnull hrun r hr
  rw [hhead.dev_eq] at hnonnull
  exact absurd hnonnull (by decide)

end GensdbfsScan
