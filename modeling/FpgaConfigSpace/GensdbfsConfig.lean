import FpgaConfigSpace.GensdbfsLayout

/-! # What is scanned

    `scan_inputdir` fills the entries of a directory in, and `scan_config` changes
    them as its configuration file asks.  A configuration that only moves the top
    directory, by whole blocks, and makes no file smaller leaves the tree in a state
    from which it can be laid out. -/

namespace GensdbfsConfig

open BigEndian SdbRecord SdbFields SdbfsOpen Blocks Gensdbfs GensdbfsLayout

/-! ## The input -/

/-- The files of a directory, with their names. -/
def dirFiles : Dirents → List (CString × RegularFile)
  | .nil => []
  | .file name file rest => (name, file) :: dirFiles rest
  | .other _ rest => dirFiles rest
  | .lost _ rest => dirFiles rest
  | .dir _ _ _ rest => dirFiles rest

/-- The records that a directory makes, besides its interconnect. -/
def recordCount : Dirents → Nat
  | .nil => 0
  | .file _ _ rest => recordCount rest + 1
  | .other _ rest => recordCount rest
  | .lost _ rest => recordCount rest
  | .dir _ _ _ rest => recordCount rest + 1

/-- No `maxsize` is below the size of the file it names. -/
def MaxsizesOk (config : Config) (dirents : Dirents) : Prop :=
  ∀ part ∈ config, ∀ size, Directive.maxsize size ∈ part.2 →
    ∀ g ∈ dirFiles dirents, part.1.chars = g.1.chars → g.2.size ≤ size.toNat

/-- Fewer than 65536 records in every directory, and no `maxsize` too small. -/
def SubdirsOk : Dirents → Prop
  | .nil => True
  | .file _ _ rest => SubdirsOk rest
  | .other _ rest => SubdirsOk rest
  | .lost _ rest => SubdirsOk rest
  | .dir _ config sub rest =>
      recordCount sub + 1 < 0x10000 ∧ MaxsizesOk config sub ∧ SubdirsOk sub ∧ SubdirsOk rest

/-- The only `position` is that of ".", at a multiple of the block size. -/
def PositionsOk (b : Nat) (config : Config) : Prop :=
  ∀ part ∈ config, ∀ start, Directive.position start ∈ part.2 →
    part.1.chars = dotName.chars ∧ b ∣ start.toNat

/-- An input that asks for nothing unusual. -/
structure InputOk (b : Nat) (config : Config) (dirents : Dirents) : Prop where
  few : recordCount dirents + 1 < 0x10000
  maxsizes : MaxsizesOk config dirents
  positions : PositionsOk b config
  subdirs : SubdirsOk dirents

/-! ## A directive -/

/-- The bytes of a record that the configuration leaves alone: the magic number and the
    number of records, and the record type. -/
def Kept (n : Nat) : Prop := n < 6 ∨ n = 0x3f

/-- Fields between the flags and the record type leave the magic number alone. -/
theorem byteAt_setBytes_kept (r : Record) {k n : Nat} {bytes : List Byte} (hn : Kept n)
    (hlo : 6 ≤ k) (hhi : k + bytes.length ≤ 0x3f) : byteAt (setBytes r k bytes) n = byteAt r n := by
  refine byteAt_setBytes_of_outside r ?_
  rcases hn with h | h <;> omega

/-- The write flag is in the last byte of its word. -/
theorem byteOf_writeFlag (bus : Word) (on : Bool) {i : Nat} (hi : i < 3) :
    byteOf (if on then bus ||| 0x02 else bus &&& ~~~0x02) i = byteOf bus i := by
  have hmasks : byteOf 0x02 i = 0 ∧ byteOf (~~~0x02) i = BitVec.allOnes 8 := by
    rcases (show i = 0 ∨ i = 1 ∨ i = 2 by omega) with rfl | rfl | rfl <;> exact ⟨rfl, rfl⟩
  cases on with
  | true =>
      refine (BitVec.extractLsb'_or ..).trans ?_
      exact (congrArg (_ ||| ·) hmasks.1).trans (BitVec.or_zero)
  | false =>
      refine (BitVec.extractLsb'_and ..).trans ?_
      exact (congrArg (_ &&& ·) hmasks.2).trans (BitVec.and_allOnes)

/-- The flags, byte by byte. -/
theorem busSpecific_eq (r : Record) :
    busSpecific r = wordOf (byteAt r 4) (byteAt r 5) (byteAt r 6) (byteAt r 7) :=
  be32_eq r (k := busOffset) (by decide)

/-- Writing back the word with another write flag. -/
theorem byteAt_writeFlag (r : Record) (on : Bool) {n : Nat} (hn : n ≠ 7) :
    byteAt (setBusSpecific r
      (if on then busSpecific r ||| 0x02 else busSpecific r &&& ~~~0x02)) n = byteAt r n := by
  have hbyte := fun i (hi : i < 3) => byteOf_writeFlag (busSpecific r) on hi
  generalize (if on then busSpecific r ||| 0x02 else busSpecific r &&& ~~~0x02) = v at hbyte ⊢
  rw [busSpecific_eq] at hbyte
  have hv0 := (hbyte 0 (by decide)).trans (byteOf_wordOf_zero ..)
  have hv1 := (hbyte 1 (by decide)).trans (byteOf_wordOf_one ..)
  have hv2 := (hbyte 2 (by decide)).trans (byteOf_wordOf_two ..)
  rw [setBusSpecific]
  by_cases hout : n < 4 ∨ 8 ≤ n
  · exact byteAt_setBytes_of_outside r hout
  · rcases (show n = 4 ∨ n = 5 ∨ n = 6 by omega) with rfl | rfl | rfl
    · exact (byteAt_setBytes_add r (k := 4) (i := 0) (by decide) rfl).trans hv0
    · exact (byteAt_setBytes_add r (k := 4) (i := 1) (by decide) rfl).trans hv1
    · exact (byteAt_setBytes_add r (k := 4) (i := 2) (by decide) rfl).trans hv2

/-- The fields of an entry that no directive changes, at any level. -/
structure SameEntry (f g : Sdbf) : Prop where
  name_eq : g.basename = f.basename
  base_eq : g.base = f.base
  byteAt_eq : ∀ n, Kept n → byteAt g.record n = byteAt f.record n

theorem SameEntry.refl (f : Sdbf) : SameEntry f f := ⟨rfl, rfl, fun _ _ => rfl⟩

theorem SameEntry.trans {f g h : Sdbf} (hfg : SameEntry f g) (hgh : SameEntry g h) :
    SameEntry f h where
  name_eq := hgh.name_eq.trans hfg.name_eq
  base_eq := hgh.base_eq.trans hfg.base_eq
  byteAt_eq := fun n hn => (hgh.byteAt_eq n hn).trans (hfg.byteAt_eq n hn)

/-- A directive leaves the kind and the name of an entry alone. -/
theorem applyDirective_same (level : Nat) (f : Sdbf) (d : Directive) :
    SameEntry f (applyDirective level f d) := by
  cases d with
  | vendor id =>
      exact ⟨rfl, rfl, fun n hn => byteAt_setBytes_kept f.record hn (by decide) (by simp)⟩
  | device id =>
      exact ⟨rfl, rfl, fun n hn => byteAt_setBytes_kept f.record hn (by decide) (by simp)⟩
  | write on =>
      exact ⟨rfl, rfl, fun n hn => byteAt_writeFlag f.record on (by rcases hn with h | h <;> omega)⟩
  | maxsize size => exact ⟨rfl, rfl, fun _ _ => rfl⟩
  | position start =>
      rw [applyDirective]
      split
      · exact SameEntry.refl f
      · exact ⟨rfl, rfl, fun _ _ => rfl⟩
  | unknown => exact SameEntry.refl f

/-- The record type stays. -/
theorem SameEntry.recordType {f g : Sdbf} (h : SameEntry f g) :
    recordType g.record = recordType f.record := by
  have hbyte := h.byteAt_eq 0x3f (Or.inr rfl)
  rwa [byteAt, byteAt, dif_pos (by decide), dif_pos (by decide)] at hbyte

/-- The number of records stays. -/
theorem SameEntry.records {f g : Sdbf} (h : SameEntry f g) : records g = records f := by
  have h4 := h.byteAt_eq 4 (Or.inl (by decide))
  have h5 := h.byteAt_eq 5 (Or.inl (by decide))
  rw [byteAt, byteAt, dif_pos (by decide), dif_pos (by decide)] at h4 h5
  exact congrArg BitVec.toNat (congrArg₂ (· ++ ·) h4 h5)

/-- The head of a table stays one. -/
theorem SameEntry.isTable {f g : Sdbf} (h : SameEntry f g) (ht : IsTable f.record) :
    IsTable g.record := by
  have hmagic : sdbMagic g.record = sdbMagic f.record := by
    have hbyte : ∀ n, n < 4 → byteAt g.record n = byteAt f.record n :=
      fun n hn => h.byteAt_eq n (Or.inl (by omega))
    rw [sdbMagic, sdbMagic, be32_eq _ (by decide), be32_eq _ (by decide), hbyte _ (by decide),
      hbyte _ (by decide), hbyte _ (by decide), hbyte _ (by decide)]
  exact ⟨h.recordType.trans ht.1, hmagic.trans ht.2⟩

/-! ## The directives below a name -/

section

variable {level : Nat} {ds : List Directive} {f : Sdbf}

/-- So do several directives. -/
theorem foldl_same (level : Nat) (ds : List Directive) (f : Sdbf) :
    SameEntry f (ds.foldl (applyDirective level) f) := by
  refine List.foldlRecOn ds (applyDirective level) (motive := SameEntry f) (SameEntry.refl f) ?_
  intro g hg d _
  exact hg.trans (applyDirective_same level g d)

/-- Only a `position` moves an entry, and not in a subdirectory. -/
theorem foldl_unmoved (h : level ≠ 0 ∨ ∀ start, Directive.position start ∉ ds) :
    (ds.foldl (applyDirective level) f).userpos = f.userpos ∧
      (ds.foldl (applyDirective level) f).ustart = f.ustart := by
  refine List.foldlRecOn ds (applyDirective level)
    (motive := fun g => g.userpos = f.userpos ∧ g.ustart = f.ustart) ⟨rfl, rfl⟩ ?_
  intro g hg d hd
  cases d with
  | position start =>
      rcases h with h | h
      · rw [applyDirective, if_pos h]
        exact hg
      · exact absurd hd (h start)
  | _ => exact hg

/-- The place of a directory stays aligned if all positions are. -/
theorem foldl_ustart {b : Nat} (h : ∀ start, Directive.position start ∈ ds → b ∣ start.toNat)
    (hf : b ∣ f.ustart.toNat) : b ∣ (ds.foldl (applyDirective level) f).ustart.toNat := by
  refine List.foldlRecOn ds (applyDirective level) (motive := fun g => b ∣ g.ustart.toNat) hf ?_
  intro g hg d hd
  cases d with
  | position start =>
      rw [applyDirective]
      split
      · exact hg
      · exact h start hd
  | _ => exact hg

/-- A file stays large enough if every `maxsize` is. -/
theorem foldl_sizeOk {blocksize : BitVec 32} {file : RegularFile}
    (h : ∀ size, Directive.maxsize size ∈ ds → file.size ≤ size.toNat)
    (hf : SizeOk blocksize file f.size) :
    SizeOk blocksize file (ds.foldl (applyDirective level) f).size := by
  refine List.foldlRecOn ds (applyDirective level)
    (motive := fun g => SizeOk blocksize file g.size) hf ?_
  intro g hg d hd
  cases d with
  | maxsize size => exact Or.inl (h size hd)
  | position start =>
      rw [applyDirective]
      split
      · exact hg
      · exact hg
  | _ => exact hg

end

/-! ## The entries of a directory -/

/-- The files among the entries, with their names. -/
def entryFiles : Entries → List (CString × RegularFile)
  | .nil => []
  | .file f file rest => (f.basename, file) :: entryFiles rest
  | .subdir _ _ _ rest => entryFiles rest

section

variable {name : CString} {change : Sdbf → Sdbf} (hsame : ∀ f, SameEntry f (change f))

/-- No entry is added or lost. -/
theorem count_updateFirst (name : CString) (change : Sdbf → Sdbf) (left : Nat) (e : Entries) :
    (updateFirst name change left e).count = e.count := by
  induction e generalizing left with
  | nil => cases left <;> rfl
  | file f file rest ih =>
      cases left with
      | zero => rfl
      | succ left =>
          rw [updateFirst]
          split
          · rfl
          · exact congrArg (· + 1) (ih left)
  | subdir f dot sub rest _ ih =>
      cases left with
      | zero => rfl
      | succ left =>
          rw [updateFirst]
          split
          · rfl
          · exact congrArg (· + 1) (ih left)

include hsame

/-- The files stay what they were. -/
theorem entryFiles_updateFirst (left : Nat) (e : Entries) :
    entryFiles (updateFirst name change left e) = entryFiles e := by
  induction e generalizing left with
  | nil => cases left <;> rfl
  | file f file rest ih =>
      cases left with
      | zero => rfl
      | succ left =>
          rw [updateFirst]
          split
          · rw [entryFiles, (hsame f).name_eq, entryFiles]
          · rw [entryFiles, ih, entryFiles]
  | subdir f dot sub rest _ ih =>
      cases left with
      | zero => rfl
      | succ left =>
          rw [updateFirst]
          split
          · rfl
          · exact ih left

/-- A change that keeps the sizes right keeps the entries scanned. -/
theorem scanned_updateFirst {blocksize : BitVec 32} (huser : ∀ f, (change f).userpos = f.userpos)
    {e : Entries} (h : Scanned blocksize e) : ∀ left : Nat,
    (∀ f file, (f.basename, file) ∈ entryFiles e → name.chars = f.basename.chars →
      SizeOk blocksize file f.size → SizeOk blocksize file (change f).size) →
    Scanned blocksize (updateFirst name change left e) := by
  induction e with
  | nil =>
      intro left _
      cases left <;> exact h
  | file f file rest ih =>
      intro left hsize
      cases left with
      | zero => exact h
      | succ left =>
          obtain ⟨⟨hpos, hok, htype⟩, hrest⟩ := h
          rw [updateFirst]
          split
          · next hname =>
            exact ⟨⟨(huser f).trans hpos, hsize f file List.mem_cons_self hname hok,
              (hsame f).recordType.trans htype⟩, hrest⟩
          · exact ⟨⟨hpos, hok, htype⟩,
              ih hrest left fun g file' hg => hsize g file' (List.mem_cons_of_mem _ hg)⟩
  | subdir f dot sub rest _ ih =>
      intro left hsize
      cases left with
      | zero => exact h
      | succ left =>
          obtain ⟨⟨hpos, htype⟩, hdot, hsub, hrest⟩ := h
          rw [updateFirst]
          split
          · exact ⟨⟨(huser f).trans hpos, (hsame f).recordType.trans htype⟩, hdot, hsub, hrest⟩
          · exact ⟨⟨hpos, htype⟩, hdot, hsub, ih hrest left hsize⟩

end

/-! ## Filling in an entry -/

theorem recordType_fillProduct (r : Record) (name : CString) (t : Byte) :
    recordType (fillProduct r name t) = t := rfl

/-- The product fills in what is behind the addresses. -/
theorem byteAt_fillProduct (r : Record) (name : CString) (t : Byte) {n : Nat} (hn : n < 0x18) :
    byteAt (fillProduct r name t) n = byteAt r n := by
  rw [fillProduct, setRecordType, setVersion, setVendorId, setName,
    byteAt_setBytes_of_outside _ (Or.inl (by omega)),
    byteAt_setBytes_of_outside _ (Or.inl (by omega)),
    byteAt_setBytes_of_outside _ (Or.inl (by omega)),
    byteAt_setBytes_of_outside _ (Or.inl (by omega)),
    byteAt_setBytes_of_outside _ (Or.inl (by omega))]

/-- An interconnect that `scan_inputdir` fills in. -/
theorem scannedDot_fillDot (level : Nat) {n : Nat} (hn : n < 0x10000) :
    ScannedDot (fillDot level n) n where
  base_eq := rfl
  name_eq := rfl
  records_eq := by
    have hwhole : sdbRecords (fillDot level n).record = BitVec.ofNat 16 n :=
      sdbRecords_setSdbRecords _ _
    rw [records, hwhole, BitVec.toNat_ofNat, Nat.mod_eq_of_lt hn]
  table := by
    refine ⟨rfl, ?_⟩
    have hmagic : ∀ i, i < 4 → byteAt (fillDot level n).record i =
        byteAt (setSdbMagic emptyRecord SDB_MAGIC) i := by
      intro i hi
      rw [fillDot]
      simp only
      rw [setSdbRecords, byteAt_setBytes_of_outside _ (Or.inl (by omega)),
        byteAt_fillProduct _ _ _ (by omega), setSdbBusType,
        byteAt_setBytes_of_outside _ (Or.inl (by omega)), setSdbVersion,
        byteAt_setBytes_of_outside _ (Or.inl (by omega))]
    refine Eq.trans ?_ (be32_setBytes emptyRecord (k := 0) (by decide) SDB_MAGIC)
    rw [sdbMagic, be32_eq _ (by decide), be32_eq _ (by decide), hmagic _ (by decide),
      hmagic _ (by decide), hmagic _ (by decide), hmagic _ (by decide)]
    rfl

/-! ## The configuration of a directory -/

/-- A directory that can be laid out; only the top one may have been moved. -/
structure Configured (blocksize : BitVec 32) (level : Nat) (files : List (CString × RegularFile))
    (tree : Tree) : Prop where
  scanned : ScannedTree blocksize tree
  unmoved : level ≠ 0 → tree.dot.ustart = 0
  files_eq : entryFiles tree.entries = files

/-- Directives keep it what it is. -/
theorem scannedDot_same {dot dot' : Sdbf} {n : Nat} (h : ScannedDot dot n)
    (hsame : SameEntry dot dot') : ScannedDot dot' n where
  base_eq := hsame.base_eq.trans h.base_eq
  name_eq := hsame.name_eq.trans h.name_eq
  records_eq := hsame.records.trans h.records_eq
  table := hsame.isTable h.table

section

variable {blocksize : BitVec 32} {level : Nat} {files : List (CString × RegularFile)} {tree : Tree}

/-- The step lemma: one name of the configuration. -/
theorem configure_configured {part : CString × List Directive}
    (hposition : level = 0 → ∀ start, Directive.position start ∈ part.2 →
      part.1.chars = dotName.chars ∧ blocksize.toNat ∣ start.toNat)
    (hmaxsize : ∀ size, Directive.maxsize size ∈ part.2 →
      ∀ g ∈ files, part.1.chars = g.1.chars → g.2.size ≤ size.toNat)
    (h : Configured blocksize level files tree) :
    Configured blocksize level files (configure level tree part) := by
  have hsame := fun f => foldl_same level part.2 f
  rw [configure]
  by_cases hnone : records tree.dot = 0
  · rw [if_pos hnone]
    exact h
  rw [if_neg hnone]
  obtain ⟨⟨hdot, hdvd, hentries⟩, hunmoved, hfiles⟩ := h
  by_cases hname : part.1.chars = tree.dot.basename.chars
  · simp only [if_pos hname]
    refine ⟨⟨scannedDot_same hdot (hsame tree.dot), ?_, hentries⟩, ?_, hfiles⟩
    · by_cases hlevel : level = 0
      · exact foldl_ustart (fun start hs => (hposition hlevel start hs).2) hdvd
      · rw [(foldl_unmoved (Or.inl hlevel)).2]
        exact hdvd
    · intro hlevel
      exact (foldl_unmoved (Or.inl hlevel)).2.trans (hunmoved hlevel)
  · simp only [if_neg hname]
    have hstay : level ≠ 0 ∨ ∀ start, Directive.position start ∉ part.2 := by
      by_cases hlevel : level = 0
      · refine Or.inr fun start hs => hname ?_
        rw [hdot.name_eq]
        exact (hposition hlevel start hs).1
      · exact Or.inl hlevel
    have hcount := count_updateFirst part.1 (fun f => part.2.foldl (applyDirective level) f)
      (records tree.dot - 1) tree.entries
    refine ⟨⟨hcount.symm ▸ hdot, hdvd, ?_⟩, hunmoved, ?_⟩
    · refine scanned_updateFirst hsame (fun f => (foldl_unmoved hstay).1) hentries _ ?_
      intro f file hf heq hok
      exact foldl_sizeOk (fun size hs => hmaxsize size hs _ (hfiles ▸ hf) heq) hok
    · exact (entryFiles_updateFirst hsame _ _).trans hfiles

/-- By induction, the whole file. -/
theorem scanConfig_configured {config : Config}
    (hpositions : level = 0 → PositionsOk blocksize.toNat config)
    (hmaxsizes : ∀ part ∈ config, ∀ size, Directive.maxsize size ∈ part.2 →
      ∀ g ∈ files, part.1.chars = g.1.chars → g.2.size ≤ size.toNat)
    (h : Configured blocksize level files tree) :
    Configured blocksize level files (scanConfig level config tree) := by
  refine List.foldlRecOn config (configure level)
    (motive := Configured blocksize level files) h ?_
  intro tree htree part hpart
  exact configure_configured (fun hlevel => hpositions hlevel part hpart) (hmaxsizes part hpart)
    htree

/-- A directory whose records are counted, before its configuration is read. -/
theorem configured_fillDot {e : Entries} (level : Nat) (he : Scanned blocksize e)
    (hcount : e.count + 1 < 0x10000) :
    Configured blocksize level (entryFiles e) ⟨fillDot level (e.count + 1), e⟩ where
  scanned := ⟨scannedDot_fillDot level hcount, Nat.dvd_zero _, he⟩
  unmoved := fun _ => rfl
  files_eq := rfl

end

/-! ## The whole input -/

section

variable {blocksize : BitVec 32}

/-- Every directory is scanned, and configured, into entries that can be laid out. -/
theorem scanEntries_scanned {dirents : Dirents} : ∀ {level : Nat} {e : Entries},
    SubdirsOk dirents → scanEntries blocksize level dirents = some e →
    Scanned blocksize e ∧ e.count = recordCount dirents ∧ entryFiles e = dirFiles dirents := by
  induction dirents with
  | nil =>
      intro level e _ h
      cases h
      exact ⟨trivial, rfl, rfl⟩
  | file name file rest ih =>
      intro level e hok h
      obtain ⟨e, he, rfl⟩ := Option.map_eq_some_iff.mp h
      obtain ⟨hscan, hcount, hfiles⟩ := ih hok he
      refine ⟨⟨⟨rfl, ?_, recordType_fillProduct _ _ _⟩, hscan⟩, congrArg (· + 1) hcount,
        congrArg (List.cons (name, file)) hfiles⟩
      rw [fillFile]
      by_cases hw : file.iwoth = true
      · simp only [if_pos hw]
        exact Or.inr rfl
      · simp only [if_neg hw]
        refine Or.inl (Nat.le_of_eq ?_)
        have hlt := file.size_lt
        rw [BitVec.toNat_ofNat, Nat.mod_eq_of_lt (by omega)]
  | other name rest ih => exact fun hok h => ih hok h
  | lost name rest => exact fun _ h => absurd h (by simp [scanEntries])
  | dir name config sub rest ihsub ih =>
      intro level e hok h
      obtain ⟨hfew, hmax, hsubok, hok⟩ := hok
      obtain ⟨s, hs, h⟩ := Option.bind_eq_some_iff.mp h
      obtain ⟨e, he, rfl⟩ := Option.map_eq_some_iff.mp h
      obtain ⟨hscanSub, hcountSub, hfilesSub⟩ := ihsub hsubok hs
      obtain ⟨hscan, hcount, hfiles⟩ := ih hok he
      have hconf : Configured blocksize (level + 1) (entryFiles s)
          (scanConfig (level + 1) config ⟨fillDot (level + 1) (s.count + 1), s⟩) :=
        scanConfig_configured (fun h => absurd h (Nat.succ_ne_zero level)) (hfilesSub ▸ hmax)
          (configured_fillDot (level + 1) hscanSub (hcountSub ▸ hfew))
      refine ⟨⟨⟨rfl, recordType_fillProduct _ _ _⟩, ⟨hconf.scanned.dot, ?_⟩, hconf.scanned.entries,
        hscan⟩, congrArg (· + 1) hcount, hfiles⟩
      exact hconf.unmoved (Nat.succ_ne_zero level)

/-- **What `prepare_dir` returns can be laid out.** -/
theorem prepareDir_scanned {config : Config} {dirents : Dirents} {tree : Tree}
    (hok : InputOk blocksize.toNat config dirents)
    (h : prepareDir blocksize config dirents = some tree) : ScannedTree blocksize tree := by
  obtain ⟨e, he, rfl⟩ := Option.map_eq_some_iff.mp h
  obtain ⟨hscan, hcount, hfiles⟩ := scanEntries_scanned hok.subdirs he
  refine (scanConfig_configured (fun _ => hok.positions) (hfiles ▸ hok.maxsizes)
    (configured_fillDot 0 hscan ?_)).scanned
  rw [hcount]
  exact hok.few

end

end GensdbfsConfig
