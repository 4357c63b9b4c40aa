import FpgaConfigSpace.GensdbfsMounted
import FpgaConfigSpace.SdbExtractRoundTrip
import FpgaConfigSpace.SdbfsSequence
import FpgaConfigSpace.SdbIomem

/-! # A file printed by `sdb-read`

    `gensdbfs` makes an image of a directory, and `sdb-read` with a second argument prints a
    file of the image.  An argument that begins with two hexadecimal numbers and a colon
    between them stands for a vendor and a device, any other one for a name.  The first record
    that passes is opened, and what `sdbfs_fread` delivers of it is copied to the output, 4096
    bytes at a time. -/

namespace SdbReadCat

open BigEndian SdbRecord SdbFields SdbfsDevice SdbfsScan SdbfsOpen SdbfsTree SdbfsRuns
open SdbfsSearch SdbfsModes SdbfsCreate SdbfsSequence FileCursor CyclicBuffer FileWrites Blocks
open Gensdbfs GensdbfsLayout GensdbfsConfig GensdbfsInput GensdbfsApart GensdbfsTables GensdbfsScan
open GensdbfsFlat GensdbfsMounted SdbExtract SdbExtractFields SdbExtractFlat SdbExtractRoundTrip
open SdbfsAccess (sdbfsFread openScan_same)
open GensdbfsMain (filePieces_flatten)

/-! ## The program -/

/-- `do_read`, with `drvdata->mapaddr`. -/
def doRead (host : Host 64) (mapaddr : BitVec 64) : ReadMethod Unit :=
  fun s offset count _ =>
    (s, count, fun i => host.mem (mapaddr + BitVec.ofInt 64 offset + BitVec.ofNat 64 i.val))

/-- The device that `main` makes of a file that can be mapped; `optRead` is the option "-r". -/
def readerDevice (host : Host 64) (optRead : Bool) (mapaddr entry : BitVec 64) : Sdbfs 64 Unit :=
  if optRead then Sdbfs.fresh () entry 0 0 (some (doRead host mapaddr))
  else imageDevice mapaddr entry

variable {w : Nat} {σ : Type}

/-- `do_cat_name` behind the call that opens the file: the status, and what is printed. -/
def catOpened (host : Host w) (n : Nat) (buf : Nat → Byte) :
    Outcome (Sdbfs w σ × Int) → Outcome (Int × List Byte)
  | .done (fs, i) =>
      if i < 0 then .done (1, [])
      else
        match readAll host 4096 n fs buf with
        | .done bytes => .done (0, bytes)
        | .running => .running
        | .undefined => .undefined
  | .running => .running
  | .undefined => .undefined

/-- `htonll` of the machine. -/
def htonll (host : Host w) (ll : BitVec 64) : BitVec 64 :=
  if host.littleEndian then
    Host.htonl host (ll.extractLsb' 0 32) ++ Host.htonl host (ll.extractLsb' 32 32)
  else ll

/-- `do_cat_name`. -/
def doCatName (host : Host w) (n : Nat) (buf : Nat → Byte) (fs : Sdbfs w σ) (name : CString) :
    Outcome (Int × List Byte) :=
  catOpened host n buf (sdbfsOpenName host n fs name)

/-- `do_cat_id`. -/
def doCatId (host : Host w) (n : Nat) (buf : Nat → Byte) (fs : Sdbfs w σ) (vendor : BitVec 64)
    (dev : Word) : Outcome (Int × List Byte) :=
  catOpened host n buf (sdbfsOpenId host n fs (htonll host vendor) (Host.htonl host dev))

/-- `sscanf(filearg, "%llx:%lx", ...)`, if it returns 2.  On a 64-bit machine the two
    conversions are the same, `lx`; what follows the second number does not matter. -/
def scanIds (lx : List Byte → Option (ULong × List Byte)) (filearg : CString) :
    Option (ULong × ULong) :=
  match SdbIomem.sscanf lx [.lx, .literal 0x3a, .lx] filearg.chars with
  | [int64, int32] => some (int64, int32)
  | _ => none

/-- `main`, with a second argument. -/
def sdbRead (host : Host 64) (lx : List Byte → Option (ULong × List Byte)) (stack : Fin 4 → Byte)
    (optRead : Bool) (mapaddr entry : BitVec 64) (n : Nat) (buf : Nat → Byte) (filearg : CString) :
    Outcome (Int × List Byte) :=
  match sdbfsDevCreate host stack (readerDevice host optRead mapaddr entry) with
  | none => .undefined
  | some (fs, err) =>
      if err ≠ 0 then .done (1, [])
      else
        match scanIds lx filearg with
        | none => doCatName host n buf fs filearg
        | some (int64, int32) => doCatId host n buf fs int64 (int32.setWidth 32)

/-! ## The loop -/

variable {host : Host w} {fs : Sdbfs w σ} {count : BitVec 32}

/-- **The loop delivers what is left of the file**, however much is asked for at once. -/
theorem readAll_file (hw : 32 ≤ w) {byte : Nat → Byte} (hc : count.msb = false)
    (hpos : 0 < count.toNat) : ∀ (n : Nat) {fs : Sdbfs w σ} (buf : Nat → Byte),
    SdbfsSequence.Opened fs → Offers host fs byte → (fs.data ≠ 0#w ∨ fs.read ≠ none) →
    fs.fLen.toNat + count.toNat < 0x80000000 → fs.fLen.toNat - fs.readOffset.toNat < n →
    readAll host count n fs buf = .done ((fileOf byte fs).drop fs.readOffset.toNat) := by
  intro n
  induction n with
  | zero => exact fun _ _ _ _ _ hn => absurd hn (Nat.not_lt_zero _)
  | succ n ih =>
      intro fs buf ho hoff hway hsum hn
      -- the offset is negative: the call goes on from the position
      have hneg : (-1 : BitVec 32).msb = true := by decide
      have hrange : FreadCall.InRange ⟨-1, buf, count⟩ fs.fLen.toNat :=
        ⟨hc, hsum, fun h => absurd (h.symm.trans hneg) (by decide)⟩
      obtain ⟨fs', ret, buf', hread, hsame, hnext, hret⟩ :=
        sdbfsFread_delivers hw ho.opened hoff hway hrange ho.readOffset_le
      obtain ⟨r, hr⟩ : ∃ r, FreadCall.request ⟨-1, buf, count⟩ = r := ⟨_, rfl⟩
      have hplace : r.place = none := by
        rw [← hr]
        exact if_pos hneg
      have hcount : r.count = count.toNat := by rw [← hr]; rfl
      rw [hr] at hnext hret
      have happend := @delivered_append Byte (fileOf byte fs) fs.readOffset.toNat r hplace
      have hlen := delivered_length (fileOf byte fs) fs.readOffset.toNat r
      have hstart : r.start fs.readOffset.toNat = fs.readOffset.toNat := by
        rw [Request.start, hplace]
        rfl
      rw [fileOf_length, hstart, hcount] at hlen
      have hvalue := hret.ret
      rw [readAll, hread]
      simp only
      by_cases hend : ret ≤ 0
      · rw [if_pos hend, List.drop_eq_nil_of_le]
        rw [fileOf_length]
        omega
      · have hmoved : fs'.readOffset.toNat = fs.readOffset.toNat +
            (delivered (fileOf byte fs) fs.readOffset.toNat r).length := by
          rw [hnext, next, hstart, if_neg]
          intro hnil
          rw [hnil] at hvalue
          exact hend (by simp [hvalue])
        have hrest : readAll host count n fs' buf' =
            .done ((fileOf byte fs).drop fs'.readOffset.toNat) := by
          rw [← hsame.fileOf byte]
          refine ih buf' ⟨?_, ?_⟩ (hoff.same hsame) ?_ ?_ ?_
          · rw [hsame.currentp]
            exact ho.opened
          · rw [hsame.fLen]
            omega
          · rw [hsame.device.1, hsame.device.2.2]
            exact hway
          · rw [hsame.fLen]
            exact hsum
          · rw [hsame.fLen]
            omega
        rw [if_neg hend, hrest]
        simp only
        rw [hvalue, Int.toNat_natCast, hret.front, hnext, happend]

/-! ## The first record that passes -/

/-- The tests of `sdbfs_open_name` on a name in a record. -/
def passes (name n : CString) : Bool :=
  (paddedName n).take name.chars.length == name.chars &&
    (19 ≤ name.chars.length || (paddedName n).getD name.chars.length 0 == 0x20)

/-- The name in a record is all that `sdbfs_open_name` looks at. -/
theorem nameMatches_eq {name n : CString} {r : Record} (h : productName r = paddedName n) :
    nameMatches name r = passes name n := by
  rw [nameMatches, passes, h]

/-- What the search comes to first: a file, or the record of a directory or of its table. -/
inductive Found where
  | file (file : RegularFile)
  | table

/-- The first record with a name, below a directory: a subdirectory is searched behind its own
    record and its interconnect. -/
def firstPassing (name : CString) : Dirents → Option Found
  | .nil => none
  | .file n file rest => if passes name n then some (.file file) else firstPassing name rest
  | .other _ rest => firstPassing name rest
  | .lost _ rest => firstPassing name rest
  | .dir n _ sub rest =>
      if passes name n then some .table
      else if passes name dotName then some .table
      else (firstPassing name sub).or (firstPassing name rest)

/-- The first record that passes a test, among those that were prepared. -/
def firstRecord (p : Record → Bool) : Entries → Option Found
  | .nil => none
  | .file f file rest => if p f.record then some (.file file) else firstRecord p rest
  | .subdir f dot sub rest =>
      if p f.record then some .table
      else if p dot.record then some .table
      else (firstRecord p sub).or (firstRecord p rest)

/-- The record has these identifiers. -/
def hasIds (vendor : BitVec 64) (dev : Word) (r : Record) : Bool :=
  be64 r vendorOffset == vendor && be32 r deviceOffset == dev

/-- The test looks at nothing but the product. -/
def Placeless (p : Record → Bool) : Prop := ∀ r r', SameProduct r r' → p r' = p r

/-- A name is compared with the name of the product. -/
theorem placeless_nameMatches (name : CString) : Placeless (nameMatches name) := by
  intro r r' h
  rw [nameMatches, nameMatches, h.name]

/-- Identifiers are those of the product. -/
theorem placeless_hasIds (vendor : BitVec 64) (dev : Word) : Placeless (hasIds vendor dev) := by
  intro r r' h
  rw [hasIds, hasIds, h.vendor, h.device]

/-- Where names are compared, the directory says which record is the first. -/
theorem firstRecord_name {d : Dirents} {e : Entries} (hmade : Makes d e) (name : CString) :
    firstRecord (nameMatches name) e = firstPassing name d := by
  induction hmade with
  | nil => rfl
  | file hentry _ ih => rw [firstRecord, firstPassing, nameMatches_eq hentry.name_eq, ih]
  | other _ ih => exact ih
  | dir hentry hdot _ _ ihsub ih =>
      rw [firstRecord, firstPassing, nameMatches_eq hentry.name_eq, nameMatches_eq hdot.name_eq,
        ihsub, ih]

/-- `htonl` twice is nothing. -/
theorem htonl_htonl (host : Host w) (x : Word) : Host.htonl host (Host.htonl host x) = x := by
  by_cases hle : host.littleEndian = true
  · rw [Host.htonl, Host.htonl, if_pos hle, if_pos hle, byteOf_wordOf_zero, byteOf_wordOf_one,
      byteOf_wordOf_two, byteOf_wordOf_three, wordOf_byteOf]
  · rw [Host.htonl, Host.htonl, if_neg hle, if_neg hle]

/-- The halves of a number change places. -/
theorem htonll_append {host : Host w} (hle : host.littleEndian = true) (high low : Word) :
    htonll host (high ++ low) = Host.htonl host low ++ Host.htonl host high := by
  rw [htonll, if_pos hle]
  exact congrArg₂ (fun low high => Host.htonl host low ++ Host.htonl host high)
    BitVec.extractLsb'_append_eq_right BitVec.extractLsb'_append_eq_left

/-- `htonll` twice is nothing. -/
theorem htonll_htonll (host : Host w) (x : BitVec 64) : htonll host (htonll host x) = x := by
  by_cases hle : host.littleEndian = true
  · have hsplit : x = x.extractLsb' 32 32 ++ x.extractLsb' 0 32 :=
      (SdbFields.extract_halves x).symm
    generalize x.extractLsb' 32 32 = high at hsplit
    generalize x.extractLsb' 0 32 = low at hsplit
    rw [hsplit, htonll_append hle, htonll_append hle, htonl_htonl, htonl_htonl]
  · rw [htonll, htonll, if_neg hle, if_neg hle]

/-- A number that is loaded is the one that is stored, turned around. -/
theorem load32_eq (host : Host w) (r : Record) (k : Fin 64) :
    load32 host r k = Host.htonl host (be32 r k) := by
  by_cases hle : host.littleEndian = true
  · rw [load32, if_pos hle, Host.htonl, if_pos hle, be32, byteOf_wordOf_zero, byteOf_wordOf_one,
      byteOf_wordOf_two, byteOf_wordOf_three, le32]
  · rw [load32, if_neg hle, Host.htonl, if_neg hle]

theorem load64_eq (host : Host w) (r : Record) (k : Fin 64) :
    load64 host r k = htonll host (be64 r k) := by
  by_cases hle : host.littleEndian = true
  · have hload : ∀ k, le32 r k = Host.htonl host (be32 r k) := by
      intro k
      rw [← load32_eq, load32, if_pos hle]
    rw [load64, if_pos hle, le64, hload, hload, be64, htonll_append hle]
  · rw [load64, if_neg hle, htonll, if_neg hle]

/-- **The machine compares the identifiers that were meant**, in either byte order. -/
theorem idMatches_htonll (host : Host w) (vendor : BitVec 64) (dev : Word) (r : Record) :
    idMatches host (htonll host vendor) (Host.htonl host dev) r = hasIds vendor dev r := by
  have hvendor : htonll host (be64 r vendorOffset) = htonll host vendor ↔
      be64 r vendorOffset = vendor :=
    ⟨fun h => by rw [← htonll_htonll host vendor, ← h, htonll_htonll], congrArg _⟩
  have hdev : Host.htonl host (be32 r deviceOffset) = Host.htonl host dev ↔
      be32 r deviceOffset = dev :=
    ⟨fun h => by rw [← htonl_htonl host dev, ← h, htonl_htonl], congrArg _⟩
  rw [idMatches, load64_eq, load32_eq, hasIds, Bool.eq_iff_iff, Bool.and_eq_true, Bool.and_eq_true,
    beq_iff_eq, beq_iff_eq, beq_iff_eq, beq_iff_eq, hvendor, hdev]

/-- No record has so long a name. -/
theorem passes_long {name n : CString} (hname : 19 < name.chars.length) (hn : n.chars.length ≤ 19) :
    passes name n = false := by
  have hlen : (paddedName n).length = 19 := by
    rw [paddedName, List.length_append, List.length_replicate]
    omega
  have htake : (paddedName n).take name.chars.length ≠ name.chars := by
    intro h
    have := congrArg List.length h
    rw [List.length_take, hlen] at this
    omega
  rw [passes, beq_eq_false_iff_ne.mpr htake, Bool.false_and]

/-- A name that is too long passes nowhere. -/
theorem firstPassing_long {name : CString} (hname : 19 < name.chars.length) :
    ∀ {d : Dirents}, NamesFit d → firstPassing name d = none := by
  intro d
  induction d with
  | nil => exact fun _ => rfl
  | file n file rest ih =>
      rintro ⟨hn, hrest⟩
      rw [firstPassing, passes_long hname hn.fits, if_neg Bool.false_ne_true, ih hrest]
  | other n rest ih => exact ih
  | lost n rest ih => exact ih
  | dir n config sub rest ihsub ih =>
      rintro ⟨hn, hsub, hrest⟩
      rw [firstPassing, passes_long hname hn.fits, passes_long hname fieldName_dot.fits,
        if_neg Bool.false_ne_true, if_neg Bool.false_ne_true, ihsub hsub, ih hrest]
      rfl

/-! ## The sizes -/

/-- No directive asks for a size. -/
def NoMaxsize (config : Config) : Prop := ∀ part ∈ config, ∀ size, Directive.maxsize size ∉ part.2

/-- Nor does any in the directories below. -/
def PlainConfigs : Dirents → Prop
  | .nil => True
  | .file _ _ rest => PlainConfigs rest
  | .other _ rest => PlainConfigs rest
  | .lost _ rest => PlainConfigs rest
  | .dir _ config sub rest => NoMaxsize config ∧ PlainConfigs sub ∧ PlainConfigs rest

/-- Every file that cannot be written to has its own size. -/
def OwnSizes : Entries → Prop
  | .nil => True
  | .file f file rest => (file.iwoth = false → f.size = BitVec.ofNat 64 file.size) ∧ OwnSizes rest
  | .subdir _ _ sub rest => OwnSizes sub ∧ OwnSizes rest

/-- Without a `maxsize` the size stays. -/
theorem foldl_size (level : Nat) {ds : List Directive} (h : ∀ size, Directive.maxsize size ∉ ds) :
    ∀ f : Sdbf, (ds.foldl (applyDirective level) f).size = f.size := by
  induction ds with
  | nil => exact fun _ => rfl
  | cons d ds ih =>
      intro f
      rw [List.foldl_cons, ih fun size hs => h size (List.mem_cons_of_mem _ hs)]
      cases d with
      | maxsize size => exact absurd List.mem_cons_self (h size)
      | position start => rw [applyDirective]; split <;> rfl
      | _ => rfl

/-- No entry has one. -/
theorem directivesAt_noMaxsize {config : Config} (h : NoMaxsize config) (dirents : Dirents) (i : Nat) :
    ∀ size, Directive.maxsize size ∉ directivesAt config dirents i := by
  intro size hmem
  obtain ⟨part, hpart, hin⟩ := List.mem_flatMap.mp hmem
  split at hin
  · exact h part hpart size hin
  · cases hin

/-- Every file has the size of its contents. -/
theorem builtEntries_ownSizes {blocksize : BitVec 32} {dirents : Dirents} : ∀ {level i : Nat}
    {directives : Nat → List Directive} {e : Entries},
    (∀ i size, Directive.maxsize size ∉ directives i) → PlainConfigs dirents →
    builtEntries blocksize level directives dirents i = some e → OwnSizes e := by
  induction dirents with
  | nil =>
      intro level i directives e _ _ h
      cases h
      trivial
  | file name file rest ih =>
      intro level i directives e hds hplain h
      obtain ⟨s, hs, rfl⟩ := Option.map_eq_some_iff.mp h
      refine ⟨fun hread => ?_, ih hds hplain hs⟩
      rw [foldl_size level (hds i), fillFile]
      simp [hread]
  | other name rest ih => exact fun hds hplain h => ih hds hplain h
  | lost name rest => exact fun _ _ h => by cases h
  | dir name config sub rest ihsub ih =>
      rintro level i directives e hds ⟨hconfig, hsub, hrest⟩ h
      obtain ⟨s, hs, h⟩ := Option.bind_eq_some_iff.mp h
      obtain ⟨r, hr, rfl⟩ := Option.map_eq_some_iff.mp h
      exact ⟨ihsub (directivesAt_noMaxsize hconfig sub) hsub hs, ih hds hrest hr⟩

/-- So it is in the tree that is prepared. -/
theorem prepareDir_ownSizes {blocksize : BitVec 32} {config : Config} {dirents : Dirents}
    {tree : Tree} (hconfig : NoMaxsize config) (hplain : PlainConfigs dirents)
    (h : prepareDir blocksize config dirents = some tree) : OwnSizes tree.entries := by
  rw [prepareDir_built] at h
  obtain ⟨e, he, rfl⟩ := Option.map_eq_some_iff.mp h
  exact builtEntries_ownSizes (directivesAt_noMaxsize hconfig dirents) hplain he

section

variable {blocksize : BitVec 32} {tree : Tree}

/-- The range of a file, with its contents in the image; `plain` says that no size was asked
    for. -/
structure FileAt (blocksize : BitVec 32) (tree : Tree) (plain : Prop) (file : RegularFile)
    (v : Visit) (start : Nat) (size : ULong) : Prop where
  region : v.region = some (BitVec.ofNat 64 start, size)
  fits : file.size ≤ size.toNat
  start_lt : start < 0x100000000
  own : plain → file.iwoth = false → size.toNat = file.size
  writes : consecutive start (filePieces blocksize file) <:+: treeWritten blocksize tree

/-- The visit that the search comes to. -/
def Reached (blocksize : BitVec 32) (tree : Tree) (plain : Prop) (found : Option Visit) :
    Option Found → Prop
  | none => found = none
  | some (.file file) =>
      ∃ v start size, found = some v ∧ FileAt blocksize tree plain file v start size
  | some .table => ∃ v, found = some v

/-- The first of two searches that finds something. -/
theorem reached_or {plain : Prop} {found found' : Option Visit} {item item' : Option Found}
    (h : Reached blocksize tree plain found item) (h' : Reached blocksize tree plain found' item') :
    Reached blocksize tree plain (found.or found') (item.or item') := by
  cases item with
  | none =>
      have hnone : found = none := h
      rw [hnone]
      exact h'
  | some item =>
      cases item with
      | file file =>
          obtain ⟨v, start, size, rfl, hat⟩ := h
          exact ⟨v, start, size, rfl, hat⟩
      | table => obtain ⟨v, rfl⟩ := h; exact ⟨v, rfl⟩

variable (hb : BlockSize blocksize)

include hb

/-- **The search comes to the first record that passes**, and a file's has its contents. -/
theorem reached_visits {plain : Prop} {p : Record → Bool} (hp : Placeless p) {e : Entries} :
    ∀ {base pos slot : Nat}, Laid blocksize tree e base pos → (plain → OwnSizes e) →
    Reached blocksize tree plain ((layoutVisits blocksize.toNat e base pos slot).find? fun v =>
      p v.record) (firstRecord p e) := by
  induction e with
  | nil => exact fun _ _ => rfl
  | file f file rest ih =>
      intro base pos slot h hown
      have htest : p (placedRecord f.record pos f.size.toNat) = p f.record :=
        hp _ _ (readdressed f.record _ _).sameProduct
      rw [firstRecord, layoutVisits, List.find?_cons]
      simp only [htest]
      cases hn : p f.record with
      | true =>
          obtain ⟨haddr, -, hfile, -⟩ := h.fits
          have hblock := Nat.le_of_dvd h.pos_pos h.pos_dvd
          refine ⟨_, base + pos, f.size, rfl, rfl, ?_, haddr, ?_, ?_⟩
          · exact size_le hb h.scanned.1.size_ok hblock (by omega)
          · intro hplain hread
            rw [(hown hplain).1 hread, BitVec.toNat_ofNat]
            exact Nat.mod_eq_of_lt (Nat.lt_trans file.size_lt (by decide))
          · exact (List.prefix_append _ _).isInfix.trans h.writes
      | false => exact ih (h.behind_file hb) fun hplain => (hown hplain).2
  | subdir f dot sub rest ihsub ih =>
      intro base pos slot h hown
      have htest : p (placedRecord (setSdbChild f.record (BitVec.ofNat 64 pos)) pos
          (subSize blocksize.toNat f sub)) = p f.record :=
        hp _ _ ((sameProduct_setSdbChild f.record _).trans (readdressed _ _ _).sameProduct)
      have hhead : ∀ last, p (tableHead dot last) = p dot.record := fun last =>
        hp _ _ (readdressed dot.record _ _).sameProduct
      rw [firstRecord, layoutVisits, List.find?_cons]
      simp only [htest]
      cases hn : p f.record with
      | true => exact ⟨_, rfl⟩
      | false =>
          simp only [List.find?_cons, hhead]
          cases hd : p dot.record with
          | true => exact ⟨_, rfl⟩
          | false =>
              rw [List.find?_append]
              exact reached_or (ihsub (h.inside hb) fun hplain => (hown hplain).1)
                (ih (h.behind_dir hb) fun hplain => (hown hplain).2)

end

/-! ## The image in memory -/

section

variable {host : Host 64} {ws : List (Write Byte)} {mapaddr entry : BitVec 64}

/-- The record at a position, as either device delivers it. -/
def contentOf (host : Host 64) (optRead : Bool) (mapaddr : BitVec 64) (pos : BitVec 64) : Record :=
  if optRead then fun i =>
    host.mem (mapaddr + BitVec.ofInt 64 (intOffset pos) + BitVec.ofNat 64 i.val)
  else host.recordAt (mapaddr + pos)

theorem ofInt_intOffset {pos : BitVec 64} (h : pos.toNat < 0x80000000) :
    BitVec.ofInt 64 (intOffset pos) = pos := by
  rw [intOffset_eq h, BitVec.ofInt_natCast, BitVec.ofNat_toNat, BitVec.setWidth_eq]

theorem readerDevice_converts (optRead : Bool) :
    (readerDevice host optRead mapaddr entry).converts = false := by
  cases optRead <;> simp [readerDevice, Sdbfs.converts, imageDevice, Sdbfs.fresh]

theorem readerDevice_isMapped (hdata : mapaddr ≠ 0#64) (optRead : Bool) :
    (readerDevice host optRead mapaddr entry).isMapped = !optRead := by
  cases optRead <;> simp [readerDevice, Sdbfs.isMapped, imageDevice, Sdbfs.fresh, hdata]

/-- The reader delivers the records, mapped or read. -/
theorem delivers_readerDevice (hdata : mapaddr ≠ 0#64) (optRead : Bool) :
    Delivers host (readerDevice host optRead mapaddr entry) (contentOf host optRead mapaddr) := by
  rw [Delivers, readerDevice_isMapped hdata, readerDevice_converts]
  cases optRead with
  | true => exact ⟨doRead host mapaddr, rfl, fun _ _ _ => rfl⟩
  | false => exact fun _ => rfl

variable (hmap : MapsImage host (imageDevice mapaddr entry) (imageByte ws) (fileSize ws))

include hmap

/-- Either way it presents the image. -/
theorem presents_contentOf (hsize : fileSize ws ≤ 0x80000000) (optRead : Bool) :
    Presents (contentOf host optRead mapaddr) ws := by
  intro p hp
  have hrecord := recordAt_image hmap hp
  cases optRead with
  | false => exact hrecord
  | true =>
      have hnat : (BitVec.ofNat 64 p).toNat = p := by
        rw [BitVec.toNat_ofNat, Nat.mod_eq_of_lt (by omega)]
      rw [contentOf, if_pos rfl, ofInt_intOffset (by omega)]
      exact hrecord

/-- Either device is created as it is. -/
theorem sdbfsDevCreate_reader (hsize : fileSize ws ≤ 0x80000000) (optRead : Bool)
    (hroom : entry.toNat + 64 ≤ fileSize ws) (htable : IsTable (imageRecord ws entry.toNat))
    (stack : Fin 4 → Byte) :
    sdbfsDevCreate host stack (readerDevice host optRead mapaddr entry) =
      some (readerDevice host optRead mapaddr entry, 0) := by
  cases optRead with
  | false => exact sdbfsDevCreate_image hmap hroom htable stack
  | true =>
      have hmagic : createMagic host stack (readerDevice host true mapaddr entry) =
          some ({ readerDevice host true mapaddr entry with drvdata := () },
            fun i : Fin 4 => host.mem (mapaddr + entry + BitVec.ofNat 64 i.val)) := by
        have hdata : mapaddr ≠ 0#64 := hmap.1
        rw [createMagic, readerDevice_isMapped hdata, if_neg (by decide)]
        have hentry : BitVec.ofInt 64 (intOffset entry) = entry := ofInt_intOffset (by omega)
        simp only [readerDevice, if_true, Sdbfs.fresh, doRead, hentry]
      rw [sdbfsDevCreate_verdict hmagic, verdict_image hmap hroom htable]
      rfl

/-- No record of the image is at address 0. -/
theorem not_nullAt_reader (optRead : Bool) {pos : BitVec 64} (hpos : pos.toNat < fileSize ws) :
    ¬ NullAt (readerDevice host optRead mapaddr entry) pos := by
  rintro ⟨hmapped, -, hnull⟩
  have hdata : mapaddr ≠ 0#64 := hmap.1
  rw [readerDevice_isMapped hdata] at hmapped
  cases optRead with
  | true => cases hmapped
  | false =>
      refine (hmap.2 pos.toNat hpos).2 ?_
      rw [BitVec.ofNat_toNat, BitVec.setWidth_eq]
      exact hnull

/-- An open file is offered byte by byte. -/
theorem offers_reader (optRead : Bool) {fs' : Sdbfs 64 Unit}
    (hsame : SameDevice (readerDevice host optRead mapaddr entry) fs') {start : Nat}
    (hoffset : fs'.fOffset = BitVec.ofNat 64 start)
    (hend : start + fs'.fLen.toNat ≤ 0x80000000) :
    Offers host fs' fun p => host.mem (mapaddr + BitVec.ofNat 64 (start + p)) := by
  have hdata : mapaddr ≠ 0#64 := hmap.1
  have hmapped := hsame.isMapped.trans (readerDevice_isMapped hdata optRead)
  have haddr : ∀ p, fs'.fOffset + BitVec.ofNat 64 p = BitVec.ofNat 64 (start + p) := fun p => by
    rw [hoffset, BitVec.ofNat_add]
  constructor
  · rw [hmapped, hsame.2.2]
    cases optRead with
    | true => exact Or.inr (by simp [readerDevice, Sdbfs.fresh])
    | false => exact Or.inl rfl
  · intro hm p _
    rw [hmapped] at hm
    cases optRead with
    | true => cases hm
    | false =>
        rw [haddr, hsame.1]
        rfl
  · intro _ read hread s p n buf hp
    rw [hsame.2.2] at hread
    cases optRead with
    | false => cases hread
    | true =>
        cases hread
        refine ⟨rfl, fun i => ?_⟩
        have hi := i.isLt
        have hnat : (BitVec.ofNat 64 (start + p)).toNat = start + p := by
          rw [BitVec.toNat_ofNat, Nat.mod_eq_of_lt (by omega)]
        show host.mem (mapaddr + BitVec.ofInt 64 (intOffset (fs'.fOffset + BitVec.ofNat 64 p)) +
          BitVec.ofNat 64 i.val) = _
        rw [haddr, ofInt_intOffset (by omega), BitVec.add_assoc, ← BitVec.ofNat_add, Nat.add_assoc]

end

/-! ## The positions of the records -/

/-- A record of one of the tables. -/
def InTables (tbls : List (Nat × List Record)) (v : Visit) : Prop :=
  ∃ tbl ∈ tbls, ∃ j < tbl.2.length, v.pos = BitVec.ofNat 64 (tbl.1 + 64 * j)

theorem InTables.mono {tbls tbls' : List (Nat × List Record)} {v : Visit} (h : InTables tbls v)
    (hsub : tbls ⊆ tbls') : InTables tbls' v := by
  obtain ⟨tbl, htbl, j, hj, hpos⟩ := h
  exact ⟨tbl, hsub htbl, j, hj, hpos⟩

/-- Every record is in a table. -/
theorem visits_inTables (b : Nat) {e : Entries} : ∀ {base pos slot : Nat},
    ∀ v ∈ layoutVisits b e base pos slot,
      (∃ j < e.count, v.pos = BitVec.ofNat 64 (slot + 64 * j)) ∨ InTables (tables b e base pos) v := by
  induction e with
  | nil => exact fun v hv => absurd hv List.not_mem_nil
  | file f file rest ih =>
      intro base pos slot v hv
      rcases List.mem_cons.mp hv with rfl | hv
      · exact Or.inl ⟨0, Nat.succ_pos _, rfl⟩
      · rcases ih v hv with ⟨j, hj, hpos⟩ | htbl
        · exact Or.inl ⟨j + 1, Nat.succ_lt_succ hj, by rw [hpos]; congr 1; omega⟩
        · exact Or.inr htbl
  | subdir f dot sub rest ihsub ih =>
      intro base pos slot v hv
      rcases List.mem_cons.mp hv with rfl | hv
      · exact Or.inl ⟨0, Nat.succ_pos _, rfl⟩
      · rcases List.mem_cons.mp hv with rfl | hv
        · refine Or.inr ⟨_, List.mem_cons_self, 0, ?_, rfl⟩
          simp only [layoutTable_length]
          exact Nat.succ_pos _
        · rcases List.mem_append.mp hv with hv | hv
          · rcases ihsub v hv with ⟨j, hj, hpos⟩ | htbl
            · refine Or.inr ⟨_, List.mem_cons_self, j + 1, ?_, by rw [hpos]; congr 1; omega⟩
              simp only [layoutTable_length]
              exact Nat.succ_lt_succ hj
            · exact Or.inr (htbl.mono fun tbl htbl =>
                List.mem_cons_of_mem _ (List.mem_append_left _ htbl))
          · rcases ih v hv with ⟨j, hj, hpos⟩ | htbl
            · exact Or.inl ⟨j + 1, Nat.succ_lt_succ hj, by rw [hpos]; congr 1; omega⟩
            · exact Or.inr (htbl.mono fun tbl htbl =>
                List.mem_cons_of_mem _ (List.mem_append_right _ htbl))

/-- So it is in the whole tree. -/
theorem treeVisits_inTables (b : Nat) (tree : Tree) :
    ∀ v ∈ layoutTreeVisits b tree, InTables (treeTables b tree) v := by
  intro v hv
  rcases List.mem_cons.mp hv with rfl | hv
  · refine ⟨_, List.mem_cons_self, 0, ?_, rfl⟩
    simp only [layoutTable_length]
    exact Nat.succ_pos _
  · rcases visits_inTables b v hv with ⟨j, hj, hpos⟩ | htbl
    · refine ⟨_, List.mem_cons_self, j + 1, ?_, by rw [hpos]; congr 1; omega⟩
      simp only [layoutTable_length]
      exact Nat.succ_lt_succ hj
    · exact htbl.mono fun tbl htbl => List.mem_cons_of_mem _ htbl

/-! ## A file of the directory is printed -/

section

variable {blocksize : BitVec 32} {tree : Tree}

/-- The contents are in the image, inside it. -/
theorem fileAt_byte (hb : BlockSize blocksize) (hint : blocksize.toNat < 0x80000000)
    {plain : Prop} {file : RegularFile} {v : Visit} {start : Nat} {size : ULong}
    (h : FileAt blocksize tree plain file v start size)
    (hapart : (treeWritten blocksize tree).Pairwise Write.Apart) {bytes : List Byte}
    (hc : file.contents = some bytes) {k : Nat} {b : Byte} (hk : bytes[k]? = some b) :
    start + k < fileSize (treeWritten blocksize tree) ∧
      imageByte (treeWritten blocksize tree) (start + k) = b := by
  have hlast : lastAt (start + k) (consecutive start (filePieces blocksize file)) = some b := by
    rw [lastAt_consecutive _ (Nat.le_add_right start k), Nat.add_sub_cancel_left,
      filePieces_flatten hb.pos hint hc]
    exact hk
  have hin := lastAt_infix h.writes hapart hlast
  refine ⟨lt_fileSize ?_, ?_⟩
  · by_contra hcov
    rw [lastAt_of_not_covers hcov] at hin
    cases hin
  · rw [imageByte, hin]
    rfl

/-- The bytes of a range of the image. -/
def imageRange (ws : List (Write Byte)) (start size : Nat) : List Byte :=
  load (fun p => imageByte ws (start + p)) 0 size

/-- Contents that were written are at the front of their range. -/
theorem imageRange_front {ws : List (Write Byte)} {start size : Nat} {bytes : List Byte}
    (hlen : bytes.length ≤ size) (h : ∀ k b, bytes[k]? = some b → imageByte ws (start + k) = b) :
    bytes <+: imageRange ws start size := by
  rw [List.prefix_iff_eq_take]
  refine List.ext_getElem ?_ fun k hk hk' => ?_
  · rw [List.length_take, imageRange, load_length]
    omega
  · rw [List.getElem_take]
    simp only [imageRange, load, List.getElem_map, List.getElem_range, Nat.zero_add]
    exact (h k _ (List.getElem?_eq_getElem hk)).symm

/-- What is printed of an open file of the image. -/
theorem catOpened_file {host : Host 64} {mapaddr entry : BitVec 64} {ws : List (Write Byte)}
    (hmap : MapsImage host (imageDevice mapaddr entry) (imageByte ws) (fileSize ws))
    (hsize : fileSize ws + 0x1000 < 0x80000000) {optRead : Bool} {fs fs' : Sdbfs 64 Unit} {e : Entry 64}
    (hsame : SameDevice (readerDevice host optRead mapaddr entry) fs') (hopen : IsOpen host fs fs' e)
    {start : Nat} {size : ULong} (hoffset : e.fOffset = BitVec.ofNat 64 start)
    (hlen : addrLast e.record + 1 - addrFirst e.record = size)
    (hend : start + size.toNat ≤ fileSize ws) {n : Nat} (hn : size.toNat < n) (buf : Nat → Byte) :
    catOpened host n buf (.done (fs', 0)) = .done (0, imageRange ws start size.toNat) := by
  have hdata : mapaddr ≠ 0#64 := hmap.1
  have hfLen : fs'.fLen = size := by
    rw [hopen.fLen, hlen]
    exact BitVec.setWidth_eq size
  have hstart : fs'.readOffset.toNat = 0 := by
    rw [hopen.readOffset]
    rfl
  have hoff := offers_reader hmap optRead hsame (hopen.fOffset.trans hoffset)
    (by rw [hfLen]; omega)
  have hway : fs'.data ≠ 0#64 ∨ fs'.read ≠ none := by
    rw [hsame.1, hsame.2.2]
    cases optRead with
    | true => exact Or.inr (Option.some_ne_none _)
    | false => exact Or.inl hdata
  have hread : readAll host 4096 n fs' buf = .done ((fileOf _ fs').drop fs'.readOffset.toNat) :=
    readAll_file (Nat.le_of_ble_eq_true rfl) (by decide) (by decide) n buf
      ⟨hopen.opened, by rw [hstart]; exact Nat.zero_le _⟩ hoff hway
      (show fs'.fLen.toNat + 4096 < 0x80000000 by rw [hfLen]; omega)
      (by rw [hstart, hfLen]; exact hn)
  have hfile : fileOf (fun p => host.mem (mapaddr + BitVec.ofNat 64 (start + p))) fs' =
      imageRange ws start size.toNat := by
    rw [fileOf, hfLen, imageRange]
    refine List.map_congr_left fun k hk => ?_
    have hk := List.mem_range.mp hk
    exact (hmap.2 _ (by omega)).1
  rw [catOpened, if_neg (by decide), hread, hstart, List.drop_zero, hfile]

theorem mem_of_mem_upTo {w : Nat} {found : Record → Bool} {es : List (Entry w)} {e : Entry w}
    (h : e ∈ upTo found es) : e ∈ es := by
  induction es with
  | nil => exact h
  | cons a es ih =>
      rw [upTo] at h
      split at h
      · exact List.mem_singleton.mp h ▸ List.mem_cons_self
      · rcases List.mem_cons.mp h with rfl | h
        · exact List.mem_cons_self
        · exact List.mem_cons_of_mem a (ih h)

/-- The search goes through the records of the image. -/
theorem search_image (hb : BlockSize blocksize) (hscan : ScannedTree blocksize tree)
    (hfit : AddressesFit blocksize.toNat tree) (hlevels : levelsBelow tree.entries < SDBFS_DEPTH)
    (p : Record → Bool) {host : Host 64} {mapaddr : BitVec 64}
    (hmap : MapsImage host (imageDevice mapaddr tree.dot.ustart)
      (imageByte (treeWritten blocksize tree)) (fileSize (treeWritten blocksize tree)))
    (hsize : fileSize (treeWritten blocksize tree) ≤ 0x80000000) (optRead : Bool) :
    ∃ es, List.Forall₂ Matches (layoutVisits blocksize.toNat tree.entries 0
        (firstPlace blocksize.toNat tree) (tree.dot.ustart.toNat + 64)) es ∧
      ∀ n, es.length < n → OpensFirst host (readerDevice host optRead mapaddr tree.dot.ustart) es p
        (openScan host p n (readerDevice host optRead mapaddr tree.dot.ustart)) := by
  have hdata : mapaddr ≠ 0#64 := hmap.1
  have hholds := treeWritten_holds hb hscan.dvd (Nat.lt_of_lt_of_le hlevels (by decide))
  have hshows := shows_of_presents (presents_contentOf hmap hsize optRead) hholds
  have hmatches := preorder_matches hb hscan hfit hlevels
    (BitVec.setWidth_eq tree.dot.ustart).symm hshows
  have hback := Paired.exists_left hmatches
  have hentry : (readerDevice host optRead mapaddr tree.dot.ustart).entrypoint = tree.dot.ustart := by
    cases optRead <;> rfl
  -- every record is inside the image
  have hinside : ∀ e ∈ preorder (contentOf host optRead mapaddr) tree.dot.ustart,
      ¬ NullAt (readerDevice host optRead mapaddr tree.dot.ustart) e.pos := by
    intro e he
    obtain ⟨v, hv, hm⟩ := hback e he
    obtain ⟨tbl, htbl, j, hj, hpos⟩ := treeVisits_inTables blocksize.toNat tree v hv
    have hlt := (hholds tbl htbl).lt_fileSize (List.getElem?_eq_getElem hj)
    refine not_nullAt_reader hmap optRead ?_
    rw [hm.pos_eq, hpos, BitVec.setWidth_eq, BitVec.toNat_ofNat, Nat.mod_eq_of_lt (by omega)]
    omega
  have hdecl : AllDeclared (preorder (contentOf host optRead mapaddr) tree.dot.ustart) := by
    intro e he
    obtain ⟨v, _, hm⟩ := hback e he
    exact hm.declared
  have htable : IsTable (contentOf host optRead mapaddr tree.dot.ustart) := by
    have hhead := hshows _ List.mem_cons_self 0 _ rfl
    rw [Nat.mul_zero, Nat.add_zero, ← eq_ofNat] at hhead
    rw [hhead]
    exact isTable_tableHead _ hscan.dot.table
  have hd : Delivers host (readerDevice host optRead mapaddr tree.dot.ustart)
      (contentOf host optRead mapaddr) := delivers_readerDevice hdata optRead
  refine ⟨behindRoot (contentOf host optRead mapaddr) tree.dot.ustart, ?_, fun n hn => ?_⟩
  · rw [behindRoot]
    generalize preorder (contentOf host optRead mapaddr) tree.dot.ustart = es at hmatches
    cases hmatches with
    | cons _ hrest => exact hrest
  · generalize readerDevice host optRead mapaddr tree.dot.ustart = fs at hd hentry hinside ⊢
    rw [← hentry] at htable hdecl hinside hn ⊢
    refine openScan_first hd htable hdecl (fun e he => hinside e ?_) hn
    exact List.mem_of_mem_tail (mem_of_mem_upTo he)

/-- A file that was found is printed. -/
theorem catOpened_found (hb : BlockSize blocksize) (hint : blocksize.toNat < 0x80000000)
    {p : Record → Bool} {host : Host 64} {mapaddr : BitVec 64}
    (hmap : MapsImage host (imageDevice mapaddr tree.dot.ustart)
      (imageByte (treeWritten blocksize tree)) (fileSize (treeWritten blocksize tree)))
    (hsize : fileSize (treeWritten blocksize tree) + 0x1000 < 0x80000000)
    (hapart : (treeWritten blocksize tree).Pairwise Write.Apart) {optRead : Bool}
    {es : List (Entry 64)} {vs : List Visit} (hmatches : List.Forall₂ Matches vs es)
    (hopens : ∀ n, es.length < n → OpensFirst host (readerDevice host optRead mapaddr tree.dot.ustart)
      es p (openScan host p n (readerDevice host optRead mapaddr tree.dot.ustart)))
    {plain : Prop} {file : RegularFile} {v : Visit} {start : Nat} {size : ULong}
    (hfound : vs.find? (fun v => p v.record) = some v)
    (hat : FileAt blocksize tree plain file v start size)
    (hend : start + size.toNat ≤ fileSize (treeWritten blocksize tree)) {bytes : List Byte}
    (hc : file.contents = some bytes) :
    ∃ out, bytes <+: out ∧ (plain → file.iwoth = false → out = bytes) ∧
      ∃ n₀, ∀ n ≥ n₀, ∀ buf, catOpened host n buf
        (openScan host p n (readerDevice host optRead mapaddr tree.dot.ustart)) = .done (0, out) := by
  have hlen := file.sized bytes hc
  have hfront : bytes <+: imageRange (treeWritten blocksize tree) start size.toNat := by
    refine imageRange_front (hlen ▸ hat.fits) fun k b hk => ?_
    exact (fileAt_byte hb hint hat hapart hc hk).2
  obtain ⟨e, hfirst, hm⟩ := Paired.find? hmatches
    (q := fun e : Entry 64 => p e.record) (fun v e hm => by rw [hm.record_eq]) hfound
  obtain ⟨hoffset, hlast, hstart, -⟩ := hm.region _ _ hat.region
  rw [BitVec.setWidth_eq] at hoffset
  refine ⟨_, hfront, fun hplain hread => ?_, max (es.length + 1) (size.toNat + 1), ?_⟩
  · refine (hfront.eq_of_length ?_).symm
    rw [imageRange, load_length, hat.own hplain hread, hlen]
  · intro n hn buf
    obtain ⟨fs', hdone, hopen⟩ := (hopens n (by omega)).first e hfirst
    rw [hdone]
    exact catOpened_file hmap hsize (openScan_same hdone).1 hopen hoffset hlast hend (by omega) buf

/-- A run ends so, given enough steps, and whatever is in the memory of the program. -/
def EndsIn (run : Nat → (Fin 4 → Byte) → (Nat → Byte) → Outcome (Int × List Byte))
    (result : Int × List Byte) : Prop :=
  ∃ n₀, ∀ n ≥ n₀, ∀ stack buf, run n stack buf = .done result

/-- A run prints what was found: nothing, and the status is 1, if there is nothing; of a file
    the contents, and nothing else if `plain` and the file cannot be written to. -/
structure PrintsFound (run : Nat → (Fin 4 → Byte) → (Nat → Byte) → Outcome (Int × List Byte))
    (plain : Prop) (found : Option Found) : Prop where
  missing : found = none → EndsIn run (1, [])
  file : ∀ file bytes, found = some (.file file) → file.contents = some bytes →
    ∃ out, bytes <+: out ∧ (plain → file.iwoth = false → out = bytes) ∧ EndsIn run (0, out)

/-- The first record that passes a test is printed. -/
theorem printsFound_scan (hb : BlockSize blocksize) (hint : blocksize.toNat < 0x80000000)
    {config : Config} {dirents : Dirents} (hscan : ScannedTree blocksize tree)
    (htree : prepareDir blocksize config dirents = some tree)
    (hfit : AddressesFit blocksize.toNat tree) (hlevels : levelsBelow tree.entries < SDBFS_DEPTH)
    (hapart : (treeWritten blocksize tree).Pairwise Write.Apart)
    (hsize : fileSize (treeWritten blocksize tree) + 0x1000 < 0x80000000)
    (hinside : ∀ v ∈ layoutTreeVisits blocksize.toNat tree, ∀ r ∈ v.region,
      r.1.toNat + r.2.toNat ≤ fileSize (treeWritten blocksize tree))
    {host : Host 64} {mapaddr : BitVec 64}
    (hmap : MapsImage host (imageDevice mapaddr tree.dot.ustart)
      (imageByte (treeWritten blocksize tree)) (fileSize (treeWritten blocksize tree)))
    (optRead : Bool) {p : Record → Bool} (hp : Placeless p)
    {run : Nat → (Fin 4 → Byte) → (Nat → Byte) → Outcome (Int × List Byte)}
    (hrun : ∀ n stack buf, run n stack buf = catOpened host n buf
      (openScan host p n (readerDevice host optRead mapaddr tree.dot.ustart))) :
    PrintsFound run (NoMaxsize config ∧ PlainConfigs dirents) (firstRecord p tree.entries) := by
  obtain ⟨es, hmatches, hopens⟩ := search_image hb hscan hfit hlevels p hmap (by omega) optRead
  have hreached := @reached_visits _ _ hb (NoMaxsize config ∧ PlainConfigs dirents) _ hp _ _ _
    (tree.dot.ustart.toNat + 64) (laid_root hb hscan hfit)
    fun hplain => prepareDir_ownSizes hplain.1 hplain.2 htree
  refine ⟨fun hnone => ?_, fun file bytes hfile hc => ?_⟩
  · rw [hnone] at hreached
    have hmissing : ∀ e ∈ es, p e.record = false := by
      intro e he
      obtain ⟨v, hv, hm⟩ := Paired.exists_left hmatches e he
      rw [hm.record_eq]
      exact Bool.eq_false_iff.mpr (List.find?_eq_none.mp hreached v hv)
    refine ⟨es.length + 1, fun n hn stack buf => ?_⟩
    obtain ⟨fs', hdone⟩ := (hopens n hn).missing.mpr hmissing
    rw [hrun, hdone]
    rfl
  · rw [hfile] at hreached
    obtain ⟨v, start, size, hfound, hat⟩ := hreached
    have hend := hinside v (List.mem_cons_of_mem _ (List.mem_of_find?_eq_some hfound)) _ hat.region
    rw [BitVec.toNat_ofNat, Nat.mod_eq_of_lt (Nat.lt_trans hat.start_lt (by decide))] at hend
    obtain ⟨out, hfront, hown, n₀, hprints⟩ := catOpened_found hb hint hmap hsize hapart hmatches
      hopens hfound hat hend hc
    exact ⟨out, hfront, hown, n₀, fun n hn stack buf => (hrun n stack buf).trans (hprints n hn buf)⟩

end

/-! ## A file in a directory -/

theorem terminated_f : (0 : Byte) ∉ [0x66] := by decide

/-- "f". -/
def nestedName : CString := ⟨[0x66], terminated_f⟩

/-- Every range of the small image is within it. -/
theorem nested_inside :
    ∀ v ∈ treeVisits (allocStorage 64 (nestedTree (readable [0xaa, 0xbb] (by decide)))),
      ∀ r ∈ v.region, r.1.toNat + r.2.toNat ≤ fileSize nestedWrites := by
  have hall : (treeVisits (allocStorage 64 (nestedTree (readable [0xaa, 0xbb] (by decide))))).all
      (fun v => v.region.all fun r => r.1.toNat + r.2.toNat ≤ 385) = true := by decide +kernel
  intro v hv r hr
  have hv := List.all_eq_true.mp hall v hv
  rw [Option.mem_def.mp hr, Option.all_some] at hv
  rw [nested_fileSize]
  exact of_decide_eq_true hv

end SdbReadCat
