import FpgaConfigSpace.SdbFields
import FpgaConfigSpace.SdbfsCreate
import FpgaConfigSpace.SdbfsCalls
import FpgaConfigSpace.SdbfsFread
import FpgaConfigSpace.SdbfsSequence
import FpgaConfigSpace.Lib.CyclicBuffer

/-! # Extracting an image

    `sdb-extract` maps an image and writes one file for every record that a scan
    returns, and a configuration file that describes them.  It does not open a record
    with the library: it computes the place and the length of the data from the record
    itself.  The other way to get at the data is to open the record and to read it
    with `sdbfs_fread` until nothing comes any more. -/

namespace SdbExtract

open BigEndian SdbRecord SdbFields SdbfsDevice SdbfsScan SdbfsOpen SdbfsAccess SdbfsCreate
open SdbfsCalls SdbfsFread CyclicBuffer
open SdbfsSequence (startOffset sdbfsFread_start setWidth_int filePos_eq advanceRead_eq Returned
  returned_fill)

variable {w : Nat} {σ : Type}

/-! ## `create_file` -/

/-- The characters of a text. -/
def ascii (text : String) : List Byte := text.toList.map fun c => BitVec.ofNat 8 c.toNat

/-- `%x`: a number in hexadecimal, without leading zeros. -/
def hex (n : Nat) : List Byte := (Nat.toDigits 16 n).map fun c => BitVec.ofNat 8 c.toNat

/-- `%0kx`: padded with zeros. -/
def hexPadded (k n : Nat) : List Byte := List.replicate (k - (hex n).length) 0x30 ++ hex n

/-- "Remove trailing spaces from the name", which was copied up to its first NUL.  There
    is no meaning to the loop when it has removed everything: it looks at `name[-1]`. -/
def extractName (d : Record) : Option (List Byte) :=
  match ((productName d).takeWhile (· ≠ 0)).reverse.dropWhile (· = 0x20) with
  | [] => none
  | c :: cs => some (c :: cs).reverse

/-- The flag of a file that others may write to. -/
def SDB_DATA_WRITE : Word := 0x02

/-- The flag of a file that others may execute. -/
def SDB_DATA_EXEC : Word := 0x01

/-- What is printed to the configuration file. -/
def configText (name : List Byte) (d : Record) : List Byte :=
  name ++ ascii "\n\tvendor = 0x" ++ hexPadded 16 (be64 d vendorOffset).toNat ++
    ascii "\n\tdevice = 0x" ++ hexPadded 8 (be32 d deviceOffset).toNat ++
    ascii "\n\tposition = 0x" ++ hex (addrFirst d).toNat ++ ascii "\n" ++
    (if busSpecific d &&& SDB_DATA_WRITE ≠ 0 then ascii "\twrite = 1\n" else []) ++ ascii "\n"

/-- The mode of a file: readable by everybody, and what the record says. -/
def fileMode (d : Record) : Nat :=
  0o444 ||| (if busSpecific d &&& SDB_DATA_WRITE ≠ 0 then 0o222 else 0) |||
    (if busSpecific d &&& SDB_DATA_EXEC ≠ 0 then 0o111 else 0)

/-- A file that was created. -/
structure CreatedFile where
  name : List Byte
  mode : Nat
  contents : List Byte

/-- The bytes `fwrite` is given for a record. -/
def extractedBytes (host : Host w) (fs : Sdbfs w σ) (d : Record) : List Byte :=
  load (fun i => host.mem (fs.data + (addrFirst d).setWidth w + BitVec.ofNat w i)) 0
    ((addrLast d + 1 - addrFirst d).setWidth w).toNat

/-- `create_file`: what is printed, and the file.  No file is created for ".", the root
    directory, nor where `fopen` fails. -/
def createFile (host : Host w) (opens : List Byte → Bool) (fs : Sdbfs w σ) (d : Record) :
    Option (List Byte × Option CreatedFile) :=
  (extractName d).map fun name =>
    (configText name d,
      if name = ascii "." then none
      else if opens name then some ⟨name, fileMode d, extractedBytes host fs d⟩
      else none)

/-! ## The program -/

/-- The loop over the records. -/
def extractLoop (host : Host w) (opens : List Byte → Bool) :
    Nat → Sdbfs w σ → Bool → Outcome (List (List Byte × Option CreatedFile))
  | 0, _, _ => .running
  | n + 1, fs, new =>
      match sdbfsScan host fs new with
      | none => .undefined
      | some (fs, d) =>
          if d.isNull then .done []
          else
            match (fs.deref host d).bind (createFile host opens fs),
                extractLoop host opens n fs false with
            | none, _ => .undefined
            | some x, .done more => .done (x :: more)
            | some _, rest => rest

/-- The device that `main` fills in: the image mapped at `data`, and the entry point. -/
def imageDevice (data entry : BitVec w) : Sdbfs w Unit := Sdbfs.fresh () entry 0 data none

/-- `main`, from the mapped image on.  `new` is never initialised; the first call of the
    scan has a meaning if it happens not to be zero. -/
def sdbExtract (host : Host w) (opens : List Byte → Bool) (stack : Fin 4 → Byte)
    (data entry : BitVec w) (new : Bool) (n : Nat) :
    Outcome (Int × List (List Byte × Option CreatedFile)) :=
  match sdbfsDevCreate host stack (imageDevice data entry) with
  | none => .undefined
  | some (fs, err) =>
      if err ≠ 0 then .done (1, [])
      else if new then
        match extractLoop host opens n fs true with
        | .done files => .done (0, files)
        | .running => .running
        | .undefined => .undefined
      else .undefined

/-- The calls of a scan that return a record, with the state after each. -/
inductive Scanned (host : Host w) (fs : Sdbfs w σ) : Sdbfs w σ → RecordPtr w → Prop where
  | first {s d} (h : sdbfsScan host fs true = some (s, d)) (hd : d.isNull = false) :
      Scanned host fs s d
  | next {s d s' d'} (hs : Scanned host fs s d) (h : sdbfsScan host s false = some (s', d'))
      (hd : d'.isNull = false) : Scanned host fs s' d'

/-! ## Reading a file -/

/-- `while ((i = sdbfs_fread(fs, -1, buf, count)) > 0)`: the bytes that are delivered. -/
def readAll (host : Host w) (count : BitVec 32) : Nat → Sdbfs w σ → (Nat → Byte) → Outcome (List Byte)
  | 0, _, _ => .running
  | n + 1, fs, buf =>
      match sdbfsFread host fs (-1) buf count with
      | none => .undefined
      | some (fs, ret, buf) =>
          if ret ≤ 0 then .done []
          else
            match readAll host count n fs buf with
            | .done more => .done (load buf 0 ret.toNat ++ more)
            | rest => rest

variable {host : Host w} {fs : Sdbfs w σ} {count : BitVec 32}

/-- The bytes of the open file. -/
def fileByte (host : Host w) (fs : Sdbfs w σ) (i : Nat) : Byte :=
  host.mem (fs.data + fs.fOffset + BitVec.ofNat w i)

/-- The call goes on where the last one ended. -/
theorem sdbfsFread_continue (hpos : (fs.readOffset.setWidth 32).msb = false) (buf : Nat → Byte) :
    sdbfsFread host fs (-1) buf count =
      sdbfsFread host fs (fs.readOffset.setWidth 32) buf count := by
  have hstart : startOffset fs (-1) = fs.readOffset.setWidth 32 := if_pos (by decide)
  rw [sdbfsFread_start (by rw [hstart]; exact hpos), hstart]

/-- What a call leaves alone, and where it leaves off. -/
structure ReadOn (fs fs' : Sdbfs w σ) (n : Nat) : Prop where
  data : fs'.data = fs.data
  currentp : fs'.currentp = fs.currentp
  fOffset : fs'.fOffset = fs.fOffset
  fLen : fs'.fLen = fs.fLen
  readOffset : fs'.readOffset.toNat = fs.readOffset.toNat + n

/-- The bytes of the file stay the same. -/
theorem ReadOn.fileByte {fs' : Sdbfs w σ} {n : Nat} (h : ReadOn fs fs' n) :
    fileByte host fs' = fileByte host fs := by
  funext i
  rw [SdbExtract.fileByte, SdbExtract.fileByte, h.data, h.fOffset]

/-- A file that is open and mapped, read up to a place in it. -/
structure Reading (fs : Sdbfs w σ) : Prop where
  opened : fs.currentp.isNull = false
  data : fs.data ≠ 0#w
  readOffset_le : fs.readOffset.toNat ≤ fs.fLen.toNat

/-- A file that is read on can be read further. -/
theorem Reading.on {fs' : Sdbfs w σ} {n : Nat} (h : Reading fs) (hon : ReadOn fs fs' n)
    (hn : fs.readOffset.toNat + n ≤ fs.fLen.toNat) : Reading fs' := by
  refine ⟨by rw [hon.currentp]; exact h.opened, by rw [hon.data]; exact h.data, ?_⟩
  rw [hon.readOffset, hon.fLen]
  exact hn

/-- **One call of the loop** delivers what the count and the file allow. -/
theorem sdbfsFread_step (hw : 32 ≤ w) (h : Reading fs) (hc : count.msb = false)
    (hsum : fs.readOffset.toNat + count.toNat < 0x80000000) (buf : Nat → Byte) :
    ∃ (n : Nat) (fs' : Sdbfs w σ) (buf' : Nat → Byte),
      n = min count.toNat (fs.fLen.toNat - fs.readOffset.toNat) ∧
      sdbfsFread host fs (-1) buf count = some (fs', (n : Int), buf') ∧ ReadOn fs fs' n ∧
      load buf' 0 n = load (fileByte host fs) fs.readOffset.toNat n := by
  obtain ⟨hval, hmsb⟩ := setWidth_int (show fs.readOffset.toNat < 0x80000000 by omega)
  have hend : (fs.readOffset.setWidth 32).toNat ≤ fs.fLen.toNat := by
    rw [hval]
    exact h.readOffset_le
  obtain ⟨asked, hspan, hneg, hasked⟩ := accessSpan_within hw hmsb hc (by rw [hval]; exact hsum) hend
  rw [hval] at hasked
  obtain ⟨pos, hadv, hpos⟩ := advanceRead_eq hw fs hmsb
    (show (fs.readOffset.setWidth 32).toNat + asked.toNat < 0x80000000 by omega)
  have hbytes : Returned buf asked.toNat (fill buf asked.toNat fun i => host.mem (fs.data + filePos fs
      (fs.readOffset.setWidth 32) + BitVec.ofNat w i.val))
        (load (fileByte host fs) fs.readOffset.toNat asked.toNat) := by
    refine returned_fill fun i => congrArg host.mem ?_
    rw [filePos_eq hw hmsb, hval, BitVec.ofNat_add]
    simp only [BitVec.add_assoc]
  rw [sdbfsFread_continue hmsb, sdbfsFread, if_neg (by rw [h.opened]; decide), hspan,
    Option.bind_some]
  simp only [hneg, Bool.false_eq_true, if_false]
  rw [if_pos h.data, hadv]
  refine ⟨asked.toNat, _, _, hasked, rfl, ⟨rfl, rfl, rfl, rfl, ?_⟩, ?_⟩
  · rw [hpos, hval]
    split <;> omega
  · have hfront := hbytes.front
    rwa [load_length] at hfront

/-- A call of which the `int` sum overflows. -/
theorem sdbfsFread_overflow (h : Reading fs) (hc : count.msb = false)
    (hlt : fs.readOffset.toNat < 0x80000000)
    (hsum : 0x80000000 ≤ fs.readOffset.toNat + count.toNat) (buf : Nat → Byte) :
    sdbfsFread host fs (-1) buf count = none := by
  obtain ⟨hval, hmsb⟩ := setWidth_int hlt
  rw [sdbfsFread_continue hmsb, sdbfsFread, if_neg (by rw [h.opened]; decide),
    accessSpan_overflow hmsb hc (by rw [hval]; exact hsum)]
  rfl

/-- What the loop delivers, if it ends: the rest of the file. -/
theorem readAll_done (hw : 32 ≤ w) (hc : count.msb = false) (hpos : 0 < count.toNat) :
    ∀ (n : Nat) (fs : Sdbfs w σ) (buf : Nat → Byte) (bytes : List Byte), Reading fs →
    fs.readOffset.toNat < 0x80000000 → readAll host count n fs buf = .done bytes →
    fs.fLen.toNat + count.toNat < 0x80000000 ∧ bytes =
      load (fileByte host fs) fs.readOffset.toNat (fs.fLen.toNat - fs.readOffset.toNat) := by
  intro n
  induction n with
  | zero => intro fs buf bytes _ _ hdone; cases hdone
  | succ n ih =>
      intro fs buf bytes h hlt hdone
      rw [readAll] at hdone
      by_cases hsum : fs.readOffset.toNat + count.toNat < 0x80000000
      · obtain ⟨m, fs', buf', hm, hread, hon, hload⟩ :=
          sdbfsFread_step hw h hc hsum buf
        have hle := h.readOffset_le
        rw [hread] at hdone
        dsimp only at hdone
        by_cases hzero : (m : Int) ≤ 0
        · -- the end of the file
          rw [if_pos hzero] at hdone
          injection hdone with hdone
          have hend : fs.fLen.toNat - fs.readOffset.toNat = 0 := by omega
          exact ⟨by omega, by rw [← hdone, hend]; rfl⟩
        · rw [if_neg hzero] at hdone
          obtain ⟨more, hmore⟩ : ∃ more, readAll host count n fs' buf' = .done more := by
            revert hdone
            cases readAll host count n fs' buf' with
            | undefined => intro hdone; cases hdone
            | running => intro hdone; cases hdone
            | done more => exact fun _ => ⟨more, rfl⟩
          rw [hmore] at hdone
          injection hdone with hdone
          have hreading := h.on hon (by omega)
          obtain ⟨hfit, hrest⟩ := ih fs' buf' more hreading (by rw [hon.readOffset]; omega) hmore
          rw [hon.fLen] at hfit
          refine ⟨hfit, ?_⟩
          rw [← hdone, hrest, hon.fileByte, hon.readOffset, hon.fLen, Int.toNat_natCast, hload,
            ← load_add]
          refine congrArg (load (fileByte host fs) fs.readOffset.toNat) ?_
          omega
      · rw [sdbfsFread_overflow h hc hlt (by omega)] at hdone
        cases hdone

/-- The loop ends, if no call overflows. -/
theorem readAll_ends (hw : 32 ≤ w) (hc : count.msb = false) (hpos : 0 < count.toNat) :
    ∀ (n : Nat) (fs : Sdbfs w σ) (buf : Nat → Byte), Reading fs →
    fs.fLen.toNat + count.toNat < 0x80000000 →
    fs.fLen.toNat - fs.readOffset.toNat < n → ∃ bytes, readAll host count n fs buf = .done bytes := by
  intro n
  induction n with
  | zero => intro fs buf _ _ hn; exact absurd hn (Nat.not_lt_zero _)
  | succ n ih =>
      intro fs buf h hfit hn
      have hle := h.readOffset_le
      obtain ⟨m, fs', buf', hm, hread, hon, _⟩ :=
        sdbfsFread_step hw h hc (by omega) buf
      rw [readAll, hread]
      dsimp only
      by_cases hzero : (m : Int) ≤ 0
      · rw [if_pos hzero]
        exact ⟨[], rfl⟩
      · rw [if_neg hzero]
        obtain ⟨more, hmore⟩ := ih fs' buf' (h.on hon (by omega)) (by rw [hon.fLen]; exact hfit)
          (by rw [hon.fLen, hon.readOffset]; omega)
        rw [hmore]
        exact ⟨_, rfl⟩

/-! ## The two ways -/

/-- A record that was returned is the current one, of the device that was scanned. -/
theorem Scanned.current {s : Sdbfs w σ} {d : RecordPtr w} (h : Scanned host fs s d) :
    SameDevice fs s ∧ s.currentp = d ∧ d.isNull = false := by
  induction h with
  | first h hd =>
      obtain ⟨hsame, _, hcall⟩ := sdbfsScan_new_cases h
      cases hcall with
      | table rec hrec ht hent hnleft hyield hcur => exact ⟨hsame, hcur hd, hd⟩
      | noTable hrec hent hnleft hnull => rw [hnull] at hd; cases hd
  | next hs h hd ih =>
      cases sdbfsScan_next_cases h with
      | ended hnull => rw [hnull] at hd; cases hd
      | enters rec hsame hlevel ht hrec hent hyield hnleft hdepth _ hcur =>
          exact ⟨ih.1.trans hsame, hcur, hd⟩
      | entry l hsame hl hyield hne hnleft hdepth hdepth' _ hcur hrec =>
          exact ⟨ih.1.trans hsame, hcur, hd⟩

/-- The records of the top directory are not moved. -/
theorem Scanned.base_root {s : Sdbfs w σ} {d : RecordPtr w} (h : Scanned host fs s d) :
    s.base 0 = 0 := by
  induction h with
  | first h hd => rw [(sdbfsScan_walked h (scanStart_new host fs)).base, restart_base]
  | @next s d s' d' hs h hd ih =>
      obtain ⟨⟨g, e, enter⟩, hstart, _⟩ := Option.bind_eq_some_iff.mp h
      rw [(sdbfsScan_walked h hstart).base, ← ih]
      obtain ⟨rec, _, heq⟩ := Option.map_eq_some_iff.mp
        (show (s.deref host s.currentp).map _ = some (g, e, enter) from hstart)
      split at heq
      · obtain ⟨rfl, _⟩ := Prod.mk.inj heq
        have hkept : (descend s rec).base 0 = s.base 0 := by simp [descend]
        exact hkept
      · obtain ⟨rfl, _⟩ := Prod.mk.inj heq
        rfl

/-- Opening a record that was returned. -/
theorem Scanned.reading {s : Sdbfs w σ} {d : RecordPtr w} (h : Scanned host fs s d)
    (hdata : fs.data ≠ 0#w) (rec : Record) : Reading (openCurrent s rec) := by
  obtain ⟨hsame, hcur, hnull⟩ := h.current
  refine ⟨by rw [← hnull, ← hcur]; rfl, ?_, Nat.zero_le _⟩
  show s.data ≠ 0#w
  rw [hsame.1]
  exact hdata

/-- Where the library reads byte `i` of a record, and where the tool does. -/
def libraryByte (host : Host w) (s : Sdbfs w σ) (d : Record) (i : Nat) : Byte :=
  host.mem (s.data + (s.base s.depth + (addrFirst d).setWidth w) + BitVec.ofNat w i)

/-- The byte that the tool takes for byte `i` of a record's contents. -/
def toolByte (host : Host w) (s : Sdbfs w σ) (d : Record) (i : Nat) : Byte :=
  host.mem (s.data + (addrFirst d).setWidth w + BitVec.ofNat w i)

/-- In the top directory they are the same. -/
theorem Scanned.toolByte_root {s : Sdbfs w σ} {d : RecordPtr w} (h : Scanned host fs s d)
    (hroot : s.depth = 0) (rec : Record) : toolByte host s rec = libraryByte host s rec := by
  funext i
  have hbase : s.base s.depth = 0#w := by rw [hroot]; exact h.base_root
  rw [toolByte, libraryByte, hbase, BitVec.zero_add]

/-- Ranges that are the same have the same bytes. -/
theorem load_inj {α : Type} {mem mem' : Nat → α} {n : Nat} (h : load mem' 0 n = load mem 0 n) :
    ∀ i, i < n → mem' i = mem i := by
  intro i hi
  have hcell := congrArg (fun l => l[i]?) h
  simp only [load, List.getElem?_map, List.getElem?_range hi, Option.map_some, Nat.zero_add] at hcell
  exact Option.some.inj hcell

/-- **The tool extracts what the library reads**, exactly if the file is short enough to
    be read with the chunks at hand, and the bytes at the address in the record are those
    at that address behind the bases of the directories around it. -/
theorem extract_delivers (hw : 32 ≤ w) (host : Host w) (opens : List Byte → Bool)
    (stack : Fin 4 → Byte) {data : BitVec w} (hdata : data ≠ 0#w) (entry : BitVec w)
    {fs : Sdbfs w Unit} (hcreate : sdbfsDevCreate host stack (imageDevice data entry) = some (fs, 0))
    {s : Sdbfs w Unit} {d : RecordPtr w} (hs : Scanned host fs s d) {rec : Record}
    (hrec : s.deref host d = some rec) {text : List Byte} {file : CreatedFile}
    (hfile : (s.deref host d).bind (createFile host opens s) = some (text, some file)) {count : BitVec 32}
    (hc : count.msb = false) (hpos : 0 < count.toNat) (buf : Nat → Byte) :
    (∃ n, readAll host count n (openCurrent s rec) buf = .done file.contents) ↔
      ((addrLast rec + 1 - addrFirst rec).setWidth w).toNat + count.toNat < 0x80000000 ∧
        ∀ i, i < ((addrLast rec + 1 - addrFirst rec).setWidth w).toNat →
          toolByte host s rec i = libraryByte host s rec i := by
  have hfsdata : fs.data ≠ 0#w := by
    obtain ⟨⟨g, b⟩, hmagic, heq⟩ := Option.map_eq_some_iff.mp hcreate
    have hg : g = imageDevice data entry := by
      rw [createMagic, if_pos (by rw [Sdbfs.isMapped, imageDevice, Sdbfs.fresh]; simp [hdata])] at hmagic
      exact (Prod.mk.inj (Option.some.inj hmagic)).1.symm
    dsimp only at heq
    split at heq
    · obtain ⟨rfl, _⟩ := Prod.mk.inj heq
      rw [hg]
      split
      · exact hdata
      · exact hdata
    · split at heq
      · obtain ⟨rfl, _⟩ := Prod.mk.inj heq
        rw [hg]
        exact hdata
      · cases (Prod.mk.inj heq).2
  have hreading := hs.reading hfsdata rec
  obtain ⟨len, hlen⟩ : ∃ len, ((addrLast rec + 1 - addrFirst rec).setWidth w).toNat = len := ⟨_, rfl⟩
  have hcontents : file.contents = load (toolByte host s rec) 0 len := by
    rw [hrec, Option.bind_some] at hfile
    obtain ⟨name, _, heq⟩ := Option.map_eq_some_iff.mp hfile
    obtain ⟨_, heq⟩ := Prod.mk.inj heq
    split at heq
    · cases heq
    · split at heq
      · cases heq
        rw [← hlen]
        rfl
      · cases heq
  have hbytes : fileByte host (openCurrent s rec) = libraryByte host s rec := rfl
  have hfLen : (openCurrent s rec).fLen.toNat = len := hlen
  have hstart : (openCurrent s rec).readOffset.toNat = 0 := BitVec.toNat_zero
  rw [hlen]
  constructor
  · rintro ⟨n, hdone⟩
    obtain ⟨hfit, heq⟩ := readAll_done hw hc hpos n _ buf _ hreading (by rw [hstart]; decide) hdone
    rw [hfLen] at hfit
    rw [hfLen, hstart, hbytes, hcontents, Nat.sub_zero] at heq
    exact ⟨hfit, load_inj heq⟩
  · rintro ⟨hfit, heq⟩
    obtain ⟨bytes, hdone⟩ := readAll_ends hw hc hpos (len + 1) _ buf hreading
      (by rw [hfLen]; exact hfit) (by rw [hfLen, hstart]; omega)
    obtain ⟨_, hread⟩ := readAll_done hw hc hpos _ _ buf _ hreading (by rw [hstart]; decide) hdone
    refine ⟨len + 1, ?_⟩
    rw [hdone, hread, hfLen, hstart, hbytes, hcontents, Nat.sub_zero]
    refine congrArg Outcome.done (load_congr fun k hk => ?_)
    rw [Nat.zero_add]
    exact (heq k hk).symm

/-! ## A file in a subdirectory -/

/-- The call with a number of a scan, if all before it returned records. -/
def scanTo (host : Host w) (fs : Sdbfs w σ) : Nat → Option (Sdbfs w σ × RecordPtr w)
  | 0 => sdbfsScan host fs true
  | n + 1 => (scanTo host fs n).bind fun r => if r.2.isNull then none else sdbfsScan host r.1 false

/-- What a number of calls arrive at was scanned. -/
theorem scanTo_scanned {fs : Sdbfs w σ} : ∀ {n : Nat} {s : Sdbfs w σ} {d : RecordPtr w},
    scanTo host fs n = some (s, d) → d.isNull = false → Scanned host fs s d := by
  intro n
  induction n with
  | zero => intro s d h hd; exact .first h hd
  | succ n ih =>
      intro s d h hd
      obtain ⟨⟨s', d'⟩, hprev, h⟩ := Option.bind_eq_some_iff.mp h
      dsimp only at h
      split at h
      · cases h
      next hd' => exact .next (ih hprev (Bool.eq_false_iff.mpr hd')) h hd

/-- A file "f" at an address. -/
def deviceBytes (first last : Byte) : List Byte :=
  List.replicate 15 0 ++ [first] ++ List.replicate 7 0 ++ [last] ++ List.replicate 20 0 ++ [0x66] ++
    List.replicate 18 0x20 ++ [1]

/-- A directory with a file of one byte. -/
def flatImage : List Byte := SdbfsRuns.interconnectBytes 2 ++ deviceBytes 128 128 ++ [0xaa]

/-- The same directory below another one. -/
def nestedImage : List Byte :=
  SdbfsRuns.interconnectBytes 2 ++ SdbfsRuns.bridgeBytes 128 128 ++ flatImage

/-- What becomes of the record of a call: the file that is created, and the bytes that
    are read. -/
structure BothWays where
  returned : Bool
  depth : Nat
  len : Nat
  created : Option (List Byte × Option (List Byte))
  read : Option (List Byte)
  deriving DecidableEq

/-- A record that the scan returned, extracted and read through the library. -/
def bothWays (host : Host 32) (r : Sdbfs 32 Unit × RecordPtr 32) (rec : Record) : BothWays :=
  ⟨!r.2.isNull, r.1.depth, ((addrLast rec + 1 - addrFirst rec).setWidth 32).toNat,
    ((r.1.deref host r.2).bind (createFile host (fun _ => true) r.1)).map fun x =>
      (x.1, x.2.map (·.contents)),
    match readAll host 16 3 (openCurrent r.1 rec) fun _ => 0 with
    | .done bytes => some bytes
    | _ => none⟩

/-- The same for the record of a call with a number. -/
def callWays (host : Host 32) (fs : Sdbfs 32 Unit) (n : Nat) : Option BothWays :=
  (scanTo host fs n).bind fun r => (r.1.deref host r.2).map (bothWays host r)

/-- What is known of a call from its evaluation. -/
theorem callWays_some {host : Host 32} {fs : Sdbfs 32 Unit} {n : Nat} {depth len : Nat}
    {text bytes read : List Byte}
    (h : callWays host fs n = some ⟨true, depth, len, some (text, some bytes), some read⟩) :
    ∃ s d rec file, Scanned host fs s d ∧ s.deref host d = some rec ∧ s.depth = depth ∧
      ((addrLast rec + 1 - addrFirst rec).setWidth 32).toNat = len ∧
      (s.deref host d).bind (createFile host (fun _ => true) s) = some (text, some file) ∧
      file.contents = bytes ∧ readAll host 16 3 (openCurrent s rec) (fun _ => 0) = .done read := by
  obtain ⟨⟨s, d⟩, hscan, h⟩ := Option.bind_eq_some_iff.mp h
  obtain ⟨rec, hrec, h⟩ := Option.map_eq_some_iff.mp h
  injection h with hret hdepth hlen hcreated hread
  have hd : d.isNull = false := Bool.not_eq_true' _ ▸ hret
  obtain ⟨⟨text', file'⟩, hfile, heq⟩ := Option.map_eq_some_iff.mp hcreated
  injection heq with htext heq
  obtain ⟨file, hsome, hcontents⟩ := Option.map_eq_some_iff.mp heq
  dsimp only at htext hsome
  subst htext hsome
  refine ⟨s, d, rec, file, scanTo_scanned hscan hd, hrec, hdepth, hlen, hfile, hcontents, ?_⟩
  revert hread
  cases readAll host 16 3 (openCurrent s rec) fun _ => 0 with
  | undefined => intro hread; cases hread
  | running => intro hread; cases hread
  | done x => intro hread; cases hread; rfl

/-- The device of an image, after `sdbfs_dev_create`. -/
def openedImage (bytes : List Byte) : Option (Sdbfs 32 Unit × Int) :=
  sdbfsDevCreate (SdbfsRuns.mappedHost 0x1000 bytes) (fun _ => 0) (imageDevice 0x1000 0)

/-- An image without subdirectories. -/
theorem extract_delivers_flat : ∃ fs s d rec, ∃ file : CreatedFile,
    openedImage flatImage = some (fs, 0) ∧ Scanned (SdbfsRuns.mappedHost 0x1000 flatImage) fs s d ∧
      s.deref (SdbfsRuns.mappedHost 0x1000 flatImage) d = some rec ∧ file.contents = [0xaa] ∧
      ∃ n, readAll (SdbfsRuns.mappedHost 0x1000 flatImage) 16 n (openCurrent s rec)
        (fun _ => 0) = .done file.contents := by
  have hcreate : openedImage flatImage = some (imageDevice 0x1000 0, 0) := rfl
  have hcall : callWays (SdbfsRuns.mappedHost 0x1000 flatImage) (imageDevice 0x1000 0) 1 =
      some ⟨true, 0, 1, some (configText [0x66] (SdbfsRuns.mappedHost 0x1000 flatImage |>.recordAt 0x1040),
        some [0xaa]), some [0xaa]⟩ := by decide +kernel
  obtain ⟨s, d, rec, file, hs, hrec, hdepth, hlen, hfile, hcontents, _⟩ := callWays_some hcall
  refine ⟨imageDevice 0x1000 0, s, d, rec, file, hcreate, hs, hrec, hcontents, ?_⟩
  refine (extract_delivers (by decide) _ _ (fun _ => 0) (by decide) 0 hcreate hs hrec hfile
    (by decide) (by decide) fun _ => 0).mpr ⟨by rw [hlen]; decide, fun i _ => ?_⟩
  rw [hs.toolByte_root hdepth]

/-- Below another directory the tool writes a byte of the directory to the file. -/
theorem extract_nested : ∃ fs s d rec text, ∃ file : CreatedFile,
    openedImage nestedImage = some (fs, 0) ∧
      Scanned (SdbfsRuns.mappedHost 0x1000 nestedImage) fs s d ∧
      s.deref (SdbfsRuns.mappedHost 0x1000 nestedImage) d = some rec ∧
      createFile (SdbfsRuns.mappedHost 0x1000 nestedImage) (fun _ => true) s rec =
        some (text, some file) ∧ file.contents = [0x53] ∧
      (∃ n, readAll (SdbfsRuns.mappedHost 0x1000 nestedImage) 16 n (openCurrent s rec)
        (fun _ => 0) = .done [0xaa]) ∧
      ¬ ∃ n, readAll (SdbfsRuns.mappedHost 0x1000 nestedImage) 16 n (openCurrent s rec)
        (fun _ => 0) = .done file.contents := by
  have hcreate : openedImage nestedImage = some (imageDevice 0x1000 0, 0) := rfl
  have hcall : callWays (SdbfsRuns.mappedHost 0x1000 nestedImage) (imageDevice 0x1000 0) 3 =
      some ⟨true, 1, 1, some (configText [0x66] (SdbfsRuns.mappedHost 0x1000 nestedImage |>.recordAt 0x10c0),
        some [0x53]), some [0xaa]⟩ := by decide +kernel
  obtain ⟨s, d, rec, file, hs, hrec, _, _, hfile, hcontents, hread⟩ := callWays_some hcall
  have hmade := hfile
  rw [hrec, Option.bind_some] at hmade
  refine ⟨imageDevice 0x1000 0, s, d, rec, _, file, hcreate, hs, hrec, hmade, hcontents,
    ⟨3, hread⟩, ?_⟩
  rintro ⟨n, hdone⟩
  have hreading := hs.reading (by decide) rec
  obtain ⟨_, heq⟩ := readAll_done (by decide) (by decide) (by decide) n _ _ _ hreading
    (show (0#32).toNat < _ by decide) hdone
  obtain ⟨_, heq'⟩ := readAll_done (by decide) (by decide) (by decide) 3 _ _ _ hreading
    (show (0#32).toNat < _ by decide) hread
  rw [← heq', hcontents] at heq
  revert heq
  decide

end SdbExtract
