import FpgaConfigSpace.SdbfsCreate

/-! # The four ways to reach an image

    An image may be mapped or read by the driver, as it is or with the bytes of
    every 32-bit word swapped.  `sdbfs_dev_create` tells from the magic number
    whether the words are to be swapped back, and what is scanned afterwards is the
    same image. -/

namespace SdbfsModes

open BigEndian SdbRecord SdbfsDevice SdbfsScan SdbfsOpen SdbfsTree SdbfsRuns
open SdbfsLockstep SdbfsCreate

variable {w : Nat} {σ τ : Type}

/-! ## Images and devices -/

/-- The image with the bytes of every 32-bit word swapped. -/
def swapImage (image : Nat → Byte) : Nat → Byte := fun i => image (4 * (i / 4) + (3 - i % 4))

/-- The image as it is, or swapped. -/
def orient (swap : Bool) (image : Nat → Byte) : Nat → Byte :=
  if swap then swapImage image else image

/-- The record at an offset of an image. -/
def recordOf (image : Nat → Byte) (pos : BitVec w) : Record := fun i => image (pos.toNat + i.val)

/-- The image is an array of the memory at the data pointer. -/
def MapsImage (host : Host w) (fs : Sdbfs w σ) (image : Nat → Byte) (size : Nat) : Prop :=
  fs.data ≠ 0#w ∧ ∀ k < size, host.mem (fs.data + BitVec.ofNat w k) = image k ∧
    fs.data + BitVec.ofNat w k ≠ 0#w

/-- The image is reached through a `read` method that delivers the requested bytes. -/
def ReadsImage (fs : Sdbfs w σ) (image : Nat → Byte) (size : Nat) : Prop :=
  fs.isMapped = false ∧ ∃ read, fs.read = some read ∧
    ∀ s (offset count : Nat) buf, offset + count ≤ size →
      ∀ i : Fin count, (read s offset count buf).2.2 i = image (offset + i.val)

/-- An aligned record inside the image. -/
def Inside (size : Nat) (pos : BitVec w) : Prop := 4 ∣ pos.toNat ∧ pos.toNat + 64 ≤ size

instance (size : Nat) (pos : BitVec w) : Decidable (Inside size pos) :=
  inferInstanceAs (Decidable (_ ∧ _))

/-! ## Creating a device and scanning it -/

/-- `sdbfs_dev_create`, then a full scan: what was returned, and the records with
    their depths and offsets. -/
def createScan (host : Host w) (stack : Fin 4 → Byte) (n : Nat) (fs : Sdbfs w σ) :
    Outcome (Int × List (Record × Nat × BitVec w)) :=
  match sdbfsDevCreate host stack fs with
  | none => .undefined
  | some (fs, ret) =>
      match scanAll host n fs true with
      | .undefined => .undefined
      | .running => .running
      | .done (_, rs) => .done (ret, rs.map seen)

/-- The addresses of the records which that scan visits. -/
def createScanReads (host : Host w) (stack : Fin 4 → Byte) (n : Nat) (fs : Sdbfs w σ) :
    List (BitVec w) :=
  match sdbfsDevCreate host stack fs with
  | none => []
  | some (fs, _) => scanAllReads host n fs true

/-! ## What is read from a swapped image -/

/-- A byte of the image with its words turned around. -/
theorem swapImage_aligned (image : Nat → Byte) {k : Nat} (hk : 4 ∣ k) (i : Nat) :
    swapImage image (k + i) = image (k + (4 * (i / 4) + (3 - i % 4))) := by
  obtain ⟨q, rfl⟩ := hk
  refine congrArg image ?_
  omega

/-- A record of it. -/
theorem recordOf_swapImage (image : Nat → Byte) {pos : BitVec w} (hpos : 4 ∣ pos.toNat) :
    recordOf (swapImage image) pos = swapWords (recordOf image pos) := by
  ext1 i
  exact swapImage_aligned image hpos i.val

/-- Swapping a record that comes from a swapped image. -/
theorem recordOf_orient (image : Nat → Byte) (swap convert : Bool) {pos : BitVec w}
    (hpos : 4 ∣ pos.toNat) :
    (if convert then swapWords (recordOf (orient swap image) pos)
      else recordOf (orient swap image) pos) =
    if convert = swap then recordOf image pos else swapWords (recordOf image pos) := by
  cases swap with
  | false =>
      cases convert with
      | false => rfl
      | true => rfl
  | true =>
      cases convert with
      | false => exact recordOf_swapImage image hpos
      | true =>
          show swapWords (recordOf (swapImage image) pos) = recordOf image pos
          rw [recordOf_swapImage image hpos, swapWords_swapWords]

/-- The four bytes at an offset of an image. -/
def intOf (image : Nat → Byte) (pos : BitVec w) : Fin 4 → Byte := fun i => image (pos.toNat + i.val)

/-- The magic number of an image in either byte order, as it is loaded and in network order. -/
theorem leWord_orient (image : Nat → Byte) (swap : Bool) {pos : BitVec w} (hpos : 4 ∣ pos.toNat) :
    leWord (intOf (orient swap image) pos) =
      if swap then netWord (intOf image pos) else leWord (intOf image pos) := by
  cases swap with
  | false => rfl
  | true =>
      show wordOf (swapImage image (pos.toNat + 3)) (swapImage image (pos.toNat + 2))
        (swapImage image (pos.toNat + 1)) (swapImage image (pos.toNat + 0)) = _
      rw [swapImage_aligned image hpos 3, swapImage_aligned image hpos 2,
        swapImage_aligned image hpos 1, swapImage_aligned image hpos 0]
      rfl

theorem netWord_orient (image : Nat → Byte) (swap : Bool) {pos : BitVec w} (hpos : 4 ∣ pos.toNat) :
    netWord (intOf (orient swap image) pos) =
      if swap then leWord (intOf image pos) else netWord (intOf image pos) := by
  cases swap with
  | false => rfl
  | true =>
      show wordOf (swapImage image (pos.toNat + 0)) (swapImage image (pos.toNat + 1))
        (swapImage image (pos.toNat + 2)) (swapImage image (pos.toNat + 3)) = _
      rw [swapImage_aligned image hpos 3, swapImage_aligned image hpos 2,
        swapImage_aligned image hpos 1, swapImage_aligned image hpos 0]
      rfl

/-! ## The storage hands out its records -/

variable {host : Host w} {image : Nat → Byte} {size : Nat}

/-- A byte of a mapped image. -/
theorem mapped_byte {fs : Sdbfs w σ} (h : MapsImage host fs image size) (pos : BitVec w) {i : Nat}
    (hi : pos.toNat + i < size) :
    host.mem (fs.data + pos + BitVec.ofNat w i) = image (pos.toNat + i) ∧
      fs.data + pos + BitVec.ofNat w i ≠ 0#w := by
  have haddr : fs.data + pos + BitVec.ofNat w i = fs.data + BitVec.ofNat w (pos.toNat + i) := by
    rw [BitVec.ofNat_add, BitVec.ofNat_toNat, BitVec.setWidth_eq, BitVec.add_assoc]
  rw [haddr]
  exact h.2 _ hi

/-- The device is mapped. -/
theorem MapsImage.isMapped {fs : Sdbfs w σ} (h : MapsImage host fs image size) :
    fs.isMapped = true := by
  rw [Sdbfs.isMapped, bne_iff_ne.mpr h.1, Bool.true_or]

/-- The record at an offset, as the library hands it out. -/
def servedRecord (fs : Sdbfs w σ) (image : Nat → Byte) (pos : BitVec w) : Record :=
  if fs.converts then swapWords (recordOf image pos) else recordOf image pos

/-- A device serves the image that it maps, or reads. -/
theorem MapsImage.serves (hle : host.littleEndian = true) {fs : Sdbfs w σ}
    (h : MapsImage host fs image size) :
    Serves host fs (servedRecord fs image) (Inside size) := by
  intro s hs pos hpos
  have hmapped : s.isMapped = true := hs.isMapped.trans h.isMapped
  have hd : Delivers host s fun pos => if s.converts
      then host.ntohlWords (host.recordAt (s.data + pos)) else host.recordAt (s.data + pos) := by
    rw [Delivers, if_pos hmapped]
    intro pos
    rfl
  have hrecord : host.recordAt (s.data + pos) = recordOf image pos := by
    ext1 i
    rw [hs.1]
    have hi := i.isLt
    exact (mapped_byte h pos (by have := hpos.2; omega)).1
  refine ⟨?_, ?_⟩
  · rw [sdbfsReadentry_delivers hd pos, hrecord, Host.ntohlWords, if_pos hle, hs.converts]
    rfl
  · rw [sdbfsReadentry_ptr hd pos]
    cases hnull : (recordPtr s pos).isNull with
    | false => rfl
    | true =>
        have haddr := ((recordPtr_isNull s pos).mp hnull).2.2
        have hne := (mapped_byte h pos (i := 0) (by have := hpos.2; omega)).2
        rw [show BitVec.ofNat w 0 = 0#w from rfl, BitVec.add_zero, ← hs.1] at hne
        exact absurd haddr hne

theorem intOffset_eq {pos : BitVec w} (h : pos.toNat < 0x80000000) : intOffset pos = pos.toNat := by
  have hnat : (pos.setWidth 32).toNat = pos.toNat := by
    rw [BitVec.toNat_setWidth]
    exact Nat.mod_eq_of_lt (by omega)
  rw [intOffset, BitVec.toInt_eq_toNat_of_lt (by omega), hnat]

theorem ReadsImage.serves (hle : host.littleEndian = true) (hsize : size ≤ 0x80000000)
    {fs : Sdbfs w σ} (h : ReadsImage fs image size) :
    Serves host fs (servedRecord fs image) (Inside size) := by
  obtain ⟨hmapped, read, hread, hdelivers⟩ := h
  intro s hs pos hpos
  have hbuf : (read s.drvdata (intOffset pos) 64 s.currentRecord).2.2 = recordOf image pos := by
    ext1 i
    have hend := hpos.2
    rw [intOffset_eq (by omega)]
    exact hdelivers s.drvdata pos.toNat 64 s.currentRecord hend i
  have hentry : sdbfsReadentry host s pos = (convertCurrent host { s with
      drvdata := (read s.drvdata (intOffset pos) 64 s.currentRecord).1
      currentRecord := recordOf image pos }, .currentRecord) := by
    rw [sdbfsReadentry, if_neg (by rw [hs.isMapped, hmapped]; decide), hs.2.2, hread, ← hbuf]
  rw [hentry]
  refine ⟨congrArg some ?_, rfl⟩
  rw [convertCurrent_currentRecord, Host.ntohlWords, if_pos hle, servedRecord, ← hs.converts]
  rfl

/-- The image is in the device, one way or the other. -/
def Stores (host : Host w) (fs : Sdbfs w σ) (image : Nat → Byte) (size : Nat) : Prop :=
  MapsImage host fs image size ∨ ReadsImage fs image size

theorem Stores.serves (hle : host.littleEndian = true) (hsize : size ≤ 0x80000000)
    {fs : Sdbfs w σ} (h : Stores host fs image size) :
    Serves host fs (servedRecord fs image) (Inside size) :=
  h.elim (MapsImage.serves hle) (ReadsImage.serves hle hsize)

/-- Creating the device leaves its storage alone. -/
theorem Stores.created {fs : Sdbfs w σ} (h : Stores host fs image size) (drv : σ)
    (convert : Bool) : Stores host (created fs drv convert) image size := by
  rcases h with h | ⟨hmapped, hread⟩
  · exact Or.inl h
  · exact Or.inr ⟨(created_isMapped fs drv convert).trans hmapped, hread⟩

/-- Where the magic number comes from. -/
theorem Stores.createMagic (hsize : size ≤ 0x80000000) {fs : Sdbfs w σ}
    (h : Stores host fs image size) (stack : Fin 4 → Byte) :
    ∃ drv b, SdbfsCreate.createMagic host stack fs = some ({ fs with drvdata := drv }, b) ∧
      (Inside size fs.entrypoint → b = intOf image fs.entrypoint) := by
  rcases h with h | ⟨hmapped, read, hread, hdelivers⟩
  · refine ⟨fs.drvdata, _, if_pos h.isMapped, ?_⟩
    intro hin
    ext1 i
    exact (mapped_byte h fs.entrypoint (by have := i.isLt; have := hin.2; omega)).1
  · refine ⟨(read fs.drvdata (intOffset fs.entrypoint) 4 stack).1,
      (read fs.drvdata (intOffset fs.entrypoint) 4 stack).2.2, ?_, ?_⟩
    · rw [SdbfsCreate.createMagic, if_neg (by rw [hmapped]; decide), hread]
    · intro hin
      have hend := hin.2
      ext1 i
      rw [intOffset_eq (by omega)]
      exact hdelivers fs.drvdata fs.entrypoint.toNat 4 stack (by omega) i

/-- The device that is created, and what `sdbfs_dev_create` returns. -/
theorem Stores.devCreate (hle : host.littleEndian = true) (hsize : size ≤ 0x80000000)
    {fs : Sdbfs w σ} (h : Stores host fs image size) (stack : Fin 4 → Byte) :
    ∃ drv b, sdbfsDevCreate host stack fs = some
        (SdbfsCreate.created fs drv (decide (leWord b = SDB_MAGIC)),
          if leWord b = SDB_MAGIC ∨ netWord b = SDB_MAGIC then 0 else -ENOTDIR) ∧
      (Inside size fs.entrypoint → b = intOf image fs.entrypoint) := by
  obtain ⟨drv, b, hmagic, hb⟩ := h.createMagic hsize stack
  have hcreate := sdbfsDevCreate_verdict hmagic
  rw [verdict_eq hle] at hcreate
  exact ⟨drv, b, hcreate, hb⟩

/-! ## The same scan -/

/-- A new scan looks at the entry point. -/
theorem entrypoint_read (host : Host w) (fs : Sdbfs w σ) (n : Nat) :
    fs.entrypoint ∈ scanAllReads host (n + 1) fs true := by
  rw [scanAllReads, scanReads, scanStart_new]
  refine List.mem_append_left _ ?_
  show fs.entrypoint ∈ (restart fs).thisPos 0 :: _
  rw [restart_thisPos]
  exact List.mem_cons_self

/-- No table at the entry point: there is nothing to scan. -/
theorem scanAll_noTable {fs : Sdbfs w σ} {content : BitVec w → Record} {P : BitVec w → Prop}
    (hs : Serves host fs content P) (hpos : P fs.entrypoint)
    (ht : ¬ IsTable (content fs.entrypoint)) (n : Nat) :
    ∃ fs', scanAll host (n + 1) fs true = .done (fs', []) := by
  have hsame : SameDevice fs (restart fs) := ⟨rfl, rfl, rfl⟩
  obtain ⟨drv, buf, p, hr⟩ := (hs.same hsame).readAs (restart_thisPos fs) hpos
  have hnew := hr.scanNewdir
  rw [if_neg ht] at hnew
  have hscan := sdbfsScan_enter (scanStart_new host fs) hnew
  rw [RecordPtr.isNull_NULL, if_pos rfl, if_pos rfl] at hscan
  exact ⟨_, scanAll_ends hscan n⟩

/-- The image begins with the magic number, in one byte order or the other. -/
def HasMagic (image : Nat → Byte) (entrypoint : BitVec w) : Prop :=
  leWord (intOf image entrypoint) = SDB_MAGIC ∨ netWord (intOf image entrypoint) = SDB_MAGIC

instance (image : Nat → Byte) (entrypoint : BitVec w) : Decidable (HasMagic image entrypoint) :=
  inferInstanceAs (Decidable (_ ∨ _))

/-- The image has the magic number in either byte order. -/
theorem hasMagic_orient (image : Nat → Byte) (swap : Bool) {entrypoint : BitVec w}
    (halign : 4 ∣ entrypoint.toNat) :
    HasMagic (orient swap image) entrypoint ↔ HasMagic image entrypoint := by
  rw [HasMagic, leWord_orient image swap halign, netWord_orient image swap halign]
  cases swap with
  | false => exact Iff.rfl
  | true => exact Or.comm

/-- The records of the image, in the byte order of its magic number. -/
def content (image : Nat → Byte) (entrypoint pos : BitVec w) : Record :=
  if netWord (intOf image entrypoint) = SDB_MAGIC then recordOf image pos
  else swapWords (recordOf image pos)

/-- The words are swapped back exactly if they are swapped. -/
theorem convert_eq (image : Nat → Byte) (swap : Bool) {entrypoint : BitVec w}
    (halign : 4 ∣ entrypoint.toNat) (hmagic : HasMagic image entrypoint) :
    decide (leWord (intOf (orient swap image) entrypoint) = SDB_MAGIC) = swap ↔
      netWord (intOf image entrypoint) = SDB_MAGIC := by
  rw [leWord_orient image swap halign]
  have hone := magic_one_way (intOf image entrypoint)
  cases swap with
  | true => exact decide_eq_true_iff
  | false =>
      refine decide_eq_false_iff_not.trans ⟨fun hn => hmagic.resolve_left hn, ?_⟩
      intro hnet hl
      exact hone ⟨hl, hnet⟩

/-- A device over the image, created: it hands out the records of the image. -/
theorem devCreate_serves (hw : 32 ≤ w) (hle : host.littleEndian = true)
    (hsize : size ≤ 0x80000000) {swap : Bool} {entrypoint : BitVec w} {fs : Sdbfs w σ}
    (hu : Unused entrypoint fs) (hst : Stores host fs (orient swap image) size)
    (hin : Inside size entrypoint) (hmagic : HasMagic image entrypoint) (stack : Fin 4 → Byte) :
    ∃ drv convert, sdbfsDevCreate host stack fs = some (created fs drv convert, 0) ∧
      Serves host (created fs drv convert) (content image entrypoint) (Inside size) := by
  have hentry : fs.entrypoint = entrypoint := congrArg Sdbfs.entrypoint hu.fresh
  obtain ⟨drv, b, hcreate, hb⟩ := hst.devCreate hle hsize stack
  rw [hentry] at hb
  have hgood : leWord (intOf (orient swap image) entrypoint) = SDB_MAGIC ∨
      netWord (intOf (orient swap image) entrypoint) = SDB_MAGIC :=
    (hasMagic_orient image swap hin.1).mpr hmagic
  rw [hb hin, if_pos hgood] at hcreate
  refine ⟨drv, _, hcreate, ((hst.created drv _).serves hle hsize).congr ?_⟩
  intro pos hpos
  rw [servedRecord, created_converts hw hu.flags, recordOf_orient image swap _ hpos.1, content]
  exact if_congr (convert_eq image swap hin.1 hmagic) rfl rfl

/-- No magic number: the device is refused, and a scan would find nothing. -/
theorem devCreate_refuses (hw : 32 ≤ w) (hle : host.littleEndian = true)
    (hsize : size ≤ 0x80000000) {swap : Bool} {entrypoint : BitVec w} {fs : Sdbfs w σ}
    (hu : Unused entrypoint fs) (hst : Stores host fs (orient swap image) size)
    (hin : Inside size entrypoint) (hmagic : ¬ HasMagic image entrypoint) (stack : Fin 4 → Byte)
    (n : Nat) :
    ∃ s s', sdbfsDevCreate host stack fs = some (s, -ENOTDIR) ∧
      scanAll host (n + 1) s true = .done (s', []) := by
  have hentry : fs.entrypoint = entrypoint := congrArg Sdbfs.entrypoint hu.fresh
  obtain ⟨drv, b, hcreate, hb⟩ := hst.devCreate hle hsize stack
  rw [hentry] at hb
  have hnone : ¬ (leWord (intOf (orient swap image) entrypoint) = SDB_MAGIC ∨
      netWord (intOf (orient swap image) entrypoint) = SDB_MAGIC) :=
    mt (hasMagic_orient image swap hin.1).mp hmagic
  have hle' := decide_eq_false (fun h => hnone (Or.inl h))
  rw [hb hin, if_neg hnone, hle'] at hcreate
  have hserves := (hst.created drv false).serves hle hsize
  have hnoTable : ¬ IsTable (servedRecord (created fs drv false) (orient swap image)
      (created fs drv false).entrypoint) := by
    rintro ⟨_, hsdb⟩
    rw [servedRecord, created_converts hw hu.flags, if_neg Bool.false_ne_true] at hsdb
    refine hnone (Or.inr ?_)
    rw [← hentry]
    exact hsdb
  obtain ⟨s', hscan⟩ := scanAll_noTable hserves (hentry ▸ hin) hnoTable n
  exact ⟨_, s', hcreate, hscan⟩

/-- Two devices over one image, whichever way they get at it, are scanned alike. -/
theorem createScan_eq (hw : 32 ≤ w) (hle : host.littleEndian = true) (hsize : size ≤ 0x80000000)
    {swap swap' : Bool} {entrypoint : BitVec w} {fs : Sdbfs w σ} {fs' : Sdbfs w τ}
    (hu : Unused entrypoint fs) (hu' : Unused entrypoint fs')
    (hst : Stores host fs (orient swap image) size)
    (hst' : Stores host fs' (orient swap' image) size) {stack : Fin 4 → Byte}
    (stack' : Fin 4 → Byte) {n : Nat}
    (hreads : ∀ pos ∈ createScanReads host stack (n + 1) fs, Inside size pos) :
    createScan host stack' (n + 1) fs' = createScan host stack (n + 1) fs := by
  have hin : Inside size entrypoint := by
    obtain ⟨drv, b, hcreate, _⟩ := hst.devCreate hle hsize stack
    rw [createScanReads, hcreate] at hreads
    have hentry : fs.entrypoint = entrypoint := congrArg Sdbfs.entrypoint hu.fresh
    rw [← hentry]
    exact hreads _ (entrypoint_read host _ n)
  by_cases hmagic : HasMagic image entrypoint
  · obtain ⟨drv, convert, hcreate, hs⟩ := devCreate_serves hw hle hsize hu hst hin hmagic stack
    obtain ⟨drv', convert', hcreate', hs'⟩ :=
      devCreate_serves hw hle hsize hu' hst' hin hmagic stack'
    rw [createScanReads, hcreate] at hreads
    have hscan := scanAll_lockstep hs hs' (created_lockstep hu hu' drv drv' convert convert')
      (fun hnew => absurd hnew (by decide)) hreads
    rw [createScan, createScan, hcreate, hcreate']
    show (match scanAll host (n + 1) (created fs' drv' convert') true with | _ => _) =
      (match scanAll host (n + 1) (created fs drv convert) true with | _ => _)
    generalize scanAll host (n + 1) (created fs drv convert) true = all at hscan ⊢
    generalize scanAll host (n + 1) (created fs' drv' convert') true = all' at hscan ⊢
    cases hscan with
    | undefined => rfl
    | running => rfl
    | done hsame =>
        show Outcome.done (0, _) = Outcome.done (0, _)
        rw [hsame]
  · obtain ⟨s, t, hcreate, hscan⟩ := devCreate_refuses hw hle hsize hu hst hin hmagic stack n
    obtain ⟨s', t', hcreate', hscan'⟩ :=
      devCreate_refuses hw hle hsize hu' hst' hin hmagic stack' n
    rw [createScan, createScan, hcreate, hcreate']
    simp only [hscan, hscan']

/-- **The four access modes are one.**  On a little-endian host, if every record
    that the scan of the mapped image visits is an aligned part of it, the return
    value of `sdbfs_dev_create` and the records, depths and offsets that any number
    of calls returns are the same for the image mapped, the image read, and either
    of them with the bytes of every word swapped. -/
theorem access_modes_agree {σ₁ σ₂ σ₃ σ₄ : Type} (hw : 32 ≤ w) (host : Host w)
    (hle : host.littleEndian = true) (image : Nat → Byte) (size : Nat) (hsize : size ≤ 0x80000000)
    (entrypoint : BitVec w) (plain : Sdbfs w σ₁) (method : Sdbfs w σ₂) (swapped : Sdbfs w σ₃)
    (swappedMethod : Sdbfs w σ₄) (h₁ : Unused entrypoint plain) (h₂ : Unused entrypoint method)
    (h₃ : Unused entrypoint swapped) (h₄ : Unused entrypoint swappedMethod)
    (m₁ : MapsImage host plain image size) (m₂ : ReadsImage method image size)
    (m₃ : MapsImage host swapped (swapImage image) size)
    (m₄ : ReadsImage swappedMethod (swapImage image) size)
    (stack₁ stack₂ stack₃ stack₄ : Fin 4 → Byte) (n : Nat)
    (hinside : ∀ pos ∈ createScanReads host stack₁ (n + 1) plain, Inside size pos) :
    createScan host stack₂ (n + 1) method = createScan host stack₁ (n + 1) plain ∧
      createScan host stack₃ (n + 1) swapped = createScan host stack₁ (n + 1) plain ∧
      createScan host stack₄ (n + 1) swappedMethod = createScan host stack₁ (n + 1) plain := by
  have hplain : Stores host plain (orient false image) size := Or.inl m₁
  refine ⟨?_, ?_, ?_⟩
  · have hmethod : Stores host method (orient false image) size := Or.inr m₂
    exact createScan_eq hw hle hsize h₁ h₂ hplain hmethod stack₂ hinside
  · have hswapped : Stores host swapped (orient true image) size := Or.inl m₃
    exact createScan_eq hw hle hsize h₁ h₃ hplain hswapped stack₃ hinside
  · have hswapped : Stores host swappedMethod (orient true image) size := Or.inr m₄
    exact createScan_eq hw hle hsize h₁ h₄ hplain hswapped stack₄ hinside

/-! ## One image, four devices -/

/-- A directory with a subdirectory. -/
def nestedImage (k : Nat) : Byte := nestedBytes.getD k 0

/-- A `read` method that copies from an image. -/
def readImage (image : Nat → Byte) : ReadMethod Unit := fun _ offset count _ =>
  ((), count, fun i => image (offset.toNat + i.val))

/-- The image at one address, and swapped at another. -/
def twoImages : Host 32 where
  littleEndian := true
  mem := fun addr =>
    if addr < 0x2000 then nestedImage (addr - 0x1000).toNat
    else swapImage nestedImage (addr - 0x2000).toNat

/-- A device that reads an image. -/
def readDevice (image : Nat → Byte) : Sdbfs 32 Unit := Sdbfs.fresh () 0 0 0 (some (readImage image))

/-- Four zero bytes. -/
def zeroStack : Fin 4 → Byte := fun _ => 0

theorem readDevice_unused (image : Nat → Byte) : Unused 0 (readDevice image) := by
  refine ⟨rfl, ?_⟩
  show ((0 : BitVec 32) &&& SDBFS_F_CONVERT32 32 != 0#32) = false
  decide

theorem readDevice_reads (image : Nat → Byte) (size : Nat) :
    ReadsImage (readDevice image) image size := by
  refine ⟨?_, readImage image, rfl, fun _ _ _ _ _ _ => rfl⟩
  show ((0 : BitVec 32) != 0#32 || (0 : BitVec 32) &&& SDBFS_F_ZEROBASED 32 != 0#32) = false
  decide

theorem mapped_unused (data : BitVec 32) : Unused 0 (mapped 0 data) := by
  refine ⟨rfl, ?_⟩
  show ((0 : BitVec 32) &&& SDBFS_F_CONVERT32 32 != 0#32) = false
  decide

theorem twoImages_plain : MapsImage twoImages (mapped 0 0x1000) nestedImage 192 :=
  ⟨by decide, by decide +kernel⟩

theorem twoImages_swapped : MapsImage twoImages (mapped 0 0x2000) (swapImage nestedImage) 192 :=
  ⟨by decide, by decide +kernel⟩

/-- The small tree, in all four modes. -/
theorem access_modes_agree_nested :
    createScan twoImages zeroStack 4 (readDevice nestedImage) =
      createScan twoImages zeroStack 4 (mapped 0 0x1000) ∧
    createScan twoImages zeroStack 4 (mapped 0 0x2000) =
      createScan twoImages zeroStack 4 (mapped 0 0x1000) ∧
    createScan twoImages zeroStack 4 (readDevice (swapImage nestedImage)) =
      createScan twoImages zeroStack 4 (mapped 0 0x1000) := by
  have hinside : ∀ pos ∈ createScanReads twoImages zeroStack 4 (mapped 0 0x1000),
      Inside 192 pos := by
    have hall : (createScanReads twoImages zeroStack 4 (mapped 0 0x1000)).all
        (fun pos => decide (Inside 192 pos)) = true := by decide +kernel
    intro pos hpos
    exact of_decide_eq_true (List.all_eq_true.mp hall pos hpos)
  exact access_modes_agree (by decide) twoImages rfl nestedImage 192 (by decide) 0
    (mapped 0 0x1000) (readDevice nestedImage) (mapped 0 0x2000)
    (readDevice (swapImage nestedImage)) (mapped_unused _) (readDevice_unused _) (mapped_unused _)
    (readDevice_unused _) twoImages_plain (readDevice_reads _ _) twoImages_swapped
    (readDevice_reads _ _) zeroStack zeroStack zeroStack zeroStack 3 hinside

end SdbfsModes
