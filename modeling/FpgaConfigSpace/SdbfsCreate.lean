import FpgaConfigSpace.SdbfsLockstep

/-! # Creating a device

    `sdbfs_dev_create` of `glue.c` loads the magic number as the machine does and
    decides from it whether the words of the storage are to be swapped.  The list
    of devices, onto which it pushes the new one, is not part of the device and is
    left out here. -/

namespace SdbfsCreate

open BigEndian SdbRecord SdbfsDevice SdbfsScan SdbfsOpen SdbfsRuns SdbfsLockstep

variable {w : Nat} {σ τ : Type}

/-- "Not a directory". -/
def ENOTDIR : Int := 20

/-- The four bytes of an `unsigned int`, most significant first. -/
def netWord (b : Fin 4 → Byte) : Word := wordOf (b 0) (b 1) (b 2) (b 3)

/-- The same four bytes, least significant first. -/
def leWord (b : Fin 4 → Byte) : Word := wordOf (b 3) (b 2) (b 1) (b 0)

/-- The `unsigned int` the machine loads from four bytes. -/
def Host.loadInt (host : Host w) (b : Fin 4 → Byte) : Word :=
  if host.littleEndian then leWord b else netWord b

/-- `htonl`. -/
def Host.htonl (host : Host w) (x : Word) : Word :=
  if host.littleEndian then wordOf (byteOf x 3) (byteOf x 2) (byteOf x 1) (byteOf x 0) else x

/-- How `sdbfs_dev_create` gets at the magic number; `stack` is what its local
    variable holds before it is read. -/
def createMagic (host : Host w) (stack : Fin 4 → Byte) (fs : Sdbfs w σ) :
    Option (Sdbfs w σ × (Fin 4 → Byte)) :=
  if fs.isMapped then
    some (fs, fun i => host.mem (fs.data + fs.entrypoint + BitVec.ofNat w i.val))
  else
    match fs.read with
    | none => none
    | some read =>
        let r := read fs.drvdata (intOffset fs.entrypoint) 4 stack
        some ({ fs with drvdata := r.1 }, r.2.2)

/-- `sdbfs_dev_create`. -/
def sdbfsDevCreate (host : Host w) (stack : Fin 4 → Byte) (fs : Sdbfs w σ) :
    Option (Sdbfs w σ × Int) :=
  (createMagic host stack fs).map fun r =>
    let magic := Host.loadInt host r.2
    if magic = SDB_MAGIC then
      -- if we are little-endian, we must convert
      (if host.littleEndian then { r.1 with flags := r.1.flags ||| SDBFS_F_CONVERT32 w } else r.1, 0)
    else if Host.htonl host magic = SDB_MAGIC then (r.1, 0)
    else (r.1, -ENOTDIR)

variable {host host' : Host w}

/-- The magic number in network order, on a little-endian machine. -/
theorem Host.htonl_leWord (hle : host.littleEndian = true) (b : Fin 4 → Byte) :
    Host.htonl host (leWord b) = netWord b := by
  rw [Host.htonl, if_pos hle, leWord, netWord, byteOf_wordOf_zero, byteOf_wordOf_one,
    byteOf_wordOf_two, byteOf_wordOf_three]

/-- The magic number is not its own mirror image. -/
theorem magic_one_way (b : Fin 4 → Byte) : ¬ (leWord b = SDB_MAGIC ∧ netWord b = SDB_MAGIC) := by
  rintro ⟨hle, hnet⟩
  have hfirst : b 0 = byteOf SDB_MAGIC 0 := by rw [← hnet, netWord, byteOf_wordOf_zero]
  have hlast : b 0 = byteOf SDB_MAGIC 3 := by rw [← hle, leWord, byteOf_wordOf_three]
  have hne : byteOf SDB_MAGIC 0 ≠ byteOf SDB_MAGIC 3 := by decide
  exact hne (hfirst.symm.trans hlast)

/-- The device after `sdbfs_dev_create` decided whether to convert. -/
def created (fs : Sdbfs w σ) (drvdata : σ) (convert : Bool) : Sdbfs w σ :=
  { fs with
    drvdata := drvdata
    flags := if convert then fs.flags ||| SDBFS_F_CONVERT32 w else fs.flags }

/-- What `sdbfs_dev_create` makes of the four bytes it finds: whether to convert, and
    what to return. -/
def verdict (host : Host w) (b : Fin 4 → Byte) : Bool × Int :=
  if Host.loadInt host b = SDB_MAGIC then (host.littleEndian, 0)
  else if Host.htonl host (Host.loadInt host b) = SDB_MAGIC then (false, 0)
  else (false, -ENOTDIR)

/-- The call decides by the four bytes. -/
theorem sdbfsDevCreate_verdict {stack b : Fin 4 → Byte} {fs : Sdbfs w σ} {drv : σ}
    (hmagic : createMagic host stack fs = some ({ fs with drvdata := drv }, b)) :
    sdbfsDevCreate host stack fs =
      some (created fs drv (verdict host b).1, (verdict host b).2) := by
  rw [sdbfsDevCreate, hmagic, Option.map_some, verdict]
  show some (if Host.loadInt host b = SDB_MAGIC then _ else _) = _
  by_cases h : Host.loadInt host b = SDB_MAGIC
  · rw [if_pos h, if_pos h]
    cases hle : host.littleEndian <;> rfl
  · rw [if_neg h, if_neg h]
    by_cases hn : Host.htonl host (Host.loadInt host b) = SDB_MAGIC
    · rw [if_pos hn, if_pos hn]
      rfl
    · rw [if_neg hn, if_neg hn]
      rfl

/-- What a little-endian machine makes of them. -/
theorem verdict_eq (hle : host.littleEndian = true) (b : Fin 4 → Byte) :
    verdict host b = (decide (leWord b = SDB_MAGIC),
      if leWord b = SDB_MAGIC ∨ netWord b = SDB_MAGIC then 0 else -ENOTDIR) := by
  rw [verdict, Host.loadInt, if_pos hle, Host.htonl_leWord hle]
  by_cases h : leWord b = SDB_MAGIC
  · rw [if_pos h, if_pos (Or.inl h), hle, decide_eq_true h]
  · rw [if_neg h, decide_eq_false h]
    by_cases hn : netWord b = SDB_MAGIC
    · rw [if_pos hn, if_pos (Or.inr hn)]
    · rw [if_neg hn, if_neg (not_or.mpr ⟨h, hn⟩)]

theorem convert32_eq (w : Nat) : SDBFS_F_CONVERT32 w = BitVec.twoPow w 1 := by
  apply BitVec.eq_of_toNat_eq
  rw [BitVec.toNat_twoPow]
  exact BitVec.toNat_ofNat 2 w

theorem zeroBased_eq (w : Nat) : SDBFS_F_ZEROBASED w = BitVec.twoPow w 2 := by
  apply BitVec.eq_of_toNat_eq
  rw [BitVec.toNat_twoPow]
  exact BitVec.toNat_ofNat 4 w

/-- Conversion does not change how the device is accessed. -/
theorem created_isMapped (fs : Sdbfs w σ) (drv : σ) (convert : Bool) :
    (created fs drv convert).isMapped = fs.isMapped := by
  cases convert with
  | false => rfl
  | true =>
      show (fs.data != 0#w || (fs.flags ||| SDBFS_F_CONVERT32 w) &&& SDBFS_F_ZEROBASED w != 0#w) =
        (fs.data != 0#w || fs.flags &&& SDBFS_F_ZEROBASED w != 0#w)
      rw [convert32_eq, zeroBased_eq, BitVec.and_twoPow, BitVec.and_twoPow, BitVec.getLsbD_or,
        BitVec.getLsbD_twoPow, show decide (1 = 2) = false from rfl, Bool.and_false, Bool.or_false]

/-- Creating the device changes no record. -/
theorem created_deref (fs : Sdbfs w σ) (drv : σ) (convert : Bool) (p : RecordPtr w) :
    (created fs drv convert).deref host p = fs.deref host p := by
  cases p with
  | mapped addr => rw [Sdbfs.deref, Sdbfs.deref, created_isMapped]
  | currentRecord => rfl

/-- A device of the other byte order is one that converts. -/
theorem created_true_converts (hw : 32 ≤ w) (fs : Sdbfs w σ) (drv : σ) :
    (created fs drv true).converts = true := by
  show ((fs.flags ||| SDBFS_F_CONVERT32 w) &&& SDBFS_F_CONVERT32 w != 0#w) = true
  have hbit : (fs.flags ||| BitVec.twoPow w 1).getLsbD 1 = true := by
    rw [BitVec.getLsbD_or, BitVec.getLsbD_twoPow]
    simp [show 1 < w by omega]
  rw [convert32_eq, BitVec.and_twoPow, if_pos hbit, bne_iff_ne, ← BitVec.toNat_ne_iff_ne,
    BitVec.toNat_twoPow_of_lt (by omega), BitVec.toNat_zero]
  decide

/-- A device converts if it was created to, unless it did already. -/
theorem created_converts {fs : Sdbfs w σ} (hw : 32 ≤ w) (hflags : fs.converts = false) (drv : σ)
    (convert : Bool) : (created fs drv convert).converts = convert := by
  cases convert with
  | false => exact hflags
  | true => exact created_true_converts hw fs drv

/-! ## New devices -/

/-- A device as its user hands it over: what belongs to the library is zero. -/
structure Unused (entrypoint : BitVec w) (fs : Sdbfs w σ) : Prop where
  fresh : fs = Sdbfs.fresh fs.drvdata entrypoint fs.flags fs.data fs.read
  flags : fs.converts = false

/-- Two devices that are created over the same storage go on in lockstep. -/
theorem created_lockstep {fs : Sdbfs w σ} {fs' : Sdbfs w τ} {entrypoint : BitVec w}
    (h : Unused entrypoint fs) (h' : Unused entrypoint fs') (drv : σ) (drv' : τ)
    (convert convert' : Bool) :
    Lockstep host (created fs drv convert) host' (created fs' drv' convert') := by
  obtain ⟨hf, _⟩ := h
  obtain ⟨hf', _⟩ := h'
  rw [hf, hf']
  refine ⟨rfl, rfl, rfl, rfl, rfl, rfl, rfl, rfl, rfl, ?_⟩
  intro hnull
  have hfresh : (RecordPtr.NULL w).isNull = false := hnull
  rw [RecordPtr.isNull_NULL] at hfresh
  cases hfresh

end SdbfsCreate
