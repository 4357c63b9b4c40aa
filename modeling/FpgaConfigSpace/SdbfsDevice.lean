import Mathlib.Logic.Function.Basic
import FpgaConfigSpace.SdbRecord

/-! # The sdbfs device

    `struct sdbfs` of `libsdbfs.h` and the one function of `glue.c` that reads a
    record from it, `sdbfs_readentry`.  The storage is either mapped at `data` or
    reached through the `read` method; a record that is converted or read lands in
    `current_record`, and the library works on a pointer that may be either.

    `w` is the width of `unsigned long` and of a pointer.  Memory is flat: a
    mapped device can be read at every address. -/

namespace SdbfsDevice

open BigEndian SdbRecord

/-- The directory depth the library keeps track of. -/
def SDBFS_DEPTH : Nat := 4

/-- Bit 1 of the flags: swap the bytes of SDB words as they are read. -/
def SDBFS_F_CONVERT32 (w : Nat) : BitVec w := 0x0002
/-- Bit 2 of the flags: zero is a valid data pointer. -/
def SDBFS_F_ZEROBASED (w : Nat) : BitVec w := 0x0004

/-- The machine the library runs on. -/
structure Host (w : Nat) where
  littleEndian : Bool
  mem : BitVec w → Byte

/-- A `struct sdb_device *`: an address, of which 0 is `NULL`, or the address of
    `current_record`. -/
inductive RecordPtr (w : Nat) where
  | mapped (addr : BitVec w)
  | currentRecord
  deriving DecidableEq

namespace RecordPtr

/-- The null pointer. -/
def NULL (w : Nat) : RecordPtr w := .mapped 0#w

/-- The comparison of a pointer with `NULL`. -/
def isNull {w : Nat} : RecordPtr w → Bool
  | .mapped addr => addr == 0#w
  | .currentRecord => false

@[simp] theorem isNull_NULL (w : Nat) : (NULL w).isNull = true := by simp [NULL, isNull]
@[simp] theorem isNull_currentRecord (w : Nat) :
    (currentRecord : RecordPtr w).isNull = false := rfl

end RecordPtr

/-- The `read` method: from the state of the driver, the `int` offset, the count
    and the buffer as it stands, the driver's new state, the returned `int`, and
    the buffer the call leaves. -/
abbrev ReadMethod (σ : Type) :=
  σ → Int → (count : Nat) → (Fin count → Byte) → σ × Int × (Fin count → Byte)

/-- `struct sdbfs`.  The arrays are indexed by the directory depth. -/
structure Sdbfs (w : Nat) (σ : Type) where
  drvdata : σ
  entrypoint : BitVec w
  flags : BitVec w
  data : BitVec w
  read : Option (ReadMethod σ)
  currentp : RecordPtr w
  currentRecord : Record
  fLen : BitVec w
  fOffset : BitVec w
  readOffset : BitVec w
  base : Nat → BitVec w
  thisPos : Nat → BitVec w
  nleft : Nat → Int
  depth : Nat

variable {w : Nat} {σ : Type}

/-- A device as its user fills it in; the fields of the library are zeroed. -/
def Sdbfs.fresh (drvdata : σ) (entrypoint flags data : BitVec w) (read : Option (ReadMethod σ)) :
    Sdbfs w σ where
  drvdata := drvdata
  entrypoint := entrypoint
  flags := flags
  data := data
  read := read
  currentp := RecordPtr.NULL w
  currentRecord := fun _ => 0
  fLen := 0
  fOffset := 0
  readOffset := 0
  base := fun _ => 0
  thisPos := fun _ => 0
  nleft := fun _ => 0
  depth := 0

/-- `fs->data || (fs->flags & SDBFS_F_ZEROBASED)`. -/
def Sdbfs.isMapped (fs : Sdbfs w σ) : Bool :=
  fs.data != 0#w || fs.flags &&& SDBFS_F_ZEROBASED w != 0#w

/-- `fs->flags & SDBFS_F_CONVERT32`. -/
def Sdbfs.converts (fs : Sdbfs w σ) : Bool := fs.flags &&& SDBFS_F_CONVERT32 w != 0#w

/-- The record at an address. -/
def Host.recordAt (host : Host w) (addr : BitVec w) : Record := fun i =>
  host.mem (addr + BitVec.ofNat w i.val)

/-- `p[i] = ntohl(p[i])` over the words of a record. -/
def Host.ntohlWords (host : Host w) (r : Record) : Record :=
  if host.littleEndian then swapWords r else r

/-- An `unsigned long` passed as the `int` offset of the `read` method. -/
def intOffset (offset : BitVec w) : Int := (offset.setWidth 32).toInt

/-- What a pointer points to, if it points to anything. -/
def Sdbfs.deref (host : Host w) (fs : Sdbfs w σ) : RecordPtr w → Option Record
  | .currentRecord => some fs.currentRecord
  | .mapped addr => if fs.isMapped then some (host.recordAt addr) else none

/-- The conversion at the end of `sdbfs_readentry`. -/
def convertCurrent (host : Host w) (fs : Sdbfs w σ) : Sdbfs w σ :=
  if fs.converts then { fs with currentRecord := host.ntohlWords fs.currentRecord } else fs

/-- `sdbfs_readentry`: a pointer to the record at a known good offset. -/
def sdbfsReadentry (host : Host w) (fs : Sdbfs w σ) (offset : BitVec w) :
    Sdbfs w σ × RecordPtr w :=
  if fs.isMapped then
    if fs.converts then
      -- copy to local storage for conversion
      (convertCurrent host { fs with currentRecord := host.recordAt (fs.data + offset) },
        .currentRecord)
    else (fs, .mapped (fs.data + offset))
  else
    match fs.read with
    | none => (fs, RecordPtr.NULL w)
    | some read =>
        -- what the method returns is not looked at
        let r := read fs.drvdata (intOffset offset) 64 fs.currentRecord
        (convertCurrent host { fs with drvdata := r.1, currentRecord := r.2.2 }, .currentRecord)

/-! ## What reading leaves alone -/

/-- The fields a scan leaves alone. -/
def SameDevice (fs fs' : Sdbfs w σ) : Prop :=
  fs'.data = fs.data ∧ fs'.flags = fs.flags ∧ fs'.read = fs.read

theorem SameDevice.refl (fs : Sdbfs w σ) : SameDevice fs fs := ⟨rfl, rfl, rfl⟩

theorem SameDevice.trans {fs fs' fs'' : Sdbfs w σ} (h : SameDevice fs fs')
    (h' : SameDevice fs' fs'') : SameDevice fs fs'' :=
  ⟨h'.1.trans h.1, h'.2.1.trans h.2.1, h'.2.2.trans h.2.2⟩

/-- The device stays mapped, or not. -/
theorem SameDevice.isMapped {fs fs' : Sdbfs w σ} (h : SameDevice fs fs') :
    fs'.isMapped = fs.isMapped := by
  rw [Sdbfs.isMapped, Sdbfs.isMapped, h.1, h.2.1]

/-- It goes on converting, or not. -/
theorem SameDevice.converts {fs fs' : Sdbfs w σ} (h : SameDevice fs fs') :
    fs'.converts = fs.converts := by
  rw [Sdbfs.converts, Sdbfs.converts, h.2.1]

/-- What is behind a pointer depends on the device, and on the buffer. -/
theorem deref_congr {fs fs' : Sdbfs w σ} (hsame : SameDevice fs fs')
    (hrec : fs'.currentRecord = fs.currentRecord) (p : RecordPtr w) :
    fs'.deref host p = fs.deref host p := by
  cases p with
  | mapped addr => rw [Sdbfs.deref, Sdbfs.deref, hsame.isMapped]
  | currentRecord => exact congrArg some hrec

/-- Converting changes nothing but the buffer. -/
theorem convertCurrent_frame (host : Host w) (fs : Sdbfs w σ) :
    ∃ c, convertCurrent host fs = { fs with currentRecord := c } := by
  rw [convertCurrent]
  split
  · exact ⟨_, rfl⟩
  · exact ⟨fs.currentRecord, rfl⟩

/-- What it makes of the buffer. -/
theorem convertCurrent_currentRecord (host : Host w) (fs : Sdbfs w σ) :
    (convertCurrent host fs).currentRecord =
      if fs.converts then host.ntohlWords fs.currentRecord else fs.currentRecord := by
  rw [convertCurrent]
  split <;> rfl

/-- Reading an entry changes the driver and the record buffer, nothing else. -/
theorem sdbfsReadentry_frame (host : Host w) (fs : Sdbfs w σ) (pos : BitVec w) :
    ∃ d c, (sdbfsReadentry host fs pos).1 = { fs with drvdata := d, currentRecord := c } := by
  rw [sdbfsReadentry]
  split
  · split
    · obtain ⟨c, hc⟩ := convertCurrent_frame host
        { fs with currentRecord := host.recordAt (fs.data + pos) }
      exact ⟨fs.drvdata, c, hc⟩
    · exact ⟨fs.drvdata, fs.currentRecord, rfl⟩
  · split
    · exact ⟨fs.drvdata, fs.currentRecord, rfl⟩
    · next read _ =>
      obtain ⟨c, hc⟩ := convertCurrent_frame host { fs with
        drvdata := (read fs.drvdata (intOffset pos) 64 fs.currentRecord).1
        currentRecord := (read fs.drvdata (intOffset pos) 64 fs.currentRecord).2.2 }
      exact ⟨_, c, hc⟩

/-- Reading a record leaves the device alone. -/
theorem sdbfsReadentry_same (host : Host w) (fs : Sdbfs w σ) (pos : BitVec w) :
    SameDevice fs (sdbfsReadentry host fs pos).1 := by
  obtain ⟨d, c, h⟩ := sdbfsReadentry_frame host fs pos
  rw [h]
  exact ⟨rfl, rfl, rfl⟩

/-! ## The pointer to a record -/

/-- How the library refers to the record at a position: in place, or in its buffer. -/
def recordPtr (fs : Sdbfs w σ) (pos : BitVec w) : RecordPtr w :=
  if fs.isMapped ∧ fs.converts = false then .mapped (fs.data + pos) else .currentRecord

/-- The record is used in place and lies at address 0. -/
def NullAt (fs : Sdbfs w σ) (pos : BitVec w) : Prop :=
  fs.isMapped = true ∧ fs.converts = false ∧ fs.data + pos = 0

instance (fs : Sdbfs w σ) (pos : BitVec w) : Decidable (NullAt fs pos) :=
  inferInstanceAs (Decidable (_ ∧ _))

/-- A record at address 0 is the one that cannot be told from no record. -/
theorem recordPtr_isNull (fs : Sdbfs w σ) (pos : BitVec w) :
    (recordPtr fs pos).isNull = true ↔ NullAt fs pos := by
  rw [recordPtr]
  by_cases h : fs.isMapped ∧ fs.converts = false
  · rw [if_pos h]
    constructor
    · intro hz
      exact ⟨h.1, h.2, beq_iff_eq.mp hz⟩
    · rintro ⟨_, _, hz⟩
      exact beq_iff_eq.mpr hz
  · rw [if_neg h]
    constructor
    · intro hz
      cases hz
    · rintro ⟨hm, hc, _⟩
      exact absurd ⟨hm, hc⟩ h

/-- The pointer to a record stays. -/
theorem SameDevice.recordPtr {fs fs' : Sdbfs w σ} (h : SameDevice fs fs') (pos : BitVec w) :
    recordPtr fs' pos = recordPtr fs pos := by
  rw [SdbfsDevice.recordPtr, SdbfsDevice.recordPtr, h.isMapped, h.converts, h.1]

/-- So does the place where it would be null. -/
theorem SameDevice.nullAt {fs fs' : Sdbfs w σ} (h : SameDevice fs fs') {pos : BitVec w}
    (hn : NullAt fs' pos) : NullAt fs pos := by
  rw [← recordPtr_isNull] at hn ⊢
  rw [← h.recordPtr]
  exact hn

end SdbfsDevice
