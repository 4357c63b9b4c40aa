import FpgaConfigSpace.SdbfsOpen

/-! # Access to an open file

    `sdbfs_fstat` and `sdbfs_fread` of `access.c`, and the functions of `glue.c`
    that close a file or find one without leaving it open.

    An `int` is 32 bits wide; `none` is a call to which C gives no meaning: an
    `int` addition overflows, a negative number of bytes is copied, or a method
    that is not there is called. -/

namespace SdbfsAccess

open BigEndian SdbRecord SdbfsDevice SdbfsScan SdbfsOpen

variable {w : Nat} {σ : Type}

/-- `sdbfs_close`. -/
def sdbfsClose (fs : Sdbfs w σ) : Sdbfs w σ := { fs with currentp := RecordPtr.NULL w }

/-- The end of the find functions: an error, or the offset of the file, closed again. -/
def findOffset : Outcome (Sdbfs w σ × Int) → Outcome (Sdbfs w σ × BitVec w)
  | .undefined => .undefined
  | .running => .running
  | .done (fs, ret) =>
      if ret < 0 then .done (fs, BitVec.ofInt w ret) else .done (sdbfsClose fs, fs.fOffset)

/-- `sdbfs_find_name`. -/
def sdbfsFindName (host : Host w) (n : Nat) (fs : Sdbfs w σ) (name : CString) :
    Outcome (Sdbfs w σ × BitVec w) :=
  findOffset (sdbfsOpenName host n fs name)

/-- `sdbfs_find_id`. -/
def sdbfsFindId (host : Host w) (n : Nat) (fs : Sdbfs w σ) (vid : BitVec 64) (did : BitVec 32) :
    Outcome (Sdbfs w σ × BitVec w) :=
  findOffset (sdbfsOpenId host n fs vid did)

/-- `sdbfs_fstat`: what it returns, and the record it copies. -/
def sdbfsFstat (host : Host w) (fs : Sdbfs w σ) : Option (Int × Option Record) :=
  if fs.currentp.isNull then some (-ENOENT, none)
  else (fs.deref host fs.currentp).map fun rec => (0, some rec)

/-- The offset and the count of an access, as `sdbfs_fread` and `sdbfs_fwrite` bound
    them before they use them. -/
def accessSpan (fs : Sdbfs w σ) (offset count : BitVec 32) : Option (BitVec 32 × BitVec 32) :=
  let offset := if offset.msb then fs.readOffset.setWidth 32 else offset
  if offset.saddOverflow count then none
  else if fs.fLen < (offset + count).signExtend w then
    some (offset, (fs.fLen - offset.signExtend w).setWidth 32)
  else some (offset, count)

/-- `fs->f_offset + offset`. -/
def filePos (fs : Sdbfs w σ) (offset : BitVec 32) : BitVec w := fs.fOffset + offset.signExtend w

/-- A buffer whose first bytes were overwritten. -/
def fill (buf : Nat → Byte) (n : Nat) (bytes : Fin n → Byte) : Nat → Byte := fun i =>
  if h : i < n then bytes ⟨i, h⟩ else buf i

/-- `if (ret > 0) fs->read_offset = offset + ret`. -/
def advanceRead (fs : Sdbfs w σ) (offset : BitVec 32) (ret : Int) : Option (Sdbfs w σ) :=
  if 0 < ret then
    if 0x7fffffff < offset.toInt + ret then none
    else some { fs with readOffset := BitVec.ofInt w (offset.toInt + ret) }
  else some fs

/-- `sdbfs_fread`: what it returns, and the caller's buffer afterwards. -/
def sdbfsFread (host : Host w) (fs : Sdbfs w σ) (offset : BitVec 32) (buf : Nat → Byte)
    (count : BitVec 32) : Option (Sdbfs w σ × Int × (Nat → Byte)) :=
  if fs.currentp.isNull then some (fs, -ENOENT, buf)
  else
    (accessSpan fs offset count).bind fun span =>
      let n := span.2.toNat
      if span.2.msb then none
      else if fs.data ≠ 0#w then
        (advanceRead fs span.1 n).map fun fs => (fs, n, fill buf n fun i =>
          host.mem (fs.data + filePos fs span.1 + BitVec.ofNat w i.val))
      else
        match fs.read with
        | none => none
        | some read =>
            let r := read fs.drvdata (intOffset (filePos fs span.1)) n fun i => buf i.val
            (advanceRead { fs with drvdata := r.1 } span.1 r.2.1).map fun fs =>
              (fs, r.2.1, fill buf n r.2.2)

/-- A file that is read where nothing is mapped needs the `read` method. -/
theorem sdbfsFread_unmapped {fs : Sdbfs w σ} (hopen : fs.currentp.isNull = false)
    (hdata : fs.data = 0#w) (hread : fs.read = none) (host : Host w) (offset : BitVec 32)
    (buf : Nat → Byte) (count : BitVec 32) : sdbfsFread host fs offset buf count = none := by
  rw [sdbfsFread, if_neg (by rw [hopen]; decide)]
  cases accessSpan fs offset count with
  | none => rfl
  | some span =>
      show (if span.2.msb then none else if fs.data ≠ 0#w then _ else _) = _
      rw [if_neg (not_not.mpr hdata), hread]
      by_cases hneg : span.2.msb = true
      · exact if_pos hneg
      · exact if_neg hneg

/-! ## What no call changes -/

variable {host : Host w} {fs fs' : Sdbfs w σ}

/-- The same device, with the same entry point. -/
def SameStorage (fs fs' : Sdbfs w σ) : Prop :=
  SameDevice fs fs' ∧ fs'.entrypoint = fs.entrypoint

theorem SameStorage.refl (fs : Sdbfs w σ) : SameStorage fs fs := ⟨SameDevice.refl fs, rfl⟩

theorem SameStorage.trans {fs'' : Sdbfs w σ} (h : SameStorage fs fs') (h' : SameStorage fs' fs'') :
    SameStorage fs fs'' := ⟨h.1.trans h'.1, h'.2.trans h.2⟩

/-- A search leaves the storage alone. -/
theorem openLoop_same {found : Record → Bool} {ret : Int} {n : Nat} : ∀ {fs : Sdbfs w σ},
    openLoop host found n fs = .done (fs', ret) → SameStorage fs fs' := by
  induction n with
  | zero =>
      intro fs h
      cases h
  | succ n ih =>
      intro fs h
      rw [openLoop] at h
      split at h
      · cases h
      next fs₁ d hscan =>
        have hsame : SameStorage fs fs₁ := sdbfsScan_same hscan
        split at h
        · cases h
          exact hsame
        · split at h
          · cases h
          next dev _ =>
            split at h
            · cases h
              exact ⟨⟨hsame.1.1, hsame.1.2.1, hsame.1.2.2⟩, hsame.2⟩
            · exact hsame.trans (ih h)

theorem openScan_same {found : Record → Bool} {ret : Int} {n : Nat}
    (h : openScan host found n fs = .done (fs', ret)) : SameStorage fs fs' := by
  rw [openScan] at h
  split at h
  · cases h
  next fs₁ d hscan => exact SameStorage.trans (sdbfsScan_same hscan) (openLoop_same h)

theorem sdbfsOpenName_same {name : CString} {ret : Int} {n : Nat}
    (h : sdbfsOpenName host n fs name = .done (fs', ret)) : SameStorage fs fs' := by
  rw [sdbfsOpenName] at h
  split at h
  · cases h
    exact SameStorage.refl fs
  · exact openScan_same h

/-- Closing what was opened changes nothing of the device either. -/
theorem findOffset_same {r : Outcome (Sdbfs w σ × Int)} {offset : BitVec w}
    (hr : ∀ fs₁ ret, r = .done (fs₁, ret) → SameStorage fs fs₁)
    (h : findOffset r = .done (fs', offset)) : SameStorage fs fs' := by
  cases r with
  | undefined => cases h
  | running => cases h
  | done x =>
      obtain ⟨fs₁, ret⟩ := x
      have hsame := hr fs₁ ret rfl
      rw [findOffset] at h
      split at h
      · cases h
        exact hsame
      · cases h
        exact ⟨⟨hsame.1.1, hsame.1.2.1, hsame.1.2.2⟩, hsame.2⟩

/-- So does moving the position, and so does reading. -/
theorem advanceRead_same {offset : BitVec 32} {ret : Int} (h : advanceRead fs offset ret = some fs') :
    SameStorage fs fs' := by
  rw [advanceRead] at h
  split at h
  · split at h
    · cases h
    · cases h
      exact ⟨⟨rfl, rfl, rfl⟩, rfl⟩
  · cases h
    exact SameStorage.refl fs

theorem sdbfsFread_same {offset count : BitVec 32} {buf buf' : Nat → Byte} {ret : Int}
    (h : sdbfsFread host fs offset buf count = some (fs', ret, buf')) : SameStorage fs fs' := by
  rw [sdbfsFread] at h
  split at h
  · cases h
    exact SameStorage.refl fs
  · obtain ⟨span, _, h⟩ := Option.bind_eq_some_iff.mp h
    simp only at h
    split at h
    · cases h
    · split at h
      · obtain ⟨fs₁, hadv, heq⟩ := Option.map_eq_some_iff.mp h
        cases heq
        exact advanceRead_same hadv
      · split at h
        · cases h
        · obtain ⟨fs₁, hadv, heq⟩ := Option.map_eq_some_iff.mp h
          cases heq
          have hsame := advanceRead_same hadv
          exact ⟨⟨hsame.1.1, hsame.1.2.1, hsame.1.2.2⟩, hsame.2⟩

end SdbfsAccess
