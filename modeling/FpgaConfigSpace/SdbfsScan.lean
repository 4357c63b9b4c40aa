import FpgaConfigSpace.SdbfsDevice

/-! # Scanning the tree

    `scan_newdir`, `sdbfs_scan` and the functions that call it: `sdbfs_open_name`
    and `sdbfs_open_id` of `glue.c`, and `do_list` of `sdb-read.c`.

    The scanner is resumed by its caller: between two calls it keeps, for every
    directory level, the base address, the position of the next record and the
    number of records left, and it decides at the next call whether the record it
    returned last is a directory to enter.

    `none` is a call to which C gives no meaning: a `NULL` record is read, or an
    `int` counter overflows. -/

namespace SdbfsScan

open BigEndian SdbRecord SdbfsDevice

variable {w : Nat} {σ : Type}

/-- The least `int`. -/
def INT_MIN : Int := -0x80000000

/-- `scan_newdir`: enter the table at `this[depth]`, if there is one. -/
def scanNewdir (host : Host w) (fs : Sdbfs w σ) (depth : Nat) :
    Option (Sdbfs w σ × RecordPtr w) :=
  let r := sdbfsReadentry host fs (fs.thisPos depth)
  let fs := { r.1 with currentp := r.2 }
  (fs.deref host r.2).map fun dev =>
    if IsTable dev then
      ({ fs with
          nleft := Function.update fs.nleft depth ((sdbRecords dev).toNat - 1)
          thisPos := Function.update fs.thisPos depth (fs.thisPos depth + 64)
          depth := depth }, r.2)
    else (fs, RecordPtr.NULL w)

/-- How a call of `sdbfs_scan` starts: the state, the level it works on, and
    whether it has to enter a new directory there. -/
def scanStart (host : Host w) (fs : Sdbfs w σ) (newscan : Bool) :
    Option (Sdbfs w σ × Nat × Bool) :=
  if newscan then
    some ({ fs with
        base := Function.update fs.base 0 0
        thisPos := Function.update fs.thisPos 0 fs.entrypoint
        depth := 0 }, 0, true)
  else
    (fs.deref host fs.currentp).map fun rec =>
      if IsBridge rec ∧ fs.depth + 1 < SDBFS_DEPTH then
        ({ fs with
            thisPos := Function.update fs.thisPos (fs.depth + 1)
              (fs.base fs.depth + (sdbChild rec).setWidth w)
            base := Function.update fs.base (fs.depth + 1)
              (fs.base fs.depth + (addrFirst rec).setWidth w) }, fs.depth + 1, true)
      else (fs, fs.depth, false)

/-- The tail of `sdbfs_scan`: locate the record in the address space. -/
def scanOut (host : Host w) (fs : Sdbfs w σ) (dev : RecordPtr w) :
    Option (Sdbfs w σ × RecordPtr w) :=
  (fs.deref host fs.currentp).map fun rec =>
    ({ fs with fOffset := fs.base fs.depth + (addrFirst rec).setWidth w }, dev)

/-- The next entry of a level that has entries left. -/
def scanEntry (host : Host w) (fs : Sdbfs w σ) (depth : Nat) :
    Option (Sdbfs w σ × RecordPtr w) :=
  let r := sdbfsReadentry host fs (fs.thisPos depth)
  if r.1.nleft depth = INT_MIN then none
  else
    scanOut host { r.1 with
      currentp := r.2
      thisPos := Function.update r.1.thisPos depth (r.1.thisPos depth + 64)
      nleft := Function.update r.1.nleft depth (r.1.nleft depth - 1) } r.2

/-- Leave the levels that have no entries left ("cd .."), then read the next. -/
def scanNext (host : Host w) (fs : Sdbfs w σ) : Nat → Option (Sdbfs w σ × RecordPtr w)
  | 0 => if fs.nleft 0 = 0 then some (fs, RecordPtr.NULL w) else scanEntry host fs 0
  | depth + 1 =>
      if fs.nleft (depth + 1) = 0 then scanNext host { fs with depth := depth } depth
      else scanEntry host fs (depth + 1)

/-- `sdbfs_scan`: the first record of the tree, or the next one. -/
def sdbfsScan (host : Host w) (fs : Sdbfs w σ) (newscan : Bool) :
    Option (Sdbfs w σ × RecordPtr w) :=
  (scanStart host fs newscan).bind fun s =>
    if s.2.2 then
      (scanNewdir host s.1 s.2.1).bind fun r =>
        if r.2.isNull then
          -- the directory is not there: no interconnect
          if s.2.1 = 0 then some (r.1, RecordPtr.NULL w)
          else scanNext host r.1 (s.2.1 - 1)
        else scanOut host r.1 r.2
    else scanNext host s.1 s.2.1

/-! ## How a call starts -/

variable {host : Host w}

/-- The state of a new scan. -/
def restart (fs : Sdbfs w σ) : Sdbfs w σ :=
  { fs with
    base := Function.update fs.base 0 0
    thisPos := Function.update fs.thisPos 0 fs.entrypoint
    depth := 0 }

@[simp] theorem restart_base (fs : Sdbfs w σ) : (restart fs).base 0 = 0 := by
  simp [restart]

@[simp] theorem restart_thisPos (fs : Sdbfs w σ) : (restart fs).thisPos 0 = fs.entrypoint := by
  simp [restart]

/-- A new scan begins with the top table. -/
theorem scanStart_new (host : Host w) (fs : Sdbfs w σ) :
    scanStart host fs true = some (restart fs, 0, true) := rfl

/-- The state in which `sdbfs_scan` tries the directory of a bridge. -/
def descend (fs : Sdbfs w σ) (rec : Record) : Sdbfs w σ :=
  { fs with
    thisPos := Function.update fs.thisPos (fs.depth + 1)
      (fs.base fs.depth + (sdbChild rec).setWidth w)
    base := Function.update fs.base (fs.depth + 1)
      (fs.base fs.depth + (addrFirst rec).setWidth w) }

/-- Behind a bridge the next call tries its directory, unless it is too deep. -/
theorem scanStart_descend {fs : Sdbfs w σ} {rec : Record}
    (hcur : fs.deref host fs.currentp = some rec) (hb : IsBridge rec)
    (hdepth : fs.depth + 1 < SDBFS_DEPTH) :
    scanStart host fs false = some (descend fs rec, fs.depth + 1, true) := by
  show (fs.deref host fs.currentp).map _ = _
  rw [hcur, Option.map_some, if_pos ⟨hb, hdepth⟩]
  rfl

theorem scanStart_stay {fs : Sdbfs w σ} {rec : Record}
    (hcur : fs.deref host fs.currentp = some rec)
    (h : ¬ (IsBridge rec ∧ fs.depth + 1 < SDBFS_DEPTH)) :
    scanStart host fs false = some (fs, fs.depth, false) := by
  show (fs.deref host fs.currentp).map _ = _
  rw [hcur, Option.map_some, if_neg h]

/-- A call that has no directory to enter. -/
theorem sdbfsScan_stay {fs s : Sdbfs w σ} {newscan : Bool} {d : Nat}
    (h : scanStart host fs newscan = some (s, d, false)) :
    sdbfsScan host fs newscan = scanNext host s d := by
  rw [sdbfsScan, h]
  rfl

/-- A call that tries to enter a directory. -/
theorem sdbfsScan_enter {fs s g : Sdbfs w σ} {newscan : Bool} {d : Nat} {p : RecordPtr w}
    (h : scanStart host fs newscan = some (s, d, true))
    (hnew : scanNewdir host s d = some (g, p)) :
    sdbfsScan host fs newscan =
      if p.isNull then if d = 0 then some (g, RecordPtr.NULL w) else scanNext host g (d - 1)
      else scanOut host g p := by
  rw [sdbfsScan, h]
  show (scanNewdir host s d).bind _ = _
  rw [hnew]
  rfl

/-- A record is returned with the place of its data. -/
theorem scanOut_eq {fs : Sdbfs w σ} {rec : Record} (h : fs.deref host fs.currentp = some rec)
    (dev : RecordPtr w) : scanOut host fs dev =
      some ({ fs with fOffset := fs.base fs.depth + (addrFirst rec).setWidth w }, dev) := by
  rw [scanOut, h]
  rfl

/-! ## What a call leaves alone -/

/-- The second state differs from the first in the fields that a call changes behind its
    start. -/
def Walked (fs fs' : Sdbfs w σ) : Prop :=
  ∃ drv rec p off pos left d, fs' = { fs with
    drvdata := drv, currentRecord := rec, currentp := p, fOffset := off, thisPos := pos,
    nleft := left, depth := d }

theorem Walked.refl (fs : Sdbfs w σ) : Walked fs fs := ⟨_, _, _, _, _, _, _, rfl⟩

theorem Walked.trans {fs fs' fs'' : Sdbfs w σ} (h : Walked fs fs') (h' : Walked fs' fs'') :
    Walked fs fs'' := by
  obtain ⟨drv, rec, p, off, pos, left, d, rfl⟩ := h
  obtain ⟨drv', rec', p', off', pos', left', d', rfl⟩ := h'
  exact ⟨drv', rec', p', off', pos', left', d', rfl⟩

/-- The bases stay. -/
theorem Walked.base {fs fs' : Sdbfs w σ} (h : Walked fs fs') : fs'.base = fs.base := by
  obtain ⟨drv, rec, p, off, pos, left, d, rfl⟩ := h
  rfl

/-- So does the device. -/
theorem Walked.same {fs fs' : Sdbfs w σ} (h : Walked fs fs') : SameDevice fs fs' := by
  obtain ⟨drv, rec, p, off, pos, left, d, rfl⟩ := h
  exact ⟨rfl, rfl, rfl⟩

theorem Walked.entrypoint {fs fs' : Sdbfs w σ} (h : Walked fs fs') :
    fs'.entrypoint = fs.entrypoint := by
  obtain ⟨drv, rec, p, off, pos, left, d, rfl⟩ := h
  rfl

/-- Returning a record is a part of a walk, and so are reading the next one, in whichever
    table it is, and trying a directory. -/
theorem scanOut_walked {fs fs' : Sdbfs w σ} {dev dev' : RecordPtr w}
    (h : scanOut host fs dev = some (fs', dev')) : Walked fs fs' := by
  obtain ⟨rec, _, heq⟩ := Option.map_eq_some_iff.mp h
  obtain ⟨rfl, _⟩ := Prod.mk.inj heq
  exact ⟨_, _, _, _, _, _, _, rfl⟩

theorem scanEntry_walked {fs fs' : Sdbfs w σ} {d : Nat} {dev : RecordPtr w}
    (h : scanEntry host fs d = some (fs', dev)) : Walked fs fs' := by
  obtain ⟨drv, c, hframe⟩ := sdbfsReadentry_frame host fs (fs.thisPos d)
  rw [scanEntry, hframe] at h
  simp only at h
  split at h
  · cases h
  · refine Walked.trans ?_ (scanOut_walked h)
    exact ⟨_, _, _, _, _, _, _, rfl⟩

theorem scanNext_walked : ∀ {d : Nat} {fs fs' : Sdbfs w σ} {dev : RecordPtr w},
    scanNext host fs d = some (fs', dev) → Walked fs fs' := by
  intro d
  induction d with
  | zero =>
      intro fs fs' dev h
      rw [scanNext] at h
      split at h
      · cases h
        exact Walked.refl fs
      · exact scanEntry_walked h
  | succ d ih =>
      intro fs fs' dev h
      rw [scanNext] at h
      split at h
      · refine Walked.trans ?_ (ih h)
        exact ⟨_, _, _, _, _, _, _, rfl⟩
      · exact scanEntry_walked h

theorem scanNewdir_walked {fs fs' : Sdbfs w σ} {d : Nat} {dev : RecordPtr w}
    (h : scanNewdir host fs d = some (fs', dev)) : Walked fs fs' := by
  obtain ⟨drv, c, hframe⟩ := sdbfsReadentry_frame host fs (fs.thisPos d)
  rw [scanNewdir, hframe] at h
  obtain ⟨rec, _, heq⟩ := Option.map_eq_some_iff.mp h
  split at heq
  all_goals
    obtain ⟨rfl, _⟩ := Prod.mk.inj heq
    exact ⟨_, _, _, _, _, _, _, rfl⟩

/-- Behind its start a call only walks. -/
theorem sdbfsScan_walked {fs fs' s : Sdbfs w σ} {new enter : Bool} {d : Nat} {dev : RecordPtr w}
    (h : sdbfsScan host fs new = some (fs', dev))
    (hstart : scanStart host fs new = some (s, d, enter)) : Walked s fs' := by
  rw [sdbfsScan, hstart, Option.bind_some] at h
  cases enter with
  | false => exact scanNext_walked h
  | true =>
      obtain ⟨⟨s', p⟩, hnew, h⟩ := Option.bind_eq_some_iff.mp h
      have hwalk := scanNewdir_walked hnew
      simp only at h
      split at h
      · split at h
        · cases h
          exact hwalk
        · exact hwalk.trans (scanNext_walked h)
      · exact hwalk.trans (scanOut_walked h)

/-- The start of a call sets bases and positions, of the same device. -/
theorem scanStart_same {fs s : Sdbfs w σ} {new enter : Bool} {d : Nat}
    (hstart : scanStart host fs new = some (s, d, enter)) :
    SameDevice fs s ∧ s.entrypoint = fs.entrypoint := by
  rw [scanStart] at hstart
  split at hstart
  · cases hstart
    exact ⟨⟨rfl, rfl, rfl⟩, rfl⟩
  · obtain ⟨rec, _, heq⟩ := Option.map_eq_some_iff.mp hstart
    split at heq
    all_goals
      obtain ⟨rfl, _⟩ := Prod.mk.inj heq
      exact ⟨⟨rfl, rfl, rfl⟩, rfl⟩

/-- **No call of `sdbfs_scan` changes the device or its entry point.** -/
theorem sdbfsScan_same {fs fs' : Sdbfs w σ} {new : Bool} {dev : RecordPtr w}
    (h : sdbfsScan host fs new = some (fs', dev)) :
    SameDevice fs fs' ∧ fs'.entrypoint = fs.entrypoint := by
  cases hstart : scanStart host fs new with
  | none =>
      rw [sdbfsScan, hstart] at h
      cases h
  | some start =>
      obtain ⟨s, d, enter⟩ := start
      have hwalk := sdbfsScan_walked h hstart
      obtain ⟨hsame, hentry⟩ := scanStart_same hstart
      exact ⟨hsame.trans hwalk.same, hwalk.entrypoint.trans hentry⟩

end SdbfsScan
