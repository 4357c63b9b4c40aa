import FpgaConfigSpace.SdbfsAccess
import FpgaConfigSpace.SdbfsCreate
import FpgaConfigSpace.Lib.Trace

/-! # A read method that fails

    A `read` method may return an error or fewer bytes than it was asked for; then the
    rest of the buffer is what it was before.  The library does not look at what the
    method returns.  All records pass through one buffer, so that a record that was not
    read is the one that was read before it, or half of it; and the magic number is then
    what the stack held. -/

namespace SdbfsFailing

open BigEndian SdbRecord SdbfsDevice SdbfsScan SdbfsOpen SdbfsAccess SdbfsLockstep SdbfsCreate Trace

variable {w : Nat} {σ : Type} {host : Host w} {fs fs' : Sdbfs w σ} {read : ReadMethod σ}
  {stored : Int → Byte}

/-! ## What is stored, and what is read -/

/-- As many bytes are delivered as the method returns, none if it returns an error, and
    the rest of the buffer is left alone. -/
def MayFail (read : ReadMethod σ) (stored : Int → Byte) : Prop :=
  ∀ s off n buf (i : Fin n), (read s off n buf).2.2 i =
    if (i.val : Int) < (read s off n buf).2.1 then stored (off + i.val) else buf i

/-- The bytes stored at a position. -/
def storedAt (stored : Int → Byte) (pos : BitVec w) : Record := fun i =>
  stored (intOffset pos + i.val)

/-- The stored record, as the library should deliver it. -/
def storedRecord (host : Host w) (fs : Sdbfs w σ) (stored : Int → Byte) (pos : BitVec w) : Record :=
  if fs.converts then host.ntohlWords (storedAt stored pos) else storedAt stored pos

/-- A read of a record transfers all of it, or what it does not transfer is in the buffer
    already. -/
def Whole (read : ReadMethod σ) (stored : Int → Byte) (fs : Sdbfs w σ) (pos : BitVec w) : Prop :=
  ∀ i : Fin 64, ¬ (i.val : Int) < (read fs.drvdata (intOffset pos) 64 fs.currentRecord).2.1 →
    fs.currentRecord i = stored (intOffset pos + i.val)

/-- The device is read through this method. -/
structure ReadBy (read : ReadMethod σ) (fs : Sdbfs w σ) : Prop where
  isMapped : fs.isMapped = false
  read : fs.read = some read

/-- Calls leave the method alone. -/
theorem ReadBy.same (h : ReadBy read fs) (hs : SameDevice fs fs') : ReadBy read fs' :=
  ⟨hs.isMapped.trans h.isMapped, hs.2.2.trans h.read⟩

/-- Turning the words around loses nothing. -/
theorem ntohlWords_inj {r r' : Record} : host.ntohlWords r = host.ntohlWords r' ↔ r = r' := by
  rw [Host.ntohlWords, Host.ntohlWords]
  split
  · constructor
    · intro h
      rw [← swapWords_swapWords r, h, swapWords_swapWords]
    · exact congrArg swapWords
  · exact Iff.rfl

/-- A record read through the method is in the buffer. -/
theorem ReadBy.readentry (h : ReadBy read fs) (pos : BitVec w) :
    (sdbfsReadentry host fs pos).2 = .currentRecord ∧
      (sdbfsReadentry host fs pos).1.currentRecord =
        if fs.converts then
          host.ntohlWords (read fs.drvdata (intOffset pos) 64 fs.currentRecord).2.2
        else (read fs.drvdata (intOffset pos) 64 fs.currentRecord).2.2 := by
  rw [sdbfsReadentry, if_neg (by rw [h.isMapped]; decide), h.read]
  exact ⟨rfl, convertCurrent_currentRecord host _⟩

/-- **The record that is read is the stored one** exactly if the read was whole. -/
theorem readentry_stored (hf : MayFail read stored) (h : ReadBy read fs) (pos : BitVec w) :
    (sdbfsReadentry host fs pos).1.currentRecord = storedRecord host fs stored pos ↔
      Whole read stored fs pos := by
  have hbytes : (read fs.drvdata (intOffset pos) 64 fs.currentRecord).2.2 = storedAt stored pos ↔
      Whole read stored fs pos := by
    rw [funext_iff]
    refine forall_congr' fun i => ?_
    rw [hf, storedAt]
    by_cases hi : (i.val : Int) < (read fs.drvdata (intOffset pos) 64 fs.currentRecord).2.1
    · rw [if_pos hi]
      exact ⟨fun _ hn => absurd hi hn, fun _ => rfl⟩
    · rw [if_neg hi]
      exact ⟨fun heq _ => heq, fun heq => heq hi⟩
  rw [(h.readentry pos).2, storedRecord, ← hbytes]
  split
  · exact ntohlWords_inj
  · exact Iff.rfl

/-! ## The read behind a returned record -/

/-- The read of `scanNext`: the state it happens in and its position. -/
def nextRead (fs : Sdbfs w σ) : Nat → Option (Sdbfs w σ × BitVec w)
  | 0 => if fs.nleft 0 = 0 then none else some (fs, fs.thisPos 0)
  | depth + 1 =>
      if fs.nleft (depth + 1) = 0 then nextRead { fs with depth := depth } depth
      else some (fs, fs.thisPos (depth + 1))

/-- The read of the record that a call of `sdbfs_scan` returns. -/
def scanRead (host : Host w) (fs : Sdbfs w σ) (newscan : Bool) : Option (Sdbfs w σ × BitVec w) :=
  (scanStart host fs newscan).bind fun s =>
    if s.2.2 then
      (scanNewdir host s.1 s.2.1).bind fun r =>
        if r.2.isNull then if s.2.1 = 0 then none else nextRead r.1 (s.2.1 - 1)
        else some (s.1, s.1.thisPos s.2.1)
    else nextRead s.1 s.2.1

/-- A call returned the record of this read. -/
structure ReturnsRead (host : Host w) (fs fs' : Sdbfs w σ) (dev : RecordPtr w)
    (at' : Sdbfs w σ × BitVec w) : Prop where
  same : SameDevice fs at'.1
  dev : dev = .currentRecord
  record : fs'.currentRecord = (sdbfsReadentry host at'.1 at'.2).1.currentRecord

/-- Returning a record leaves the buffer alone. -/
theorem scanOut_currentRecord {dev dev' : RecordPtr w} (h : scanOut host fs dev = some (fs', dev')) :
    fs'.currentRecord = fs.currentRecord ∧ dev' = dev := by
  obtain ⟨rec, _, heq⟩ := Option.map_eq_some_iff.mp h
  obtain ⟨rfl, rfl⟩ := Prod.mk.inj heq
  exact ⟨rfl, rfl⟩

/-- The next record is read, in whichever table it is, and so is the first one of a directory. -/
theorem scanEntry_read (hr : ReadBy read fs) {d : Nat} {dev : RecordPtr w}
    (h : scanEntry host fs d = some (fs', dev)) :
    ReturnsRead host fs fs' dev (fs, fs.thisPos d) := by
  rw [scanEntry] at h
  simp only at h
  split at h
  · cases h
  · obtain ⟨hrec, hdev⟩ := scanOut_currentRecord h
    exact ⟨SameDevice.refl fs, hdev.trans (hr.readentry _).1, hrec⟩

/-- What came of a call, and of the read behind it. -/
def Reads (host : Host w) (fs fs' : Sdbfs w σ) (dev : RecordPtr w) :
    Option (Sdbfs w σ × BitVec w) → Prop
  | none => dev.isNull = true
  | some x => ReturnsRead host fs fs' dev x

/-- It was the same device before. -/
theorem Reads.from {g : Sdbfs w σ} {dev : RecordPtr w} {x : Option (Sdbfs w σ × BitVec w)}
    (h : Reads host g fs' dev x) (hs : SameDevice fs g) : Reads host fs fs' dev x := by
  cases x with
  | none => exact h
  | some x => exact { h with same := hs.trans h.same }

theorem scanNext_read : ∀ {d : Nat} {fs : Sdbfs w σ} {dev : RecordPtr w}, ReadBy read fs →
    scanNext host fs d = some (fs', dev) → Reads host fs fs' dev (nextRead fs d) := by
  intro d
  induction d with
  | zero =>
      intro fs dev hr h
      rw [scanNext] at h
      rw [nextRead]
      split at h
      next hleft =>
        cases h
        rw [if_pos hleft]
        exact RecordPtr.isNull_NULL w
      next hleft =>
        rw [if_neg hleft]
        exact scanEntry_read hr h
  | succ d ih =>
      intro fs dev hr h
      rw [scanNext] at h
      rw [nextRead]
      split at h
      next hleft =>
        have hr' : ReadBy read { fs with depth := d } := hr.same ⟨rfl, rfl, rfl⟩
        rw [if_pos hleft]
        exact (ih hr' h).from ⟨rfl, rfl, rfl⟩
      next hleft =>
        rw [if_neg hleft]
        exact scanEntry_read hr h

theorem scanNewdir_read (hr : ReadBy read fs) {d : Nat} {dev : RecordPtr w}
    (h : scanNewdir host fs d = some (fs', dev)) (hnull : dev.isNull = false) :
    ReturnsRead host fs fs' dev (fs, fs.thisPos d) := by
  obtain ⟨rec, _, heq⟩ := Option.map_eq_some_iff.mp h
  split at heq
  · obtain ⟨rfl, rfl⟩ := Prod.mk.inj heq
    exact ⟨SameDevice.refl fs, (hr.readentry _).1, rfl⟩
  · obtain ⟨_, rfl⟩ := Prod.mk.inj heq
    rw [RecordPtr.isNull_NULL] at hnull
    cases hnull

/-- A call that returns a record returns what it read last. -/
theorem sdbfsScan_read (hr : ReadBy read fs) {newscan : Bool} {dev : RecordPtr w}
    (h : sdbfsScan host fs newscan = some (fs', dev)) :
    Reads host fs fs' dev (scanRead host fs newscan) := by
  rw [sdbfsScan] at h
  rw [scanRead]
  obtain ⟨⟨s, d, enter⟩, hstart, h⟩ := Option.bind_eq_some_iff.mp h
  have hs := (scanStart_same hstart).1
  rw [hstart, Option.bind_some]
  cases enter with
  | false => exact (scanNext_read (hr.same hs) h).from hs
  | true =>
      obtain ⟨⟨g, p⟩, hnew, h⟩ := Option.bind_eq_some_iff.mp h
      have hg := hs.trans (scanNewdir_walked hnew).same
      simp only [if_true, hnew, Option.bind_some] at h ⊢
      by_cases hp : p.isNull = true
      · rw [if_pos hp] at h ⊢
        by_cases hd : d = 0
        · rw [if_pos hd] at h ⊢
          cases h
          exact RecordPtr.isNull_NULL w
        · rw [if_neg hd] at h ⊢
          exact (scanNext_read (hr.same hg) h).from hg
      · rw [if_neg hp] at h ⊢
        obtain ⟨hrec, hdev⟩ := scanOut_currentRecord h
        have hret := scanNewdir_read (hr.same hs) hnew (Bool.eq_false_iff.mpr hp)
        exact ⟨hs, hdev.trans hret.dev, hrec.trans hret.record⟩

/-! ## Calls -/

/-- A call that delivers a record, or creates the device. -/
inductive RecordCall where
  | devCreate (stack : Fin 4 → Byte)
  | scan (newscan : Bool)
  | openName (name : CString)
  | openId (vid : BitVec 64) (did : BitVec 32)

/-- The record an open function delivers, if it returns 0. -/
def openedRecord (host : Host w) :
    Outcome (Sdbfs w σ × Int) → Outcome (Sdbfs w σ × Int × Option Record)
  | .undefined => .undefined
  | .running => .running
  | .done (fs, ret) =>
      .done (fs, ret, if ret = 0 then fs.deref host fs.currentp else none)

/-- What a call returns, and the record it delivers. -/
def callRecord (host : Host w) (n : Nat) (fs : Sdbfs w σ) :
    RecordCall → Outcome (Sdbfs w σ × Int × Option Record)
  | .devCreate stack =>
      match sdbfsDevCreate host stack fs with
      | none => .undefined
      | some (fs, ret) => .done (fs, ret, none)
  | .scan newscan =>
      match sdbfsScan host fs newscan with
      | none => .undefined
      | some (fs, dev) => .done (fs, 0, if dev.isNull then none else fs.deref host dev)
  | .openName name => openedRecord host (sdbfsOpenName host n fs name)
  | .openId vid did => openedRecord host (sdbfsOpenId host n fs vid did)

/-- The read of the record that a search stops at. -/
def openLoopRead (host : Host w) (found : Record → Bool) :
    Nat → Sdbfs w σ → Option (Sdbfs w σ × BitVec w)
  | 0, _ => none
  | n + 1, fs =>
      (sdbfsScan host fs false).bind fun r =>
        if r.2.isNull then none
        else (r.1.deref host r.2).bind fun dev =>
          if found dev then scanRead host fs false else openLoopRead host found n r.1

/-- The read of the record that a search stops at, from the top of the tree. -/
def openScanRead (host : Host w) (found : Record → Bool) (n : Nat) (fs : Sdbfs w σ) :
    Option (Sdbfs w σ × BitVec w) :=
  (sdbfsScan host fs true).bind fun r => openLoopRead host found n r.1

/-- The read of the record that a call delivers. -/
def callRead (host : Host w) (n : Nat) (fs : Sdbfs w σ) :
    RecordCall → Option (Sdbfs w σ × BitVec w)
  | .devCreate _ => none
  | .scan newscan => scanRead host fs newscan
  | .openName name =>
      if 19 < name.chars.length then none else openScanRead host (nameMatches name) n fs
  | .openId vid did => openScanRead host (idMatches host vid did) n fs

/-- The record in a buffer is what is found behind the pointer to it. -/
theorem ReturnsRead.deref {dev : RecordPtr w} {x : Sdbfs w σ × BitVec w}
    (h : ReturnsRead host fs fs' dev x) : dev.isNull = false ∧
      fs'.deref host dev = some (sdbfsReadentry host x.1 x.2).1.currentRecord := by
  rw [h.dev, ← h.record]
  exact ⟨rfl, rfl⟩

/-- What a search opens was read last. -/
theorem openLoop_read {found : Record → Bool} : ∀ {n : Nat} {fs : Sdbfs w σ} {ret : Int},
    ReadBy read fs → openLoop host found n fs = .done (fs', ret) →
    (∀ x, openLoopRead host found n fs = some x → SameDevice fs x.1) ∧
      (if ret = 0 then fs'.deref host fs'.currentp else none) =
        (openLoopRead host found n fs).map fun x =>
          (sdbfsReadentry host x.1 x.2).1.currentRecord := by
  intro n
  induction n with
  | zero =>
      intro fs ret _ h
      cases h
  | succ n ih =>
      intro fs ret hr h
      rw [openLoop] at h
      rw [openLoopRead]
      cases hscan : sdbfsScan host fs false with
      | none =>
          rw [hscan] at h
          cases h
      | some r =>
          obtain ⟨fs₁, dev⟩ := r
          have hread := sdbfsScan_read hr hscan
          have hsame := (sdbfsScan_same hscan).1
          rw [hscan] at h
          simp only [Option.bind_some] at h ⊢
          cases hx : scanRead host fs false with
          | none =>
              rw [hx] at hread
              have hnull : dev.isNull = true := hread
              rw [if_pos hnull] at h ⊢
              cases h
              refine ⟨fun x hx => ?_, rfl⟩
              cases hx
          | some x =>
              rw [hx] at hread
              have hret : ReturnsRead host fs fs₁ dev x := hread
              have hnull : ¬ dev.isNull = true := Bool.eq_false_iff.mp hret.deref.1
              rw [if_neg hnull] at h ⊢
              rw [hret.deref.2] at h ⊢
              simp only [Option.bind_some] at h ⊢
              split at h
              next hfound =>
                cases h
                rw [if_pos hfound, if_pos rfl]
                refine ⟨fun y hy => ?_, ?_⟩
                · cases hy
                  exact hret.same
                · exact (deref_congr ⟨rfl, rfl, rfl⟩ rfl dev).trans hret.deref.2
              next hfound =>
                rw [if_neg hfound]
                obtain ⟨hall, heq⟩ := ih (hr.same hsame) h
                exact ⟨fun y hy => hsame.trans (hall y hy), heq⟩

/-- What a search opens, from the top of the tree. -/
theorem openScan_read {found : Record → Bool} {n : Nat} {ret : Int} (hr : ReadBy read fs)
    (h : openScan host found n fs = .done (fs', ret)) :
    (∀ x, openScanRead host found n fs = some x → SameDevice fs x.1) ∧
      (if ret = 0 then fs'.deref host fs'.currentp else none) =
        (openScanRead host found n fs).map fun x =>
          (sdbfsReadentry host x.1 x.2).1.currentRecord := by
  rw [openScan] at h
  rw [openScanRead]
  split at h
  · cases h
  next fs₁ dev hscan =>
    have hsame := (sdbfsScan_same hscan).1
    obtain ⟨hall, heq⟩ := openLoop_read (hr.same hsame) h
    rw [hscan, Option.bind_some]
    exact ⟨fun x hx => hsame.trans (hall x hx), heq⟩

/-- An open function that returns. -/
theorem openedRecord_done {r : Outcome (Sdbfs w σ × Int)} {ret : Int} {out : Option Record}
    (h : openedRecord host r = .done (fs', ret, out)) :
    r = .done (fs', ret) ∧ out = if ret = 0 then fs'.deref host fs'.currentp else none := by
  cases r with
  | undefined => cases h
  | running => cases h
  | done x =>
      cases h
      exact ⟨rfl, rfl⟩

/-- **A call delivers what it read last**, whatever the method transferred. -/
theorem callRecord_read {n : Nat} {c : RecordCall} {ret : Int} {out : Option Record}
    (hr : ReadBy read fs) (h : callRecord host n fs c = .done (fs', ret, out)) :
    (∀ x, callRead host n fs c = some x → SameDevice fs x.1) ∧
      out = (callRead host n fs c).map fun x => (sdbfsReadentry host x.1 x.2).1.currentRecord := by
  cases c with
  | devCreate stack =>
      rw [callRecord] at h
      split at h
      · cases h
      · cases h
        refine ⟨fun x hx => ?_, rfl⟩
        cases hx
  | scan newscan =>
      rw [callRecord] at h
      rw [callRead]
      split at h
      · cases h
      next fs₁ dev hscan =>
        cases h
        have hread := sdbfsScan_read hr hscan
        cases hx : scanRead host fs newscan with
        | none =>
            rw [hx] at hread
            refine ⟨fun x hx => ?_, if_pos hread⟩
            cases hx
        | some x =>
            rw [hx] at hread
            have hret : ReturnsRead host fs _ dev x := hread
            refine ⟨fun y hy => ?_, ?_⟩
            · cases hy
              exact hret.same
            · rw [if_neg (Bool.eq_false_iff.mp hret.deref.1)]
              exact hret.deref.2
  | openName name =>
      obtain ⟨hopen, rfl⟩ := openedRecord_done h
      rw [callRead]
      rw [sdbfsOpenName] at hopen
      split at hopen
      next hlen =>
        cases hopen
        rw [if_pos hlen]
        refine ⟨fun x hx => ?_, rfl⟩
        cases hx
      next hlen =>
        rw [if_neg hlen]
        exact openScan_read hr hopen
  | openId vid did =>
      obtain ⟨hopen, rfl⟩ := openedRecord_done h
      exact openScan_read hr hopen

/-! ## Creating the device -/

/-- The magic number in the local variable, whatever was transferred of it. -/
def magicBytes (read : ReadMethod σ) (stored : Int → Byte) (stack : Fin 4 → Byte)
    (fs : Sdbfs w σ) : Fin 4 → Byte := fun i =>
  if (i.val : Int) < (read fs.drvdata (intOffset fs.entrypoint) 4 stack).2.1 then
    stored (intOffset fs.entrypoint + i.val)
  else stack i

/-- The four bytes are the magic number, in one of the two byte orders. -/
def IsMagic (host : Host w) (b : Fin 4 → Byte) : Prop :=
  Host.loadInt host b = SDB_MAGIC ∨ Host.htonl host (Host.loadInt host b) = SDB_MAGIC

/-- All of the magic number was transferred. -/
def MagicRead (read : ReadMethod σ) (stack : Fin 4 → Byte) (fs : Sdbfs w σ) : Prop :=
  4 ≤ (read fs.drvdata (intOffset fs.entrypoint) 4 stack).2.1

/-- The device is created exactly if the four bytes are the magic number. -/
theorem devCreate_magic (hf : MayFail read stored) (hr : ReadBy read fs) (stack : Fin 4 → Byte)
    {ret : Int} (h : sdbfsDevCreate host stack fs = some (fs', ret)) :
    ReadBy read fs' ∧ (ret = 0 ↔ IsMagic host (magicBytes read stored stack fs)) := by
  have hbytes : (read fs.drvdata (intOffset fs.entrypoint) 4 stack).2.2 =
      magicBytes read stored stack fs := by
    ext1 i
    rw [hf, magicBytes]
  have hmagic : createMagic host stack fs = some
      ({ fs with drvdata := (read fs.drvdata (intOffset fs.entrypoint) 4 stack).1 },
        magicBytes read stored stack fs) := by
    rw [createMagic, if_neg (by rw [hr.isMapped]; decide), hr.read, ← hbytes]
  rw [sdbfsDevCreate_verdict hmagic] at h
  obtain ⟨rfl, rfl⟩ := Prod.mk.inj (Option.some.inj h)
  refine ⟨⟨(created_isMapped fs _ _).trans hr.isMapped, hr.read⟩, ?_⟩
  rw [verdict, IsMagic]
  split
  next hle => exact ⟨fun _ => .inl hle, fun _ => rfl⟩
  next hle =>
    split
    next hbe => exact ⟨fun _ => .inr hbe, fun _ => rfl⟩
    next hbe =>
      constructor
      · intro hret
        exact absurd hret (by decide)
      · intro hor
        exact absurd hor (not_or.mpr ⟨hle, hbe⟩)

/-! ## Runs -/

/-- The calls of a program, as steps. -/
def callStep (host : Host w) (n : Nat) (fs : Sdbfs w σ) (c : RecordCall) : Option (Sdbfs w σ) :=
  match callRecord host n fs c with
  | .done (fs, _, _) => some fs
  | _ => none

/-- What a call should do: deliver no record but the one stored where it read last, and
    create no device on a magic number that was not read. -/
def Faithful (host : Host w) (n : Nat) (read : ReadMethod σ) (stored : Int → Byte)
    (fs : Sdbfs w σ) (c : RecordCall) : Prop :=
  ∀ fs' ret out, callRecord host n fs c = .done (fs', ret, out) →
    (∀ rec, out = some rec →
      ∃ x, callRead host n fs c = some x ∧ rec = storedRecord host fs stored x.2) ∧
    ∀ stack, c = .devCreate stack → ret = 0 → MagicRead read stack fs

/-- The read of the record that the call delivers was whole; the magic number was read, or
    what the stack completes it to is none. -/
def Covered (host : Host w) (n : Nat) (read : ReadMethod σ) (stored : Int → Byte)
    (fs : Sdbfs w σ) (c : RecordCall) : Prop :=
  (∀ x, callRead host n fs c = some x → Whole read stored x.1 x.2) ∧
    ∀ stack, c = .devCreate stack →
      MagicRead read stack fs ∨ ¬ IsMagic host (magicBytes read stored stack fs)

instance (read : ReadMethod σ) (stored : Int → Byte) (fs : Sdbfs w σ) (pos : BitVec w) :
    Decidable (Whole read stored fs pos) := inferInstanceAs (Decidable (∀ _ : Fin 64, _ → _))

instance (read : ReadMethod σ) (stack : Fin 4 → Byte) (fs : Sdbfs w σ) :
    Decidable (MagicRead read stack fs) := inferInstanceAs (Decidable (_ ≤ _))

instance (host : Host w) (b : Fin 4 → Byte) : Decidable (IsMagic host b) :=
  inferInstanceAs (Decidable (_ ∨ _))

instance (host : Host w) (n : Nat) (read : ReadMethod σ) (stored : Int → Byte) (fs : Sdbfs w σ) :
    (c : RecordCall) → Decidable (Covered host n read stored fs c)
  | .devCreate stack =>
      decidable_of_iff
        (MagicRead read stack fs ∨ ¬ IsMagic host (magicBytes read stored stack fs))
        ⟨fun h => ⟨fun _ hx => (Option.some_ne_none _ hx.symm).elim, fun _ hc => by cases hc; exact h⟩,
          fun h => h.2 stack rfl⟩
  | .scan newscan =>
      decidable_of_iff (∀ x ∈ scanRead host fs newscan, Whole read stored x.1 x.2)
        ⟨fun h => ⟨h, fun _ hc => by cases hc⟩, fun h => h.1⟩
  | .openName name =>
      decidable_of_iff (∀ x ∈ callRead host n fs (.openName name), Whole read stored x.1 x.2)
        ⟨fun h => ⟨h, fun _ hc => by cases hc⟩, fun h => h.1⟩
  | .openId vid did =>
      decidable_of_iff (∀ x ∈ callRead host n fs (.openId vid did), Whole read stored x.1 x.2)
        ⟨fun h => ⟨h, fun _ hc => by cases hc⟩, fun h => h.1⟩

theorem storedRecord_same (hs : SameDevice fs fs') (pos : BitVec w) :
    storedRecord host fs' stored pos = storedRecord host fs stored pos := by
  rw [storedRecord, storedRecord, hs.converts]

/-- The step lemma: a call does what it should exactly if what it reads is covered. -/
theorem faithful_iff (hf : MayFail read stored) (hr : ReadBy read fs) {n : Nat} {c : RecordCall}
    {ret : Int} {out : Option Record} (h : callRecord host n fs c = .done (fs', ret, out)) :
    Faithful host n read stored fs c ↔ Covered host n read stored fs c := by
  obtain ⟨hsame, hout⟩ := callRecord_read hr h
  have hmagic : ∀ stack, c = .devCreate stack →
      (ret = 0 ↔ IsMagic host (magicBytes read stored stack fs)) := by
    intro stack hc
    subst hc
    rw [callRecord] at h
    split at h
    · cases h
    next hcreate =>
      cases h
      exact (devCreate_magic hf hr stack hcreate).2
  constructor
  · intro hfaith
    obtain ⟨hrec, hcreate⟩ := hfaith fs' ret out h
    refine ⟨fun x hx => ?_, fun stack hc => ?_⟩
    · rw [hx] at hout
      obtain ⟨y, hy, heq⟩ := hrec _ hout
      rw [hx] at hy
      cases hy
      rw [← storedRecord_same (hsame x hx)] at heq
      exact (readentry_stored hf (hr.same (hsame x hx)) x.2).mp heq
    · by_cases hm : IsMagic host (magicBytes read stored stack fs)
      · exact .inl (hcreate stack hc ((hmagic stack hc).mpr hm))
      · exact .inr hm
  · rintro ⟨hwhole, hcreate⟩ fs'' ret' out' h'
    rw [h] at h'
    cases h'
    refine ⟨fun rec hrec => ?_, fun stack hc hret => ?_⟩
    · rw [hout] at hrec
      obtain ⟨x, hx, rfl⟩ := Option.map_eq_some_iff.mp hrec
      refine ⟨x, hx, ?_⟩
      rw [← storedRecord_same (hsame x hx)]
      exact (readentry_stored hf (hr.same (hsame x hx)) x.2).mpr (hwhole x hx)
    · exact (hcreate stack hc).resolve_right (not_not.mpr ((hmagic stack hc).mp hret))

/-- A step is a call that returns. -/
theorem callStep_some {n : Nat} {c : RecordCall} (h : callStep host n fs c = some fs') :
    ∃ ret out, callRecord host n fs c = .done (fs', ret, out) := by
  rw [callStep] at h
  split at h
  next fs₁ ret out hcall =>
    cases h
    exact ⟨ret, out, hcall⟩
  · cases h

/-- Every call leaves the device one that is read through the method. -/
theorem callStep_readBy (hf : MayFail read stored) {n : Nat} {c : RecordCall} (hr : ReadBy read fs)
    (h : callStep host n fs c = some fs') : ReadBy read fs' := by
  obtain ⟨ret, out, hcall⟩ := callStep_some h
  cases c with
  | devCreate stack =>
      rw [callRecord] at hcall
      split at hcall
      · cases hcall
      next hcreate =>
        cases hcall
        exact (devCreate_magic hf hr stack hcreate).1
  | scan newscan =>
      rw [callRecord] at hcall
      split at hcall
      · cases hcall
      next hscan =>
        cases hcall
        exact hr.same (sdbfsScan_same hscan).1
  | openName name => exact hr.same (sdbfsOpenName_same (openedRecord_done hcall).1).1
  | openId vid did => exact hr.same (openScan_same (openedRecord_done hcall).1).1

/-- So does a run of calls. -/
theorem trace_readBy (hf : MayFail read stored) {n : Nat} {calls : List RecordCall}
    (hr : ReadBy read fs) :
    ∀ t ∈ trace (callStep host n) fs calls, ReadBy read t.before ∧
      ∃ ret out, callRecord host n t.before t.act = .done (t.behind, ret, out) := by
  have hkept : ∀ t ∈ trace (callStep host n) fs calls,
      ReadBy read t.before ∧ ReadBy read t.behind :=
    trace_kept (C := fun _ _ => True) (fun s a s' hr _ hs => callStep_readBy hf hr hs) hr
      fun _ _ => trivial
  intro t ht
  exact ⟨(hkept t ht).1, callStep_some (step_of_mem_trace ht)⟩

/-- **What a failing read method does to the library.**  For every storage, every `read`
    method that may fail or deliver less than it is asked for at any call, and every run of
    `sdbfs_dev_create`, `sdbfs_scan`, `sdbfs_open_name` and `sdbfs_open_id` calls: all
    calls deliver nothing but stored records, read at the position where they are stored,
    and no device is created on a magic number that was not read, exactly if in every call
    the read of the delivered record was whole and an incomplete magic number was not
    completed by the stack. -/
theorem failing_reads (host : Host w) (n : Nat) (read : ReadMethod σ) (stored : Int → Byte)
    (hf : MayFail read stored) (fs : Sdbfs w σ) (hm : fs.isMapped = false)
    (hread : fs.read = some read) (calls : List RecordCall) :
    (∀ t ∈ trace (callStep host n) fs calls, Faithful host n read stored t.before t.act) ↔
      ∀ t ∈ trace (callStep host n) fs calls, Covered host n read stored t.before t.act := by
  refine forall₂_congr fun t ht => ?_
  obtain ⟨hr, ret, out, hcall⟩ := trace_readBy hf ⟨hm, hread⟩ t ht
  exact faithful_iff hf hr hcall

/-! ## A method that fails once -/

/-- The bytes of an image, at the offsets where it has some. -/
def imageStored (bytes : List Byte) (off : Int) : Byte := bytes.getD off.toNat 0

/-- A method that counts its calls and returns an error in one of them. -/
def failingRead (bytes : List Byte) (failed : Nat) : ReadMethod Nat := fun s off n buf =>
  if s = failed then (s + 1, -5, buf) else (s + 1, n, fun i => imageStored bytes (off + i.val))

/-- The method delivers what is stored, or fails. -/
theorem failingRead_mayFail (bytes : List Byte) (failed : Nat) :
    MayFail (failingRead bytes failed) (imageStored bytes) := by
  intro s off n buf i
  rw [failingRead]
  split
  · have hnone : ¬ (i.val : Int) < -5 := by omega
    exact (if_neg hnone).symm
  · exact (if_pos (Int.ofNat_lt.mpr i.isLt)).symm

/-- A directory with a subdirectory, behind that method. -/
def failingDevice (failed : Nat) : Sdbfs 32 Nat :=
  Sdbfs.fresh 0 0 0 0 (some (failingRead SdbfsRuns.nestedBytes failed))

/-- The calls of a program that looks for the first entry of the root directory. -/
def firstEntryCalls : List RecordCall := [.devCreate fun _ => 0, .scan true, .scan false]

/-- The third call fails too if the scan is begun once more; but then the interconnect, which
    was to be read, is still in the buffer. -/
theorem failing_reads_again :
    (failingDevice 2).isMapped = false ∧
      ∀ t ∈ trace (callStep (SdbfsRuns.mappedHost 0 []) 0) (failingDevice 2)
          [.devCreate fun _ => 0, .scan true, .scan true],
        Faithful (SdbfsRuns.mappedHost 0 []) 0 (failingRead SdbfsRuns.nestedBytes 2)
          (imageStored SdbfsRuns.nestedBytes) t.before t.act :=
  ⟨by decide, (failing_reads (SdbfsRuns.mappedHost 0 []) 0 (failingRead SdbfsRuns.nestedBytes 2)
    (imageStored SdbfsRuns.nestedBytes) (failingRead_mayFail _ 2) (failingDevice 2) (by decide) rfl
    [.devCreate fun _ => 0, .scan true, .scan true]).mpr (by decide +kernel)⟩

/-- The third call fails: the first entry that is delivered is the interconnect once more. -/
theorem failing_reads_repeats :
    MayFail (failingRead SdbfsRuns.nestedBytes 2) (imageStored SdbfsRuns.nestedBytes) ∧
      (failingDevice 2).isMapped = false ∧
      (failingDevice 2).read = some (failingRead SdbfsRuns.nestedBytes 2) ∧
      ¬ ∀ t ∈ trace (callStep (SdbfsRuns.mappedHost 0 []) 0) (failingDevice 2) firstEntryCalls,
        Faithful (SdbfsRuns.mappedHost 0 []) 0 (failingRead SdbfsRuns.nestedBytes 2)
          (imageStored SdbfsRuns.nestedBytes) t.before t.act := by
  refine ⟨failingRead_mayFail _ 2, by decide, rfl, ?_⟩
  intro h
  have huncovered : (trace (callStep (SdbfsRuns.mappedHost 0 []) 0) (failingDevice 2)
      firstEntryCalls).all (fun t => decide (Covered (SdbfsRuns.mappedHost 0 []) 0
        (failingRead SdbfsRuns.nestedBytes 2) (imageStored SdbfsRuns.nestedBytes) t.before t.act)) =
      false := by decide +kernel
  rw [List.all_eq_false] at huncovered
  obtain ⟨t, ht, hnot⟩ := huncovered
  obtain ⟨hr, ret, out, hcall⟩ := trace_readBy (failingRead_mayFail _ 2)
    (show ReadBy _ (failingDevice 2) from ⟨by decide, rfl⟩) t ht
  exact hnot (decide_eq_true ((faithful_iff (failingRead_mayFail _ 2) hr hcall).mp (h t ht)))

end SdbfsFailing
