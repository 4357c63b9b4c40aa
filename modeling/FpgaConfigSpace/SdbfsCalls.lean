import FpgaConfigSpace.SdbfsOpen

/-! # What one call of the scanner does to its counters

    Nothing is assumed of the storage here: the bytes a call reads may be anything,
    and may differ from call to call.  `entered` is the directory a call enters and
    `yieldLevel` the level of the record it returns.  `sdbfsScan_new_cases` and
    `sdbfsScan_next_cases` say all a call can do to the levels and the counters;
    what is proved of runs is proved from them. -/

namespace SdbfsCalls

open BigEndian SdbRecord SdbfsDevice SdbfsScan SdbfsOpen

variable {w : Nat} {σ : Type} {host : Host w}

/-! ## Observing a call -/

/-- The directory a call enters: its level and the number of records it declares. -/
def entered (host : Host w) (fs : Sdbfs w σ) (newscan : Bool) : Option (Nat × Nat) :=
  (scanStart host fs newscan).bind fun s =>
    if s.2.2 then
      (scanNewdir host s.1 s.2.1).bind fun r =>
        (r.1.deref host r.1.currentp).bind fun dev =>
          if IsTable dev then some (s.2.1, (sdbRecords dev).toNat) else none
    else none

/-- The level `scanNext` reads from. -/
def nextLevel (nleft : Nat → Int) : Nat → Option Nat
  | 0 => if nleft 0 = 0 then none else some 0
  | depth + 1 => if nleft (depth + 1) = 0 then nextLevel nleft depth else some (depth + 1)

/-- The level of the directory that holds the record a call returns. -/
def yieldLevel (host : Host w) (fs : Sdbfs w σ) (newscan : Bool) : Option Nat :=
  (scanStart host fs newscan).bind fun s =>
    if s.2.2 then
      (scanNewdir host s.1 s.2.1).bind fun r =>
        if r.2.isNull then
          if s.2.1 = 0 then none else nextLevel r.1.nleft (s.2.1 - 1)
        else some s.2.1
    else nextLevel s.1.nleft s.2.1

/-- The counters once the directory a call enters has been entered. -/
def nleftEntered (host : Host w) (fs : Sdbfs w σ) (newscan : Bool) : Nat → Int :=
  match entered host fs newscan with
  | some (level, declared) => Function.update fs.nleft level (declared - 1)
  | none => fs.nleft

/-! ## The parts of a call -/

/-- The state after an entry of level `d` was returned by the pointer `dev`. -/
structure EntryRead (host : Host w) (fs fs' : Sdbfs w σ) (d : Nat) (dev : RecordPtr w) : Prop where
  same : SameDevice fs fs'
  nleft : fs'.nleft = Function.update fs.nleft d (fs.nleft d - 1)
  current : fs'.currentp = dev
  readable : ∃ rec, fs'.deref host dev = some rec

/-- What a record of a table is read by. -/
theorem scanEntry_cases {fs fs' : Sdbfs w σ} {d : Nat} {dev : RecordPtr w}
    (h : scanEntry host fs d = some (fs', dev)) :
    EntryRead host fs fs' d dev ∧ fs'.depth = fs.depth := by
  obtain ⟨drv, c, hframe⟩ := sdbfsReadentry_frame host fs (fs.thisPos d)
  rw [scanEntry, hframe] at h
  simp only at h
  split at h
  · cases h
  · obtain ⟨rec, hrec, heq⟩ := Option.map_eq_some_iff.mp h
    obtain ⟨rfl, rfl⟩ := Prod.mk.inj heq
    refine ⟨⟨⟨rfl, rfl, rfl⟩, rfl, rfl, rec, ?_⟩, rfl⟩
    rw [← hrec]
    exact deref_congr ⟨rfl, rfl, rfl⟩ rfl _

/-- What `scanNext` can do: there is nothing left, or it reads from a level. -/
theorem scanNext_cases : ∀ {d : Nat} {fs fs' : Sdbfs w σ} {dev : RecordPtr w},
    scanNext host fs d = some (fs', dev) →
    (SameDevice fs fs' ∧ dev.isNull = true ∧ nextLevel fs.nleft d = none ∧ fs.nleft 0 = 0) ∨
    ∃ l, l ≤ d ∧ nextLevel fs.nleft d = some l ∧ fs.nleft l ≠ 0 ∧ EntryRead host fs fs' l dev ∧
      (l = d ∧ fs'.depth = fs.depth ∨ fs'.depth = l) := by
  intro d
  induction d with
  | zero =>
      intro fs fs' dev h
      by_cases hz : fs.nleft 0 = 0
      · rw [scanNext, if_pos hz] at h
        obtain ⟨rfl, rfl⟩ := Prod.mk.inj (Option.some.inj h)
        exact Or.inl ⟨SameDevice.refl _, RecordPtr.isNull_NULL w, if_pos hz, hz⟩
      · rw [scanNext, if_neg hz] at h
        obtain ⟨hread, hdepth⟩ := scanEntry_cases h
        exact Or.inr ⟨0, Nat.le_refl 0, if_neg hz, hz, hread, Or.inl ⟨rfl, hdepth⟩⟩
  | succ d ih =>
      intro fs fs' dev h
      by_cases hz : fs.nleft (d + 1) = 0
      · rw [scanNext, if_pos hz] at h
        rcases ih h with ⟨hsame, hnull, hlevel, hzero⟩ | ⟨l, hl, hlevel, hne, hread, hdepth⟩
        · exact Or.inl ⟨hsame, hnull, (if_pos hz).trans hlevel, hzero⟩
        · refine Or.inr ⟨l, Nat.le_succ_of_le hl, (if_pos hz).trans hlevel, hne, ?_, ?_⟩
          · exact ⟨hread.same, hread.nleft, hread.current, hread.readable⟩
          · rcases hdepth with ⟨rfl, hdepth⟩ | hdepth
            · exact Or.inr hdepth
            · exact Or.inr hdepth
      · rw [scanNext, if_neg hz] at h
        obtain ⟨hread, hdepth⟩ := scanEntry_cases h
        exact Or.inr ⟨d + 1, Nat.le_refl _, if_neg hz, hz, hread, Or.inl ⟨rfl, hdepth⟩⟩

/-- What `scan_newdir` can do at a level: there is a table, or there is none. -/
inductive Newdir (host : Host w) (fs fs' : Sdbfs w σ) (d : Nat) (dev : RecordPtr w) : Prop where
  | table (rec : Record) (hsame : SameDevice fs fs')
      (hrec : fs'.deref host fs'.currentp = some rec) (ht : IsTable rec)
      (hnleft : fs'.nleft = Function.update fs.nleft d ((sdbRecords rec).toNat - 1))
      (hdepth : fs'.depth = d) (hdev : dev = fs'.currentp)
  | noTable (rec : Record) (hsame : SameDevice fs fs')
      (hrec : fs'.deref host fs'.currentp = some rec) (ht : ¬ IsTable rec)
      (hnleft : fs'.nleft = fs.nleft) (hdepth : fs'.depth = fs.depth)
      (hdev : dev.isNull = true)

/-- What a directory is tried by. -/
theorem scanNewdir_cases {fs fs' : Sdbfs w σ} {d : Nat} {dev : RecordPtr w}
    (h : scanNewdir host fs d = some (fs', dev)) : Newdir host fs fs' d dev := by
  obtain ⟨drv, c, hframe⟩ := sdbfsReadentry_frame host fs (fs.thisPos d)
  rw [scanNewdir, hframe] at h
  obtain ⟨rec, hrec, heq⟩ := Option.map_eq_some_iff.mp h
  by_cases ht : IsTable rec
  · rw [if_pos ht] at heq
    obtain ⟨rfl, rfl⟩ := Prod.mk.inj heq
    refine Newdir.table rec ⟨rfl, rfl, rfl⟩ ?_ ht rfl rfl rfl
    rw [← hrec]
    exact deref_congr ⟨rfl, rfl, rfl⟩ rfl _
  · rw [if_neg ht] at heq
    obtain ⟨rfl, rfl⟩ := Prod.mk.inj heq
    exact Newdir.noTable rec ⟨rfl, rfl, rfl⟩ hrec ht rfl rfl (RecordPtr.isNull_NULL w)

/-- What a record is returned by. -/
theorem scanOut_cases {fs fs' : Sdbfs w σ} {dev dev' : RecordPtr w}
    (h : scanOut host fs dev = some (fs', dev')) :
    SameDevice fs fs' ∧ dev' = dev ∧ fs'.nleft = fs.nleft ∧ fs'.depth = fs.depth ∧
      fs'.currentp = fs.currentp ∧ ∀ p, fs'.deref host p = fs.deref host p := by
  obtain ⟨rec, _, heq⟩ := Option.map_eq_some_iff.mp h
  obtain ⟨rfl, rfl⟩ := Prod.mk.inj heq
  exact ⟨⟨rfl, rfl, rfl⟩, rfl, rfl, rfl, rfl, deref_congr ⟨rfl, rfl, rfl⟩ rfl⟩

/-! ## A new scan -/

/-- What a new scan can do. -/
inductive NewCall (host : Host w) (fs fs' : Sdbfs w σ) (dev : RecordPtr w) : Prop where
  | table (rec : Record) (hrec : fs'.deref host fs'.currentp = some rec) (ht : IsTable rec)
      (hentered : entered host fs true = some (0, (sdbRecords rec).toNat))
      (hnleft : fs'.nleft = Function.update fs.nleft 0 ((sdbRecords rec).toNat - 1))
      (hyield : yieldLevel host fs true = if dev.isNull then none else some 0)
      (hcur : dev.isNull = false → fs'.currentp = dev)
  | noTable (hrec : ∃ rec, fs'.deref host fs'.currentp = some rec)
      (hentered : entered host fs true = none) (hnleft : fs'.nleft = fs.nleft)
      (hdev : dev.isNull = true)

/-- **What `sdbfs_scan(fs, 1)` does.** -/
theorem sdbfsScan_new_cases {fs fs' : Sdbfs w σ} {dev : RecordPtr w}
    (h : sdbfsScan host fs true = some (fs', dev)) :
    SameDevice fs fs' ∧ fs'.depth = 0 ∧ NewCall host fs fs' dev := by
  obtain ⟨⟨fs₁, p⟩, hnew, h⟩ := Option.bind_eq_some_iff.mp
    (show (scanNewdir host _ 0).bind _ = some (fs', dev) from h)
  have hent : entered host fs true = (fs₁.deref host fs₁.currentp).bind fun dev =>
      if IsTable dev then some (0, (sdbRecords dev).toNat) else none :=
    congrArg (Option.bind · _) hnew
  have hyl : yieldLevel host fs true = if p.isNull then none else some 0 :=
    congrArg (Option.bind · _) hnew
  simp only at h
  rcases scanNewdir_cases hnew with ⟨rec, hsame, hrec, ht, hnleft, hdepth, hdev⟩ |
    ⟨rec, hsame, hrec, ht, hnleft, hdepth, hdev⟩
  · rw [hrec, Option.bind_some, if_pos ht] at hent
    by_cases hp : p.isNull = true
    · rw [if_pos hp, if_pos trivial] at h
      obtain ⟨rfl, rfl⟩ := Prod.mk.inj (Option.some.inj h)
      refine ⟨hsame, hdepth, NewCall.table rec hrec ht hent hnleft ?_ ?_⟩
      · rw [hyl, if_pos hp, if_pos (RecordPtr.isNull_NULL w)]
      · intro hn
        rw [RecordPtr.isNull_NULL] at hn
        cases hn
    · rw [if_neg hp] at h
      obtain ⟨hs, rfl, hn, hd, hc, hderef⟩ := scanOut_cases h
      refine ⟨hsame.trans hs, hd.trans hdepth, NewCall.table rec ?_ ht hent (hn.trans hnleft)
        hyl fun _ => hc.trans hdev.symm⟩
      rw [hderef, hc]
      exact hrec
  · rw [hrec, Option.bind_some, if_neg ht] at hent
    rw [if_pos hdev, if_pos trivial] at h
    obtain ⟨rfl, rfl⟩ := Prod.mk.inj (Option.some.inj h)
    exact ⟨hsame, hdepth, NewCall.noTable ⟨rec, hrec⟩ hent hnleft (RecordPtr.isNull_NULL w)⟩

/-! ## The next call -/

/-- What a call that goes on with a scan can do. -/
inductive NextCall (host : Host w) (fs fs' : Sdbfs w σ) (dev : RecordPtr w) : Prop where
  | ended (hdev : dev.isNull = true)
      (hwhy : fs.nleft 0 = 0 ∧ yieldLevel host fs false = none ∨ fs'.currentp.isNull = true)
  | enters (rec : Record) (hsame : SameDevice fs fs') (hlevel : fs.depth + 1 < SDBFS_DEPTH)
      (ht : IsTable rec)
      (hrec : fs'.deref host fs'.currentp = some rec)
      (hentered : entered host fs false = some (fs.depth + 1, (sdbRecords rec).toNat))
      (hyield : yieldLevel host fs false = some (fs.depth + 1))
      (hnleft : fs'.nleft = nleftEntered host fs false) (hdepth : fs'.depth = fs.depth + 1)
      (hdev : dev.isNull = false) (hcur : fs'.currentp = dev)
  | entry (l : Nat) (hsame : SameDevice fs fs') (hl : l ≤ fs.depth)
      (hyield : yieldLevel host fs false = some l)
      (hne : fs.nleft l ≠ 0)
      (hnleft : fs'.nleft = Function.update (nleftEntered host fs false) l (fs.nleft l - 1))
      (hdepth : l ≤ fs'.depth)
      (hdepth' : fs'.depth ≤ fs.depth ∨
        fs'.depth = fs.depth + 1 ∧ (entered host fs false).isSome = true)
      (hdev : dev.isNull = false) (hcur : fs'.currentp = dev)
      (hrec : ∃ rec, fs'.deref host dev = some rec)

/-- A directory is entered one level down. -/
theorem entered_level {fs : Sdbfs w σ} {l k : Nat} (h : entered host fs false = some (l, k)) :
    l = fs.depth + 1 ∧ fs.depth + 1 < SDBFS_DEPTH := by
  obtain ⟨s, hstart, h⟩ := Option.bind_eq_some_iff.mp h
  obtain ⟨rec, _, heq⟩ := Option.map_eq_some_iff.mp
    (show (fs.deref host fs.currentp).map _ = some s from hstart)
  by_cases hb : IsBridge rec ∧ fs.depth + 1 < SDBFS_DEPTH
  · rw [if_pos hb] at heq
    subst heq
    obtain ⟨r, _, h⟩ := Option.bind_eq_some_iff.mp (show (scanNewdir host _ _).bind _ = _ from h)
    obtain ⟨dev, _, h⟩ := Option.bind_eq_some_iff.mp h
    split at h
    · cases h
      exact ⟨rfl, hb.2⟩
    · cases h
  · rw [if_neg hb] at heq
    subst heq
    cases h

/-- The counters up to the depth stay when a directory is tried. -/
theorem nleftEntered_of_le {fs : Sdbfs w σ} {i : Nat} (hi : i ≤ fs.depth) :
    nleftEntered host fs false i = fs.nleft i := by
  rw [nleftEntered]
  cases h : entered host fs false with
  | none => rfl
  | some e =>
      have hne : i ≠ e.1 := by
        rw [(entered_level h).1]
        omega
      exact Function.update_of_ne hne _ _

/-- The part of a call that goes on in the levels it is in. -/
theorem scanNext_nextCall {fs g fs' : Sdbfs w σ} {dev : RecordPtr w} (hdevice : SameDevice fs g)
    (hnleft : g.nleft = nleftEntered host fs false)
    (hdepth : g.depth = fs.depth ∨ g.depth = fs.depth + 1 ∧ (entered host fs false).isSome = true)
    (hyield : yieldLevel host fs false = nextLevel g.nleft fs.depth)
    (h : scanNext host g fs.depth = some (fs', dev)) : NextCall host fs fs' dev := by
  have hsame : ∀ i, i ≤ fs.depth → g.nleft i = fs.nleft i := by
    intro i hi
    rw [hnleft]
    exact nleftEntered_of_le hi
  rcases scanNext_cases h with ⟨_, hnull, hlevel, hzero⟩ | ⟨l, hl, hlevel, hne, hread, hd⟩
  · exact NextCall.ended hnull
      (Or.inl ⟨(hsame 0 (Nat.zero_le _)).symm.trans hzero, hyield.trans hlevel⟩)
  · by_cases hdev : dev.isNull = true
    · exact NextCall.ended hdev (Or.inr (hread.current ▸ hdev))
    · rw [hsame l hl] at hne
      have hnl := hread.nleft
      rw [hsame l hl, hnleft] at hnl
      refine NextCall.entry l (hdevice.trans hread.same) hl (hyield.trans hlevel) hne hnl ?_ ?_
        (Bool.eq_false_iff.mpr hdev) hread.current hread.readable
      · rcases hd with ⟨rfl, hd⟩ | hd
        · rcases hdepth with hg | ⟨hg, _⟩ <;> omega
        · omega
      · rcases hd with ⟨rfl, hd⟩ | hd
        · rcases hdepth with hg | ⟨hg, hsome⟩
          · exact Or.inl (by omega)
          · exact Or.inr ⟨hd.trans hg, hsome⟩
        · exact Or.inl (by omega)

/-- **What `sdbfs_scan(fs, 0)` does.** -/
theorem sdbfsScan_next_cases {fs fs' : Sdbfs w σ} {dev : RecordPtr w}
    (h : sdbfsScan host fs false = some (fs', dev)) : NextCall host fs fs' dev := by
  obtain ⟨s, hstart, h⟩ := Option.bind_eq_some_iff.mp h
  have hent : entered host fs false = _ := congrArg (Option.bind · _) hstart
  have hyl : yieldLevel host fs false = _ := congrArg (Option.bind · _) hstart
  obtain ⟨rec₀, _, heq⟩ := Option.map_eq_some_iff.mp
    (show (fs.deref host fs.currentp).map _ = some s from hstart)
  by_cases hb : IsBridge rec₀ ∧ fs.depth + 1 < SDBFS_DEPTH
  · rw [if_pos hb] at heq
    subst heq
    obtain ⟨⟨g, p⟩, hnew, h⟩ := Option.bind_eq_some_iff.mp
      (show (scanNewdir host _ (fs.depth + 1)).bind _ = some (fs', dev) from h)
    have hent : entered host fs false = (g.deref host g.currentp).bind fun dev =>
        if IsTable dev then some (fs.depth + 1, (sdbRecords dev).toNat) else none :=
      hent.trans (congrArg (Option.bind · _) hnew)
    have hyl : yieldLevel host fs false =
        if p.isNull then nextLevel g.nleft fs.depth else some (fs.depth + 1) :=
      hyl.trans (congrArg (Option.bind · _) hnew)
    simp only at h
    rcases scanNewdir_cases hnew with ⟨rec, hs, hrec, ht, hnleft, hdepth, hdev⟩ |
      ⟨rec, hs, hrec, ht, hnleft, hdepth, hdev⟩
    · rw [hrec, Option.bind_some, if_pos ht] at hent
      have hleft : g.nleft = nleftEntered host fs false := by
        rw [nleftEntered, hent]
        exact hnleft
      by_cases hp : p.isNull = true
      · -- the table is at address 0, and taken for none
        rw [if_pos hp, if_neg (Nat.succ_ne_zero _), Nat.add_sub_cancel] at h
        rw [if_pos hp] at hyl
        exact scanNext_nextCall hs hleft (Or.inr ⟨hdepth, by rw [hent]; rfl⟩) hyl h
      · rw [if_neg hp] at h hyl
        obtain ⟨hs', rfl, hn, hd, hc, hderef⟩ := scanOut_cases h
        refine NextCall.enters rec (SameDevice.trans hs hs') hb.2 ht ?_ hent hyl (hn.trans hleft)
          (hd.trans hdepth)
          (Bool.eq_false_iff.mpr hp) (hc.trans hdev.symm)
        rw [hderef, hc]
        exact hrec
    · rw [hrec, Option.bind_some, if_neg ht] at hent
      have hleft : g.nleft = nleftEntered host fs false := by
        rw [nleftEntered, hent]
        exact hnleft
      rw [if_pos hdev, if_neg (Nat.succ_ne_zero _), Nat.add_sub_cancel] at h
      rw [if_pos hdev] at hyl
      exact scanNext_nextCall hs hleft (Or.inl hdepth) hyl h
  · rw [if_neg hb] at heq
    subst heq
    have hleft : fs.nleft = nleftEntered host fs false := by
      rw [nleftEntered, hent]
      rfl
    exact scanNext_nextCall (SameDevice.refl fs) hleft (Or.inl rfl) hyl h

/-- Behind an interconnect no directory is entered. -/
theorem entered_of_isTable {fs : Sdbfs w σ} {rec : Record}
    (hrec : fs.deref host fs.currentp = some rec) (ht : IsTable rec) :
    entered host fs false = none := by
  rw [entered, scanStart_stay hrec fun hb => ht.not_isBridge hb.1]
  rfl

theorem nextLevel_of_ne {nleft : Nat → Int} : ∀ {d : Nat}, nleft d ≠ 0 →
    nextLevel nleft d = some d
  | 0, h => if_neg h
  | _ + 1, h => if_neg h

/-- Behind an interconnect with entries left, one of them is returned. -/
theorem yieldLevel_of_isTable {fs : Sdbfs w σ} {rec : Record}
    (hrec : fs.deref host fs.currentp = some rec) (ht : IsTable rec)
    (hleft : fs.nleft fs.depth ≠ 0) : yieldLevel host fs false = some fs.depth := by
  rw [yieldLevel, scanStart_stay hrec fun hb => ht.not_isBridge hb.1]
  exact nextLevel_of_ne hleft

/-! ## When a call is defined -/

/-- The device has storage: it is mapped, or it has a `read` method. -/
def Accessible (fs : Sdbfs w σ) : Prop := fs.isMapped = true ∨ fs.read.isSome = true

instance (fs : Sdbfs w σ) : Decidable (Accessible fs) := inferInstanceAs (Decidable (_ ∨ _))

theorem Accessible.same {fs fs' : Sdbfs w σ} (ha : Accessible fs) (h : SameDevice fs fs') :
    Accessible fs' := by
  rw [Accessible, h.isMapped, h.2.2]
  exact ha

/-- A record of an accessible device can be read. -/
theorem Accessible.readable (host : Host w) {fs : Sdbfs w σ} (ha : Accessible fs) (pos : BitVec w) :
    ∃ rec, (sdbfsReadentry host fs pos).1.deref host (sdbfsReadentry host fs pos).2 = some rec := by
  by_cases hm : fs.isMapped = true
  · cases hp : (sdbfsReadentry host fs pos).2 with
    | currentRecord => exact ⟨_, rfl⟩
    | mapped addr =>
        refine ⟨host.recordAt addr, ?_⟩
        rw [Sdbfs.deref, (sdbfsReadentry_same host fs pos).isMapped]
        exact if_pos hm
  · obtain ⟨read, hread⟩ := Option.isSome_iff_exists.mp (ha.resolve_left hm)
    rw [sdbfsReadentry, if_neg hm, hread]
    exact ⟨_, rfl⟩

/-- Returning a record is defined, and so are reading the next one, in whichever table it is,
    and trying a directory. -/
theorem scanOut_defined {fs : Sdbfs w σ} {rec : Record}
    (h : fs.deref host fs.currentp = some rec) (dev : RecordPtr w) :
    ∃ r, scanOut host fs dev = some r := by
  rw [scanOut, h]
  exact ⟨_, rfl⟩

theorem scanEntry_defined {fs : Sdbfs w σ} {d : Nat} (ha : Accessible fs)
    (hd : 0 ≤ fs.nleft d) : ∃ r, scanEntry host fs d = some r := by
  obtain ⟨rec, hrec⟩ := ha.readable host (fs.thisPos d)
  obtain ⟨drv, c, hframe⟩ := sdbfsReadentry_frame host fs (fs.thisPos d)
  rw [hframe] at hrec
  have hmin : fs.nleft d ≠ INT_MIN := by
    intro h
    rw [h] at hd
    exact absurd hd (by decide)
  rw [scanEntry, hframe]
  simp only
  rw [if_neg hmin]
  exact scanOut_defined ((deref_congr ⟨rfl, rfl, rfl⟩ rfl _).trans hrec) _

theorem scanNext_defined : ∀ {d : Nat} {fs : Sdbfs w σ}, Accessible fs →
    (∀ i, i ≤ d → 0 ≤ fs.nleft i) → ∃ r, scanNext host fs d = some r := by
  intro d
  induction d with
  | zero =>
      intro fs ha hd
      rw [scanNext]
      split
      · exact ⟨_, rfl⟩
      · exact scanEntry_defined ha (hd 0 (Nat.le_refl 0))
  | succ d ih =>
      intro fs ha hd
      rw [scanNext]
      split
      · exact ih ha fun i hi => hd i (Nat.le_succ_of_le hi)
      · exact scanEntry_defined ha (hd (d + 1) (Nat.le_refl _))

theorem scanNewdir_defined {fs : Sdbfs w σ} (ha : Accessible fs) (d : Nat) :
    ∃ r, scanNewdir host fs d = some r := by
  obtain ⟨rec, hrec⟩ := ha.readable host (fs.thisPos d)
  have hrec' := (deref_congr ⟨rfl, rfl, rfl⟩ rfl (sdbfsReadentry host fs (fs.thisPos d)).2).trans hrec
  exact ⟨_, (congrArg (Option.map _) hrec')⟩

/-- A new scan is defined. -/
theorem sdbfsScan_new_defined {fs : Sdbfs w σ} (ha : Accessible fs) :
    ∃ r, sdbfsScan host fs true = some r := by
  have har : Accessible (restart fs) := ha.same ⟨rfl, rfl, rfl⟩
  obtain ⟨⟨g, p⟩, hnew⟩ := scanNewdir_defined har 0
  rw [sdbfsScan_enter (scanStart_new host fs) hnew]
  split
  · exact ⟨_, rfl⟩
  · cases scanNewdir_cases hnew with
    | table rec _ hrec => exact scanOut_defined hrec p
    | noTable rec _ hrec => exact scanOut_defined hrec p

/-- The state of a scan between two calls, as far as its own safety goes. -/
structure Sound (host : Host w) (fs : Sdbfs w σ) : Prop where
  accessible : Accessible fs
  readable : ∃ rec, fs.deref host fs.currentp = some rec
  depth : fs.depth < SDBFS_DEPTH
  nleft : ∀ i, i ≤ fs.depth → 0 ≤ fs.nleft i

/-- So is every call behind it. -/
theorem sdbfsScan_next_defined {fs : Sdbfs w σ} (h : Sound host fs) :
    ∃ r, sdbfsScan host fs false = some r := by
  obtain ⟨rec, hrec⟩ := h.readable
  by_cases hb : IsBridge rec ∧ fs.depth + 1 < SDBFS_DEPTH
  · have had : Accessible (descend fs rec) := h.accessible.same ⟨rfl, rfl, rfl⟩
    obtain ⟨⟨g, p⟩, hnew⟩ := scanNewdir_defined had (fs.depth + 1)
    rw [sdbfsScan_enter (scanStart_descend hrec hb.1 hb.2) hnew, if_neg (Nat.succ_ne_zero _),
      Nat.add_sub_cancel]
    -- whatever was entered, the levels it came from are as they were
    cases scanNewdir_cases hnew with
    | table dev hsame hdev ht hnleft =>
        split
        · refine scanNext_defined (had.same hsame) fun i hi => ?_
          have hne : i ≠ fs.depth + 1 := by omega
          rw [hnleft, Function.update_of_ne hne]
          exact h.nleft i hi
        · exact scanOut_defined hdev p
    | noTable dev hsame hdev ht hnleft hdepth hnull =>
        rw [if_pos hnull]
        refine scanNext_defined (had.same hsame) fun i hi => ?_
        rw [hnleft]
        exact h.nleft i hi
  · rw [sdbfsScan_stay (scanStart_stay hrec hb)]
    exact scanNext_defined h.accessible h.nleft

end SdbfsCalls
