import FpgaConfigSpace.SdbfsTree

/-! # A scan is the preorder traversal

    `OnPath fs path` says that the arrays of a scanner hold the levels of a path of
    bridges, and `pending` reads back what is still to come.  `sdbfsScan_arrives`:
    one call returns the head of `pending` and leaves its tail; `sdbfsScan_ends`:
    with nothing pending it returns `NULL`.  The run follows by induction on the
    list. -/

namespace SdbfsRuns

open BigEndian SdbRecord SdbfsDevice SdbfsScan SdbfsOpen SdbfsTree

variable {w : Nat} {σ : Type} {host : Host w} {content : BitVec w → Record}

/-! ## Reading the arrays back -/

/-- The scanner is inside the directories of `path`, innermost first. -/
structure OnPath (fs : Sdbfs w σ) (path : List Record) : Prop where
  depth : fs.depth = path.length
  base : ∀ p, p <:+ path → fs.base p.length = baseOf p
  nleft : ∀ i, i ≤ path.length → 0 ≤ fs.nleft i

/-- The entries left in the innermost directory. -/
def levelEntries (content : BitVec w → Record) (fs : Sdbfs w σ) (path : List Record) :
    List (Entry w) :=
  entries content (below content (room path)) path (fs.thisPos path.length)
    (fs.nleft path.length).toNat

/-- The entries left in the directories around it. -/
def outer (content : BitVec w → Record) (fs : Sdbfs w σ) : List Record → List (Entry w)
  | [] => []
  | _ :: path => levelEntries content fs path ++ outer content fs path

/-- What is still to come after `rec` was returned. -/
def pending (content : BitVec w → Record) (fs : Sdbfs w σ) (path : List Record)
    (rec : Record) : List (Entry w) :=
  below content (room path) path rec ++ (levelEntries content fs path ++ outer content fs path)

/-- The two states hold the same levels up to `n`. -/
def SameLevels (fs fs' : Sdbfs w σ) (n : Nat) : Prop :=
  ∀ i, i ≤ n → fs'.base i = fs.base i ∧ fs'.thisPos i = fs.thisPos i ∧ fs'.nleft i = fs.nleft i

theorem SameLevels.mono {fs fs' : Sdbfs w σ} {m n : Nat} (h : SameLevels fs fs' n)
    (hmn : m ≤ n) : SameLevels fs fs' m := fun i hi => h i (Nat.le_trans hi hmn)

/-- What a level has left depends on its counters only, and so does what the levels above
    have. -/
theorem levelEntries_congr {fs fs' : Sdbfs w σ} {path : List Record}
    (h : SameLevels fs fs' path.length) :
    levelEntries content fs' path = levelEntries content fs path := by
  obtain ⟨_, hpos, hleft⟩ := h path.length (Nat.le_refl _)
  rw [levelEntries, levelEntries, hpos, hleft]

theorem outer_congr {fs fs' : Sdbfs w σ} : ∀ {path : List Record},
    (∀ i, i < path.length → SameLevels fs fs' i) →
    outer content fs' path = outer content fs path := by
  intro path
  induction path with
  | nil => intro _; rfl
  | cons bridge path ih =>
      intro h
      have hlen : (bridge :: path).length = path.length + 1 := List.length_cons
      rw [outer, outer, levelEntries_congr (h path.length (by omega)),
        ih fun i hi => h i (by omega)]

theorem levels_congr {fs fs' : Sdbfs w σ} {path : List Record}
    (h : SameLevels fs fs' path.length) :
    levelEntries content fs' path ++ outer content fs' path =
      levelEntries content fs path ++ outer content fs path := by
  rw [levelEntries_congr h, outer_congr fun i hi => h.mono (Nat.le_of_lt hi)]

theorem levels_depth (fs : Sdbfs w σ) (d : Nat) (path : List Record) :
    levelEntries content { fs with depth := d } path ++ outer content { fs with depth := d } path =
      levelEntries content fs path ++ outer content fs path :=
  levels_congr fun _ _ => ⟨rfl, rfl, rfl⟩

/-- So does the path. -/
theorem OnPath.congr {fs fs' : Sdbfs w σ} {path : List Record} (h : OnPath fs path)
    (hdepth : fs'.depth = path.length) (hlevels : SameLevels fs fs' path.length) :
    OnPath fs' path := by
  refine ⟨hdepth, ?_, ?_⟩
  · intro p hp
    rw [(hlevels p.length hp.length_le).1]
    exact h.base p hp
  · intro i hi
    rw [(hlevels i hi).2.2]
    exact h.nleft i hi

/-- Leaving the innermost directory. -/
theorem OnPath.tail {fs : Sdbfs w σ} {bridge : Record} {path : List Record}
    (h : OnPath fs (bridge :: path)) : OnPath { fs with depth := path.length } path := by
  refine ⟨rfl, ?_, ?_⟩
  · intro p hp
    exact h.base p (hp.trans (List.suffix_cons bridge path))
  · intro i hi
    exact h.nleft i (Nat.le_trans hi (Nat.le_succ _))

/-- A call from `fs` returned the record of `e` by the pointer `dev`, and `rest`
    is still to come. -/
structure Arrived (host : Host w) (content : BitVec w → Record) (fs fs' : Sdbfs w σ)
    (dev : RecordPtr w) (e : Entry w) (rest : List (Entry w)) : Prop where
  same : SameDevice fs fs'
  onPath : OnPath fs' e.path
  current : fs'.currentp = dev
  record : fs'.deref host dev = some e.record
  ptr : dev = recordPtr fs e.pos
  nonnull : dev.isNull = false
  offset : fs'.fOffset = e.fOffset
  pending : pending content fs' e.path e.record = rest

/-! ## The next entry of a level -/

/-- A level with entries left yields the next of them. -/
theorem scanEntry_arrives {fs : Sdbfs w σ} {path : List Record} {n : Nat}
    (hd : Delivers host fs content) (hp : OnPath fs path)
    (hn : fs.nleft path.length = n + 1) (hnull : ¬ NullAt fs (fs.thisPos path.length)) :
    ∃ fs' dev, scanEntry host fs path.length = some (fs', dev) ∧
      Arrived host content fs fs' dev
        ⟨fs.thisPos path.length, path, content (fs.thisPos path.length), false⟩
        (below content (room path) path (content (fs.thisPos path.length)) ++
          (entries content (below content (room path)) path (fs.thisPos path.length + 64) n ++
            outer content fs path)) := by
  obtain ⟨d, c, hframe⟩ := sdbfsReadentry_frame host fs (fs.thisPos path.length)
  have hderef := sdbfsReadentry_delivers hd (fs.thisPos path.length)
  have hr := sdbfsReadentry_ptr hd (fs.thisPos path.length)
  rw [hframe, hr] at hderef
  have hnonnull := Bool.eq_false_iff.mpr (mt (recordPtr_isNull fs _).mp hnull)
  generalize hptr : recordPtr fs (fs.thisPos path.length) = dev at hr hderef hnonnull
  -- the state after the call, field by field
  let fs' : Sdbfs w σ := { fs with
    drvdata := d
    currentRecord := c
    currentp := dev
    thisPos := Function.update fs.thisPos path.length (fs.thisPos path.length + 64)
    nleft := Function.update fs.nleft path.length (fs.nleft path.length - 1)
    fOffset := fs.base fs.depth + (addrFirst (content (fs.thisPos path.length))).setWidth w }
  have hsame : SameDevice fs fs' := ⟨rfl, rfl, rfl⟩
  have hbelow : ∀ i, i < path.length → SameLevels fs fs' i := by
    intro i hi j hj
    have hne : j ≠ path.length := by omega
    exact ⟨rfl, Function.update_of_ne hne _ _, Function.update_of_ne hne _ _⟩
  have hleft : fs'.nleft path.length = n := by
    show Function.update fs.nleft path.length (fs.nleft path.length - 1) path.length = n
    rw [Function.update_self, hn]
    omega
  refine ⟨fs', dev, ?_, hsame, ⟨hp.depth, hp.base, ?_⟩, rfl, ?_, hptr.symm, hnonnull, ?_, ?_⟩
  · have hmin : fs.nleft path.length ≠ INT_MIN := by
      rw [hn]
      show (n : Int) + 1 ≠ -0x80000000
      omega
    rw [scanEntry, hr, hframe]
    show (if fs.nleft path.length = INT_MIN then none else _) = _
    rw [if_neg hmin]
    exact scanOut_eq ((deref_congr ⟨rfl, rfl, rfl⟩ rfl dev).trans hderef) dev
  · intro i hi
    by_cases h : i = path.length
    · rw [h, hleft]
      exact Int.natCast_nonneg n
    · have hi' : fs'.nleft i = fs.nleft i := Function.update_of_ne h ..
      rw [hi']
      exact hp.nleft i hi
  · exact (deref_congr ⟨rfl, rfl, rfl⟩ rfl dev).trans hderef
  · show fs.base fs.depth + _ = baseOf path + _
    rw [hp.depth, hp.base path (List.suffix_refl path)]
  · have hpos : fs'.thisPos path.length = fs.thisPos path.length + 64 := Function.update_self ..
    rw [pending, levelEntries, hleft, hpos, outer_congr hbelow]
    rfl

/-- A level that is not used up gives the next record. -/
theorem scanNext_of_ne {fs : Sdbfs w σ} : ∀ {d : Nat}, fs.nleft d ≠ 0 →
    scanNext host fs d = scanEntry host fs d
  | 0, h => if_neg h
  | _ + 1, h => if_neg h

/-- A level that is used up has none left. -/
theorem levelEntries_zero {fs : Sdbfs w σ} {path : List Record}
    (h : fs.nleft path.length = 0) : levelEntries content fs path = [] := by
  rw [levelEntries, h]
  rfl

/-- A level that is not has the next one, and what is below it. -/
theorem levelEntries_succ {fs : Sdbfs w σ} {path : List Record} {n : Nat}
    (h : fs.nleft path.length = (n + 1 : Nat)) :
    levelEntries content fs path =
      ⟨fs.thisPos path.length, path, content (fs.thisPos path.length), false⟩ ::
        (below content (room path) path (content (fs.thisPos path.length)) ++
          entries content (below content (room path)) path (fs.thisPos path.length + 64) n) := by
  rw [levelEntries, h]
  rfl

/-- The innermost level has entries left. -/
theorem scanNext_arrives_here {fs : Sdbfs w σ} {path : List Record} {n : Nat} {e : Entry w}
    {rest : List (Entry w)} (hd : Delivers host fs content) (hp : OnPath fs path)
    (hn : fs.nleft path.length = (n + 1 : Nat))
    (hl : levelEntries content fs path ++ outer content fs path = e :: rest)
    (hnull : ¬ NullAt fs e.pos) :
    ∃ fs' dev, scanNext host fs path.length = some (fs', dev) ∧
      Arrived host content fs fs' dev e rest := by
  have hne : fs.nleft path.length ≠ 0 := by omega
  rw [levelEntries_succ hn, List.cons_append, List.append_assoc] at hl
  obtain ⟨he, hrest⟩ := List.cons.inj hl
  subst he hrest
  rw [scanNext_of_ne hne]
  exact scanEntry_arrives hd hp hn hnull

/-- With entries left on some level, the innermost of them comes next. -/
theorem scanNext_arrives {path : List Record} : ∀ (fs : Sdbfs w σ) {e rest},
    Delivers host fs content → OnPath fs path →
    levelEntries content fs path ++ outer content fs path = e :: rest → ¬ NullAt fs e.pos →
    ∃ fs' dev, scanNext host fs path.length = some (fs', dev) ∧
      Arrived host content fs fs' dev e rest := by
  induction path with
  | nil =>
      intro fs e rest hd hp hl hnull
      obtain ⟨n, hn⟩ := Int.eq_ofNat_of_zero_le (hp.nleft ([] : List Record).length (Nat.le_refl _))
      cases n with
      | zero =>
          rw [levelEntries_zero hn] at hl
          cases hl
      | succ n => exact scanNext_arrives_here hd hp hn hl hnull
  | cons bridge path ih =>
      intro fs e rest hd hp hl hnull
      obtain ⟨n, hn⟩ := Int.eq_ofNat_of_zero_le (hp.nleft _ (Nat.le_refl _))
      cases n with
      | zero =>
          -- the level is exhausted: what is left of the path yields the record
          rw [levelEntries_zero hn, List.nil_append, outer] at hl
          obtain ⟨fs', dev, hscan, harr⟩ := ih { fs with depth := path.length }
            (hd.same ⟨rfl, rfl, rfl⟩) hp.tail
            ((levels_depth fs path.length path).trans hl) hnull
          refine ⟨fs', dev, (if_pos hn).trans hscan, ?_⟩
          exact { harr with same := SameDevice.trans ⟨rfl, rfl, rfl⟩ harr.same }
      | succ n => exact scanNext_arrives_here hd hp hn hl hnull

/-- With no entries left on any level the scan ends. -/
theorem scanNext_ends {path : List Record} : ∀ (fs : Sdbfs w σ), OnPath fs path →
    levelEntries content fs path ++ outer content fs path = [] →
    ∃ fs', scanNext host fs path.length = some (fs', RecordPtr.NULL w) := by
  induction path with
  | nil =>
      intro fs hp hl
      obtain ⟨n, hn⟩ := Int.eq_ofNat_of_zero_le (hp.nleft ([] : List Record).length (Nat.le_refl _))
      cases n with
      | zero => exact ⟨fs, if_pos hn⟩
      | succ n =>
          rw [levelEntries_succ hn] at hl
          cases hl
  | cons bridge path ih =>
      intro fs hp hl
      obtain ⟨n, hn⟩ := Int.eq_ofNat_of_zero_le (hp.nleft _ (Nat.le_refl _))
      cases n with
      | zero =>
          rw [levelEntries_zero hn, List.nil_append, outer] at hl
          obtain ⟨fs', hscan⟩ := ih { fs with depth := path.length } hp.tail
            ((levels_depth fs path.length path).trans hl)
          exact ⟨fs', (if_pos hn).trans hscan⟩
      | succ n =>
          rw [levelEntries_succ hn] at hl
          cases hl

/-! ## Entering a directory -/

/-- `scan_newdir` reads the record at `this[depth]`; it enters the directory if
    that is the head of a table, and otherwise only `currentp` has changed. -/
theorem scanNewdir_eq {fs : Sdbfs w σ} (hd : Delivers host fs content) {d : Nat} {pos : BitVec w}
    (hpos : fs.thisPos d = pos) :
    ∃ drv rec, ({ fs with drvdata := drv, currentRecord := rec } : Sdbfs w σ).deref host
        (recordPtr fs pos) = some (content pos) ∧
      scanNewdir host fs d = some (
        if IsTable (content pos) then
          ({ fs with
              drvdata := drv
              currentRecord := rec
              currentp := recordPtr fs pos
              nleft := Function.update fs.nleft d ((sdbRecords (content pos)).toNat - 1)
              thisPos := Function.update fs.thisPos d (pos + 64)
              depth := d }, recordPtr fs pos)
        else
          ({ fs with drvdata := drv, currentRecord := rec, currentp := recordPtr fs pos },
            RecordPtr.NULL w)) := by
  subst hpos
  obtain ⟨drv, rec, hframe⟩ := sdbfsReadentry_frame host fs (fs.thisPos d)
  have hderef := sdbfsReadentry_delivers hd (fs.thisPos d)
  have hr := sdbfsReadentry_ptr hd (fs.thisPos d)
  rw [hframe, hr] at hderef
  refine ⟨drv, rec, hderef, ?_⟩
  rw [scanNewdir, hframe, hr]
  have hderef' := (deref_congr ⟨rfl, rfl, rfl⟩ rfl (recordPtr fs (fs.thisPos d))).trans hderef
  exact congrArg (Option.map _) hderef'

/-- Below a record that is no bridge there is nothing. -/
theorem below_of_not_isBridge {rec : Record} (h : ¬ IsBridge rec) (n : Nat)
    (path : List Record) : below content n path rec = [] := by
  cases n with
  | zero => rfl
  | succ n => exact if_neg h

/-- A table that is there is entered, and its interconnect is returned. -/
theorem scanNewdir_arrives {fs : Sdbfs w σ} (path : List Record) {pos : BitVec w}
    (hd : Delivers host fs content) (hbase : ∀ p, p <:+ path → fs.base p.length = baseOf p)
    (hleft : ∀ i, i < path.length → 0 ≤ fs.nleft i) (hpos : fs.thisPos path.length = pos)
    (ht : IsTable (content pos)) (hnull : ¬ NullAt fs pos)
    (hdecl : 1 ≤ (sdbRecords (content pos)).toNat) :
    ∃ fs₁ fs' dev, scanNewdir host fs path.length = some (fs₁, dev) ∧
      scanOut host fs₁ dev = some (fs', dev) ∧
      Arrived host content fs fs' dev ⟨pos, path, content pos, true⟩
        (entries content (below content (room path)) path (pos + 64)
            ((sdbRecords (content pos)).toNat - 1) ++ outer content fs path) := by
  obtain ⟨drv, rec, hderef, hnew⟩ := scanNewdir_eq hd hpos
  rw [if_pos ht] at hnew
  have hnonnull := Bool.eq_false_iff.mpr (mt (recordPtr_isNull fs _).mp hnull)
  generalize hptr : recordPtr fs pos = dev at hderef hnew hnonnull
  let fs₁ : Sdbfs w σ := { fs with
    drvdata := drv
    currentRecord := rec
    currentp := dev
    nleft := Function.update fs.nleft path.length ((sdbRecords (content pos)).toNat - 1)
    thisPos := Function.update fs.thisPos path.length (pos + 64)
    depth := path.length }
  let fs' : Sdbfs w σ :=
    { fs₁ with fOffset := fs.base path.length + (addrFirst (content pos)).setWidth w }
  have hout : scanOut host fs₁ dev = some (fs', dev) :=
    scanOut_eq ((deref_congr ⟨rfl, rfl, rfl⟩ rfl dev).trans hderef) dev
  have hlevels : ∀ i, i < path.length → SameLevels fs fs' i := by
    intro i hi j hj
    have hne : j ≠ path.length := by omega
    exact ⟨rfl, Function.update_of_ne hne _ _, Function.update_of_ne hne _ _⟩
  have hhere : fs'.nleft path.length = (sdbRecords (content pos)).toNat - 1 :=
    Function.update_self ..
  refine ⟨fs₁, fs', dev, hnew, hout, ⟨rfl, rfl, rfl⟩, ⟨rfl, hbase, ?_⟩, rfl, ?_,
    hptr.symm, hnonnull, ?_, ?_⟩
  · intro i (hi : i ≤ path.length)
    by_cases h : i = path.length
    · rw [h, hhere]
      omega
    · rw [(hlevels i (by omega) i (Nat.le_refl i)).2.2]
      exact hleft i (by omega)
  · exact (deref_congr ⟨rfl, rfl, rfl⟩ rfl dev).trans hderef
  · show fs.base path.length + _ = baseOf path + _
    rw [hbase path (List.suffix_refl path)]
  · have hthis : fs'.thisPos path.length = pos + 64 := Function.update_self ..
    have hcount : ((sdbRecords (content pos)).toNat - 1 : Int).toNat
        = (sdbRecords (content pos)).toNat - 1 := by omega
    rw [pending, below_of_not_isBridge ht.not_isBridge, levelEntries, hhere, hthis, hcount,
      outer_congr hlevels]
    rfl

/-! ## One call -/

/-- Going down leaves the levels above alone. -/
theorem descend_sameLevels (fs : Sdbfs w σ) (rec : Record) :
    SameLevels fs (descend fs rec) fs.depth := by
  intro i hi
  have hne : i ≠ fs.depth + 1 := by omega
  exact ⟨Function.update_of_ne hne _ _, Function.update_of_ne hne _ _, rfl⟩

/-- The child table of the bridge last returned comes next, its interconnect first. -/
theorem sdbfsScan_enters {fs : Sdbfs w σ} {path : List Record} {rec : Record}
    (hd : Delivers host fs content) (hp : OnPath fs path)
    (hcur : fs.deref host fs.currentp = some rec) (hb : IsBridge rec)
    (hdepth : path.length + 1 < SDBFS_DEPTH) (ht : IsTable (content (childPos path rec)))
    (hnull : ¬ NullAt fs (childPos path rec))
    (hdecl : 1 ≤ (sdbRecords (content (childPos path rec))).toNat) :
    ∃ fs' dev, sdbfsScan host fs false = some (fs', dev) ∧
      Arrived host content fs fs' dev
        ⟨childPos path rec, rec :: path, content (childPos path rec), true⟩
        (entries content (below content (room (rec :: path))) (rec :: path)
            (childPos path rec + 64) ((sdbRecords (content (childPos path rec))).toNat - 1) ++
          (levelEntries content fs path ++ outer content fs path)) := by
  have hsame : SameLevels fs (descend fs rec) path.length := hp.depth ▸ descend_sameLevels fs rec
  have hbase : ∀ p, p <:+ rec :: path → (descend fs rec).base p.length = baseOf p := by
    intro p hsuf
    rcases List.suffix_cons_iff.mp hsuf with rfl | hsuf
    · show Function.update fs.base (fs.depth + 1) _ (path.length + 1) = _
      rw [hp.depth, Function.update_self, hp.base path (List.suffix_refl path)]
      rfl
    · rw [(hsame p.length hsuf.length_le).1]
      exact hp.base p hsuf
  have hpos : (descend fs rec).thisPos (rec :: path).length = childPos path rec := by
    show Function.update fs.thisPos (fs.depth + 1) _ (path.length + 1) = _
    rw [hp.depth, Function.update_self, hp.base path (List.suffix_refl path)]
    rfl
  have hd' : Delivers host (descend fs rec) content := hd.same ⟨rfl, rfl, rfl⟩
  obtain ⟨fs₁, fs', dev, hnew, hout, harr⟩ := scanNewdir_arrives (rec :: path) hd' hbase
    (fun i hi => hp.nleft i (Nat.le_of_lt_succ hi)) hpos ht hnull hdecl
  refine ⟨fs', dev, ?_, ?_⟩
  · have hstart := scanStart_descend hcur hb (hp.depth ▸ hdepth)
    rw [hp.depth] at hstart
    rw [sdbfsScan_enter hstart hnew, if_neg (Bool.eq_false_iff.mp harr.nonnull), hout]
  · have houter : outer content (descend fs rec) (rec :: path) =
        levelEntries content fs path ++ outer content fs path := levels_congr hsame
    rw [← houter]
    exact { harr with same := harr.same }

/-- Below a bridge there is a table, unless it is too deep. -/
theorem below_enter {path : List Record} {rec : Record} (hb : IsBridge rec)
    (hdepth : path.length + 1 < SDBFS_DEPTH) :
    below content (room path) path rec =
      table content (below content (room (rec :: path))) (rec :: path) (childPos path rec) := by
  have hroom : room path = room (rec :: path) + 1 := by
    rw [room, room, List.length_cons]
    omega
  rw [hroom]
  exact if_pos hb

theorem below_stay {path : List Record} {rec : Record}
    (h : ¬ (IsBridge rec ∧ path.length + 1 < SDBFS_DEPTH)) :
    below content (room path) path rec = [] := by
  by_cases hb : IsBridge rec
  · have hroom : room path = 0 := by
      have hdepth : ¬ path.length + 1 < SDBFS_DEPTH := fun hd => h ⟨hb, hd⟩
      rw [room]
      omega
    rw [hroom]
    rfl
  · exact below_of_not_isBridge hb _ _

/-- With nothing below the record last returned, the call goes on in the levels it
    is in, also after a failed attempt to enter a directory. -/
theorem sdbfsScan_stays {fs : Sdbfs w σ} {path : List Record} {rec : Record}
    (hd : Delivers host fs content) (hp : OnPath fs path)
    (hcur : fs.deref host fs.currentp = some rec)
    (hbelow : below content (room path) path rec = []) :
    ∃ fs₁, sdbfsScan host fs false = scanNext host fs₁ path.length ∧ SameDevice fs fs₁ ∧
      OnPath fs₁ path ∧ SameLevels fs fs₁ path.length := by
  by_cases h : IsBridge rec ∧ path.length + 1 < SDBFS_DEPTH
  · obtain ⟨hb, hdepth⟩ := h
    have hnot : ¬ IsTable (content (childPos path rec)) := by
      intro ht
      rw [below_enter hb hdepth, table, if_pos ht] at hbelow
      cases hbelow
    have hpos : (descend fs rec).thisPos (path.length + 1) = childPos path rec := by
      show Function.update fs.thisPos (fs.depth + 1) _ (path.length + 1) = _
      rw [hp.depth, Function.update_self, hp.base path (List.suffix_refl path)]
      rfl
    have hd' : Delivers host (descend fs rec) content := hd.same ⟨rfl, rfl, rfl⟩
    obtain ⟨drv, buf, _, hnew⟩ := scanNewdir_eq hd' hpos
    rw [if_neg hnot] at hnew
    let fs₁ : Sdbfs w σ := { descend fs rec with
      drvdata := drv
      currentRecord := buf
      currentp := recordPtr (descend fs rec) (childPos path rec) }
    have hlevels : SameLevels fs fs₁ path.length := by
      rw [← hp.depth]
      exact descend_sameLevels fs rec
    refine ⟨fs₁, ?_, ⟨rfl, rfl, rfl⟩, hp.congr hp.depth hlevels, hlevels⟩
    have hstart := scanStart_descend hcur hb (hp.depth ▸ hdepth)
    rw [hp.depth] at hstart
    rw [sdbfsScan_enter hstart hnew, if_pos (RecordPtr.isNull_NULL w),
      if_neg (Nat.succ_ne_zero _), Nat.add_sub_cancel]
  · refine ⟨fs, ?_, SameDevice.refl fs, hp, fun _ _ => ⟨rfl, rfl, rfl⟩⟩
    rw [sdbfsScan_stay (scanStart_stay hcur (hp.depth ▸ h)), hp.depth]

/-- **One call takes the head of what is pending.** -/
theorem sdbfsScan_arrives {fs : Sdbfs w σ} {path : List Record} {rec : Record} {e : Entry w}
    {rest : List (Entry w)} (hd : Delivers host fs content) (hp : OnPath fs path)
    (hcur : fs.deref host fs.currentp = some rec)
    (hpend : pending content fs path rec = e :: rest) (hnull : ¬ NullAt fs e.pos)
    (hdecl : e.head = true → 1 ≤ (sdbRecords e.record).toNat) :
    ∃ fs' dev, sdbfsScan host fs false = some (fs', dev) ∧
      Arrived host content fs fs' dev e rest := by
  rw [pending] at hpend
  cases hbelow : below content (room path) path rec with
  | nil =>
      obtain ⟨fs₁, hscan, hsame, hp₁, hlevels⟩ := sdbfsScan_stays hd hp hcur hbelow
      rw [hbelow, List.nil_append, ← levels_congr hlevels] at hpend
      obtain ⟨fs', dev, hnext, harr⟩ := scanNext_arrives fs₁ (hd.same hsame) hp₁ hpend
        (fun h => hnull (hsame.nullAt h))
      exact ⟨fs', dev, hscan.trans hnext,
        { harr with same := hsame.trans harr.same, ptr := harr.ptr.trans (hsame.recordPtr _) }⟩
  | cons first more =>
      have h : IsBridge rec ∧ path.length + 1 < SDBFS_DEPTH := by
        by_contra h
        rw [below_stay h] at hbelow
        cases hbelow
      obtain ⟨hb, hdepth⟩ := h
      rw [below_enter hb hdepth, table] at hbelow
      by_cases ht : IsTable (content (childPos path rec))
      · rw [below_enter hb hdepth, table, if_pos ht, List.cons_append] at hpend
        obtain ⟨he, hrest⟩ := List.cons.inj hpend
        subst he hrest
        exact sdbfsScan_enters hd hp hcur hb hdepth ht hnull (hdecl rfl)
      · rw [if_neg ht] at hbelow
        cases hbelow

/-- With nothing pending, the scan has ended. -/
theorem sdbfsScan_ends {fs : Sdbfs w σ} {path : List Record} {rec : Record}
    (hd : Delivers host fs content) (hp : OnPath fs path)
    (hcur : fs.deref host fs.currentp = some rec) (hpend : pending content fs path rec = []) :
    ∃ fs', sdbfsScan host fs false = some (fs', RecordPtr.NULL w) := by
  obtain ⟨hbelow, hleft⟩ := List.append_eq_nil_iff.mp hpend
  obtain ⟨fs₁, hscan, _, hp₁, hlevels⟩ := sdbfsScan_stays hd hp hcur hbelow
  obtain ⟨fs', hnext⟩ := scanNext_ends fs₁ hp₁ ((levels_congr hlevels).trans hleft)
  exact ⟨fs', hscan.trans hnext⟩

/-- A new scan returns the head of the traversal. -/
theorem sdbfsScan_new_arrives {fs : Sdbfs w σ} {e : Entry w} {rest : List (Entry w)}
    (hd : Delivers host fs content) (hpre : preorder content fs.entrypoint = e :: rest)
    (hnull : ¬ NullAt fs e.pos) (hdecl : e.head = true → 1 ≤ (sdbRecords e.record).toNat) :
    ∃ fs' dev, sdbfsScan host fs true = some (fs', dev) ∧
      Arrived host content fs fs' dev e rest := by
  have hd' : Delivers host (restart fs) content := hd.same ⟨rfl, rfl, rfl⟩
  have hbase : ∀ p : List Record, p <:+ [] → (restart fs).base p.length = baseOf p := by
    intro p hp
    rw [List.suffix_nil.mp hp]
    exact restart_base fs
  by_cases ht : IsTable (content fs.entrypoint)
  · rw [preorder, table, if_pos ht] at hpre
    obtain ⟨he, hrest⟩ := List.cons.inj hpre
    subst he hrest
    obtain ⟨fs₁, fs', dev, hnew, hout, harr⟩ := scanNewdir_arrives [] hd' hbase
      (fun i hi => absurd hi (Nat.not_lt_zero i)) (restart_thisPos fs) ht hnull (hdecl rfl)
    refine ⟨fs', dev, ?_, ?_⟩
    · rw [sdbfsScan_enter (scanStart_new host fs) hnew,
        if_neg (Bool.eq_false_iff.mp harr.nonnull), hout]
    · rw [outer, List.append_nil] at harr
      exact { harr with same := harr.same }
  · rw [preorder, table, if_neg ht] at hpre
    cases hpre

/-- A new scan of a device without a table returns `NULL`. -/
theorem sdbfsScan_new_ends {fs : Sdbfs w σ} (hd : Delivers host fs content)
    (hpre : preorder content fs.entrypoint = []) :
    ∃ fs', sdbfsScan host fs true = some (fs', RecordPtr.NULL w) := by
  have hd' : Delivers host (restart fs) content := hd.same ⟨rfl, rfl, rfl⟩
  have hnot : ¬ IsTable (content fs.entrypoint) := by
    intro ht
    rw [preorder, table, if_pos ht] at hpre
    cases hpre
  obtain ⟨drv, buf, _, hnew⟩ := scanNewdir_eq hd' (restart_thisPos fs)
  rw [if_neg hnot] at hnew
  refine ⟨{ restart fs with
    drvdata := drv
    currentRecord := buf
    currentp := recordPtr (restart fs) fs.entrypoint }, ?_⟩
  rw [sdbfsScan_enter (scanStart_new host fs) hnew]
  rfl

/-! ## The whole scan -/

/-- What the caller of `sdbfs_scan` sees of a record. -/
structure Returned (w : Nat) where
  dev : RecordPtr w
  record : Record
  fOffset : BitVec w
  depth : Nat

/-- An entry of the traversal, as a scan should return it. -/
def returned (fs : Sdbfs w σ) (e : Entry w) : Returned w :=
  ⟨recordPtr fs e.pos, e.record, e.fOffset, e.path.length⟩

/-- Call `sdbfs_scan` until it returns `NULL`, as `do_list` does. -/
def scanAll (host : Host w) : Nat → Sdbfs w σ → Bool → Outcome (Sdbfs w σ × List (Returned w))
  | 0, _, _ => .running
  | n + 1, fs, new =>
      match sdbfsScan host fs new with
      | none => .undefined
      | some (fs, d) =>
          if d.isNull then .done (fs, [])
          else
            match fs.deref host d, scanAll host n fs false with
            | none, _ => .undefined
            | some dev, .done (fs', more) => .done (fs', ⟨d, dev, fs.fOffset, fs.depth⟩ :: more)
            | some _, rest => rest

/-- What is returned does not depend on the state of the scan. -/
theorem returned_same {fs fs' : Sdbfs w σ} (h : SameDevice fs fs') :
    returned fs' = returned fs := by
  ext1 e
  rw [returned, returned, h.recordPtr]

/-- The loop ends where the scan does. -/
theorem scanAll_ends {fs fs' : Sdbfs w σ} {new : Bool}
    (h : sdbfsScan host fs new = some (fs', RecordPtr.NULL w)) (n : Nat) :
    scanAll host (n + 1) fs new = .done (fs', []) := by
  rw [scanAll, h]
  exact if_pos (RecordPtr.isNull_NULL w)

/-- A call that arrives at a record is the first of the loop. -/
theorem scanAll_arrives {fs fs' fs'' : Sdbfs w σ} {new : Bool} {dev : RecordPtr w} {e : Entry w}
    {rest : List (Entry w)} {more : List (Returned w)} {n : Nat}
    (h : sdbfsScan host fs new = some (fs', dev)) (harr : Arrived host content fs fs' dev e rest)
    (hmore : scanAll host n fs' false = .done (fs'', more)) :
    scanAll host (n + 1) fs new = .done (fs'', returned fs e :: more) := by
  rw [scanAll, h]
  show (if dev.isNull then _ else _) = _
  rw [if_neg (Bool.eq_false_iff.mp harr.nonnull), harr.record, hmore]
  show Outcome.done (fs'', (⟨dev, e.record, fs'.fOffset, fs'.depth⟩ : Returned w) :: more) = _
  rw [harr.offset, harr.onPath.depth, harr.ptr]
  rfl

/-- From a state between two calls, the calls yield what is pending. -/
theorem scanAll_pending : ∀ (rest : List (Entry w)) (fs : Sdbfs w σ) (path : List Record)
    (rec : Record), Delivers host fs content → OnPath fs path →
    fs.deref host fs.currentp = some rec → pending content fs path rec = rest →
    (∀ e ∈ rest, ¬ NullAt fs e.pos) → AllDeclared rest →
    ∀ n, rest.length < n →
      ∃ fs', scanAll host n fs false = .done (fs', rest.map (returned fs)) := by
  intro rest
  induction rest with
  | nil =>
      intro fs path rec hd hp hcur hpend _ _ n hn
      obtain ⟨fs', hscan⟩ := sdbfsScan_ends hd hp hcur hpend
      obtain ⟨k, rfl⟩ : ∃ k, n = k + 1 := ⟨n - 1, by omega⟩
      exact ⟨fs', scanAll_ends hscan k⟩
  | cons e rest ih =>
      intro fs path rec hd hp hcur hpend hnull hdecl n hn
      obtain ⟨fs', dev, hscan, harr⟩ := sdbfsScan_arrives hd hp hcur hpend
        (hnull e List.mem_cons_self) (hdecl e List.mem_cons_self)
      obtain ⟨k, rfl⟩ : ∃ k, n = k + 1 := ⟨n - 1, by omega⟩
      obtain ⟨fs'', hmore⟩ := ih fs' e.path e.record (hd.same harr.same) harr.onPath
        (harr.current ▸ harr.record) harr.pending
        (fun e' he' h => hnull e' (List.mem_cons_of_mem e he') (harr.same.nullAt h))
        (fun e' he' => hdecl e' (List.mem_cons_of_mem e he'))
        k (Nat.lt_of_succ_lt_succ hn)
      rw [returned_same harr.same] at hmore
      exact ⟨fs'', scanAll_arrives hscan harr hmore⟩

/-- A new scan yields the traversal, if every table declares at least one record
    and no record is at address 0. -/
theorem scanAll_preorder {fs : Sdbfs w σ} (hd : Delivers host fs content)
    (hnull : ∀ e ∈ preorder content fs.entrypoint, ¬ NullAt fs e.pos)
    (hdecl : AllDeclared (preorder content fs.entrypoint)) {n : Nat}
    (hn : (preorder content fs.entrypoint).length < n) :
    ∃ fs', scanAll host n fs true =
      .done (fs', (preorder content fs.entrypoint).map (returned fs)) := by
  obtain ⟨k, rfl⟩ : ∃ k, n = k + 1 := ⟨n - 1, by omega⟩
  cases hpre : preorder content fs.entrypoint with
  | nil =>
      obtain ⟨fs', hscan⟩ := sdbfsScan_new_ends hd hpre
      exact ⟨fs', scanAll_ends hscan k⟩
  | cons e rest =>
      rw [hpre] at hnull hdecl hn
      obtain ⟨fs', dev, hscan, harr⟩ := sdbfsScan_new_arrives hd hpre
        (hnull e List.mem_cons_self) (hdecl e List.mem_cons_self)
      obtain ⟨fs'', hmore⟩ := scanAll_pending rest fs' e.path e.record (hd.same harr.same)
        harr.onPath (harr.current ▸ harr.record) harr.pending
        (fun e' he' h => hnull e' (List.mem_cons_of_mem e he') (harr.same.nullAt h))
        (fun e' he' => hdecl e' (List.mem_cons_of_mem e he'))
        k (Nat.lt_of_succ_lt_succ hn)
      rw [returned_same harr.same] at hmore
      exact ⟨fs'', scanAll_arrives hscan harr hmore⟩

/-- No pointer a scan returns to its caller is null. -/
theorem scanAll_nonnull : ∀ {n : Nat} {fs fs' : Sdbfs w σ} {new : Bool} {rs : List (Returned w)},
    scanAll host n fs new = .done (fs', rs) → ∀ r ∈ rs, r.dev.isNull = false := by
  intro n
  induction n with
  | zero =>
      intro fs fs' new rs h
      cases h
  | succ n ih =>
      intro fs fs' new rs h r hr
      rw [scanAll] at h
      split at h
      · cases h
      next fs₁ d _ =>
        by_cases hd : d.isNull = true
        · rw [if_pos hd] at h
          cases h
          exact absurd hr List.not_mem_nil
        · rw [if_neg hd] at h
          split at h
          · cases h
          · next dev fs₂ more _ hmore =>
            cases h
            rcases List.mem_cons.mp hr with rfl | hr
            · exact Bool.eq_false_iff.mpr hd
            · exact ih hmore r hr
          · next hnot =>
            exact absurd h (hnot fs' rs)

/-- **A scan is the preorder traversal, as long as no record lies at address 0.**
    Whatever the storage holds and however it is accessed, if every table reached
    declares at least one record, the calls return the records of the traversal in
    its order, each located at the sum of `addr_first` over the enclosing bridges
    and its own, and then `NULL`; unless a record is used in place at address 0,
    which is how the caller is told that there are no more. -/
theorem scan_preorder (host : Host w) (content : BitVec w → Record) (fs : Sdbfs w σ)
    (hd : Delivers host fs content) (hdecl : AllDeclared (preorder content fs.entrypoint)) :
    (∀ n, (preorder content fs.entrypoint).length < n →
      ∃ fs', scanAll host n fs true =
        .done (fs', (preorder content fs.entrypoint).map (returned fs))) ↔
    ∀ e ∈ preorder content fs.entrypoint, ¬ NullAt fs e.pos := by
  constructor
  · intro h e he hnull
    obtain ⟨fs', hscan⟩ := h _ (Nat.lt_succ_self _)
    have hnonnull : (recordPtr fs e.pos).isNull = false :=
      scanAll_nonnull hscan (returned fs e) (List.mem_map_of_mem he)
    rw [(recordPtr_isNull fs e.pos).mpr hnull] at hnonnull
    cases hnonnull
  · intro hnull n hn
    exact scanAll_preorder hd hnull hdecl hn

/-! ## Two images -/

/-- A device without conversion that maps `bytes` at address `data`. -/
def mapped (flags data : BitVec 32) : Sdbfs 32 Unit := Sdbfs.fresh () 0 flags data none

/-- A machine with these bytes at an address. -/
def mappedHost (data : BitVec 32) (bytes : List Byte) : Host 32 where
  littleEndian := true
  mem := fun addr => bytes.getD (addr - data).toNat 0

/-- What is stored behind the data pointer. -/
def mappedContent (data : BitVec 32) (bytes : List Byte) (pos : BitVec 32) : Record :=
  (mappedHost data bytes).recordAt (data + pos)

/-- An interconnect that declares a number of records. -/
def interconnectBytes (records : Byte) : List Byte :=
  [0x53, 0x44, 0x42, 0x2d, 0, records, 1, 1] ++ List.replicate 56 0

/-- A bridge at `first` whose child table is at `child`. -/
def bridgeBytes (child first : Byte) : List Byte :=
  List.replicate 7 0 ++ [child] ++ List.replicate 7 0 ++ [first] ++ List.replicate 47 0 ++ [2]

/-- A directory with a subdirectory. -/
def nestedBytes : List Byte :=
  interconnectBytes 2 ++ bridgeBytes 128 128 ++ interconnectBytes 1

/-- The small tree, mapped. -/
theorem scan_preorder_nested :
    ∃ fs', scanAll (mappedHost 0x1000 nestedBytes) 4 (mapped 0 0x1000) true =
      .done (fs', (preorder (mappedContent 0x1000 nestedBytes) 0).map
        (returned (mapped 0 0x1000))) :=
  (scan_preorder (mappedHost 0x1000 nestedBytes) (mappedContent 0x1000 nestedBytes)
    (mapped 0 0x1000) (by intro pos; rfl) (by decide +kernel)).mpr (by decide +kernel) 4
    (by decide +kernel)

/-- A device that uses address 0, as `SDBFS_F_ZEROBASED` allows it to: its directory
    is there, and a scan returns nothing. -/
theorem scan_preorder_zeroBased :
    Delivers (mappedHost 0 nestedBytes) (mapped (SDBFS_F_ZEROBASED 32) 0)
      (mappedContent 0 nestedBytes) ∧
    AllDeclared (preorder (mappedContent 0 nestedBytes) 0) ∧
    ¬ ∀ n, (preorder (mappedContent 0 nestedBytes) 0).length < n →
      ∃ fs', scanAll (mappedHost 0 nestedBytes) n (mapped (SDBFS_F_ZEROBASED 32) 0) true =
        .done (fs', (preorder (mappedContent 0 nestedBytes) 0).map
          (returned (mapped (SDBFS_F_ZEROBASED 32) 0))) := by
  refine ⟨by intro pos; rfl, by decide +kernel, ?_⟩
  intro h
  have hnull : (sdbfsScan (mappedHost 0 nestedBytes) (mapped (SDBFS_F_ZEROBASED 32) 0) true).map
      Prod.snd = some (RecordPtr.NULL 32) := by decide +kernel
  obtain ⟨⟨fs₁, dev⟩, hscan, hdev⟩ := Option.map_eq_some_iff.mp hnull
  cases hdev
  obtain ⟨fs', hall⟩ := h 4 (by decide +kernel)
  rw [scanAll_ends hscan 3] at hall
  have hempty : (preorder (mappedContent 0 nestedBytes) 0).length = 0 := by
    injection hall with hall
    rw [← List.length_map, ← (Prod.mk.inj hall).2]
    rfl
  revert hempty
  decide +kernel

end SdbfsRuns
