import FpgaConfigSpace.Lib.Countdown
import FpgaConfigSpace.SdbfsCalls

/-! # A scan ends

    Whatever a scan reads, it works on counters: entering a directory sets the
    counter of a level that was not in use, and returning an entry lowers the
    counter of the level it comes from, while the deeper ones are dropped.  So the
    counters go down lexicographically, and the scan ends, as long as no counter
    starts below zero: that is what a table that declares no records does.

    A VISIT is what becomes of a table from one time it is entered to the next time
    its level is; it counts the records the scan returned of it. -/

namespace SdbfsVisits

open BigEndian SdbRecord SdbfsDevice SdbfsScan SdbfsOpen SdbfsCalls Countdown

variable {w : Nat} {σ : Type} {host : Host w}

/-! ## Runs -/

/-- A table that was entered: how many records it declares, and how many of its
    records were returned. -/
structure Visit where
  declared : Nat
  yielded : Nat
  deriving DecidableEq

/-- The visit of each level. -/
abbrev Visits := Nat → Option Visit

/-- No directory was entered yet. -/
def noVisits : Visits := fun _ => none

/-- The directory a call enters begins a visit. -/
def visitEntered (host : Host w) (fs : Sdbfs w σ) (newscan : Bool) (v : Visits) : Visits :=
  match entered host fs newscan with
  | some (level, declared) => Function.update v level (some ⟨declared, 0⟩)
  | none => v

/-- A record was returned of a level. -/
def visitYielded (level : Option Nat) (v : Visits) : Visits :=
  match level with
  | some l => Function.update v l ((v l).map fun x => { x with yielded := x.yielded + 1 })
  | none => v

/-- What a call that returned `dev` does to the visits. -/
def visit (host : Host w) (fs : Sdbfs w σ) (newscan : Bool) (dev : RecordPtr w) (v : Visits) :
    Visits :=
  if dev.isNull then visitEntered host fs newscan v
  else visitYielded (yieldLevel host fs newscan) (visitEntered host fs newscan v)

/-- The states between the calls of a scan: `sdbfs_scan(fs, 1)`, then
    `sdbfs_scan(fs, 0)` until it returns `NULL`.  As the open functions do, the scan
    goes on whatever the first call returns. -/
inductive ScanRun (host : Host w) (fs : Sdbfs w σ) : Sdbfs w σ → Visits → Prop where
  | first {s dev} (h : sdbfsScan host fs true = some (s, dev)) :
      ScanRun host fs s (visit host fs true dev noVisits)
  | next {s v s' dev} (hr : ScanRun host fs s v) (h : sdbfsScan host s false = some (s', dev))
      (hdev : dev.isNull = false) : ScanRun host fs s' (visit host s false dev v)

/-- After finitely many calls `sdbfs_scan(fs, 0)` returns `NULL`. -/
inductive Ends (host : Host w) : Sdbfs w σ → Prop where
  | null {fs fs' dev} (h : sdbfsScan host fs false = some (fs', dev)) (hdev : dev.isNull = true) :
      Ends host fs
  | more {fs fs' dev} (h : sdbfsScan host fs false = some (fs', dev)) (hdev : dev.isNull = false)
      (hend : Ends host fs') : Ends host fs

/-- The scan ends, no visit yields more records than the table declares, or than
    the one that was read to enter it, and the loops over the scan end. -/
structure ScanBounded (host : Host w) (fs : Sdbfs w σ) : Prop where
  ends : ∃ s dev, sdbfsScan host fs true = some (s, dev) ∧ Ends host s
  visits : ∀ s v, ScanRun host fs s v → ∀ l x, v l = some x → x.yielded ≤ max 1 x.declared
  openName : ∀ name, ∃ n r, sdbfsOpenName host n fs name = .done r
  openId : ∀ vid did, ∃ n r, sdbfsOpenId host n fs vid did = .done r
  doList : ∃ n r, doList host n fs true 0 = .done r

/-- A directory the call enters declares at least one record. -/
def Declares (host : Host w) (fs : Sdbfs w σ) (newscan : Bool) : Prop :=
  ∀ l k, entered host fs newscan = some (l, k) → 1 ≤ k

/-- Every directory the run enters declares at least one record, and if the root
    is no directory, its counter is not below zero from the start. -/
structure RunDeclared (host : Host w) (fs : Sdbfs w σ) : Prop where
  first : Declares host fs true
  root : (entered host fs true).isSome = true ∨ 0 ≤ fs.nleft 0
  next : ∀ s v, ScanRun host fs s v → Declares host s false

/-! ## The counters go down -/

/-- The counters of a state; a level that is not in use counts for more than any
    table can declare. -/
def counters (fs : Sdbfs w σ) (i : Nat) : Nat :=
  if i ≤ fs.depth then (fs.nleft i).toNat else 0x10000

/-- A call that returns a record keeps the state sound and lowers the counters. -/
theorem Sound.next {fs fs' : Sdbfs w σ} {dev : RecordPtr w} (hs : Sound host fs)
    (hdecl : Declares host fs false) (h : sdbfsScan host fs false = some (fs', dev))
    (hdev : dev.isNull = false) :
    Sound host fs' ∧ Below SDBFS_DEPTH (counters fs') (counters fs) := by
  cases sdbfsScan_next_cases h with
  | ended hnull => exact absurd (hnull.symm.trans hdev) (by decide)
  | enters rec hsame hlevel ht hrec hent hyield hnleft hdepth _ hcur =>
      have hone := hdecl _ _ hent
      have hlt : (sdbRecords rec).toNat < 0x10000 := (sdbRecords rec).isLt
      have hhere : fs'.nleft (fs.depth + 1) = (sdbRecords rec).toNat - 1 := by
        rw [hnleft, nleftEntered, hent]
        exact Function.update_self ..
      have hother : ∀ i, i ≤ fs.depth → fs'.nleft i = fs.nleft i := by
        intro i hi
        rw [hnleft]
        exact nleftEntered_of_le hi
      constructor
      · refine ⟨hs.accessible.same hsame, ⟨rec, hrec⟩, hdepth ▸ hlevel, ?_⟩
        intro i hi
        rw [hdepth] at hi
        rcases Nat.le_or_eq_of_le_succ hi with hi | rfl
        · rw [hother i hi]
          exact hs.nleft i hi
        · rw [hhere]
          omega
      · refine ⟨fs.depth + 1, hlevel, ?_, ?_⟩
        · intro i hi
          have hi : i ≤ fs.depth := Nat.le_of_lt_succ hi
          rw [counters, counters, if_pos hi, if_pos (by omega), hother i hi]
        · rw [counters, counters, if_pos (by omega), if_neg (by omega), hhere]
          omega
  | entry l hsame hl hyield hne hnleft hdepth hdepth' _ hcur hrec =>
      have hpos : 0 < fs.nleft l := by
        have := hs.nleft l hl
        omega
      have hhere : fs'.nleft l = fs.nleft l - 1 := by
        rw [hnleft]
        exact Function.update_self ..
      have hother : ∀ i, i ≤ fs.depth → i ≠ l → fs'.nleft i = fs.nleft i := by
        intro i hi hil
        rw [hnleft, Function.update_of_ne hil]
        exact nleftEntered_of_le hi
      constructor
      · refine ⟨hs.accessible.same hsame, hcur ▸ hrec, ?_, ?_⟩
        · rcases hdepth' with hd | ⟨hd, hsome⟩
          · exact Nat.lt_of_le_of_lt hd hs.depth
          · obtain ⟨⟨l', k⟩, hent⟩ := Option.isSome_iff_exists.mp hsome
            exact hd ▸ (entered_level hent).2
        · intro i hi
          by_cases hil : i = l
          · rw [hil, hhere]
            omega
          · by_cases hid : i ≤ fs.depth
            · rw [hother i hid hil]
              exact hs.nleft i hid
            · -- the level below, of a table at address 0
              obtain ⟨hd, hsome⟩ := hdepth'.resolve_left (by omega)
              obtain ⟨⟨l', k⟩, hent⟩ := Option.isSome_iff_exists.mp hsome
              have hone := hdecl l' k hent
              have hil' : i = l' := by
                rw [(entered_level hent).1]
                omega
              rw [hnleft, Function.update_of_ne hil, nleftEntered, hent, hil']
              show 0 ≤ Function.update fs.nleft l' ((k : Int) - 1) l'
              rw [Function.update_self]
              omega
      · refine ⟨l, Nat.lt_of_le_of_lt hl hs.depth, ?_, ?_⟩
        · intro i hi
          rw [counters, counters, if_pos (by omega), if_pos (by omega),
            hother i (by omega) (by omega)]
        · rw [counters, counters, if_pos hdepth, if_pos hl, hhere]
          omega

/-- After a new scan the state is sound. -/
theorem Sound.new {fs fs' : Sdbfs w σ} {dev : RecordPtr w} (ha : Accessible fs)
    (hdecl : RunDeclared host fs) (h : sdbfsScan host fs true = some (fs', dev)) :
    Sound host fs' := by
  obtain ⟨hsame, hdepth, hcall⟩ := sdbfsScan_new_cases h
  have hlt : fs'.depth < SDBFS_DEPTH := hdepth ▸ (by decide)
  cases hcall with
  | table rec hrec ht hent hnleft =>
      refine ⟨ha.same hsame, ⟨rec, hrec⟩, hlt, ?_⟩
      intro i hi
      have hone := hdecl.first _ _ hent
      rw [hdepth] at hi
      rw [Nat.le_zero.mp hi, hnleft, Function.update_self]
      omega
  | noTable hrec hent hnleft =>
      refine ⟨ha.same hsame, hrec, hlt, ?_⟩
      intro i hi
      rw [hdepth] at hi
      rw [Nat.le_zero.mp hi, hnleft]
      refine hdecl.root.resolve_left fun hsome => ?_
      rw [hent] at hsome
      cases hsome

/-- From every state of a run, the calls come to an end. -/
theorem ends_of_run {fs : Sdbfs w σ} (hdecl : RunDeclared host fs) : ∀ s : Sdbfs w σ,
    (∃ v, ScanRun host fs s v) → Sound host s → Ends host s := by
  -- by the counters of the state
  refine below_induction SDBFS_DEPTH counters fun s ih => ?_
  rintro ⟨v, hrun⟩ hs
  obtain ⟨⟨s', dev⟩, h⟩ := sdbfsScan_next_defined hs
  by_cases hdev : dev.isNull = true
  · exact Ends.null h hdev
  · have hdev := Bool.eq_false_iff.mpr hdev
    obtain ⟨hs', hbelow⟩ := Sound.next hs (hdecl.next s v hrun) h hdev
    exact Ends.more h hdev (ih s' hbelow ⟨_, ScanRun.next hrun h hdev⟩ hs')

/-! ## The records of a visit -/

/-- The records returned of a table and those its counter still allows are no more
    than it declares. -/
def Counted (v : Visits) (nleft : Nat → Int) : Prop :=
  ∀ l x, v l = some x → 0 ≤ nleft l ∧ x.yielded + nleft l ≤ x.declared

/-- A directory that is entered is counted anew. -/
theorem visitEntered_of_some {fs : Sdbfs w σ} {newscan : Bool} {l k : Nat}
    (h : entered host fs newscan = some (l, k)) (v : Visits) :
    visitEntered host fs newscan v = Function.update v l (some ⟨k, 0⟩) := by
  rw [visitEntered, h]

/-- Otherwise nothing changes. -/
theorem visitEntered_of_none {fs : Sdbfs w σ} {newscan : Bool}
    (h : entered host fs newscan = none) (v : Visits) :
    visitEntered host fs newscan v = v := by
  rw [visitEntered, h]

/-- Entering a directory begins a visit with all but one of its records to come. -/
theorem Counted.entered {fs : Sdbfs w σ} {v : Visits} {newscan : Bool}
    (hc : Counted v fs.nleft) (hdecl : Declares host fs newscan) :
    Counted (visitEntered host fs newscan v) (nleftEntered host fs newscan) := by
  cases hent : SdbfsCalls.entered host fs newscan with
  | none =>
      rw [visitEntered_of_none hent, nleftEntered, hent]
      exact hc
  | some e =>
      obtain ⟨l, k⟩ := e
      have hone := hdecl l k hent
      rw [visitEntered_of_some hent, nleftEntered, hent]
      intro l' x hx
      by_cases hl : l' = l
      · subst hl
        rw [Function.update_self] at hx
        cases hx
        show 0 ≤ Function.update fs.nleft l' _ l' ∧ _ + Function.update fs.nleft l' _ l' ≤ _
        rw [Function.update_self]
        show 0 ≤ (k : Int) - 1 ∧ ((0 : Nat) : Int) + ((k : Int) - 1) ≤ k
        omega
      · rw [Function.update_of_ne hl] at hx
        show 0 ≤ Function.update fs.nleft l _ l' ∧ _ + Function.update fs.nleft l _ l' ≤ _
        rw [Function.update_of_ne hl]
        exact hc l' x hx

/-- The interconnect of the directory just entered is returned. -/
theorem Counted.interconnect {fs : Sdbfs w σ} {v : Visits} {newscan : Bool} {l k : Nat}
    (hc : Counted v fs.nleft) (hdecl : Declares host fs newscan)
    (hent : SdbfsCalls.entered host fs newscan = some (l, k)) :
    Counted (visitYielded (some l) (visitEntered host fs newscan v))
      (nleftEntered host fs newscan) := by
  intro l' x hx
  by_cases hl : l' = l
  · subst hl
    have hone := hdecl l' k hent
    rw [visitYielded, visitEntered_of_some hent, Function.update_self, Function.update_self] at hx
    cases hx
    rw [nleftEntered, hent]
    show 0 ≤ Function.update fs.nleft l' _ l' ∧ _ + Function.update fs.nleft l' _ l' ≤ _
    rw [Function.update_self]
    show 0 ≤ (k : Int) - 1 ∧ ((0 + 1 : Nat) : Int) + ((k : Int) - 1) ≤ k
    omega
  · rw [visitYielded, Function.update_of_ne hl] at hx
    exact hc.entered hdecl l' x hx

/-- An entry of a level is returned, and its counter lowered. -/
theorem Counted.entry {v : Visits} {nleft : Nat → Int} (hc : Counted v nleft) {l : Nat}
    (hpos : 0 < nleft l) :
    Counted (visitYielded (some l) v) (Function.update nleft l (nleft l - 1)) := by
  intro l' x hx
  by_cases hl : l' = l
  · subst hl
    rw [visitYielded, Function.update_self] at hx
    obtain ⟨y, hy, rfl⟩ := Option.map_eq_some_iff.mp hx
    obtain ⟨_, hsum⟩ := hc l' y hy
    rw [Function.update_self]
    show 0 ≤ nleft l' - 1 ∧ ((y.yielded + 1 : Nat) : Int) + (nleft l' - 1) ≤ y.declared
    omega
  · rw [visitYielded, Function.update_of_ne hl] at hx
    rw [Function.update_of_ne hl]
    exact hc l' x hx

/-- The counters are right behind a new scan, and stay so. -/
theorem Counted.new {fs fs' : Sdbfs w σ} {dev : RecordPtr w} (hdecl : Declares host fs true)
    (h : sdbfsScan host fs true = some (fs', dev)) :
    Counted (visit host fs true dev noVisits) fs'.nleft := by
  have hstart : Counted noVisits fs.nleft := fun l x hx => by cases hx
  cases (sdbfsScan_new_cases h).2.2 with
  | table rec hrec ht hent hnleft hyield =>
      have hleft : fs'.nleft = nleftEntered host fs true := by
        rw [nleftEntered, hent]
        exact hnleft
      rw [visit, hyield, hleft]
      by_cases hdev : dev.isNull = true
      · rw [if_pos hdev]
        exact hstart.entered hdecl
      · rw [if_neg hdev, if_neg hdev]
        exact hstart.interconnect hdecl hent
  | noTable hrec hent hnleft hdev =>
      rw [visit, if_pos hdev, visitEntered_of_none hent, hnleft]
      exact hstart

theorem Counted.next {fs fs' : Sdbfs w σ} {dev : RecordPtr w} {v : Visits}
    (hc : Counted v fs.nleft) (hs : Sound host fs) (hdecl : Declares host fs false)
    (h : sdbfsScan host fs false = some (fs', dev)) (hdev : dev.isNull = false) :
    Counted (visit host fs false dev v) fs'.nleft := by
  rw [visit, if_neg (Bool.eq_false_iff.mp hdev)]
  cases sdbfsScan_next_cases h with
  | ended hnull => exact absurd (hnull.symm.trans hdev) (by decide)
  | enters rec hsame hlevel ht hrec hent hyield hnleft =>
      rw [hyield, hnleft]
      exact hc.interconnect hdecl hent
  | entry l hsame hl hyield hne hnleft =>
      have hpos : 0 < nleftEntered host fs false l := by
        have := hs.nleft l hl
        rw [nleftEntered_of_le hl]
        omega
      rw [hyield, hnleft, ← nleftEntered_of_le hl]
      exact (hc.entered hdecl).entry hpos

/-- What holds of every state of a run. -/
theorem run_invariant {fs : Sdbfs w σ} (ha : Accessible fs) (hdecl : RunDeclared host fs)
    {s : Sdbfs w σ} {v : Visits} (hr : ScanRun host fs s v) :
    Sound host s ∧ Counted v s.nleft := by
  induction hr with
  | first h => exact ⟨Sound.new ha hdecl h, Counted.new hdecl.first h⟩
  | next hr h hdev ih =>
      obtain ⟨hs, hc⟩ := ih
      have hd := hdecl.next _ _ hr
      exact ⟨(Sound.next hs hd h hdev).1, hc.next hs hd h hdev⟩

/-! ## The loops over a scan -/

/-- A record that was returned can be looked at. -/
theorem sdbfsScan_readable {fs fs' : Sdbfs w σ} {dev : RecordPtr w} {newscan : Bool}
    (h : sdbfsScan host fs newscan = some (fs', dev)) (hdev : dev.isNull = false) :
    ∃ rec, fs'.deref host dev = some rec := by
  cases newscan with
  | true =>
      cases (sdbfsScan_new_cases h).2.2 with
      | table rec hrec ht hent hnleft hyield hcur => exact ⟨rec, hcur hdev ▸ hrec⟩
      | noTable hrec hent hnleft hnull => exact absurd (hnull.symm.trans hdev) (by decide)
  | false =>
      cases sdbfsScan_next_cases h with
      | ended hnull => exact absurd (hnull.symm.trans hdev) (by decide)
      | enters rec hsame hlevel ht hrec hent hyield hnleft hdepth hd hcur => exact ⟨rec, hcur ▸ hrec⟩
      | entry l hsame hl hyield hne hnleft hdepth hdepth' hd hcur hrec => exact hrec

/-- A search ends where the scan does. -/
theorem openLoop_ends (found : Record → Bool) {fs : Sdbfs w σ} (h : Ends host fs) :
    ∃ n r, openLoop host found n fs = .done r := by
  induction h with
  | @null fs fs' dev h hdev =>
      refine ⟨1, (fs', -ENOENT), ?_⟩
      rw [openLoop, h]
      exact if_pos hdev
  | @more fs fs' dev h hdev hend ih =>
      obtain ⟨n, r, hn⟩ := ih
      obtain ⟨rec, hrec⟩ := sdbfsScan_readable h hdev
      have hstep : openLoop host found (n + 1) fs =
          if found rec then .done (openCurrent { fs' with currentp := dev } rec, 0)
          else openLoop host found n fs' := by
        rw [openLoop, h]
        simp only
        rw [if_neg (Bool.eq_false_iff.mp hdev), hrec]
      by_cases hf : found rec = true
      · exact ⟨n + 1, _, hstep.trans (if_pos hf)⟩
      · exact ⟨n + 1, r, hstep.trans ((if_neg hf).trans hn)⟩

theorem openScan_ends (found : Record → Bool) {fs s : Sdbfs w σ} {dev : RecordPtr w}
    (h : sdbfsScan host fs true = some (s, dev)) (hend : Ends host s) :
    ∃ n r, openScan host found n fs = .done r := by
  obtain ⟨n, r, hn⟩ := openLoop_ends found hend
  refine ⟨n, r, ?_⟩
  rw [openScan, h]
  exact hn

/-- The listing ends where the scan does. -/
theorem doList_null {fs fs' : Sdbfs w σ} {dev : RecordPtr w} {newscan : Bool}
    (h : sdbfsScan host fs newscan = some (fs', dev)) (hdev : dev.isNull = true) (err : Int) :
    doList host 1 fs newscan err = .done (fs', err) := by
  rw [doList, h]
  exact if_pos hdev

/-- One record more is listed. -/
theorem doList_more {fs fs' : Sdbfs w σ} {dev : RecordPtr w} {newscan : Bool} {n : Nat}
    (h : sdbfsScan host fs newscan = some (fs', dev)) (hdev : dev.isNull = false)
    (hn : ∀ err, ∃ r, doList host n fs' false err = .done r) (err : Int) :
    ∃ r, doList host (n + 1) fs newscan err = .done r := by
  obtain ⟨rec, hrec⟩ := sdbfsScan_readable h hdev
  obtain ⟨r, hr⟩ := hn (err + listDevice rec)
  refine ⟨r, ?_⟩
  rw [doList, h]
  simp only
  rw [if_neg (Bool.eq_false_iff.mp hdev), hrec]
  exact hr

/-- By induction, the listing ends. -/
theorem doList_ends {fs : Sdbfs w σ} (h : Ends host fs) :
    ∃ n, ∀ err, ∃ r, doList host n fs false err = .done r := by
  induction h with
  | @null fs fs' dev h hdev => exact ⟨1, fun err => ⟨(fs', err), doList_null h hdev err⟩⟩
  | more h hdev hend ih =>
      obtain ⟨n, hn⟩ := ih
      exact ⟨n + 1, doList_more h hdev hn⟩

/-- If the directories of a run declare their records, the scan is bounded. -/
theorem scanBounded_of_declared {fs : Sdbfs w σ} (ha : Accessible fs)
    (hdecl : RunDeclared host fs) : ScanBounded host fs := by
  obtain ⟨⟨s, dev⟩, h⟩ : ∃ r, sdbfsScan host fs true = some r := sdbfsScan_new_defined ha
  have hend : Ends host s :=
    ends_of_run hdecl s ⟨_, ScanRun.first h⟩ (Sound.new ha hdecl h)
  refine ⟨⟨s, dev, h, hend⟩, ?_, ?_, ?_, ?_⟩
  · intro s v hr l x hx
    obtain ⟨hpos, hsum⟩ := (run_invariant ha hdecl hr).2 l x hx
    omega
  · intro name
    by_cases hlen : 19 < name.chars.length
    · exact ⟨0, (fs, -ENOENT), if_pos hlen⟩
    · obtain ⟨n, r, hn⟩ := openScan_ends (nameMatches name) h hend
      exact ⟨n, r, (if_neg hlen).trans hn⟩
  · intro vid did
    exact openScan_ends (idMatches host vid did) h hend
  · by_cases hdev : dev.isNull = true
    · exact ⟨1, (s, 0), doList_null h hdev 0⟩
    · obtain ⟨n, hn⟩ := doList_ends hend
      obtain ⟨r, hr⟩ := doList_more h (Bool.eq_false_iff.mpr hdev) hn 0
      exact ⟨n + 1, r, hr⟩

/-! ## A table without records -/

/-- The scan sees what it reads: the interconnect of a directory it enters is
    returned, and no record is read at the null address. -/
structure RunSeen (host : Host w) (fs : Sdbfs w σ) : Prop where
  first : ∀ l k, entered host fs true = some (l, k) → yieldLevel host fs true = some l
  next : ∀ s v, ScanRun host fs s v → ∀ l k, entered host s false = some (l, k) →
    yieldLevel host s false = some l
  read : ∀ s v, ScanRun host fs s v → ∀ s' dev, sdbfsScan host s false = some (s', dev) →
    s'.currentp.isNull = false

/-- A scan that comes to an end comes to an end from every state of its run. -/
theorem ends_of_scanRun {fs : Sdbfs w σ}
    (hend : ∃ s dev, sdbfsScan host fs true = some (s, dev) ∧ Ends host s)
    {s : Sdbfs w σ} {v : Visits} (hr : ScanRun host fs s v) : Ends host s := by
  induction hr with
  | first h =>
      obtain ⟨s₁, dev₁, h₁, hend⟩ := hend
      rw [h] at h₁
      cases h₁
      exact hend
  | next hr h hdev ih =>
      cases ih with
      | null h' hnull =>
          rw [h] at h'
          cases h'
          exact absurd (hnull.symm.trans hdev) (by decide)
      | more h' _ hend' =>
          rw [h] at h'
          cases h'
          exact hend'

/-- A scan that ends is defined so far. -/
theorem Ends.defined {fs : Sdbfs w σ} (h : Ends host fs) :
    ∃ s dev, sdbfsScan host fs false = some (s, dev) := by
  cases h with
  | null h => exact ⟨_, _, h⟩
  | more h => exact ⟨_, _, h⟩

/-- Behind the interconnect of a table that declares no records, one more record is
    returned of it. -/
theorem overrun {fs s : Sdbfs w σ} {v : Visits} {rec : Record}
    (hb : ScanBounded host fs) (hseen : RunSeen host fs) (hr : ScanRun host fs s v)
    (hleft : s.nleft s.depth = -1) (hv : v s.depth = some ⟨0, 1⟩)
    (hrec : s.deref host s.currentp = some rec) (ht : IsTable rec) : False := by
  obtain ⟨s', dev, h⟩ := (ends_of_scanRun hb.ends hr).defined
  have hent := entered_of_isTable hrec ht
  have hyield := yieldLevel_of_isTable hrec ht (by omega)
  cases sdbfsScan_next_cases h with
  | ended hnull hwhy =>
      rcases hwhy with ⟨_, hnone⟩ | hptr
      · rw [hyield] at hnone
        cases hnone
      · rw [hseen.read s v hr s' dev h] at hptr
        cases hptr
  | enters rec' hsame hlevel ht' hrec' hent' =>
      rw [hent] at hent'
      cases hent'
  | entry l hsame hl hyield' hne hnleft hdepth hdepth' hdev =>
      have htwo : visit host s false dev v s.depth = some ⟨0, 2⟩ := by
        rw [visit, if_neg (Bool.eq_false_iff.mp hdev), hyield, visitEntered_of_none hent,
          visitYielded, Function.update_self, hv]
        rfl
      have hle := hb.visits s' _ (ScanRun.next hr h hdev) s.depth ⟨0, 2⟩ htwo
      exact absurd hle (by decide)

/-- A counter below zero at the root stays below zero, and the scan does not end. -/
theorem endless {fs : Sdbfs w σ} (hseen : RunSeen host fs) : ∀ {s : Sdbfs w σ}, Ends host s →
    ∀ v, ScanRun host fs s v → s.nleft 0 < 0 → False := by
  intro s hend
  induction hend with
  | @null s s' dev h hdev =>
      intro v hr hneg
      cases sdbfsScan_next_cases h with
      | ended hnull hwhy =>
          rcases hwhy with ⟨hzero, _⟩ | hptr
          · omega
          · rw [hseen.read s v hr s' dev h] at hptr
            cases hptr
      | enters rec hsame hlevel ht hrec hent hyield hnleft hdepth hd =>
          exact absurd (hd.symm.trans hdev) (by decide)
      | entry l hsame hl hyield hne hnleft hdepth hdepth' hd =>
          exact absurd (hd.symm.trans hdev) (by decide)
  | @more s s' dev h hdev hend ih =>
      intro v hr hneg
      refine ih _ (ScanRun.next hr h hdev) ?_
      have hzero : nleftEntered host s false 0 = s.nleft 0 := nleftEntered_of_le (Nat.zero_le _)
      cases sdbfsScan_next_cases h with
      | ended hnull => exact absurd (hnull.symm.trans hdev) (by decide)
      | enters rec hsame hlevel ht hrec hent hyield hnleft =>
          rw [hnleft, hzero]
          exact hneg
      | entry l hsame hl hyield hne hnleft =>
          rw [hnleft]
          by_cases hl0 : 0 = l
          · rw [← hl0, Function.update_self]
            omega
          · rw [Function.update_of_ne hl0, hzero]
            exact hneg

/-- A directory that is entered and declares no records breaks the bound. -/
theorem declares_of_bounded {fs : Sdbfs w σ} (hb : ScanBounded host fs)
    (hseen : RunSeen host fs) : RunDeclared host fs := by
  obtain ⟨s, dev, h, hend⟩ := hb.ends
  obtain ⟨_, hdepth, hcall⟩ := sdbfsScan_new_cases h
  have hrun := ScanRun.first h
  refine ⟨?_, ?_, ?_⟩
  · intro l k hent
    by_contra hk
    obtain rfl : k = 0 := by omega
    cases hcall with
    | noTable hrec hnone =>
        rw [hent] at hnone
        cases hnone
    | table rec hrec ht hent' hnleft hyield hcur =>
        have hl : l = 0 := congrArg Prod.fst (Option.some.inj (hent.symm.trans hent'))
        have hk : 0 = (sdbRecords rec).toNat :=
          congrArg Prod.snd (Option.some.inj (hent.symm.trans hent'))
        subst hl
        have hsee := hseen.first 0 0 hent
        rw [hyield] at hsee
        have hdev : ¬ dev.isNull = true := by
          intro hdev
          rw [if_pos hdev] at hsee
          cases hsee
        refine overrun hb hseen hrun ?_ ?_ hrec ht
        · rw [hdepth, hnleft, Function.update_self, ← hk]
          rfl
        · rw [visit, if_neg hdev, hdepth, hyield, if_neg hdev, visitEntered_of_some hent,
            visitYielded, Function.update_self, Function.update_self]
          rfl
  · by_contra hroot
    obtain ⟨hnone, hneg⟩ := not_or.mp hroot
    cases hcall with
    | table rec hrec ht hent =>
        rw [hent] at hnone
        exact hnone rfl
    | noTable hrec hent hnleft =>
        refine endless hseen hend _ hrun ?_
        rw [hnleft]
        omega
  · intro s v hr l k hent
    by_contra hk
    obtain rfl : k = 0 := by omega
    obtain ⟨s', dev', h'⟩ := (ends_of_scanRun hb.ends hr).defined
    obtain ⟨hl, _⟩ := entered_level hent
    have hsee := hseen.next s v hr l 0 hent
    cases sdbfsScan_next_cases h' with
    | ended hnull hwhy =>
        rcases hwhy with ⟨_, hnone⟩ | hptr
        · rw [hsee] at hnone
          cases hnone
        · rw [hseen.read s v hr s' dev' h'] at hptr
          cases hptr
    | enters rec hsame hlevel ht hrec hent' hyield hnleft hdepth' hdev hcur =>
        have hk : 0 = (sdbRecords rec).toNat :=
          congrArg Prod.snd (Option.some.inj (hent.symm.trans hent'))
        refine overrun hb hseen (ScanRun.next hr h' hdev) ?_ ?_ hrec ht
        · rw [hdepth', hnleft, nleftEntered, hent']
          show Function.update s.nleft (s.depth + 1) _ (s.depth + 1) = -1
          rw [Function.update_self, ← hk]
          rfl
        · rw [visit, if_neg (Bool.eq_false_iff.mp hdev), hdepth', hyield,
            visitEntered_of_some hent', visitYielded, Function.update_self, Function.update_self,
            ← hk]
          rfl
    | entry l' hsame hl' hyield =>
        rw [hsee] at hyield
        have hll : l = l' := Option.some.inj hyield
        omega

end SdbfsVisits
