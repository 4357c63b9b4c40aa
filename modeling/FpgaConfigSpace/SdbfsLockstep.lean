import FpgaConfigSpace.SdbfsRuns

/-! # Two devices that hold the same records

    The library never looks at how a device is accessed but to read a record and to
    follow a pointer to it.  Two devices that hand out the same records therefore
    go through a scan in lockstep: the same levels, the same positions, the same
    records, wherever the two keep them. -/

namespace SdbfsLockstep

open BigEndian SdbRecord SdbfsDevice SdbfsScan SdbfsOpen SdbfsRuns

variable {w : Nat} {σ τ : Type}

/-! ## The positions a call reads -/

/-- What `scanNext` reads: the next entry of the innermost level that has one. -/
def nextReads (fs : Sdbfs w σ) : Nat → List (BitVec w)
  | 0 => if fs.nleft 0 = 0 then [] else [fs.thisPos 0]
  | depth + 1 =>
      if fs.nleft (depth + 1) = 0 then nextReads fs depth else [fs.thisPos (depth + 1)]

/-- What is read after a directory was tried at a level. -/
def newdirReads (depth : Nat) : Option (Sdbfs w σ × RecordPtr w) → List (BitVec w)
  | none => []
  | some (fs, dev) =>
      if dev.isNull then if depth = 0 then [] else nextReads fs (depth - 1) else []

/-- The positions at which a call of `sdbfs_scan` reads a record. -/
def scanReads (host : Host w) (fs : Sdbfs w σ) (newscan : Bool) : List (BitVec w) :=
  match scanStart host fs newscan with
  | none => []
  | some (fs, depth, true) => fs.thisPos depth :: newdirReads depth (scanNewdir host fs depth)
  | some (fs, depth, false) => nextReads fs depth

/-! ## Handing out records -/

/-- Whatever happened to the driver, at the positions in `P` the device hands out
    the records of `content`, by a pointer that is not null. -/
def Serves (host : Host w) (fs : Sdbfs w σ) (content : BitVec w → Record)
    (P : BitVec w → Prop) : Prop :=
  ∀ s, SameDevice fs s → ∀ pos, P pos →
    (sdbfsReadentry host s pos).1.deref host (sdbfsReadentry host s pos).2 = some (content pos) ∧
      (sdbfsReadentry host s pos).2.isNull = false

variable {host host' : Host w} {content : BitVec w → Record} {P : BitVec w → Prop}

/-- Calls leave the storage alone. -/
theorem Serves.same {fs s : Sdbfs w σ} (h : Serves host fs content P) (hsame : SameDevice fs s) :
    Serves host s content P :=
  fun t ht => h t (hsame.trans ht)

theorem Serves.congr {fs : Sdbfs w σ} {content' : BitVec w → Record}
    (h : Serves host fs content P) (heq : ∀ pos, P pos → content pos = content' pos) :
    Serves host fs content' P := by
  intro s hs pos hpos
  rw [← heq pos hpos]
  exact h s hs pos hpos

/-- One record is read: the driver and the buffer change, and the pointer leads to
    the record as long as the buffer is not used for another. -/
structure ReadAs (host : Host w) (fs : Sdbfs w σ) (pos : BitVec w) (rec : Record) (drv : σ)
    (buf : Record) (p : RecordPtr w) : Prop where
  readentry : sdbfsReadentry host fs pos = ({ fs with drvdata := drv, currentRecord := buf }, p)
  nonnull : p.isNull = false
  leads : ∀ s : Sdbfs w σ, SameDevice fs s → s.currentRecord = buf → s.deref host p = some rec

/-- A record is read as it is stored. -/
theorem Serves.readAs {fs : Sdbfs w σ} (h : Serves host fs content P) {pos pos' : BitVec w}
    (heq : pos' = pos) (hpos : P pos) :
    ∃ drv buf p, ReadAs host fs pos' (content pos) drv buf p := by
  subst heq
  obtain ⟨drv, buf, hframe⟩ := sdbfsReadentry_frame host fs pos'
  obtain ⟨hderef, hnull⟩ := h fs (SameDevice.refl fs) pos' hpos
  refine ⟨drv, buf, (sdbfsReadentry host fs pos').2, Prod.ext hframe rfl, hnull, ?_⟩
  intro s hs hbuf
  rw [← hderef, hframe]
  have hsame : SameDevice { fs with drvdata := drv, currentRecord := buf } s := hs
  exact deref_congr hsame hbuf _

/-- What becomes of the next record of a table, and of the first one of a directory. -/
theorem ReadAs.scanEntry {fs : Sdbfs w σ} {d : Nat} {rec buf : Record} {drv : σ}
    {p : RecordPtr w} (h : ReadAs host fs (fs.thisPos d) rec drv buf p)
    (hmin : fs.nleft d ≠ INT_MIN) :
    SdbfsScan.scanEntry host fs d = some ({ fs with
      drvdata := drv
      currentRecord := buf
      currentp := p
      thisPos := Function.update fs.thisPos d (fs.thisPos d + 64)
      nleft := Function.update fs.nleft d (fs.nleft d - 1)
      fOffset := fs.base fs.depth + (addrFirst rec).setWidth w }, p) := by
  rw [SdbfsScan.scanEntry, h.readentry]
  show (if fs.nleft d = INT_MIN then none else _) = _
  rw [if_neg hmin]
  refine scanOut_eq ?_ p
  exact h.leads _ ⟨rfl, rfl, rfl⟩ rfl

theorem ReadAs.scanNewdir {fs : Sdbfs w σ} {d : Nat} {rec buf : Record} {drv : σ}
    {p : RecordPtr w} (h : ReadAs host fs (fs.thisPos d) rec drv buf p) :
    SdbfsScan.scanNewdir host fs d = some (
      if IsTable rec then
        ({ fs with
          drvdata := drv
          currentRecord := buf
          currentp := p
          nleft := Function.update fs.nleft d ((sdbRecords rec).toNat - 1)
          thisPos := Function.update fs.thisPos d (fs.thisPos d + 64)
          depth := d }, p)
      else
        ({ fs with drvdata := drv, currentRecord := buf, currentp := p }, RecordPtr.NULL w)) := by
  rw [SdbfsScan.scanNewdir, h.readentry]
  have hlead := h.leads { fs with drvdata := drv, currentRecord := buf, currentp := p }
    ⟨rfl, rfl, rfl⟩ rfl
  exact congrArg (Option.map _) hlead

/-! ## In lockstep -/

/-- Two devices in the same state of a scan, with the same record at hand. -/
structure Lockstep (host : Host w) (fs : Sdbfs w σ) (host' : Host w) (fs' : Sdbfs w τ) : Prop where
  entrypoint : fs'.entrypoint = fs.entrypoint
  base : fs'.base = fs.base
  thisPos : fs'.thisPos = fs.thisPos
  nleft : fs'.nleft = fs.nleft
  depth : fs'.depth = fs.depth
  fLen : fs'.fLen = fs.fLen
  fOffset : fs'.fOffset = fs.fOffset
  readOffset : fs'.readOffset = fs.readOffset
  null : fs'.currentp.isNull = fs.currentp.isNull
  current : fs.currentp.isNull = false →
    fs'.deref host' fs'.currentp = fs.deref host fs.currentp

/-- Two results of a call: the devices are in lockstep on a record at hand, and the
    pointers returned are both null or are the ones to that record. -/
structure InStep (host host' : Host w) (fs : Sdbfs w σ) (fs' : Sdbfs w τ)
    (r : Sdbfs w σ × RecordPtr w) (r' : Sdbfs w τ × RecordPtr w) : Prop where
  same : SameDevice fs r.1
  same' : SameDevice fs' r'.1
  lockstep : Lockstep host r.1 host' r'.1
  held : r.1.currentp.isNull = false
  null : r'.2.isNull = r.2.isNull
  current : r.2.isNull = false → r.2 = r.1.currentp ∧ r'.2 = r'.1.currentp

/-- Both calls return the same record. -/
theorem InStep.record {fs : Sdbfs w σ} {fs' : Sdbfs w τ} {r : Sdbfs w σ × RecordPtr w}
    {r' : Sdbfs w τ × RecordPtr w} (h : InStep host host' fs fs' r r')
    (hnull : r.2.isNull = false) : r'.1.deref host' r'.2 = r.1.deref host r.2 := by
  obtain ⟨hcur, hcur'⟩ := h.current hnull
  rw [hcur, hcur']
  exact h.lockstep.current h.held

/-- They were in step before. -/
theorem InStep.from {fs s : Sdbfs w σ} {fs' s' : Sdbfs w τ} {r : Sdbfs w σ × RecordPtr w}
    {r' : Sdbfs w τ × RecordPtr w} (hr : InStep host host' s s' r r') (h : SameDevice fs s)
    (h' : SameDevice fs' s') : InStep host host' fs fs' r r' :=
  ⟨h.trans hr.same, h'.trans hr.same', hr.lockstep, hr.held, hr.null, hr.current⟩

theorem relFrom {fs s : Sdbfs w σ} {fs' s' : Sdbfs w τ} (h : SameDevice fs s)
    (h' : SameDevice fs' s') {r : Option (Sdbfs w σ × RecordPtr w)}
    {r' : Option (Sdbfs w τ × RecordPtr w)} (hr : Option.Rel (InStep host host' s s') r r') :
    Option.Rel (InStep host host' fs fs') r r' := by
  cases hr with
  | none => exact Option.Rel.none
  | some hr => exact Option.Rel.some (hr.from h h')

/-- Nothing left to return. -/
theorem InStep.ended {fs : Sdbfs w σ} {fs' : Sdbfs w τ} (h : Lockstep host fs host' fs')
    (hcur : fs.currentp.isNull = false) :
    InStep host host' fs fs' (fs, RecordPtr.NULL w) (fs', RecordPtr.NULL w) := by
  refine ⟨SameDevice.refl fs, SameDevice.refl fs', h, hcur, rfl, ?_⟩
  intro hnull
  rw [RecordPtr.isNull_NULL] at hnull
  cases hnull

section steps

variable {fs : Sdbfs w σ} {fs' : Sdbfs w τ}

/-- Records read on both sides are the same record. -/
theorem ReadAs.agree {pos pos' : BitVec w} {rec buf buf' : Record} {drv : σ} {drv' : τ}
    {p p' : RecordPtr w} (hr : ReadAs host fs pos rec drv buf p)
    (hr' : ReadAs host' fs' pos' rec drv' buf' p') {s : Sdbfs w σ} {s' : Sdbfs w τ}
    (hs : SameDevice fs s) (hs' : SameDevice fs' s') (hbuf : s.currentRecord = buf)
    (hbuf' : s'.currentRecord = buf') : s'.deref host' p' = s.deref host p :=
  (hr'.leads s' hs' hbuf').trans (hr.leads s hs hbuf).symm

/-- Reading the next record, trying a directory and returning a record keep both in step. -/
theorem scanEntry_lockstep (hs : Serves host fs content P) (hs' : Serves host' fs' content P)
    (h : Lockstep host fs host' fs') {d : Nat} (hpos : P (fs.thisPos d)) :
    Option.Rel (InStep host host' fs fs') (scanEntry host fs d) (scanEntry host' fs' d) := by
  obtain ⟨drv, buf, p, hr⟩ := hs.readAs rfl hpos
  obtain ⟨drv', buf', p', hr'⟩ := hs'.readAs (congrFun h.thisPos d) hpos
  by_cases hmin : fs.nleft d = INT_MIN
  · rw [scanEntry, scanEntry, hr.readentry, hr'.readentry]
    show Option.Rel _ (if fs.nleft d = INT_MIN then none else _)
      (if fs'.nleft d = INT_MIN then none else _)
    rw [h.nleft, if_pos hmin, if_pos hmin]
    exact Option.Rel.none
  · rw [hr.scanEntry hmin, hr'.scanEntry (h.nleft ▸ hmin)]
    have hnull : p'.isNull = p.isNull := hr'.nonnull.trans hr.nonnull.symm
    refine Option.Rel.some ⟨⟨rfl, rfl, rfl⟩, ⟨rfl, rfl, rfl⟩, ?_, hr.nonnull, hnull,
      fun _ => ⟨rfl, rfl⟩⟩
    refine ⟨h.entrypoint, h.base, ?_, ?_, h.depth, h.fLen, ?_, h.readOffset, hnull,
      fun _ => hr.agree hr' ⟨rfl, rfl, rfl⟩ ⟨rfl, rfl, rfl⟩ rfl rfl⟩
    · show Function.update fs'.thisPos d (fs'.thisPos d + 64) = _
      rw [h.thisPos]
    · show Function.update fs'.nleft d (fs'.nleft d - 1) = _
      rw [h.nleft]
    · show fs'.base fs'.depth + _ = fs.base fs.depth + _
      rw [h.base, h.depth]

/-- The reads don't depend on the depth that was left. -/
theorem nextReads_depth (fs : Sdbfs w σ) (k : Nat) : ∀ d,
    nextReads { fs with depth := k } d = nextReads fs d := by
  intro d
  induction d with
  | zero => rfl
  | succ d ih =>
      show (if fs.nleft (d + 1) = 0 then _ else _) = (if fs.nleft (d + 1) = 0 then _ else _)
      rw [ih]

end steps

/-- "cd .." and the next entry, on both devices. -/
theorem scanNext_lockstep : ∀ {d : Nat} {fs : Sdbfs w σ} {fs' : Sdbfs w τ},
    Serves host fs content P → Serves host' fs' content P → Lockstep host fs host' fs' →
    fs.currentp.isNull = false → (∀ pos ∈ nextReads fs d, P pos) →
    Option.Rel (InStep host host' fs fs') (scanNext host fs d) (scanNext host' fs' d) := by
  intro d
  induction d with
  | zero =>
      intro fs fs' hs hs' h hcur hreads
      have hsame : fs'.nleft 0 = fs.nleft 0 := congrFun h.nleft 0
      rw [scanNext, scanNext, hsame]
      by_cases hz : fs.nleft 0 = 0
      · rw [if_pos hz, if_pos hz]
        exact Option.Rel.some (InStep.ended h hcur)
      · rw [nextReads, if_neg hz] at hreads
        rw [if_neg hz, if_neg hz]
        exact scanEntry_lockstep hs hs' h (hreads _ List.mem_cons_self)
  | succ d ih =>
      intro fs fs' hs hs' h hcur hreads
      have hleft : fs'.nleft (d + 1) = fs.nleft (d + 1) := congrFun h.nleft (d + 1)
      rw [scanNext, scanNext, hleft]
      rw [nextReads] at hreads
      by_cases hz : fs.nleft (d + 1) = 0
      · rw [if_pos hz] at hreads
        rw [if_pos hz, if_pos hz]
        have hup : Lockstep host { fs with depth := d } host' { fs' with depth := d } :=
          ⟨h.entrypoint, h.base, h.thisPos, h.nleft, rfl, h.fLen, h.fOffset, h.readOffset,
            h.null, h.current⟩
        have hsame : SameDevice fs { fs with depth := d } := ⟨rfl, rfl, rfl⟩
        have hsame' : SameDevice fs' { fs' with depth := d } := ⟨rfl, rfl, rfl⟩
        refine relFrom hsame hsame' (ih (hs.same hsame) (hs'.same hsame') hup hcur ?_)
        rw [nextReads_depth]
        exact hreads
      · rw [if_neg hz] at hreads
        rw [if_neg hz, if_neg hz]
        exact scanEntry_lockstep hs hs' h (hreads _ List.mem_cons_self)

section calls

variable {fs : Sdbfs w σ} {fs' : Sdbfs w τ}

theorem scanNewdir_lockstep (hs : Serves host fs content P) (hs' : Serves host' fs' content P)
    (h : Lockstep host fs host' fs') {d : Nat} (hpos : P (fs.thisPos d)) :
    ∃ r r', scanNewdir host fs d = some r ∧ scanNewdir host' fs' d = some r' ∧
      InStep host host' fs fs' r r' ∧
      r.1.deref host r.1.currentp = some (content (fs.thisPos d)) := by
  obtain ⟨drv, buf, p, hr⟩ := hs.readAs rfl hpos
  obtain ⟨drv', buf', p', hr'⟩ := hs'.readAs (congrFun h.thisPos d) hpos
  have hnull : p'.isNull = p.isNull := hr'.nonnull.trans hr.nonnull.symm
  have hnew := hr.scanNewdir
  have hnew' := hr'.scanNewdir
  by_cases ht : IsTable (content (fs.thisPos d))
  · rw [if_pos ht] at hnew hnew'
    refine ⟨_, _, hnew, hnew', ⟨⟨rfl, rfl, rfl⟩, ⟨rfl, rfl, rfl⟩, ?_, hr.nonnull, hnull,
      fun _ => ⟨rfl, rfl⟩⟩, hr.leads _ ⟨rfl, rfl, rfl⟩ rfl⟩
    refine ⟨h.entrypoint, h.base, ?_, ?_, rfl, h.fLen, h.fOffset, h.readOffset, hnull,
      fun _ => hr.agree hr' ⟨rfl, rfl, rfl⟩ ⟨rfl, rfl, rfl⟩ rfl rfl⟩
    · show Function.update fs'.thisPos d (fs'.thisPos d + 64) = _
      rw [h.thisPos]
    · show Function.update fs'.nleft d _ = _
      rw [h.nleft]
  · rw [if_neg ht] at hnew hnew'
    refine ⟨_, _, hnew, hnew', ?_, hr.leads _ ⟨rfl, rfl, rfl⟩ rfl⟩
    have hstep : Lockstep host { fs with drvdata := drv, currentRecord := buf, currentp := p }
        host' { fs' with drvdata := drv', currentRecord := buf', currentp := p' } :=
      ⟨h.entrypoint, h.base, h.thisPos, h.nleft, h.depth, h.fLen, h.fOffset, h.readOffset, hnull,
        fun _ => hr.agree hr' ⟨rfl, rfl, rfl⟩ ⟨rfl, rfl, rfl⟩ rfl rfl⟩
    exact (InStep.ended hstep hr.nonnull).from ⟨rfl, rfl, rfl⟩ ⟨rfl, rfl, rfl⟩

/-- The offset of the data does not matter for a pointer. -/
theorem deref_located (host : Host w) (fs : Sdbfs w σ) (offset : BitVec w) (p : RecordPtr w) :
    Sdbfs.deref host { fs with fOffset := offset } p = fs.deref host p :=
  deref_congr ⟨rfl, rfl, rfl⟩ rfl p

theorem scanOut_lockstep {g : Sdbfs w σ} {g' : Sdbfs w τ} {p p' : RecordPtr w} {rec : Record}
    (hin : InStep host host' fs fs' (g, p) (g', p')) (hrec : g.deref host g.currentp = some rec) :
    Option.Rel (InStep host host' fs fs') (scanOut host g p) (scanOut host' g' p') := by
  have hl : Lockstep host g host' g' := hin.lockstep
  have hbase : g'.base g'.depth = g.base g.depth := by rw [hl.base, hl.depth]
  rw [scanOut_eq hrec, scanOut_eq ((hl.current hin.held).trans hrec), hbase]
  refine Option.Rel.some ⟨hin.same, hin.same', ?_, hin.held, hin.null, hin.current⟩
  refine ⟨hl.entrypoint, hl.base, hl.thisPos, hl.nleft, hl.depth, hl.fLen, rfl, hl.readOffset,
    hl.null, ?_⟩
  intro hn
  rw [deref_located, deref_located]
  exact hl.current hn

/-- How a call starts is decided by the state and the record at hand. -/
theorem scanStart_lockstep (h : Lockstep host fs host' fs') (newscan : Bool)
    (hcur : newscan = false → fs.currentp.isNull = false) :
    scanStart host fs newscan = none ∧ scanStart host' fs' newscan = none ∨
    ∃ s s' d enter, scanStart host fs newscan = some (s, d, enter) ∧
      scanStart host' fs' newscan = some (s', d, enter) ∧ Lockstep host s host' s' ∧
      SameDevice fs s ∧ SameDevice fs' s' ∧ (enter = false → s.currentp.isNull = false) := by
  cases newscan with
  | true =>
      refine Or.inr ⟨restart fs, restart fs', 0, true, rfl, rfl, ?_, ⟨rfl, rfl, rfl⟩,
        ⟨rfl, rfl, rfl⟩, fun h => absurd h (by decide)⟩
      refine ⟨h.entrypoint, ?_, ?_, h.nleft, rfl, h.fLen, h.fOffset, h.readOffset, h.null,
        h.current⟩
      · show Function.update fs'.base 0 0 = Function.update fs.base 0 0
        rw [h.base]
      · show Function.update fs'.thisPos 0 fs'.entrypoint = Function.update fs.thisPos 0 fs.entrypoint
        rw [h.thisPos, h.entrypoint]
  | false =>
      have heq : fs'.deref host' fs'.currentp = fs.deref host fs.currentp := h.current (hcur rfl)
      cases hrec : fs.deref host fs.currentp with
      | none =>
          refine Or.inl ⟨congrArg (Option.map _) hrec, ?_⟩
          exact congrArg (Option.map _) (heq.trans hrec)
      | some rec =>
          by_cases hb : IsBridge rec ∧ fs.depth + 1 < SDBFS_DEPTH
          · refine Or.inr ⟨descend fs rec, descend fs' rec, fs.depth + 1, true,
              scanStart_descend hrec hb.1 hb.2, ?_, ?_, ⟨rfl, rfl, rfl⟩,
              ⟨rfl, rfl, rfl⟩, fun h => absurd h (by decide)⟩
            · rw [← h.depth]
              exact scanStart_descend (heq.trans hrec) hb.1 (h.depth ▸ hb.2)
            · refine ⟨h.entrypoint, ?_, ?_, h.nleft, h.depth, h.fLen, h.fOffset, h.readOffset,
                h.null, h.current⟩
              · show Function.update fs'.base (fs'.depth + 1) _ = _
                rw [h.base, h.depth]
                rfl
              · show Function.update fs'.thisPos (fs'.depth + 1) _ = _
                rw [h.thisPos, h.base, h.depth]
                rfl
          · refine Or.inr ⟨fs, fs', fs.depth, false, scanStart_stay hrec hb, ?_, h,
              SameDevice.refl fs, SameDevice.refl fs', fun _ => hcur rfl⟩
            rw [← h.depth]
            exact scanStart_stay (heq.trans hrec) (h.depth ▸ hb)

/-- **A call of `sdbfs_scan` is in step** on two devices that hand out the same
    records at the positions it reads. -/
theorem sdbfsScan_lockstep (hs : Serves host fs content P) (hs' : Serves host' fs' content P)
    (h : Lockstep host fs host' fs') {newscan : Bool}
    (hcur : newscan = false → fs.currentp.isNull = false)
    (hreads : ∀ pos ∈ scanReads host fs newscan, P pos) :
    Option.Rel (InStep host host' fs fs') (sdbfsScan host fs newscan)
      (sdbfsScan host' fs' newscan) := by
  rcases scanStart_lockstep h newscan hcur with ⟨hstart, hstart'⟩ |
    ⟨s, s', d, enter, hstart, hstart', hstep, hsame, hsame', hheld⟩
  · rw [sdbfsScan, sdbfsScan, hstart, hstart']
    exact Option.Rel.none
  rw [scanReads, hstart] at hreads
  have hss := hs.same hsame
  have hss' := hs'.same hsame'
  cases enter with
  | false =>
      rw [sdbfsScan_stay hstart, sdbfsScan_stay hstart']
      exact relFrom hsame hsame' (scanNext_lockstep hss hss' hstep (hheld rfl) hreads)
  | true =>
      obtain ⟨⟨g, p⟩, ⟨g', p'⟩, hnew, hnew', hin, hrec⟩ :=
        scanNewdir_lockstep hss hss' hstep (hreads _ List.mem_cons_self)
      simp only [hnew, newdirReads] at hreads
      have hnull : p'.isNull = p.isNull := hin.null
      have hgs := hsame.trans hin.same
      have hgs' := hsame'.trans hin.same'
      rw [sdbfsScan_enter hstart hnew, sdbfsScan_enter hstart' hnew', hnull]
      by_cases hp : p.isNull = true
      · rw [if_pos hp] at hreads
        rw [if_pos hp, if_pos hp]
        by_cases hd : d = 0
        · rw [if_pos hd, if_pos hd]
          exact Option.Rel.some ((InStep.ended hin.lockstep hin.held).from hgs hgs')
        · rw [if_neg hd] at hreads
          rw [if_neg hd, if_neg hd]
          exact relFrom hgs hgs' (scanNext_lockstep (hs.same hgs) (hs'.same hgs') hin.lockstep
            hin.held fun pos hpos => hreads pos (List.mem_cons_of_mem _ hpos))
      · rw [if_neg hp, if_neg hp]
        exact scanOut_lockstep (hin.from hsame hsame') hrec

end calls

/-! ## Whole scans -/

/-- The same outcome of a loop, and related results if it ended. -/
inductive OutcomeRel {α β : Type} (R : α → β → Prop) : Outcome α → Outcome β → Prop where
  | undefined : OutcomeRel R .undefined .undefined
  | running : OutcomeRel R .running .running
  | done {a : α} {b : β} (h : R a b) : OutcomeRel R (.done a) (.done b)

/-- The positions that `scanAll` reads. -/
def scanAllReads (host : Host w) : Nat → Sdbfs w σ → Bool → List (BitVec w)
  | 0, _, _ => []
  | n + 1, fs, new =>
      scanReads host fs new ++
        match sdbfsScan host fs new with
        | none => []
        | some (fs, d) => if d.isNull then [] else scanAllReads host n fs false

/-- A record as its reader sees it, wherever it is kept. -/
def seen (r : Returned w) : Record × Nat × BitVec w := (r.record, r.depth, r.fOffset)

/-- A whole scan finds the same records, at the same depths and offsets. -/
theorem scanAll_lockstep : ∀ {n : Nat} {fs : Sdbfs w σ} {fs' : Sdbfs w τ} {new : Bool},
    Serves host fs content P → Serves host' fs' content P → Lockstep host fs host' fs' →
    (new = false → fs.currentp.isNull = false) →
    (∀ pos ∈ scanAllReads host n fs new, P pos) →
    OutcomeRel (fun r r' => r'.2.map seen = r.2.map seen)
      (scanAll host n fs new) (scanAll host' n fs' new) := by
  intro n
  induction n with
  | zero =>
      intro fs fs' new _ _ _ _ _
      exact OutcomeRel.running
  | succ n ih =>
      intro fs fs' new hs hs' h hcur hreads
      rw [scanAllReads] at hreads
      have hcall := sdbfsScan_lockstep hs hs' h hcur
        fun pos hpos => hreads pos (List.mem_append_left _ hpos)
      rw [scanAll, scanAll]
      generalize sdbfsScan host fs new = call at hcall hreads ⊢
      generalize sdbfsScan host' fs' new = call' at hcall ⊢
      cases hcall with
      | none => exact OutcomeRel.undefined
      | @some r r' hin =>
          obtain ⟨g, p⟩ := r
          obtain ⟨g', p'⟩ := r'
          have hnull : p'.isNull = p.isNull := hin.null
          show OutcomeRel _ (if p.isNull then _ else _) (if p'.isNull then _ else _)
          rw [hnull]
          by_cases hp : p.isNull = true
          · rw [if_pos hp, if_pos hp]
            exact OutcomeRel.done rfl
          · have hmore : ∀ pos ∈ scanAllReads host n g false, P pos := by
              intro pos hpos
              refine hreads pos (List.mem_append_right _ ?_)
              show pos ∈ (if p.isNull then [] else _)
              rw [if_neg hp]
              exact hpos
            have hrest := ih (hs.same hin.same) (hs'.same hin.same') hin.lockstep
              (fun _ => hin.held) hmore
            have hrecord : g'.deref host' p' = g.deref host p :=
              hin.record (Bool.eq_false_iff.mpr hp)
            rw [if_neg hp, if_neg hp, hrecord]
            generalize scanAll host n g false = more at hrest ⊢
            generalize scanAll host' n g' false = more' at hrest ⊢
            cases g.deref host p with
            | none => exact OutcomeRel.undefined
            | some rec =>
                cases hrest with
                | undefined => exact OutcomeRel.undefined
                | running => exact OutcomeRel.running
                | done hsame =>
                    refine OutcomeRel.done ?_
                    show seen (⟨p', rec, g'.fOffset, g'.depth⟩ : Returned w) :: _ = _ :: _
                    have hoffset : g'.fOffset = g.fOffset := hin.lockstep.fOffset
                    have hdepth : g'.depth = g.depth := hin.lockstep.depth
                    rw [hsame, hoffset, hdepth]
                    rfl

/-- The positions that the loop of the open functions reads. -/
def openLoopReads (host : Host w) (found : Record → Bool) : Nat → Sdbfs w σ → List (BitVec w)
  | 0, _ => []
  | n + 1, fs =>
      scanReads host fs false ++
        match sdbfsScan host fs false with
        | none => []
        | some (fs, d) =>
            if d.isNull then []
            else
              match fs.deref host d with
              | none => []
              | some dev => if found dev then [] else openLoopReads host found n fs

/-- The positions that a search reads. -/
def openScanReads (host : Host w) (found : Record → Bool) (n : Nat) (fs : Sdbfs w σ) :
    List (BitVec w) :=
  scanReads host fs true ++
    match sdbfsScan host fs true with
    | none => []
    | some (fs, _) => openLoopReads host found n fs

/-- Two states after a call, and what it returned. -/
structure SameReturn {α : Type} (host host' : Host w) (fs : Sdbfs w σ) (fs' : Sdbfs w τ)
    (r : Sdbfs w σ × α) (r' : Sdbfs w τ × α) : Prop where
  same : SameDevice fs r.1
  same' : SameDevice fs' r'.1
  lockstep : Lockstep host r.1 host' r'.1
  value : r'.2 = r.2

/-- Outcomes, from a state before. -/
theorem outcomeFrom {α : Type} {fs s : Sdbfs w σ} {fs' s' : Sdbfs w τ} (h : SameDevice fs s)
    (h' : SameDevice fs' s') {r : Outcome (Sdbfs w σ × α)} {r' : Outcome (Sdbfs w τ × α)}
    (hr : OutcomeRel (SameReturn host host' s s') r r') :
    OutcomeRel (SameReturn host host' fs fs') r r' := by
  cases hr with
  | undefined => exact OutcomeRel.undefined
  | running => exact OutcomeRel.running
  | done hr => exact OutcomeRel.done ⟨h.trans hr.same, h'.trans hr.same', hr.lockstep, hr.value⟩

/-- Opening the record both devices have at hand. -/
theorem openCurrent_lockstep {fs : Sdbfs w σ} {fs' : Sdbfs w τ} (h : Lockstep host fs host' fs')
    (rec : Record) {p p' : RecordPtr w} (hnull : p'.isNull = p.isNull)
    (hrecord : fs'.deref host' p' = fs.deref host p) :
    Lockstep host (openCurrent { fs with currentp := p } rec) host'
      (openCurrent { fs' with currentp := p' } rec) := by
  refine ⟨h.entrypoint, h.base, h.thisPos, h.nleft, h.depth, rfl, ?_, rfl, hnull, fun _ => ?_⟩
  · show fs'.base fs'.depth + _ = fs.base fs.depth + _
    rw [h.base, h.depth]
  · have hsame : (openCurrent { fs with currentp := p } rec).deref host p = fs.deref host p :=
      deref_congr ⟨rfl, rfl, rfl⟩ rfl p
    have hsame' : (openCurrent { fs' with currentp := p' } rec).deref host' p' =
        fs'.deref host' p' := deref_congr ⟨rfl, rfl, rfl⟩ rfl p'
    exact hsame'.trans (hrecord.trans hsame.symm)

/-- The loop ends on both devices alike, at the same record. -/
theorem openLoop_lockstep (found : Record → Bool) : ∀ {n : Nat} {fs : Sdbfs w σ} {fs' : Sdbfs w τ},
    Serves host fs content P → Serves host' fs' content P → Lockstep host fs host' fs' →
    fs.currentp.isNull = false → (∀ pos ∈ openLoopReads host found n fs, P pos) →
    OutcomeRel (SameReturn host host' fs fs') (openLoop host found n fs)
      (openLoop host' found n fs') := by
  intro n
  induction n with
  | zero =>
      intro fs fs' _ _ _ _ _
      exact OutcomeRel.running
  | succ n ih =>
      intro fs fs' hs hs' h hcur hreads
      rw [openLoopReads] at hreads
      have hcall := sdbfsScan_lockstep hs hs' h (fun _ => hcur)
        fun pos hpos => hreads pos (List.mem_append_left _ hpos)
      rw [openLoop, openLoop]
      generalize sdbfsScan host fs false = call at hcall hreads ⊢
      generalize sdbfsScan host' fs' false = call' at hcall ⊢
      cases hcall with
      | none => exact OutcomeRel.undefined
      | @some r r' hin =>
          obtain ⟨g, p⟩ := r
          obtain ⟨g', p'⟩ := r'
          have hnull : p'.isNull = p.isNull := hin.null
          have hl : Lockstep host g host' g' := hin.lockstep
          show OutcomeRel _ (if p.isNull then _ else _) (if p'.isNull then _ else _)
          rw [hnull]
          by_cases hp : p.isNull = true
          · rw [if_pos hp, if_pos hp]
            exact OutcomeRel.done ⟨hin.same, hin.same', hl, rfl⟩
          · have hmore := fun pos hpos => hreads pos (List.mem_append_right _ hpos)
            have hrecord : g'.deref host' p' = g.deref host p :=
              hin.record (Bool.eq_false_iff.mpr hp)
            simp only [if_neg hp] at hmore
            rw [if_neg hp, if_neg hp, hrecord]
            cases hrec : g.deref host p with
            | none => exact OutcomeRel.undefined
            | some dev =>
                simp only [hrec] at hmore
                show OutcomeRel _ (if found dev then _ else _) (if found dev then _ else _)
                by_cases hf : found dev = true
                · rw [if_pos hf, if_pos hf]
                  exact OutcomeRel.done ⟨hin.same, hin.same',
                    openCurrent_lockstep hl dev hnull hrecord, rfl⟩
                · rw [if_neg hf] at hmore
                  rw [if_neg hf, if_neg hf]
                  exact outcomeFrom hin.same hin.same' (ih (hs.same hin.same) (hs'.same hin.same')
                    hl hin.held hmore)

/-- A search ends on both devices alike, with the same value and the same file open. -/
theorem openScan_lockstep (found : Record → Bool) {n : Nat} {fs : Sdbfs w σ} {fs' : Sdbfs w τ}
    (hs : Serves host fs content P) (hs' : Serves host' fs' content P)
    (h : Lockstep host fs host' fs') (hreads : ∀ pos ∈ openScanReads host found n fs, P pos) :
    OutcomeRel (SameReturn host host' fs fs') (openScan host found n fs)
      (openScan host' found n fs') := by
  rw [openScanReads] at hreads
  have hcall := sdbfsScan_lockstep hs hs' h (fun hnew => absurd hnew (by decide))
    fun pos hpos => hreads pos (List.mem_append_left _ hpos)
  rw [openScan, openScan]
  generalize sdbfsScan host fs true = call at hcall hreads ⊢
  generalize sdbfsScan host' fs' true = call' at hcall ⊢
  cases hcall with
  | none => exact OutcomeRel.undefined
  | some hin =>
      exact outcomeFrom hin.same hin.same' (openLoop_lockstep found (hs.same hin.same)
        (hs'.same hin.same') hin.lockstep hin.held
        fun pos hpos => hreads pos (List.mem_append_right _ hpos))

end SdbfsLockstep
