import FpgaConfigSpace.SlaveDevice

/-! # What a slave context inherits

    `char_slave_open` leaves some of the memory of a new context as `kmalloc` returned
    it.  Two runs that start in different memory are compared call by call.  They stay
    alike until an answer is given with a value that was never written. -/

namespace WbSlaveMemory

open BigEndian WbIovec WbWishbone WbSlave WbSlaveParser WbTransducer WbSlaveWrite WbSlaveRuns
open WbSlaveRequests WbSlaveDevice CyclicBuffer

variable {σ : Type} (wops : WishboneOperations σ)

/-! ## The first use of the value -/

/-- What happens to the value of a context first. -/
inductive DataUse where
  /-- It is not touched. -/
  | kept
  /-- It is written. -/
  | written
  /-- An answer is given with it. -/
  | answered
deriving DecidableEq

/-- The first use in two steps one after the other. -/
def DataUse.andThen : DataUse → DataUse → DataUse
  | .kept, u => u
  | u, _ => u

/-- A record of which no write is looked at. -/
def Idle (r : EbRecord) : Prop :=
  r.rcount ≠ 0 ∨ r.writes = [] ∨ r.be ≠ 0xf ∨ r.flags &&& ETHERBONE_WCA = 0

instance (r : EbRecord) : Decidable (Idle r) := inferInstanceAs (Decidable (_ ∨ _))

/-- The first use in a record, which its base address decides. -/
def firstUse (r : EbRecord) (pendingErr : Nat) : DataUse :=
  if Idle r then .kept
  else if r.base = WBA_DATA then .written
  else if r.base = WBA_ERR ∧ pendingErr ≠ 0 then .answered
  else .kept

/-- The same parser with another value. -/
def withData (s : ParserState) (d : Word) : ParserState := { s with data := d }

/-- An idle record fails or does nothing, whatever the state is. -/
theorem cfgExec_idle {r : EbRecord} (h : Idle r) :
    ∃ f : Bool, ∀ s, cfgExec r s = (if f then { s with failed := true } else s, []) := by
  by_cases hr : r.rcount ≠ 0
  · exact ⟨true, fun s => if_pos hr⟩
  by_cases hw : r.writes = []
  · refine ⟨false, fun s => ?_⟩
    rw [cfgExec, if_neg hr, if_pos hw]
    rfl
  refine ⟨true, fun s => ?_⟩
  rw [cfgExec, if_neg hr, if_neg hw, if_pos ((h.resolve_left hr).resolve_left hw)]
  rfl

/-- The writes of another record are executed. -/
theorem cfgExec_busy {r : EbRecord} (h : ¬ Idle r) (s : ParserState) :
    cfgExec r s = cfgWrites r.increment r.base r.writes s ∧ r.writes ≠ [] := by
  rw [Idle, not_or, not_or] at h
  obtain ⟨hr, hw, hb⟩ := h
  rw [cfgExec, if_neg hr, if_neg hw, if_neg hb]
  exact ⟨rfl, hw⟩

/-- A record that does not use the value. -/
theorem cfgExec_kept {r : EbRecord} {s : ParserState} (h : firstUse r s.pendingErr = .kept)
    (d : Word) :
    (cfgExec r s).2 = [] ∧ (cfgExec r s).1.data = s.data ∧
      cfgExec r (withData s d) = (withData (cfgExec r s).1 d, []) := by
  rw [firstUse] at h
  by_cases hidle : Idle r
  · obtain ⟨f, hf⟩ := cfgExec_idle hidle
    rw [hf, hf]
    cases f with
    | true => exact ⟨rfl, rfl, rfl⟩
    | false => exact ⟨rfl, rfl, rfl⟩
  · rw [if_neg hidle] at h
    obtain ⟨hexec, hw⟩ := cfgExec_busy hidle s
    rw [hexec, (cfgExec_busy hidle (withData s d)).1]
    obtain ⟨x, xs, hx⟩ := List.exists_cons_of_ne_nil hw
    rw [hx, cfgWrites, cfgWrites]
    by_cases hdata : r.base = WBA_DATA
    · rw [if_pos hdata] at h
      cases h
    rw [if_neg hdata] at h
    rw [if_neg hdata, if_neg hdata]
    by_cases herr : r.base = WBA_ERR ∧ s.pendingErr ≠ 0
    · rw [if_pos herr] at h
      cases h
    · rw [if_neg herr, if_neg (show ¬ (r.base = WBA_ERR ∧ (withData s d).pendingErr ≠ 0) from herr)]
      exact ⟨rfl, rfl, rfl⟩

/-- A record that writes the value first. -/
theorem cfgExec_written {r : EbRecord} {s : ParserState}
    (h : firstUse r s.pendingErr = .written) (d : Word) :
    cfgExec r (withData s d) = cfgExec r s := by
  rw [firstUse] at h
  by_cases hidle : Idle r
  · rw [if_pos hidle] at h
    cases h
  · obtain ⟨hexec, hw⟩ := cfgExec_busy hidle s
    rw [hexec, (cfgExec_busy hidle (withData s d)).1]
    rw [if_neg hidle] at h
    obtain ⟨x, xs, hx⟩ := List.exists_cons_of_ne_nil hw
    rw [hx, cfgWrites, cfgWrites]
    by_cases hdata : r.base = WBA_DATA
    · rw [if_pos hdata, if_pos hdata]
      rfl
    · rw [if_neg hdata] at h
      split at h
      · cases h
      · cases h

/-- A record that answers with the value first. -/
theorem cfgExec_answered {r : EbRecord} {s : ParserState}
    (h : firstUse r s.pendingErr = .answered) :
    ∃ err, ∀ d, ∃ rest, (cfgExec r (withData s d)).2 = ⟨err, d⟩ :: rest := by
  rw [firstUse] at h
  by_cases hidle : Idle r
  · rw [if_pos hidle] at h
    cases h
  · rw [if_neg hidle] at h
    obtain ⟨x, xs, hx⟩ := List.exists_cons_of_ne_nil (cfgExec_busy hidle s).2
    by_cases hdata : r.base = WBA_DATA
    · rw [if_pos hdata] at h
      cases h
    · rw [if_neg hdata] at h
      by_cases herr : r.base = WBA_ERR ∧ s.pendingErr ≠ 0
      · refine ⟨x &&& 1, fun d => ⟨(cfgWrites r.increment (r.base + r.increment) xs
          { withData s d with pendingErr := s.pendingErr - 1 }).2, ?_⟩⟩
        rw [(cfgExec_busy hidle (withData s d)).1, hx, cfgWrites, if_neg hdata,
          if_pos (show r.base = WBA_ERR ∧ (withData s d).pendingErr ≠ 0 from herr)]
        rfl
      · rw [if_neg herr] at h
        cases h

/-! ## Contexts that are alike -/

/-- Two contexts that differ in the value and in bytes that are not in use. -/
structure Alike (ctx ctx' : EtherboneSlaveContext) : Prop where
  pendingErr : ctx'.pendingErr = ctx.pendingErr
  negotiated : ctx'.negotiated = ctx.negotiated
  rbufDone : ctx'.rbufDone = ctx.rbufDone
  rbufEnd : ctx'.rbufEnd = ctx.rbufEnd
  rbuf : ∀ i, i < ctx.rbufEnd → ctx'.rbuf i = ctx.rbuf i
  wbufFill : ctx'.wbufFill = ctx.wbufFill
  wbuf : ∀ i, i < ctx.wbufFill → ctx'.wbuf i = ctx.wbuf i
  bounded : Bounded ctx

/-- The traces differ in the value of an answer. -/
def Diverged (bus bus' : Bus σ) : Prop :=
  ∃ t err d d', d ≠ d' ∧ t ++ [.reply err d] <+: bus.trace ∧ t ++ [.reply err d'] <+: bus'.trace

/-- How two runs compare, that started with `d` and `d'`, by what they did with the
    value first. -/
def Lockstep (d d' : Word) (x x' : EtherboneSlaveContext × Bus σ) : DataUse → Prop
  | .kept => Alike x.1 x'.1 ∧ x.1.data = d ∧ x'.1.data = d' ∧ x'.2 = x.2
  | .written => Alike x.1 x'.1 ∧ x'.1.data = x.1.data ∧ x'.2 = x.2
  | .answered => Diverged x.2 x'.2

/-- Runs that have diverged stay so. -/
theorem Diverged.extend {bus bus' bus₂ bus₂' : Bus σ} (h : Diverged bus bus')
    (hx : bus.trace <+: bus₂.trace) (hx' : bus'.trace <+: bus₂'.trace) : Diverged bus₂ bus₂' := by
  obtain ⟨t, err, d, d', hne, h1, h2⟩ := h
  exact ⟨t, err, d, d', hne, h1.trans hx, h2.trans hx'⟩

/-- Then the answers differ. -/
theorem Diverged.answered_ne {bus bus' : Bus σ} (h : Diverged bus bus') :
    answered bus'.trace ≠ answered bus.trace := by
  obtain ⟨t, err, d, d', hne, ⟨r, hr⟩, ⟨r', hr'⟩⟩ := h
  intro heq
  rw [← hr, ← hr'] at heq
  simp only [answered_append, List.append_assoc] at heq
  have hcons := List.append_cancel_left heq
  exact hne (congrArg Reply.data (List.cons.inj hcons).1).symm

/-- Two contexts and one bus before a step that the value plays no part in. -/
theorem Lockstep.alike {d d' : Word} {ctx ctx' : EtherboneSlaveContext} {bus bus' : Bus σ}
    {u : DataUse} (h : Lockstep d d' (ctx, bus) (ctx', bus') u) (hu : u ≠ .answered) :
    Alike ctx ctx' ∧ bus' = bus := by
  cases u with
  | kept => exact ⟨h.1, h.2.2.2⟩
  | written => exact ⟨h.1, h.2.2⟩
  | answered => exact absurd rfl hu

/-- The same after it. -/
theorem Lockstep.keep {d d' : Word} {ctx ctx' : EtherboneSlaveContext} {bus bus' : Bus σ}
    {u : DataUse} (h : Lockstep d d' (ctx, bus) (ctx', bus') u) (hu : u ≠ .answered)
    {y y' : EtherboneSlaveContext} (halike : Alike y y') (hdata : y.data = ctx.data)
    (hdata' : y'.data = ctx'.data) (bus₂ : Bus σ) : Lockstep d d' (y, bus₂) (y', bus₂) u := by
  cases u with
  | kept => exact ⟨halike, hdata.trans h.2.1, hdata'.trans h.2.2.1, rfl⟩
  | written => exact ⟨halike, (hdata'.trans h.2.1).trans hdata.symm, rfl⟩
  | answered => exact absurd rfl hu

/-- Two iterations of the write loop. -/
def SameIteration (d d' : Word) (u : DataUse) (r r' : WriteIteration σ) : Prop :=
  Lockstep d d' (r.ctx, r.bus) (r'.ctx, r'.bus) u ∧
    (u ≠ .answered → r'.len = r.len ∧ r'.broke = r.broke)

theorem DataUse.andThen_kept (u : DataUse) : u.andThen .kept = u := by
  cases u with
  | kept => rfl
  | written => rfl
  | answered => rfl

/-- Uses one after the other. -/
theorem DataUse.andThen_assoc (u v z : DataUse) :
    (u.andThen v).andThen z = u.andThen (v.andThen z) := by
  cases u with
  | kept => rfl
  | written => rfl
  | answered => rfl

/-! ## One iteration of the write loop -/

/-- Answers with different values. -/
theorem diverged_replies (bus : Bus σ) {err d d' : Word} (hne : d ≠ d') (rest rest' : List Reply) :
    Diverged (replyAll wops (⟨err, d⟩ :: rest) bus) (replyAll wops (⟨err, d'⟩ :: rest') bus) := by
  have hpre : ∀ (x : Word) (rs : List Reply),
      bus.trace ++ [.reply err x] <+: (replyAll wops (⟨err, x⟩ :: rs) bus).trace := by
    intro x rs
    rw [replyAll_trace]
    exact ⟨rs.map fun r => .reply r.err r.data, List.append_assoc _ _ _⟩
  exact ⟨bus.trace, err, d, d', hne, hpre d rest, hpre d' rest'⟩

/-- The record in `wbuf`. -/
def recordIn (wbuf : Nat → Byte) : EbRecord := EbRecord.ofBytes (load wbuf 0 (slaveRecordLen wbuf))

/-- What a parsed record leaves. -/
def executed (ctx : EtherboneSlaveContext) (bus : Bus σ) (t : ParserState × List Reply) :
    Except Errno Unit × EtherboneSlaveContext × Bus σ :=
  (if t.1.failed then .error .eio else .ok (),
    { ctx with pendingErr := t.1.pendingErr, data := t.1.data }, replyAll wops t.2 bus)

/-- What a record does is what its commands do. -/
theorem inProcess_eq (ctx : EtherboneSlaveContext) (bus : Bus σ) :
    etherboneSlaveInProcess wops ctx bus =
      executed wops ctx bus (cfgExec (recordIn ctx.wbuf) (parserOf ctx)) :=
  (etherboneSlaveInProcess_spec wops ctx bus).1

/-- The first use in `etherbone_slave_in_process`. -/
theorem inProcess_lockstep {d d' : Word} (hne : d ≠ d') {ctx ctx' : EtherboneSlaveContext}
    {bus bus' : Bus σ} {u : DataUse} (h : Lockstep d d' (ctx, bus) (ctx', bus') u)
    (hu : u ≠ .answered) (hrec : recordIn ctx'.wbuf = recordIn ctx.wbuf) :
    Lockstep d d' (etherboneSlaveInProcess wops ctx bus).2
      (etherboneSlaveInProcess wops ctx' bus').2
      (u.andThen (firstUse (recordIn ctx.wbuf) ctx.pendingErr)) ∧
    (u.andThen (firstUse (recordIn ctx.wbuf) ctx.pendingErr) ≠ .answered →
      (etherboneSlaveInProcess wops ctx' bus').1 = (etherboneSlaveInProcess wops ctx bus).1) := by
  obtain ⟨halike, rfl⟩ := h.alike hu
  have hparser : parserOf ctx' = withData (parserOf ctx) ctx'.data := by
    rw [parserOf, parserOf, halike.pendingErr, halike.negotiated]
    rfl
  rw [inProcess_eq, inProcess_eq, hrec, hparser]
  generalize recordIn ctx.wbuf = r
  have hsame : ∀ {pendingErr : Nat} {data : Word},
      Alike { ctx with pendingErr := pendingErr, data := data }
        { ctx' with pendingErr := pendingErr, data := data } := fun {_} {_} =>
    ⟨rfl, halike.negotiated, halike.rbufDone, halike.rbufEnd, halike.rbuf, halike.wbufFill,
      halike.wbuf, halike.bounded⟩
  cases u with
  | answered => exact absurd rfl hu
  | written =>
      -- the values agree, and so does everything that follows
      have heq : withData (parserOf ctx) ctx'.data = parserOf ctx := by
        rw [h.2.1]
        rfl
      rw [heq]
      exact ⟨⟨hsame, rfl, rfl⟩, fun _ => rfl⟩
  | kept =>
      obtain ⟨_, hd, hd', _⟩ := h
      cases huse : firstUse r ctx.pendingErr with
      | kept =>
          obtain ⟨hnone, hdata, hother⟩ := cfgExec_kept (s := parserOf ctx) huse ctx'.data
          rw [hother, executed, executed, hnone]
          have hquiet : (cfgExec r (parserOf ctx)).1.data = d := hdata.trans hd
          refine ⟨⟨?_, hquiet, hd', rfl⟩, fun _ => rfl⟩
          exact ⟨rfl, halike.negotiated, halike.rbufDone, halike.rbufEnd, halike.rbuf,
            halike.wbufFill, halike.wbuf, halike.bounded⟩
      | written =>
          rw [cfgExec_written (s := parserOf ctx) huse]
          exact ⟨⟨hsame, rfl, rfl⟩, fun _ => rfl⟩
      | answered =>
          refine ⟨?_, fun hv => absurd rfl hv⟩
          obtain ⟨err, hreply⟩ := cfgExec_answered (s := parserOf ctx) huse
          obtain ⟨rest, hrest⟩ := hreply ctx.data
          obtain ⟨rest', hrest'⟩ := hreply ctx'.data
          have heq : withData (parserOf ctx) ctx.data = parserOf ctx := rfl
          rw [heq] at hrest
          show Diverged (replyAll wops (cfgExec r (parserOf ctx)).2 bus')
            (replyAll wops (cfgExec r (withData (parserOf ctx) ctx'.data)).2 bus')
          rw [hrest, hrest', hd, hd']
          exact diverged_replies wops bus' hne rest rest'

/-- What an iteration does with the value first. -/
def bodyUse (iov : Iovec) (iovOff iovLen : Nat) (ctx : EtherboneSlaveContext) : DataUse :=
  if ctx.wbufFill < 4 ∨ ctx.negotiated = false then .kept
  else
    let bufLen := subU32 (slaveRecordLen ctx.wbuf) ctx.wbufFill
    if bufLen > iovLen then .kept
    else
      firstUse (recordIn (store ctx.wbuf ctx.wbufFill (memcpyFromiovecend iov iovOff bufLen)))
        ctx.pendingErr

/-- The same bytes behind those that are in use. -/
theorem store_alike {wbuf wbuf' : Nat → Byte} {fill : Nat}
    (h : ∀ i, i < fill → wbuf' i = wbuf i) (block : List Byte) :
    ∀ i, i < fill + block.length → store wbuf' fill block i = store wbuf fill block i := by
  intro i hi
  by_cases hlow : i < fill
  · rw [store_outside _ (.inl hlow), store_outside _ (.inl hlow)]
    exact h i hlow
  · obtain ⟨k, rfl⟩ : ∃ k, i = fill + k := ⟨i - fill, by omega⟩
    rw [store_inside _ _ _ _ (by omega), store_inside _ _ _ _ (by omega)]

/-- A record that is complete in both buffers. -/
theorem recordIn_alike {wbuf wbuf' : Nat → Byte} {n : Nat} (h4 : 4 ≤ n)
    (hlen : slaveRecordLen wbuf ≤ n) (h : ∀ i, i < n → wbuf' i = wbuf i) :
    recordIn wbuf' = recordIn wbuf := by
  have hsize : slaveRecordLen wbuf' = slaveRecordLen wbuf := by
    rw [slaveRecordLen, slaveRecordLen, h 2 (by omega), h 3 (by omega)]
  rw [recordIn, recordIn, hsize]
  refine congrArg EbRecord.ofBytes (load_congr ?_)
  intro k hk
  rw [Nat.zero_add]
  exact h k (by omega)

/-- **One iteration of the write loop keeps the step.** -/
theorem slaveWriteBody_lockstep {d d' : Word} (hne : d ≠ d') {ctx ctx' : EtherboneSlaveContext}
    {bus bus' : Bus σ} {u : DataUse} (h : Lockstep d d' (ctx, bus) (ctx', bus') u)
    (hu : u ≠ .answered) (iov : Iovec) (iovOff iovLen : Nat)
    (hle : iovLen ≤ (iov.flatten.drop iovOff).length) :
    SameIteration d d' (u.andThen (bodyUse iov iovOff iovLen ctx))
      (slaveWriteBody wops iov iovOff iovLen ctx bus)
      (slaveWriteBody wops iov iovOff iovLen ctx' bus') := by
  obtain ⟨halike, rfl⟩ := h.alike hu
  have hblock : ∀ len, len ≤ iovLen → (memcpyFromiovecend iov iovOff len).length = len := by
    intro len hlen
    rw [memcpyFromiovecend_eq, List.length_take]
    omega
  have hcopied : ∀ len, len ≤ iovLen → Alike
      { ctx with
        wbuf := store ctx.wbuf ctx.wbufFill (memcpyFromiovecend iov iovOff len)
        wbufFill := ctx.wbufFill + len }
      { ctx' with
        wbuf := store ctx'.wbuf ctx.wbufFill (memcpyFromiovecend iov iovOff len)
        wbufFill := ctx.wbufFill + len } := by
    intro len hlen
    refine ⟨halike.pendingErr, halike.negotiated, halike.rbufDone, halike.rbufEnd, halike.rbuf,
      rfl, ?_, halike.bounded⟩
    intro i hi
    exact store_alike halike.wbuf _ i (by rw [hblock len hlen]; exact hi)
  have hquiet : ∀ {y y' : EtherboneSlaveContext} (len : Nat) (broke : Bool), Alike y y' →
      y.data = ctx.data → y'.data = ctx'.data →
      SameIteration d d' u ⟨len, broke, y, bus'⟩ ⟨len, broke, y', bus'⟩ := by
    intro y y' len broke hy hdata hdata'
    exact ⟨h.keep hu hy hdata hdata' bus', fun _ => ⟨rfl, rfl⟩⟩
  rw [slaveWriteBody, slaveWriteBody, slaveWriteBodyWith, slaveWriteBodyWith, halike.wbufFill]
  dsimp only
  by_cases hfill : ctx.wbufFill < 4
  · have huse : bodyUse iov iovOff iovLen ctx = .kept := if_pos (.inl hfill)
    rw [if_pos hfill, if_pos hfill, huse, DataUse.andThen_kept]
    exact hquiet _ false (hcopied _ (by split <;> omega)) rfl rfl
  rw [if_neg hfill, if_neg hfill]
  have hhead : ∀ i, i < 4 → ctx'.wbuf i = ctx.wbuf i := fun i hi => halike.wbuf i (by omega)
  by_cases hneg : ctx.negotiated = false
  · have huse : bodyUse iov iovOff iovLen ctx = .kept := if_pos (.inr hneg)
    have hprobe : probeAccepted ctx'.wbuf = probeAccepted ctx.wbuf := by
      rw [probeAccepted, probeAccepted, hhead 0 (by decide), hhead 1 (by decide),
        hhead 2 (by decide), hhead 3 (by decide)]
    rw [if_pos hneg, if_pos (halike.negotiated.trans hneg), huse, DataUse.andThen_kept, hprobe]
    by_cases haccept : probeAccepted ctx.wbuf = true
    · rw [if_pos haccept, if_pos haccept]
      refine hquiet 0 false ?_ rfl rfl
      exact ⟨halike.pendingErr, rfl, halike.rbufDone, halike.rbufEnd, halike.rbuf, rfl,
        fun i hi => absurd hi (Nat.not_lt_zero i), halike.bounded⟩
    · rw [if_neg haccept, if_neg haccept]
      exact hquiet 0 true halike rfl rfl
  rw [if_neg hneg, if_neg fun h' => hneg (halike.negotiated.symm.trans h')]
  have hsize : slaveRecordLen ctx'.wbuf = slaveRecordLen ctx.wbuf := by
    rw [slaveRecordLen, slaveRecordLen, hhead 2 (by decide), hhead 3 (by decide)]
  have hmore : ¬ (ctx.wbufFill < 4 ∨ ctx.negotiated = false) := not_or.mpr ⟨hfill, hneg⟩
  rw [hsize]
  obtain ⟨bufLen, hbufLen⟩ : ∃ bufLen, subU32 (slaveRecordLen ctx.wbuf) ctx.wbufFill = bufLen :=
    ⟨_, rfl⟩
  rw [hbufLen]
  by_cases hpart : bufLen > iovLen
  · have huse : bodyUse iov iovOff iovLen ctx = .kept := by
      rw [bodyUse, if_neg hmore, hbufLen]
      exact if_pos hpart
    rw [if_pos hpart, if_pos hpart, huse, DataUse.andThen_kept]
    exact hquiet iovLen false (hcopied iovLen (Nat.le_refl iovLen)) rfl rfl
  · have hlen := Nat.le_of_not_lt hpart
    have huse : bodyUse iov iovOff iovLen ctx = firstUse (recordIn (store ctx.wbuf ctx.wbufFill
        (memcpyFromiovecend iov iovOff bufLen))) ctx.pendingErr := by
      rw [bodyUse, if_neg hmore, hbufLen]
      exact if_neg hpart
    rw [if_neg hpart, if_neg hpart, huse]
    -- the record is complete, and both buffers hold the same
    have hblen := hblock bufLen hlen
    generalize memcpyFromiovecend iov iovOff bufLen = block at hblen hcopied ⊢
    have hheader : slaveRecordLen (store ctx.wbuf ctx.wbufFill block) =
        slaveRecordLen ctx.wbuf := by
      rw [slaveRecordLen, slaveRecordLen, store_outside _ (.inl (by omega)),
        store_outside _ (.inl (by omega))]
    have hfull : slaveRecordLen ctx.wbuf ≤ ctx.wbufFill + bufLen := by
      have hsmall := recordLen_le (ctx.wbuf 2) (ctx.wbuf 3)
      rw [← slaveRecordLen_eq] at hsmall
      rw [subU32] at hbufLen
      omega
    have hrec : recordIn (store ctx'.wbuf ctx.wbufFill block) =
        recordIn (store ctx.wbuf ctx.wbufFill block) := by
      refine recordIn_alike (n := ctx.wbufFill + block.length) (by omega) ?_
        (store_alike halike.wbuf block)
      rw [hheader, hblen]
      exact hfull
    have hz : Alike { ctx with wbuf := store ctx.wbuf ctx.wbufFill block, wbufFill := 0 }
        { ctx' with wbuf := store ctx'.wbuf ctx.wbufFill block, wbufFill := 0 } :=
      ⟨halike.pendingErr, halike.negotiated, halike.rbufDone, halike.rbufEnd, halike.rbuf, rfl,
        fun i hi => absurd hi (Nat.not_lt_zero i), halike.bounded⟩
    obtain ⟨hstep, hresult⟩ := inProcess_lockstep wops hne (h.keep hu hz rfl rfl bus') hu hrec
    generalize etherboneSlaveInProcess wops
      { ctx with wbuf := store ctx.wbuf ctx.wbufFill block, wbufFill := 0 } bus' = r
      at hstep hresult ⊢
    generalize etherboneSlaveInProcess wops
      { ctx' with wbuf := store ctx'.wbuf ctx.wbufFill block, wbufFill := 0 } bus' = r'
      at hstep hresult ⊢
    refine ⟨?_, ?_⟩
    · cases r.1 <;> cases r'.1 <;> exact hstep
    · intro hv
      rw [hresult hv]
      cases r.1 <;> exact ⟨rfl, rfl⟩

/-! ## Calls and runs -/

/-- What a write loop does with the value first. -/
def loopUse : Nat → Iovec → Nat → Nat → EtherboneSlaveContext → Bus σ → DataUse
  | 0, _, _, _, _, _ => .kept
  | fuel + 1, iov, iovOff, iovLen, ctx, bus =>
      if iovLen > 0 then
        let p := skipSegments iov iovOff
        let r := slaveWriteBody wops p.1 p.2 iovLen ctx bus
        (bodyUse p.1 p.2 iovLen ctx).andThen
          (if r.broke then .kept
          else loopUse fuel p.1 (p.2 + r.len) (iovLen - r.len) r.ctx r.bus)
      else .kept

/-- The loop only adds calls, and so do asking for requests, a call of the user, and a run. -/
theorem slaveWriteLoop_extends (fuel : Nat) (iov : Iovec) (iovOff iovLen : Nat)
    (ctx : EtherboneSlaveContext) (bus : Bus σ) :
    bus.trace <+: (slaveWriteLoop wops fuel iov iovOff iovLen ctx bus).2.2.trace := by
  obtain ⟨rs, hbus, _⟩ :=
    (slaveWriteLoop_answered wops fuel iov iovOff iovLen ctx bus).replies
  rw [hbus, replyAll_trace]
  exact List.prefix_append _ _

/-- **The write loop keeps the step.** -/
theorem slaveWriteLoop_lockstep {d d' : Word} (hne : d ≠ d') : ∀ (fuel : Nat) (iov : Iovec)
    (iovOff iovLen : Nat) (ctx ctx' : EtherboneSlaveContext) (bus bus' : Bus σ) (u : DataUse),
    Lockstep d d' (ctx, bus) (ctx', bus') u → u ≠ .answered →
    iovLen ≤ (iov.flatten.drop iovOff).length →
    Lockstep d d' (slaveWriteLoop wops fuel iov iovOff iovLen ctx bus).2
      (slaveWriteLoop wops fuel iov iovOff iovLen ctx' bus').2
      (u.andThen (loopUse wops fuel iov iovOff iovLen ctx bus)) ∧
    (u.andThen (loopUse wops fuel iov iovOff iovLen ctx bus) ≠ .answered →
      (slaveWriteLoop wops fuel iov iovOff iovLen ctx' bus').1 =
        (slaveWriteLoop wops fuel iov iovOff iovLen ctx bus).1) := by
  intro fuel
  induction fuel with
  | zero =>
      intro iov iovOff iovLen ctx ctx' bus bus' u h hu _
      rw [loopUse, DataUse.andThen_kept]
      exact ⟨h, fun _ => rfl⟩
  | succ fuel ih =>
      intro iov iovOff iovLen ctx ctx' bus bus' u h hu hle
      rw [slaveWriteLoop_succ, slaveWriteLoop_succ, loopUse]
      by_cases hpos : iovLen > 0
      · rw [if_pos hpos, if_pos hpos, if_pos hpos]
        rw [← skipSegments_drop] at hle
        generalize skipSegments iov iovOff = p at hle ⊢
        dsimp only
        obtain ⟨hstep, hsame⟩ := slaveWriteBody_lockstep wops hne h hu p.1 p.2 iovLen hle
        rw [← DataUse.andThen_assoc]
        generalize u.andThen (bodyUse p.1 p.2 iovLen ctx) = v at hstep hsame ⊢
        generalize slaveWriteBody wops p.1 p.2 iovLen ctx bus = r at hstep hsame ⊢
        generalize slaveWriteBody wops p.1 p.2 iovLen ctx' bus' = r' at hstep hsame ⊢
        by_cases hv : v = .answered
        · subst hv
          refine ⟨?_, fun hv => absurd rfl hv⟩
          have hext : ∀ x : WriteIteration σ, x.bus.trace <+: (if x.broke then (iovLen, x.ctx, x.bus)
              else slaveWriteLoop wops fuel p.1 (p.2 + x.len) (iovLen - x.len) x.ctx
                x.bus).2.2.trace := by
            intro x
            split
            · exact List.prefix_refl _
            · exact slaveWriteLoop_extends wops fuel _ _ _ _ _
          exact Diverged.extend hstep (hext r) (hext r')
        · obtain ⟨hlen, hbroke⟩ := hsame hv
          rw [hlen, hbroke]
          cases hb : r.broke with
          | true =>
              rw [if_pos rfl, if_pos rfl, if_pos rfl, DataUse.andThen_kept]
              exact ⟨hstep, fun _ => rfl⟩
          | false =>
              rw [if_neg Bool.false_ne_true, if_neg Bool.false_ne_true, if_neg Bool.false_ne_true]
              refine ih p.1 (p.2 + r.len) (iovLen - r.len) _ _ _ _ v hstep hv ?_
              rw [List.length_drop] at hle ⊢
              omega
      · rw [if_neg hpos, if_neg hpos, if_neg hpos, DataUse.andThen_kept]
        exact ⟨h, fun _ => rfl⟩

/-- Taking a request. -/
theorem outProcess_lockstep {d d' : Word} {ctx ctx' : EtherboneSlaveContext} {bus bus' : Bus σ}
    {u : DataUse} (h : Lockstep d d' (ctx, bus) (ctx', bus') u) (hu : u ≠ .answered) :
    Lockstep d d' (etherboneSlaveOutProcess wops ctx bus) (etherboneSlaveOutProcess wops ctx' bus')
      u := by
  obtain ⟨halike, rfl⟩ := h.alike hu
  rw [etherboneSlaveOutProcess, etherboneSlaveOutProcess]
  have hsame : (ctx'.rbufDone ≠ ctx'.rbufEnd ∨ ctx'.negotiated = false) ↔
      (ctx.rbufDone ≠ ctx.rbufEnd ∨ ctx.negotiated = false) := by
    rw [halike.rbufDone, halike.rbufEnd, halike.negotiated]
  by_cases hbusy : ctx.rbufDone ≠ ctx.rbufEnd ∨ ctx.negotiated = false
  · rw [if_pos hbusy, if_pos (hsame.mpr hbusy)]
    exact h
  · rw [if_neg hbusy, if_neg fun h' => hbusy (hsame.mp h')]
    dsimp only
    cases (bus'.request wops).1 with
    | none => exact h.keep hu halike rfl rfl _
    | some request =>
        have hfilled : Alike
            { ctx with
              pendingErr := u32 (ctx.pendingErr + 1), rbufDone := 0, rbufEnd := 24
              rbuf := putRequest ctx.rbuf request }
            { ctx' with
              pendingErr := u32 (ctx'.pendingErr + 1), rbufDone := 0, rbufEnd := 24
              rbuf := putRequest ctx'.rbuf request } := by
          refine ⟨congrArg (fun n => u32 (n + 1)) halike.pendingErr, halike.negotiated, rfl, rfl,
            ?_, halike.wbufFill, halike.wbuf, Nat.zero_le 24, Nat.le_refl 24⟩
          intro i hi
          show putRequest ctx'.rbuf request i = putRequest ctx.rbuf request i
          have hload := (load_putRequest ctx'.rbuf request).trans
            (load_putRequest ctx.rbuf request).symm
          rw [← load_getD (putRequest ctx'.rbuf request) hi 0, hload, load_getD _ hi]
        exact h.keep hu hfilled rfl rfl _

theorem outProcess_extends (ctx : EtherboneSlaveContext) (bus : Bus σ) :
    bus.trace <+: (etherboneSlaveOutProcess wops ctx bus).2.trace := by
  obtain ⟨events, h⟩ := etherboneSlaveOutProcess_spec wops ctx bus
  rw [h.trace]
  exact List.prefix_append _ _

/-- A read does no more on the bus than take a request. -/
theorem charSlaveAioRead_bus (signal nonblock : Bool) (iov : Iovec) (ctx : EtherboneSlaveContext)
    (bus : Bus σ) :
    (charSlaveAioRead wops signal nonblock iov ctx bus).2.2.2 = bus ∨
      (charSlaveAioRead wops signal nonblock iov ctx bus).2.2.2 =
        (etherboneSlaveOutProcess wops ctx bus).2 := by
  rw [charSlaveAioRead, slaveAioReadWith]
  dsimp only
  by_cases hnone : u32 (iovLength iov) = 0
  · rw [if_pos hnone]
    exact .inl rfl
  rw [if_neg hnone]
  cases signal with
  | true => exact .inl rfl
  | false =>
      rw [if_neg Bool.false_ne_true]
      generalize (if subU32 _ _ > u32 (iovLength iov) then _ else _) = len
      by_cases hagain : len = 0 ∧ nonblock = true
      · rw [if_pos hagain]
        exact .inr rfl
      · rw [if_neg hagain]
        exact .inr rfl

/-- A read delivers the same bytes. -/
theorem charSlaveAioRead_lockstep {d d' : Word} {ctx ctx' : EtherboneSlaveContext}
    {bus bus' : Bus σ} {u : DataUse} (h : Lockstep d d' (ctx, bus) (ctx', bus') u)
    (hu : u ≠ .answered) (signal nonblock : Bool) (iov : Iovec) :
    Lockstep d d' (charSlaveAioRead wops signal nonblock iov ctx bus).2.2
      (charSlaveAioRead wops signal nonblock iov ctx' bus').2.2 u ∧
    (charSlaveAioRead wops signal nonblock iov ctx' bus').1 =
      (charSlaveAioRead wops signal nonblock iov ctx bus).1 ∧
    (charSlaveAioRead wops signal nonblock iov ctx' bus').2.1 =
      (charSlaveAioRead wops signal nonblock iov ctx bus).2.1 := by
  rw [charSlaveAioRead, charSlaveAioRead, slaveAioReadWith, slaveAioReadWith]
  dsimp only
  by_cases hnone : u32 (iovLength iov) = 0
  · rw [if_pos hnone, if_pos hnone]
    exact ⟨h, rfl, rfl⟩
  rw [if_neg hnone, if_neg hnone]
  cases signal with
  | true => exact ⟨h, rfl, rfl⟩
  | false =>
      rw [if_neg Bool.false_ne_true, if_neg Bool.false_ne_true]
      have hout := outProcess_lockstep wops h hu
      generalize etherboneSlaveOutProcess wops ctx bus = r at hout ⊢
      generalize etherboneSlaveOutProcess wops ctx' bus' = r' at hout ⊢
      obtain ⟨halike, hbus⟩ := hout.alike hu
      obtain ⟨hdone, hend⟩ := halike.bounded
      rw [halike.rbufDone, halike.rbufEnd, hbus]
      obtain ⟨len, hlen⟩ : ∃ len, (if subU32 r.1.rbufEnd r.1.rbufDone > u32 (iovLength iov) then
          u32 (iovLength iov) else subU32 r.1.rbufEnd r.1.rbufDone) = len := ⟨_, rfl⟩
      have hbound : r.1.rbufDone + len ≤ r.1.rbufEnd := by
        rw [subU32_of_le hdone (by omega)] at hlen
        split at hlen <;> omega
      have hbytes : load r'.1.rbuf r.1.rbufDone len = load r.1.rbuf r.1.rbufDone len := by
        refine load_congr ?_
        intro k hk
        exact halike.rbuf _ (by omega)
      rw [hlen, hbytes]
      have hnext : Alike { r.1 with rbufDone := u32 (r.1.rbufDone + len) }
          { r'.1 with rbufDone := u32 (r.1.rbufDone + len), rbufEnd := r.1.rbufEnd } := by
        refine ⟨halike.pendingErr, halike.negotiated, rfl, rfl, halike.rbuf,
          halike.wbufFill, halike.wbuf, ?_, hend⟩
        rw [u32_of_lt (by omega)]
        exact hbound
      have hkeep := hout.keep hu hnext rfl rfl r.2
      by_cases hagain : len = 0 ∧ nonblock = true
      · rw [if_pos hagain, if_pos hagain]
        exact ⟨hkeep, rfl, rfl⟩
      · rw [if_neg hagain, if_neg hagain]
        exact ⟨hkeep, rfl, rfl⟩

/-- What a call does with the value first. -/
def callUse (run : SlaveRun σ) : SlaveCall → DataUse
  | .aioWrite signal iov =>
      if signal then .kept
      else loopUse wops (2 * u32 (iovLength iov) + 1) iov 0 (u32 (iovLength iov)) run.ctx run.bus
  | _ => .kept

/-- What a run does with the value first. -/
def runUse (run : SlaveRun σ) : List SlaveCall → DataUse
  | [] => .kept
  | c :: calls => (callUse wops run c).andThen (runUse (run.step wops c) calls)

/-- Two runs: their contexts, and what their readers got. -/
def SameRun (d d' : Word) (u : DataUse) (run run' : SlaveRun σ) : Prop :=
  Lockstep d d' (run.ctx, run.bus) (run'.ctx, run'.bus) u ∧
    (u ≠ .answered → run'.returned = run.returned)

theorem step_extends (run : SlaveRun σ) (c : SlaveCall) :
    run.bus.trace <+: (run.step wops c).bus.trace := by
  cases c with
  | poll => exact outProcess_extends wops run.ctx run.bus
  | aioWrite signal iov =>
      show _ <+: (charSlaveAioWrite wops signal iov run.ctx run.bus).2.2.trace
      rw [charSlaveAioWrite_eq]
      split
      · exact List.prefix_refl _
      · exact slaveWriteLoop_extends wops _ _ _ _ _ _
  | aioRead signal nonblock iov =>
      show _ <+: (charSlaveAioRead wops signal nonblock iov run.ctx run.bus).2.2.2.trace
      rcases charSlaveAioRead_bus wops signal nonblock iov run.ctx run.bus with hbus | hbus
      · simp only [hbus, List.prefix_refl]
      · rw [hbus]
        exact outProcess_extends wops run.ctx run.bus

theorem exec_extends : ∀ (calls : List SlaveCall) (run : SlaveRun σ),
    run.bus.trace <+: (run.exec wops calls).bus.trace := by
  intro calls
  induction calls with
  | nil => intro run; exact List.prefix_refl _
  | cons c calls ih => intro run; exact (step_extends wops run c).trans (ih _)

/-- **A call keeps the step.** -/
theorem step_lockstep {d d' : Word} (hne : d ≠ d') {u : DataUse} {run run' : SlaveRun σ}
    (h : SameRun d d' u run run') (hu : u ≠ .answered) (c : SlaveCall) :
    SameRun d d' (u.andThen (callUse wops run c)) (run.step wops c) (run'.step wops c) := by
  obtain ⟨hstep, hreturned⟩ := h
  cases c with
  | poll =>
      rw [callUse, DataUse.andThen_kept]
      · exact ⟨outProcess_lockstep wops hstep hu, hreturned⟩
      · intro _ _ hc
        cases hc
  | aioRead signal nonblock iov =>
      rw [callUse, DataUse.andThen_kept]
      · obtain ⟨hread, hret, hiov⟩ := charSlaveAioRead_lockstep wops hstep hu signal nonblock iov
        refine ⟨hread, fun _ => ?_⟩
        show run'.returned ++ transferred (charSlaveAioRead wops signal nonblock iov run'.ctx
          run'.bus).1 _ = run.returned ++ transferred _ _
        rw [hreturned hu, hret, hiov]
      · intro _ _ hc
        cases hc
  | aioWrite signal iov =>
      rw [callUse]
      cases signal with
      | true =>
          rw [if_pos rfl, DataUse.andThen_kept]
          exact ⟨hstep, hreturned⟩
      | false =>
          rw [if_neg Bool.false_ne_true]
          have hle : u32 (iovLength iov) ≤ (iov.flatten.drop 0).length := by
            have hlen := u32_le (iovLength iov)
            rw [iovLength_eq] at hlen
            rw [iovLength_eq]
            exact hlen
          exact ⟨(slaveWriteLoop_lockstep wops hne _ iov 0 _ _ _ _ _ u hstep hu hle).1,
            fun _ => hreturned hu⟩

/-- A run in step with another, whatever calls are made. -/
theorem exec_lockstep {d d' : Word} (hne : d ≠ d') : ∀ (calls : List SlaveCall) {u : DataUse}
    {run run' : SlaveRun σ}, SameRun d d' u run run' → u ≠ .answered →
    SameRun d d' (u.andThen (runUse wops run calls)) (run.exec wops calls)
      (run'.exec wops calls) := by
  intro calls
  induction calls with
  | nil =>
      intro u run run' h _
      rw [runUse, DataUse.andThen_kept]
      exact h
  | cons c calls ih =>
      intro u run run' h hu
      have hstep := step_lockstep wops hne h hu c
      rw [runUse, ← DataUse.andThen_assoc]
      by_cases hv : u.andThen (callUse wops run c) = .answered
      · rw [hv] at hstep ⊢
        exact ⟨Diverged.extend hstep.1 (exec_extends wops calls _) (exec_extends wops calls _),
          fun h => absurd rfl h⟩
      · exact ih hstep hv

/-! ## Two memories -/

/-- A run from `char_slave_open` on, in the memory that `kmalloc` returned. -/
def openedRun (mem : EtherboneSlaveContext) (st : σ) (calls : List SlaveCall) : SlaveRun σ :=
  (SlaveRun.start (initContext mem) ⟨st, []⟩).exec wops calls

/-- Neither the hardware nor a reader can tell two runs apart. -/
structure Indistinguishable (run run' : SlaveRun σ) : Prop where
  replies : answered run'.bus.trace = answered run.bus.trace
  returned : run'.returned = run.returned
  released : answered (charSlaveRelease wops run'.ctx run'.bus).2.trace =
    answered (charSlaveRelease wops run.ctx run.bus).2.trace

/-- Fresh contexts differ in what nobody looks at. -/
theorem initContext_alike (mem mem' : EtherboneSlaveContext) :
    Alike (initContext mem) (initContext mem') := by
  refine ⟨rfl, rfl, rfl, rfl, ?_, rfl, fun i hi => absurd hi (Nat.not_lt_zero i), Nat.zero_le 8,
    show 8 ≤ 24 by decide⟩
  intro i (hi : i < 8)
  have hprobe : load (putProbe mem'.rbuf) 0 8 = load (putProbe mem.rbuf) 0 8 := rfl
  show putProbe mem'.rbuf i = putProbe mem.rbuf i
  rw [← load_getD (putProbe mem'.rbuf) hi 0, hprobe, load_getD _ hi]

/-- Runs in step end alike for everybody outside. -/
theorem SameRun.indistinguishable {d d' : Word} {u : DataUse} {run run' : SlaveRun σ}
    (h : SameRun d d' u run run') (hu : u ≠ .answered) : Indistinguishable wops run run' := by
  obtain ⟨halike, hbus⟩ := h.1.alike hu
  refine ⟨by rw [hbus], h.2 hu, ?_⟩
  rw [charSlaveRelease, charSlaveRelease, halike.pendingErr, hbus]

/-- **The memory of a new context shows exactly through its value.**  Two runs of the
    same calls, in any two memories: they give the same answers and return the same
    bytes exactly if the memories hold the same value, or no answer of the run is given
    before user space has written a value. -/
theorem slave_memory_hidden (mem mem' : EtherboneSlaveContext) (st : σ)
    (calls : List SlaveCall) :
    Indistinguishable wops (openedRun wops mem st calls) (openedRun wops mem' st calls) ↔
      mem'.data = mem.data ∨
        runUse wops (SlaveRun.start (initContext mem) ⟨st, []⟩) calls ≠ .answered := by
  have hstart := initContext_alike mem mem'
  by_cases hdata : mem'.data = mem.data
  · refine ⟨fun _ => .inl hdata, fun _ => ?_⟩
    -- as if the value had been written already
    have hrun : SameRun (0 : Word) 1 .written (SlaveRun.start (initContext mem) ⟨st, []⟩)
        (SlaveRun.start (initContext mem') ⟨st, []⟩) := ⟨⟨hstart, hdata, rfl⟩, fun _ => rfl⟩
    have hne : DataUse.written ≠ .answered := by decide
    exact (exec_lockstep wops (by decide) calls hrun hne).indistinguishable wops hne
  · have hrun : SameRun mem.data mem'.data .kept (SlaveRun.start (initContext mem) ⟨st, []⟩)
        (SlaveRun.start (initContext mem') ⟨st, []⟩) :=
      ⟨⟨hstart, rfl, rfl, rfl⟩, fun _ => rfl⟩
    have hend := exec_lockstep wops (fun h => hdata h.symm) calls hrun (by decide)
    constructor
    · intro hsame
      refine .inr fun huse => ?_
      rw [huse] at hend
      exact Diverged.answered_ne hend.1 hsame.replies
    · intro h
      exact hend.indistinguishable wops (h.resolve_left hdata)

/-! ## An answer without a value -/

/-- The memory of a context, with a word left over in it. -/
def memoryWith (d : Word) : EtherboneSlaveContext := ⟨0, false, d, 0, 0, fun _ => 0, 0, fun _ => 0⟩

/-- A request is taken, and answered by a write to `WBA_ERR` alone. -/
def errOnly : List SlaveCall :=
  [.aioWrite false [[0x4E, 0x6F, 0x16, 0x44, 0, 0, 0, 0]],
   .aioRead false false [[0, 0, 0, 0, 0, 0, 0, 0]],
   .poll,
   .aioWrite false [[0x04, 0x0f, 1, 0, 0, 0, 0x80, 0x04, 0, 0, 0, 0]]]

/-- The hardware is answered with what was in the memory. -/
theorem slave_memory_shown :
    answered (openedRun oneRequest (memoryWith 0) true errOnly).bus.trace = [⟨0, 0⟩] ∧
      answered (openedRun oneRequest (memoryWith 0x1234) true errOnly).bus.trace =
        [⟨0, 0x1234⟩] ∧
      ¬ Indistinguishable oneRequest (openedRun oneRequest (memoryWith 0) true errOnly)
        (openedRun oneRequest (memoryWith 0x1234) true errOnly) := by
  have hzero : answered (openedRun oneRequest (memoryWith 0) true errOnly).bus.trace =
      [⟨0, 0⟩] := by decide
  have hother : answered (openedRun oneRequest (memoryWith 0x1234) true errOnly).bus.trace =
      [⟨0, 0x1234⟩] := by decide
  refine ⟨hzero, hother, fun h => ?_⟩
  have hsame := h.replies
  rw [hzero, hother] at hsame
  revert hsame
  decide

end WbSlaveMemory
