import FpgaConfigSpace.SlaveParser

/-! # The write side of the slave device

    The write loop and the record interpreter against the reference parser.  The
    bytes held in `wbuf` are the parser's incomplete tail; one iteration either
    adds bytes to it or completes exactly one item. -/

namespace WbSlaveWrite

open BigEndian WbIovec WbWishbone WbMaster WbTransducer WbSlave WbSlaveParser CyclicBuffer Frames

variable {σ : Type} (wops : WishboneOperations σ)

/-- Deliver answers to the hardware, in order. -/
def replyAll (rs : List Reply) (bus : Bus σ) : Bus σ :=
  rs.foldl (fun bus r => bus.reply wops r.err r.data) bus

/-- Answers are given one after the other. -/
theorem replyAll_append (rs rs' : List Reply) (bus : Bus σ) :
    replyAll wops (rs ++ rs') bus = replyAll wops rs' (replyAll wops rs bus) :=
  List.foldl_append

/-- Answers are recorded one after another. -/
theorem replyAll_trace (rs : List Reply) (bus : Bus σ) :
    (replyAll wops rs bus).trace = bus.trace ++ rs.map (fun r => .reply r.err r.data) := by
  induction rs generalizing bus with
  | nil => exact (List.append_nil _).symm
  | cons r rs ih =>
      show (replyAll wops rs (bus.reply wops r.err r.data)).trace = _
      rw [ih]
      show (bus.trace ++ [.reply r.err r.data]) ++ _ = _
      rw [List.append_assoc]
      rfl

/-- What a context has been told. -/
def parserOf (ctx : EtherboneSlaveContext) : ParserState :=
  ⟨ctx.negotiated, ctx.pendingErr, ctx.data, false⟩

/-- The bytes that wait in `wbuf`. -/
def held (ctx : EtherboneSlaveContext) : List Byte := load ctx.wbuf 0 ctx.wbufFill

@[simp] theorem held_length (ctx : EtherboneSlaveContext) : (held ctx).length = ctx.wbufFill :=
  load_length _ _ _

/-! ## The record interpreter -/

/-- The words in a buffer from `i` on. -/
def loadWords (buf : Nat → Byte) (i : Nat) : Nat → List Word
  | 0 => []
  | n + 1 => ebToCpu buf i :: loadWords buf (i + 4) n

@[simp] theorem loadWords_length (buf : Nat → Byte) (i n : Nat) :
    (loadWords buf i n).length = n := by
  induction n generalizing i with
  | zero => rfl
  | succ n ih => rw [loadWords, List.length_cons, ih]

/-- The words of a range. -/
theorem wordsOf_load (buf : Nat → Byte) (i n : Nat) :
    wordsOf (load buf i (4 * n)) = loadWords buf i n := by
  induction n generalizing i with
  | zero => rfl
  | succ n ih =>
      rw [show 4 * (n + 1) = 4 * n + 1 + 1 + 1 + 1 by omega]
      rw [load_succ, load_succ, load_succ, load_succ, wordsOf, ih]
      rfl

/-- The device's record length is the bus side's. -/
theorem slaveRecordLen_eq (wbuf : Nat → Byte) :
    slaveRecordLen wbuf = recordLen (wbuf 2) (wbuf 3) := by
  rw [slaveRecordLen, recordLen]
  omega

/-- The loop over the writes does what the parser does. -/
theorem slaveWrites_spec (wff : Bool) : ∀ (j rptr : Nat) (base : Word)
    (ctx : EtherboneSlaveContext) (bus : Bus σ),
    let t := cfgWrites (if wff then 0 else 4) base (loadWords ctx.wbuf rptr j) (parserOf ctx)
    slaveWrites wops wff j rptr base ctx bus =
      (if t.1.failed then .error .eio else .ok (),
       { ctx with pendingErr := t.1.pendingErr, data := t.1.data }, replyAll wops t.2 bus) ∧
    t.1.negotiated = ctx.negotiated := by
  intro j
  induction j with
  | zero => intro rptr base ctx bus; exact ⟨rfl, rfl⟩
  | succ j ih =>
      intro rptr base ctx bus
      have hnext : (if wff then base else base + 4) = base + (if wff then 0 else 4) := by
        cases wff with
        | true => exact (BitVec.add_zero base).symm
        | false => rfl
      dsimp only
      rw [slaveWrites, loadWords, cfgWrites, hnext]
      dsimp only
      by_cases hdata : base = WBA_DATA
      · -- a value is taken
        rw [if_pos hdata, if_pos hdata]
        exact ih (rptr + 4) _ { ctx with data := ebToCpu ctx.wbuf rptr } bus
      rw [if_neg hdata, if_neg hdata]
      by_cases herr : base = WBA_ERR
      · rw [if_pos herr]
        by_cases hpend : ctx.pendingErr = 0
        · -- nothing to answer
          have hno : ¬ (base = WBA_ERR ∧ (parserOf ctx).pendingErr ≠ 0) := fun h => h.2 hpend
          rw [if_pos hpend, if_neg hno]
          exact ⟨rfl, rfl⟩
        · -- an answer
          have hyes : base = WBA_ERR ∧ (parserOf ctx).pendingErr ≠ 0 := ⟨herr, hpend⟩
          rw [if_neg hpend, if_pos hyes]
          exact ih (rptr + 4) _ { ctx with pendingErr := ctx.pendingErr - 1 }
            (bus.reply wops (ebToCpu ctx.wbuf rptr &&& 1) ctx.data)
      · have hno : ¬ (base = WBA_ERR ∧ (parserOf ctx).pendingErr ≠ 0) := fun h => herr h.1
        rw [if_neg herr, if_neg hno]
        exact ⟨rfl, rfl⟩

/-- The record in `wbuf`, read off its bytes. -/
theorem ofBytes_load (wbuf : Nat → Byte) (n : Nat) :
    EbRecord.ofBytes (load wbuf 0 (4 + 4 * n)) =
      .ofWords (wbuf 0) (wbuf 1) (wbuf 2) (wbuf 3) (loadWords wbuf 4 n) := by
  rw [show 4 + 4 * n = 4 * n + 1 + 1 + 1 + 1 by omega]
  rw [load_succ, load_succ, load_succ, load_succ, EbRecord.ofBytes, wordsOf_load]

/-- What the commands of a record do. -/
theorem cfgExec_ofWords (flags be wcount rcount : Byte) (ws : List Word) (s : ParserState) :
    cfgExec (.ofWords flags be wcount rcount ws) s =
      if rcount ≠ 0 then ({ s with failed := true }, [])
      else if (ws.drop 1).take wcount.toNat = [] then (s, [])
      else if be ≠ 0xf ∨ flags &&& ETHERBONE_WCA = 0 then ({ s with failed := true }, [])
      else cfgWrites (if flags &&& ETHERBONE_WFF ≠ 0 then 0 else 4) (ws.headD 0)
        ((ws.drop 1).take wcount.toNat) s := rfl

/-- **The record interpreter executes the record in `wbuf`.** -/
theorem etherboneSlaveInProcess_spec (ctx : EtherboneSlaveContext) (bus : Bus σ) :
    let t := cfgExec (EbRecord.ofBytes (load ctx.wbuf 0 (slaveRecordLen ctx.wbuf))) (parserOf ctx)
    etherboneSlaveInProcess wops ctx bus =
      (if t.1.failed then .error .eio else .ok (),
       { ctx with pendingErr := t.1.pendingErr, data := t.1.data }, replyAll wops t.2 bus) ∧
    t.1.negotiated = ctx.negotiated := by
  obtain ⟨n, hn⟩ : ∃ n, slaveRecordLen ctx.wbuf = 4 + 4 * n := by
    refine ⟨slaveRecordLen ctx.wbuf / 4 - 1, ?_⟩
    rw [slaveRecordLen]
    omega
  rw [hn, ofBytes_load, cfgExec_ofWords, etherboneSlaveInProcess]
  rw [slaveRecordLen] at hn
  dsimp only
  by_cases hr : ctx.wbuf 3 = 0
  · have hr' : ¬ ctx.wbuf 3 ≠ 0 := fun h => h hr
    rw [if_neg hr', if_neg hr']
    have hr0 : (ctx.wbuf 3).toNat = 0 := by rw [hr]; rfl
    by_cases hw : ctx.wbuf 2 = 0
    · have hw0 : (ctx.wbuf 2).toNat = 0 := by rw [hw]; rfl
      rw [if_pos hw, hw0, List.take_zero, if_pos rfl]
      exact ⟨rfl, rfl⟩
    · have hw0 : (ctx.wbuf 2).toNat ≠ 0 := fun h => hw (BitVec.eq_of_toNat_eq h)
      obtain rfl : n = (ctx.wbuf 2).toNat + 1 := by
        rw [if_pos (by omega), if_neg (by omega)] at hn
        omega
      have hwords : (loadWords ctx.wbuf 4 ((ctx.wbuf 2).toNat + 1)).drop 1 =
          loadWords ctx.wbuf 8 (ctx.wbuf 2).toNat := rfl
      have hne : loadWords ctx.wbuf 8 (ctx.wbuf 2).toNat ≠ [] := by
        intro h
        have := congrArg List.length h
        rw [loadWords_length, List.length_nil] at this
        exact hw0 this
      rw [if_neg hw, hwords, List.take_of_length_le (Nat.le_of_eq (loadWords_length _ _ _)), if_neg hne]
      by_cases hbe : ctx.wbuf 1 = 0xf
      · have hbe' : ¬ ctx.wbuf 1 ≠ 0xf := fun h => h hbe
        rw [if_neg hbe']
        by_cases hwca : ctx.wbuf 0 &&& ETHERBONE_WCA = 0
        · rw [if_pos hwca, if_pos (Or.inr hwca)]
          exact ⟨rfl, rfl⟩
        · have hok : ¬ (ctx.wbuf 1 ≠ 0xf ∨ ctx.wbuf 0 &&& ETHERBONE_WCA = 0) := by
            rintro (h | h)
            · exact h hbe
            · exact hwca h
          rw [if_neg hwca, if_neg hok]
          have h := slaveWrites_spec wops (decide (ctx.wbuf 0 &&& ETHERBONE_WFF ≠ 0))
            (ctx.wbuf 2).toNat 8 (ebToCpu ctx.wbuf 4) ctx bus
          simp only [decide_eq_true_eq] at h
          exact h
      · have hbad : ctx.wbuf 1 ≠ 0xf ∨ ctx.wbuf 0 &&& ETHERBONE_WCA = 0 := .inl hbe
        rw [if_pos hbe, if_pos hbad]
        exact ⟨rfl, rfl⟩
  · rw [if_pos hr, if_pos hr]
    exact ⟨rfl, rfl⟩

/-! ## One iteration of the write loop -/

/-- Stepping over segments does not move the read position. -/
theorem skipSegments_drop (iov : Iovec) (iovOff : Nat) :
    (skipSegments iov iovOff).1.flatten.drop (skipSegments iov iovOff).2 =
      iov.flatten.drop iovOff := by
  induction iov generalizing iovOff with
  | nil => rfl
  | cons seg iov ih =>
      rw [skipSegments, List.flatten_cons]
      by_cases hskip : iovOff ≥ seg.length
      · rw [if_pos hskip, ih, List.drop_append, List.drop_of_length_le hskip, List.nil_append]
      · rw [if_neg hskip, List.flatten_cons]

/-- Length of the item in `wbuf`, as far as it is known. -/
def assembling (ctx : EtherboneSlaveContext) : Nat :=
  if ctx.wbufFill < 4 ∨ ctx.negotiated = false then 4 else slaveRecordLen ctx.wbuf

/-- No item in `wbuf` fits its buffer badly. -/
theorem assembling_le (ctx : EtherboneSlaveContext) : assembling ctx ≤ 2052 := by
  rw [assembling]
  split
  · decide
  · rw [slaveRecordLen_eq]
    exact recordLen_le _ _

/-- The parser finds no complete item in `wbuf`. -/
def Waiting (ctx : EtherboneSlaveContext) : Prop :=
  slaveFrame 1 (parserOf ctx) (held ctx) = none

/-- The header of an item is found in `wbuf`. -/
theorem itemLen_held {ctx : EtherboneSlaveContext} (h : 4 ≤ ctx.wbufFill) (zs : List Byte) :
    itemLen (parserOf ctx) (held ctx ++ zs) =
      if ctx.negotiated then slaveRecordLen ctx.wbuf else 4 := by
  rw [itemLen_append (by rw [held_length]; exact h), itemLen, held, load_getD _ (by omega),
    load_getD _ (by omega), slaveRecordLen_eq]
  rfl

/-- When the slave waits for more of a record. -/
theorem waiting_iff {ctx : EtherboneSlaveContext} :
    Waiting ctx ↔
      ctx.wbufFill ≤ 4 ∨ ctx.negotiated = true ∧ ctx.wbufFill < slaveRecordLen ctx.wbuf := by
  rw [Waiting, slaveFrame_eq_none rfl, held_length]
  by_cases h4 : ctx.wbufFill ≤ 4
  · exact ⟨fun _ => .inl h4, fun _ => .inl (by omega)⟩
  have hitem := @itemLen_held ctx (by omega) []
  rw [List.append_nil] at hitem
  rw [hitem]
  cases hneg : ctx.negotiated with
  | true =>
      constructor
      · rintro (h | h)
        · omega
        · exact .inr ⟨rfl, h⟩
      · rintro (h | ⟨_, h⟩)
        · exact .inl (by omega)
        · exact .inr h
  | false =>
      constructor
      · rintro (h | h)
        · omega
        · exact absurd h (by simp only [Bool.false_eq_true, if_false]; omega)
      · rintro (h | ⟨h, _⟩)
        · exact .inl (by omega)
        · cases h

/-- What the parser makes of the bytes in `wbuf` followed by `zs`. -/
def parse (ctx : EtherboneSlaveContext) (zs : List Byte) : Drained Byte ParserState Reply :=
  drain (slaveFramer 1) (parserOf ctx) (held ctx ++ zs)

/-- Iterations the loop can still make. -/
def budget (ctx : EtherboneSlaveContext) (iovLen : Nat) : Nat :=
  2 * iovLen + if 4 ≤ ctx.wbufFill then 1 else 0

/-- One iteration with the bytes `zs` to come: it stays inside the item, and what
    the parser makes of all bytes is what it makes of those that are left, behind
    the answers given now. -/
structure Iterated (ctx : EtherboneSlaveContext) (bus : Bus σ) (zs : List Byte)
    (r : WriteIteration σ) : Prop where
  fits : ctx.wbufFill + r.len ≤ assembling ctx
  waiting : Waiting r.ctx
  len_le : r.len ≤ zs.length
  budget_lt : r.broke = false → budget r.ctx (zs.length - r.len) < budget ctx zs.length
  replies : ∃ out, r.bus = replyAll wops out bus ∧
    (r.broke = true → (parse ctx zs).state.failed = true ∧ (parse ctx zs).out = out) ∧
    (r.broke = false → parse ctx zs = ⟨(parse r.ctx (zs.drop r.len)).state,
      (parse r.ctx (zs.drop r.len)).rest, out ++ (parse r.ctx (zs.drop r.len)).out⟩)

/-- An iteration that only takes bytes in. -/
theorem iterated_copy {ctx : EtherboneSlaveContext} (bus : Bus σ) {zs block : List Byte}
    (hblock : block <+: zs) (hpos : block ≠ []) (hshort : 4 ≤ ctx.wbufFill → block = zs)
    (hfits : ctx.wbufFill + block.length ≤ assembling ctx)
    (hwait : ctx.wbufFill + block.length ≤ 4 ∨ ctx.negotiated = true ∧ 4 ≤ ctx.wbufFill ∧
      ctx.wbufFill + block.length < slaveRecordLen ctx.wbuf) :
    Iterated wops ctx bus zs
      ⟨block.length, false, { ctx with
        wbuf := store ctx.wbuf ctx.wbufFill block
        wbufFill := ctx.wbufFill + block.length }, bus⟩ := by
  obtain ⟨tail, rfl⟩ := hblock
  have hlen := List.length_pos_iff.mpr hpos
  refine ⟨hfits, ?_, ?_, ?_, [], rfl, (fun h => by cases h), ?_⟩
  · rw [waiting_iff]
    rcases hwait with h | ⟨hneg, h4, hlt⟩
    · exact .inl h
    · -- the header is not touched
      have hhead : slaveRecordLen (store ctx.wbuf ctx.wbufFill block) =
          slaveRecordLen ctx.wbuf := by
        rw [slaveRecordLen, slaveRecordLen, store_outside _ (by omega), store_outside _ (by omega)]
      refine .inr ⟨hneg, ?_⟩
      rw [hhead]
      exact hlt
  · rw [List.length_append]
    exact Nat.le_add_right _ _
  · intro _
    rw [List.length_append, Nat.add_sub_cancel_left, budget, budget]
    by_cases h4 : 4 ≤ ctx.wbufFill
    · have htail : tail = [] := List.append_right_eq_self.mp (hshort h4).symm
      rw [htail, if_pos h4, List.length_nil]
      split <;> omega
    · rw [if_neg h4]
      split <;> omega
  · intro _
    rw [List.drop_left]
    have hheld : held { ctx with
        wbuf := store ctx.wbuf ctx.wbufFill block
        wbufFill := ctx.wbufFill + block.length } = held ctx ++ block :=
      load_store_append ctx.wbuf ctx.wbufFill block
    rw [parse, parse, hheld, List.append_assoc]
    rfl

/-- Nothing is parsed after a failure. -/
theorem drain_failed {s : ParserState} (h : s.failed = true) (xs : List Byte) :
    drain (slaveFramer 1) s xs = ⟨s, xs, []⟩ := by
  refine drain_of_none _ ?_
  show slaveFrame 1 s xs = none
  rw [slaveFrame, if_pos h]

/-- An iteration that completes the item `held ctx ++ block`. -/
theorem iterated_item {ctx : EtherboneSlaveContext} (bus : Bus σ) {zs block : List Byte}
    (r : WriteIteration σ) (hblock : block <+: zs) (h4 : 4 ≤ ctx.wbufFill)
    (hne : zs ≠ []) (hlen : r.len = block.length)
    (hitem : ctx.wbufFill + block.length =
      if ctx.negotiated then slaveRecordLen ctx.wbuf else 4)
    (hbroke : r.broke = (slaveStep (parserOf ctx) (held ctx ++ block)).1.failed)
    (hbus : r.bus = replyAll wops (slaveStep (parserOf ctx) (held ctx ++ block)).2 bus)
    (hctx : r.broke = false →
      r.ctx.wbufFill = 0 ∧ parserOf r.ctx = (slaveStep (parserOf ctx) (held ctx ++ block)).1)
    (hwait : Waiting r.ctx) :
    Iterated wops ctx bus zs r := by
  obtain ⟨tail, rfl⟩ := hblock
  have hpos := List.length_pos_iff.mpr hne
  rw [List.length_append] at hpos
  have hall : ctx.wbufFill + (block ++ tail).length = (held ctx ++ (block ++ tail)).length := by
    rw [@List.length_append _ (held ctx), held_length]
  -- the parser completes the same item
  have hframe : slaveFrame 1 (parserOf ctx) (held ctx ++ (block ++ tail)) =
      some (held ctx ++ block).length := by
    refine slaveFrame_eq_some.mpr ⟨rfl, ?_, ?_, ?_⟩
    · rw [← hall, List.length_append]
      omega
    · rw [itemLen_held h4, List.length_append, held_length]
      exact hitem
    · rw [List.length_append, List.length_append, List.length_append]
      omega
  have hparse := drain_of_some (slaveFramer 1) (s := parserOf ctx) hframe
  rw [← List.append_assoc, List.take_left, List.drop_left] at hparse
  have hstep : (slaveFramer 1).step (parserOf ctx) (held ctx ++ block) =
    slaveStep (parserOf ctx) (held ctx ++ block) := rfl
  rw [hstep] at hparse
  refine ⟨?_, hwait, ?_, ?_, _, hbus, ?_, ?_⟩
  · rw [hlen, hitem, assembling]
    cases hneg : ctx.negotiated with
    | true =>
        have hknown : ¬ (ctx.wbufFill < 4 ∨ true = false) := by
          rintro (h | h)
          · omega
          · cases h
        rw [if_neg hknown]
        exact Nat.le_refl _
    | false =>
        have hprobe : ctx.wbufFill < 4 ∨ false = false := .inr rfl
        rw [if_pos hprobe]
        exact Nat.le_refl _
  · rw [hlen, List.length_append]
    exact Nat.le_add_right _ _
  · intro hb
    obtain ⟨hfill, _⟩ := hctx hb
    rw [budget, budget, if_neg (by rw [hfill]; decide), if_pos h4]
    omega
  · intro hb
    rw [hbroke] at hb
    rw [parse, ← List.append_assoc, hparse, drain_failed hb]
    exact ⟨hb, List.append_nil _⟩
  · intro hb
    obtain ⟨hfill, hstate⟩ := hctx hb
    have hheld : held r.ctx = [] := by rw [held, hfill]; rfl
    rw [parse, parse, hheld, hlen, List.drop_left, hstate, ← List.append_assoc, hparse]
    rfl

/-- **One iteration of the write loop.** -/
theorem slaveWriteBody_spec {ctx : EtherboneSlaveContext} (bus : Bus σ) (iov : Iovec)
    (iovOff iovLen : Nat) (hwait : Waiting ctx) (hpos : 0 < iovLen)
    (hle : iovLen ≤ (iov.flatten.drop iovOff).length) :
    Iterated wops ctx bus ((iov.flatten.drop iovOff).take iovLen)
      (slaveWriteBody wops iov iovOff iovLen ctx bus) := by
  obtain ⟨zs, hzs⟩ : ∃ zs, (iov.flatten.drop iovOff).take iovLen = zs := ⟨_, rfl⟩
  have hlen : zs.length = iovLen := by
    rw [← hzs, List.length_take]
    omega
  have hcopy : ∀ len, len ≤ iovLen → memcpyFromiovecend iov iovOff len = zs.take len := by
    intro len h
    rw [memcpyFromiovecend_eq, ← hzs, List.take_take, Nat.min_eq_left h]
  have htake : ∀ len, len ≤ iovLen → (zs.take len).length = len := by
    intro len h
    rw [List.length_take]
    omega
  rw [hzs, slaveWriteBody, slaveWriteBodyWith]
  dsimp only
  by_cases hfill : ctx.wbufFill < 4
  · -- header bytes
    rw [if_pos hfill]
    obtain ⟨len, hl⟩ : ∃ len, (if 4 - ctx.wbufFill > iovLen then iovLen else 4 - ctx.wbufFill) =
        len := ⟨_, rfl⟩
    have hbound : 0 < len ∧ len ≤ iovLen ∧ ctx.wbufFill + len ≤ 4 := by
      rw [← hl]
      split <;> omega
    obtain ⟨hl0, hl1, hl4⟩ := hbound
    have hblock := htake len hl1
    have h := @iterated_copy σ wops ctx bus _ _ (List.take_prefix len zs)
      (by rw [← List.length_pos_iff, hblock]; exact hl0) (fun h => by omega)
      (by rw [hblock, assembling, if_pos (Or.inl hfill)]; exact hl4)
      (.inl (by rw [hblock]; exact hl4))
    rw [hblock] at h
    rw [hl, hcopy len hl1]
    exact h
  rw [if_neg hfill]
  have h4 : 4 ≤ ctx.wbufFill := by omega
  have hne : zs ≠ [] := by
    rw [← List.length_pos_iff, hlen]
    exact hpos
  have hwait' := waiting_iff.mp hwait
  by_cases hneg : ctx.negotiated = false
  · -- the probe response is complete, and something is behind it
    have hfull : ctx.wbufFill = 4 := by
      rw [hneg] at hwait'
      rcases hwait' with h | ⟨h, _⟩
      · omega
      · cases h
    rw [if_pos hneg]
    have hheld : ∀ k, k < 4 → (held ctx).getD k 0 = ctx.wbuf k := by
      intro k hk
      exact load_getD _ (by omega) _
    have hprobe : isProbeResponse (held ctx ++ []) = probeAccepted ctx.wbuf := by
      rw [List.append_nil, isProbeResponse, hheld 0 (by decide), hheld 1 (by decide),
        hheld 2 (by decide), hheld 3 (by decide)]
      rfl
    have hstep : slaveStep (parserOf ctx) (held ctx ++ []) =
        ({ parserOf ctx with
            negotiated := probeAccepted ctx.wbuf, failed := !probeAccepted ctx.wbuf }, []) := by
      rw [slaveStep, show (parserOf ctx).negotiated = false from hneg, hprobe]
      rfl
    have hitem : ctx.wbufFill + ([] : List Byte).length =
        if ctx.negotiated then slaveRecordLen ctx.wbuf else 4 := by
      rw [hneg, hfull]
      rfl
    cases haccept : probeAccepted ctx.wbuf with
    | true =>
        rw [if_pos rfl]
        rw [haccept] at hstep
        refine iterated_item wops bus _ List.nil_prefix h4 hne rfl hitem ?_ ?_ ?_ ?_
        · rw [hstep]; rfl
        · rw [hstep]; rfl
        · intro _
          rw [hstep]
          exact ⟨rfl, rfl⟩
        · exact waiting_iff.mpr (.inl (Nat.zero_le 4))
    | false =>
        rw [if_neg Bool.false_ne_true]
        rw [haccept] at hstep
        refine iterated_item wops bus _ List.nil_prefix h4 hne rfl hitem ?_ ?_
          (fun h => by cases h) hwait
        · rw [hstep]; rfl
        · rw [hstep]; rfl
  rw [if_neg hneg]
  have hneg' : ctx.negotiated = true := Bool.of_not_eq_false hneg
  have hrec : ctx.wbufFill ≤ slaveRecordLen ctx.wbuf ∧ slaveRecordLen ctx.wbuf ≤ 2052 := by
    have h1 := recordLen_pos (ctx.wbuf 2) (ctx.wbuf 3)
    have h2 := recordLen_le (ctx.wbuf 2) (ctx.wbuf 3)
    rw [slaveRecordLen_eq] at hwait' ⊢
    rcases hwait' with h | ⟨_, h⟩
    · exact ⟨by omega, h2⟩
    · exact ⟨by omega, h2⟩
  rw [subU32_of_le hrec.1 (by omega)]
  by_cases hmore : slaveRecordLen ctx.wbuf - ctx.wbufFill > iovLen
  · -- the record stays incomplete
    have hknown : ¬ (ctx.wbufFill < 4 ∨ ctx.negotiated = false) := by
      rintro (h | h)
      · exact hfill h
      · exact hneg h
    rw [if_pos hmore, hcopy iovLen (Nat.le_refl _), List.take_of_length_le (Nat.le_of_eq hlen)]
    have h := @iterated_copy σ wops ctx bus _ _ (List.prefix_refl zs) hne (fun _ => rfl)
      (by rw [assembling, if_neg hknown]; omega) (.inr ⟨hneg', h4, by omega⟩)
    rw [hlen] at h
    exact h
  · -- the record is complete
    rw [if_neg hmore]
    obtain ⟨len, hl⟩ : ∃ len, slaveRecordLen ctx.wbuf - ctx.wbufFill = len := ⟨_, rfl⟩
    rw [hl, hcopy len (by omega)]
    have hblock := htake len (by omega)
    obtain ⟨wbuf, hw⟩ : ∃ wbuf, store ctx.wbuf ctx.wbufFill (zs.take len) = wbuf := ⟨_, rfl⟩
    have hhead : slaveRecordLen wbuf = slaveRecordLen ctx.wbuf := by
      rw [← hw, slaveRecordLen, slaveRecordLen, store_outside _ (by omega),
        store_outside _ (by omega)]
    have hload : load wbuf 0 (slaveRecordLen wbuf) = held ctx ++ zs.take len := by
      have := load_store_append ctx.wbuf ctx.wbufFill (zs.take len)
      rw [hw, hblock] at this
      rw [hhead, show slaveRecordLen ctx.wbuf = ctx.wbufFill + len by omega]
      exact this
    have hitem : ctx.wbufFill + (zs.take len).length =
        if ctx.negotiated then slaveRecordLen ctx.wbuf else 4 := by
      rw [hblock, if_pos hneg']
      omega
    obtain ⟨hin, hn⟩ := etherboneSlaveInProcess_spec wops
      { ctx with wbuf := wbuf, wbufFill := 0 } bus
    have hstep : slaveStep (parserOf ctx) (held ctx ++ zs.take len) =
        cfgExec (EbRecord.ofBytes (load wbuf 0 (slaveRecordLen wbuf))) (parserOf ctx) := by
      rw [slaveStep, if_pos (show (parserOf ctx).negotiated = true from hneg'), hload]
    have hparser : parserOf { ctx with wbuf := wbuf, wbufFill := 0 } = parserOf ctx := rfl
    dsimp only at hin hn
    rw [hparser, ← hstep] at hin hn
    obtain ⟨⟨⟨tn, tp, td, tf⟩, out⟩, ht⟩ :
      ∃ t, slaveStep (parserOf ctx) (held ctx ++ zs.take len) = t := ⟨_, rfl⟩
    rw [ht] at hin hn
    rw [hw, hin]
    cases tf with
    | false =>
        refine iterated_item wops bus _ (List.take_prefix len zs) h4 hne hblock.symm hitem
          (by rw [ht]; rfl) (by rw [ht]; rfl) ?_ (waiting_iff.mpr (.inl (Nat.zero_le 4)))
        intro _
        rw [ht]
        exact ⟨rfl, congrArg (fun n => ParserState.mk n tp td false) hn.symm⟩
    | true =>
        exact iterated_item wops bus _ (List.take_prefix len zs) h4 hne hblock.symm hitem
          (by rw [ht]; rfl) (by rw [ht]; rfl) (fun h => by cases h)
          (waiting_iff.mpr (.inl (Nat.zero_le 4)))

/-! ## The write loop -/

/-- The copies into `wbuf` that a call makes: the context before each one, and the
    bytes copied. -/
def slaveCopies : Nat → Iovec → Nat → Nat → EtherboneSlaveContext → Bus σ →
    List (EtherboneSlaveContext × Nat)
  | 0, _, _, _, _, _ => []
  | fuel + 1, iov, iovOff, iovLen, ctx, bus =>
      if iovLen > 0 then
        let p := skipSegments iov iovOff
        let r := slaveWriteBody wops p.1 p.2 iovLen ctx bus
        (ctx, r.len) ::
          if r.broke then []
          else slaveCopies fuel p.1 (p.2 + r.len) (iovLen - r.len) r.ctx r.bus
      else []

/-- What a write loop that is given the bytes `zs` does. -/
structure Looped (ctx : EtherboneSlaveContext) (bus : Bus σ) (zs : List Byte)
    (r : Nat × EtherboneSlaveContext × Bus σ) : Prop where
  waiting : Waiting r.2.1
  failed : (parse ctx zs).state.failed = decide (0 < r.1)
  replies : r.2.2 = replyAll wops (parse ctx zs).out bus
  done : r.1 = 0 → parserOf r.2.1 = (parse ctx zs).state ∧ held r.2.1 = (parse ctx zs).rest

/-- Nothing more to parse. -/
theorem parse_nil {ctx : EtherboneSlaveContext} (h : Waiting ctx) :
    parse ctx [] = ⟨parserOf ctx, held ctx, []⟩ := by
  rw [parse, List.append_nil]
  exact drain_of_none _ h

/-- **The write loop parses its bytes**, and no copy leaves the item it belongs to. -/
theorem slaveWriteLoop_spec : ∀ (fuel : Nat) (iov : Iovec) (iovOff iovLen : Nat)
    (ctx : EtherboneSlaveContext) (bus : Bus σ), Waiting ctx →
    iovLen ≤ (iov.flatten.drop iovOff).length → budget ctx iovLen ≤ fuel →
    Looped wops ctx bus ((iov.flatten.drop iovOff).take iovLen)
      (slaveWriteLoop wops fuel iov iovOff iovLen ctx bus) ∧
    ∀ c ∈ slaveCopies wops fuel iov iovOff iovLen ctx bus,
      c.1.wbufFill + c.2 ≤ assembling c.1 := by
  have stop : ∀ (zs : List Byte) (ctx : EtherboneSlaveContext) (bus : Bus σ), Waiting ctx →
      Looped wops ctx bus (zs.take 0) (0, ctx, bus) := by
    intro zs ctx bus hwait
    have hnil := parse_nil hwait
    refine ⟨hwait, ?_, ?_, ?_⟩
    · rw [List.take_zero, hnil]; rfl
    · rw [List.take_zero, hnil]; rfl
    · intro _
      rw [List.take_zero, hnil]
      exact ⟨rfl, rfl⟩
  intro fuel
  induction fuel with
  | zero =>
      intro iov iovOff iovLen ctx bus hwait hle hfuel
      obtain rfl : iovLen = 0 := by
        rw [budget] at hfuel
        omega
      exact ⟨stop _ ctx bus hwait, fun _ h => absurd h List.not_mem_nil⟩
  | succ fuel ih =>
      intro iov iovOff iovLen ctx bus hwait hle hfuel
      rw [slaveWriteLoop_succ, slaveCopies]
      by_cases hpos : iovLen > 0
      · rw [if_pos hpos, if_pos hpos]
        dsimp only
        rw [← skipSegments_drop] at hle ⊢
        have hbody := slaveWriteBody_spec wops bus _ _ iovLen hwait hpos hle
        obtain ⟨r, hr⟩ : ∃ r, slaveWriteBody wops (skipSegments iov iovOff).1
          (skipSegments iov iovOff).2 iovLen ctx bus = r := ⟨_, rfl⟩
        rw [hr] at hbody ⊢
        obtain ⟨out, hbus, hstop, hnext⟩ := hbody.replies
        have hlenle := hbody.len_le
        rw [List.length_take, Nat.min_eq_left hle] at hlenle
        cases hbroke : r.broke with
        | true =>
            obtain ⟨hfail, hout⟩ := hstop hbroke
            rw [if_pos rfl, if_pos rfl]
            refine ⟨⟨hbody.waiting, ?_, ?_, ?_⟩, ?_⟩
            · rw [hfail, decide_eq_true hpos]
            · rw [hout]; exact hbus
            · intro h
              exact absurd h (Nat.pos_iff_ne_zero.mp hpos)
            · rintro c (_ | ⟨_, hc⟩)
              · exact hbody.fits
              · cases hc
        | false =>
            have hparse := hnext hbroke
            have hbudget := hbody.budget_lt hbroke
            rw [List.length_take, Nat.min_eq_left hle] at hbudget
            rw [if_neg Bool.false_ne_true, if_neg Bool.false_ne_true]
            obtain ⟨hloop, hcopies⟩ := ih (skipSegments iov iovOff).1
              ((skipSegments iov iovOff).2 + r.len) (iovLen - r.len) r.ctx r.bus hbody.waiting
              (by rw [List.length_drop] at hle ⊢; omega) (by omega)
            rw [List.drop_take, List.drop_drop] at hparse
            refine ⟨⟨hloop.waiting, ?_, ?_, ?_⟩, ?_⟩
            · rw [hparse]; exact hloop.failed
            · rw [hparse, hloop.replies, hbus, ← replyAll_append]
            · intro h
              rw [hparse]
              exact hloop.done h
            · rintro c (_ | ⟨_, hc⟩)
              · exact hbody.fits
              · exact hcopies c hc
      · obtain rfl : iovLen = 0 := by omega
        rw [if_neg hpos, if_neg hpos]
        exact ⟨stop _ ctx bus hwait, fun _ h => absurd h List.not_mem_nil⟩

end WbSlaveWrite
