import FpgaConfigSpace.SlaveRuns

/-! # Requests and answers of the slave device

    What each system call takes from the hardware and gives back to it.  Reads and
    polls take at most one request and put its encoding behind everything read so
    far; writes only answer, one answer for each unit of `pending_err`. -/

namespace WbSlaveRequests

open BigEndian WbIovec WbWishbone WbSlave WbSlaveParser WbSlaveWrite WbSlaveRuns CyclicBuffer

variable {σ : Type} (wops : WishboneOperations σ)

/-- The requests taken from the hardware, in order. -/
def dequeued (trace : List WopsCall) : List WishboneRequest :=
  trace.filterMap fun
    | .request r => r
    | _ => none

/-- The answers given to the hardware, in order. -/
def answered (trace : List WopsCall) : List Reply :=
  trace.filterMap fun
    | .reply err data => some ⟨err, data⟩
    | _ => none

@[simp] theorem dequeued_append (t t' : List WopsCall) :
    dequeued (t ++ t') = dequeued t ++ dequeued t' :=
  List.filterMap_append

@[simp] theorem answered_append (t t' : List WopsCall) :
    answered (t ++ t') = answered t ++ answered t' :=
  List.filterMap_append

@[simp] theorem dequeued_replies (rs : List Reply) :
    dequeued (rs.map fun r => .reply r.err r.data) = [] := by
  induction rs with
  | nil => rfl
  | cons r rs ih => exact ih

@[simp] theorem answered_replies (rs : List Reply) :
    answered (rs.map fun r => .reply r.err r.data) = rs := by
  induction rs with
  | nil => rfl
  | cons r rs ih => exact congrArg (r :: ·) ih

/-! ## Taking a request -/

/-- The probe. -/
def probeBytes : List Byte := [0x4E, 0x6F, 0x11, 0x44, 0, 0, 0, 0]

/-- The encoding of a request: a record for the access, a record for its status. -/
def requestBytes (request : WishboneRequest) : List Byte :=
  (if request.write then
    [ETHERBONE_BCA, request.mask, 1, 0] ++ bytesOf request.addr ++ bytesOf request.data
  else
    [ETHERBONE_BCA, request.mask, 0, 1] ++ bytesOf WBA_DATA ++ bytesOf request.addr) ++
  [ETHERBONE_CYC ||| ETHERBONE_BCA ||| ETHERBONE_RCA, 0xf, 0, 1] ++ bytesOf WBA_ERR ++ bytesOf 4

/-- A request is sent as 24 bytes. -/
theorem requestBytes_length (request : WishboneRequest) :
    (requestBytes request).length = 24 := by
  rcases request with ⟨write, addr, data, mask⟩
  cases write with
  | true => rfl
  | false => rfl

/-- The buffer holds the encoding. -/
theorem load_putRequest (rbuf : Nat → Byte) (request : WishboneRequest) :
    load (putRequest rbuf request) 0 24 = requestBytes request := by
  rcases request with ⟨write, addr, data, mask⟩
  cases write with
  | true => rfl
  | false => rfl

/-- The bytes in `rbuf` that have not been read. -/
def unread (ctx : EtherboneSlaveContext) : List Byte :=
  load ctx.rbuf ctx.rbufDone (ctx.rbufEnd - ctx.rbufDone)

/-- The positions in `rbuf` are in order. -/
def Bounded (ctx : EtherboneSlaveContext) : Prop :=
  ctx.rbufDone ≤ ctx.rbufEnd ∧ ctx.rbufEnd ≤ 24

/-- What a call to `etherbone_slave_out_process` does: nothing but look for a
    request, or put one into an empty `rbuf`. -/
structure Refilled (ctx : EtherboneSlaveContext) (bus : Bus σ)
    (x : EtherboneSlaveContext × Bus σ) (events : List WopsCall) : Prop where
  trace : x.2.trace = bus.trace ++ events
  asked : ∀ c ∈ events, ctx.negotiated = true ∧ ∃ r, c = .request r
  single : (dequeued events).length ≤ 1
  bounded : Bounded ctx → Bounded x.1
  waiting : Bounded ctx → unread x.1 = unread ctx ++ (dequeued events).flatMap requestBytes
  pendingErr : x.1.pendingErr = u32 (ctx.pendingErr + (dequeued events).length) ∨
    dequeued events = [] ∧ x.1.pendingErr = ctx.pendingErr
  input : x.1.negotiated = ctx.negotiated ∧ x.1.data = ctx.data ∧ x.1.wbuf = ctx.wbuf ∧
    x.1.wbufFill = ctx.wbufFill

/-- **Refilling keeps every byte in order.** -/
theorem etherboneSlaveOutProcess_spec (ctx : EtherboneSlaveContext) (bus : Bus σ) :
    ∃ events, Refilled ctx bus (etherboneSlaveOutProcess wops ctx bus) events := by
  rw [etherboneSlaveOutProcess]
  by_cases hbusy : ctx.rbufDone ≠ ctx.rbufEnd ∨ ctx.negotiated = false
  · rw [if_pos hbusy]
    exact ⟨[], (List.append_nil _).symm, fun _ h => absurd h List.not_mem_nil, Nat.zero_le 1, id,
      fun _ => (List.append_nil _).symm, .inr ⟨rfl, rfl⟩, rfl, rfl, rfl, rfl⟩
  rw [if_neg hbusy]
  obtain ⟨hempty, hneg⟩ := not_or.mp hbusy
  have hneg' : ctx.negotiated = true := Bool.of_not_eq_false hneg
  obtain ⟨r, hr⟩ : ∃ r, (bus.request wops).1 = r := ⟨_, rfl⟩
  have htrace : (bus.request wops).2.trace = bus.trace ++ [.request r] := by
    rw [← hr]
    rfl
  have hasked : ∀ c ∈ [WopsCall.request r], ctx.negotiated = true ∧ ∃ r, c = .request r := by
    intro c hc
    exact ⟨hneg', r, List.mem_singleton.mp hc⟩
  refine ⟨[.request r], ?_⟩
  dsimp only
  rw [hr]
  cases r with
  | none =>
      exact ⟨htrace, hasked, Nat.zero_le 1, id, fun _ => (List.append_nil _).symm,
        .inr ⟨rfl, rfl⟩, rfl, rfl, rfl, rfl⟩
  | some request =>
      refine ⟨htrace, hasked, Nat.le_refl 1, ?_, ?_, .inl rfl, rfl, rfl, rfl, rfl⟩
      · intro _
        exact ⟨Nat.zero_le 24, Nat.le_refl 24⟩
      · intro _
        have hend : ctx.rbufEnd - ctx.rbufDone = 0 := by
          have := not_not.mp hempty
          omega
        rw [unread, unread, hend]
        show load (putRequest ctx.rbuf request) 0 24 = [] ++ (requestBytes request ++ [])
        rw [load_putRequest, List.nil_append, List.append_nil]

/-- Taking bytes from the front of `rbuf`. -/
theorem unread_take {ctx : EtherboneSlaveContext} (h : Bounded ctx) {len : Nat}
    (hlen : len ≤ ctx.rbufEnd - ctx.rbufDone) :
    let ctx' := { ctx with rbufDone := u32 (ctx.rbufDone + len) }
    Bounded ctx' ∧ load ctx.rbuf ctx.rbufDone len ++ unread ctx' = unread ctx := by
  obtain ⟨hle, h24⟩ := h
  intro ctx'
  have hdone : ctx'.rbufDone = ctx.rbufDone + len := u32_of_lt (by omega)
  refine ⟨⟨?_, h24⟩, ?_⟩
  · rw [hdone]
    show _ ≤ ctx.rbufEnd
    omega
  · rw [unread, unread, hdone]
    show load ctx.rbuf _ _ ++ load ctx.rbuf _ (ctx.rbufEnd - _) = _
    rw [← load_add]
    congr 1
    omega

/-- A read returns the next bytes, after taking at most one request. -/
theorem charSlaveAioRead_spec (signal nonblock : Bool) (iov : Iovec)
    (ctx : EtherboneSlaveContext) (bus : Bus σ) (h : Bounded ctx) :
    let x := charSlaveAioRead wops signal nonblock iov ctx bus
    ∃ mid events, Refilled ctx bus mid events ∧ x.2.2.2 = mid.2 ∧ Bounded x.2.2.1 ∧
      x.2.2.1 = { mid.1 with rbufDone := x.2.2.1.rbufDone } ∧
      transferred x.1 x.2.1 ++ unread x.2.2.1 = unread mid.1 := by
  intro x
  have hx : charSlaveAioRead wops signal nonblock iov ctx bus = x := rfl
  have hidle : Refilled ctx bus (ctx, bus) [] :=
    ⟨(List.append_nil _).symm, fun _ h => absurd h List.not_mem_nil, Nat.zero_le 1, id,
      fun _ => (List.append_nil _).symm,
      .inr ⟨rfl, rfl⟩, rfl, rfl, rfl, rfl⟩
  rw [charSlaveAioRead, slaveAioReadWith] at hx
  dsimp only at hx
  by_cases hzero : u32 (iovLength iov) = 0
  · rw [if_pos hzero] at hx
    rw [← hx]
    exact ⟨(ctx, bus), [], hidle, rfl, h, rfl, rfl⟩
  rw [if_neg hzero] at hx
  by_cases hsig : signal = true
  · rw [if_pos hsig] at hx
    rw [← hx]
    exact ⟨(ctx, bus), [], hidle, rfl, h, rfl, rfl⟩
  rw [if_neg hsig] at hx
  obtain ⟨events, hmid⟩ := etherboneSlaveOutProcess_spec wops ctx bus
  obtain ⟨mid, hm⟩ : ∃ mid, etherboneSlaveOutProcess wops ctx bus = mid := ⟨_, rfl⟩
  rw [hm] at hmid hx
  have hb := hmid.bounded h
  rw [subU32_of_le hb.1 (by have := hb.2; omega)] at hx
  obtain ⟨len, hl⟩ : ∃ len, (if mid.1.rbufEnd - mid.1.rbufDone > u32 (iovLength iov)
    then u32 (iovLength iov) else mid.1.rbufEnd - mid.1.rbufDone) = len := ⟨_, rfl⟩
  have hbound : len ≤ mid.1.rbufEnd - mid.1.rbufDone ∧ len ≤ u32 (iovLength iov) := by
    rw [← hl]
    split <;> omega
  rw [hl] at hx
  obtain ⟨hb', htake⟩ := unread_take hb hbound.1
  have hcopy : (memcpyToiovecend iov (load mid.1.rbuf mid.1.rbufDone len) 0).flatten.take len =
      load mid.1.rbuf mid.1.rbufDone len := by
    have hspan := u32_le (iovLength iov)
    rw [iovLength_eq] at hspan hbound
    have := take_memcpyToiovecend iov (load mid.1.rbuf mid.1.rbufDone len)
      (by rw [load_length]; omega)
    rw [load_length] at this
    exact this
  refine ⟨mid, events, hmid, ?_, ?_, ?_, ?_⟩
  · rw [← hx]
    split <;> rfl
  · rw [← hx]
    split
    · exact hb'
    · exact hb'
  · rw [← hx]
    split <;> rfl
  · rw [← hx, ← htake]
    split
    · -- nothing was copied
      rename_i hagain
      rw [hagain.1]
      rfl
    · exact congrArg (· ++ _) hcopy

/-! ## Giving answers -/

/-- The writes of a record answer as often as they lower the count. -/
theorem cfgWrites_count (increment : Word) (ws : List Word) (base : Word) (s : ParserState) :
    (cfgWrites increment base ws s).2.length + (cfgWrites increment base ws s).1.pendingErr =
      s.pendingErr := by
  induction ws generalizing base s with
  | nil => exact Nat.zero_add _
  | cons w ws ih =>
      rw [cfgWrites]
      split
      · exact ih _ _
      · split
        · rename_i hyes
          have h := ih (base + increment) { s with pendingErr := s.pendingErr - 1 }
          have hpos := hyes.2
          dsimp only at h ⊢
          rw [List.length_cons]
          omega
        · exact Nat.zero_add _

/-- Every answer is for a request that was waiting. -/
theorem cfgExec_count (r : WbTransducer.EbRecord) (s : ParserState) :
    (cfgExec r s).2.length + (cfgExec r s).1.pendingErr = s.pendingErr := by
  rw [cfgExec]
  split
  · exact Nat.zero_add _
  · split
    · exact Nat.zero_add _
    · split
      · exact Nat.zero_add _
      · exact cfgWrites_count _ _ _ _

/-- What a write does to the other half of the context, and to the bus. -/
structure Answered (ctx : EtherboneSlaveContext) (bus : Bus σ) (ctx' : EtherboneSlaveContext)
    (bus' : Bus σ) : Prop where
  output : ctx'.rbuf = ctx.rbuf ∧ ctx'.rbufDone = ctx.rbufDone ∧ ctx'.rbufEnd = ctx.rbufEnd
  negotiated : ctx.negotiated = true → ctx'.negotiated = true
  replies : ∃ rs, bus' = replyAll wops rs bus ∧ rs.length + ctx'.pendingErr = ctx.pendingErr

theorem Answered.refl (ctx : EtherboneSlaveContext) (bus : Bus σ) :
    Answered wops ctx bus ctx bus :=
  ⟨⟨rfl, rfl, rfl⟩, id, [], rfl, Nat.zero_add _⟩

/-- Answers and answers. -/
theorem Answered.trans {ctx ctx' ctx'' : EtherboneSlaveContext} {bus bus' bus'' : Bus σ}
    (h : Answered wops ctx bus ctx' bus') (h' : Answered wops ctx' bus' ctx'' bus'') :
    Answered wops ctx bus ctx'' bus'' := by
  obtain ⟨hb, hd, he⟩ := h.output
  obtain ⟨hb', hd', he'⟩ := h'.output
  obtain ⟨rs, hrs, hcount⟩ := h.replies
  obtain ⟨rs', hrs', hcount'⟩ := h'.replies
  refine ⟨⟨hb'.trans hb, hd'.trans hd, he'.trans he⟩, fun hn => h'.negotiated (h.negotiated hn),
    rs ++ rs', ?_, ?_⟩
  · rw [replyAll_append, ← hrs, hrs']
  · rw [List.length_append]
    omega

/-- One iteration of the write loop. -/
theorem slaveWriteBody_answered (iov : Iovec) (iovOff iovLen : Nat) (ctx : EtherboneSlaveContext)
    (bus : Bus σ) :
    Answered wops ctx bus (slaveWriteBody wops iov iovOff iovLen ctx bus).ctx
      (slaveWriteBody wops iov iovOff iovLen ctx bus).bus := by
  have hquiet : ∀ ctx' : EtherboneSlaveContext, ctx'.rbuf = ctx.rbuf →
      ctx'.rbufDone = ctx.rbufDone → ctx'.rbufEnd = ctx.rbufEnd →
      (ctx.negotiated = true → ctx'.negotiated = true) → ctx'.pendingErr = ctx.pendingErr →
      Answered wops ctx bus ctx' bus := by
    intro ctx' hb hd he hn hp
    exact ⟨⟨hb, hd, he⟩, hn, [], rfl, by rw [hp]; exact Nat.zero_add _⟩
  rw [slaveWriteBody, slaveWriteBodyWith]
  dsimp only
  split
  · exact hquiet _ rfl rfl rfl id rfl
  split
  · split
    · exact hquiet _ rfl rfl rfl (fun _ => rfl) rfl
    · exact hquiet _ rfl rfl rfl id rfl
  split
  · exact hquiet _ rfl rfl rfl id rfl
  · -- a complete record
    obtain ⟨wbuf, hw⟩ : ∃ wbuf, store ctx.wbuf ctx.wbufFill (memcpyFromiovecend iov iovOff
      (subU32 (slaveRecordLen ctx.wbuf) ctx.wbufFill)) = wbuf := ⟨_, rfl⟩
    rw [hw]
    obtain ⟨hin, hn⟩ := etherboneSlaveInProcess_spec wops { ctx with wbuf := wbuf, wbufFill := 0 } bus
    have hcount := cfgExec_count (WbTransducer.EbRecord.ofBytes (load wbuf 0 (slaveRecordLen wbuf)))
      (parserOf { ctx with wbuf := wbuf, wbufFill := 0 })
    dsimp only at hin hn
    rw [hin]
    split
    · exact ⟨⟨rfl, rfl, rfl⟩, id, _, rfl, hcount⟩
    · exact ⟨⟨rfl, rfl, rfl⟩, id, _, rfl, hcount⟩

/-- The write loop. -/
theorem slaveWriteLoop_answered : ∀ (fuel : Nat) (iov : Iovec) (iovOff iovLen : Nat)
    (ctx : EtherboneSlaveContext) (bus : Bus σ),
    Answered wops ctx bus (slaveWriteLoop wops fuel iov iovOff iovLen ctx bus).2.1
      (slaveWriteLoop wops fuel iov iovOff iovLen ctx bus).2.2 := by
  intro fuel
  induction fuel with
  | zero => intro iov iovOff iovLen ctx bus; exact Answered.refl wops ctx bus
  | succ fuel ih =>
      intro iov iovOff iovLen ctx bus
      rw [slaveWriteLoop_succ]
      by_cases hpos : iovLen > 0
      · rw [if_pos hpos]
        have hbody := slaveWriteBody_answered wops (skipSegments iov iovOff).1
          (skipSegments iov iovOff).2 iovLen ctx bus
        dsimp only
        split
        · exact hbody
        · exact hbody.trans wops (ih _ _ _ _ _)
      · rw [if_neg hpos]
        exact Answered.refl wops ctx bus

/-- **A write only answers.** -/
theorem charSlaveAioWrite_answered (signal : Bool) (iov : Iovec) (ctx : EtherboneSlaveContext)
    (bus : Bus σ) :
    Answered wops ctx bus (charSlaveAioWrite wops signal iov ctx bus).2.1
      (charSlaveAioWrite wops signal iov ctx bus).2.2 := by
  rw [charSlaveAioWrite_eq]
  cases signal with
  | true => exact Answered.refl wops ctx bus
  | false => exact slaveWriteLoop_answered wops _ _ _ _ _ _

/-! ## Reading the requests -/

/-- What holds after every call: what was read and what can still be read are what
    was in `rbuf` at `first`, and the encodings of the requests taken. -/
structure StreamInv (first : List Byte) (run : SlaveRun σ) : Prop where
  bounded : Bounded run.ctx
  stream : run.returned ++ unread run.ctx =
    first ++ (dequeued run.bus.trace).flatMap requestBytes
  quiet : run.ctx.negotiated = false → ∀ r, .request r ∉ run.bus.trace

variable {wops}

/-- Refilling keeps the stream in order. -/
theorem Refilled.stream {ctx : EtherboneSlaveContext} {bus : Bus σ} {first returned : List Byte}
    {x : EtherboneSlaveContext × Bus σ} {events : List WopsCall} (h : Refilled ctx bus x events)
    (hb : Bounded ctx) (hs : returned ++ unread ctx =
      first ++ (dequeued bus.trace).flatMap requestBytes) :
    returned ++ unread x.1 = first ++ (dequeued x.2.trace).flatMap requestBytes := by
  rw [h.waiting hb, h.trace, dequeued_append, List.flatMap_append, ← List.append_assoc, hs,
    List.append_assoc]

/-- Nothing is taken before negotiation. -/
theorem Refilled.quiet {ctx : EtherboneSlaveContext} {bus : Bus σ}
    {x : EtherboneSlaveContext × Bus σ} {events : List WopsCall} (h : Refilled ctx bus x events)
    (hq : ctx.negotiated = false → ∀ r, .request r ∉ bus.trace) :
    x.1.negotiated = false → ∀ r, .request r ∉ x.2.trace := by
  intro hneg r hr
  rw [h.input.1] at hneg
  rw [h.trace] at hr
  rcases List.mem_append.mp hr with hr | hr
  · exact hq hneg r hr
  · obtain ⟨hyes, _⟩ := h.asked _ hr
    rw [hneg] at hyes
    cases hyes

/-- **Every call preserves the invariant.** -/
theorem StreamInv.step {first : List Byte} {run : SlaveRun σ} (h : StreamInv first run)
    (call : SlaveCall) : StreamInv first (run.step wops call) := by
  cases call with
  | aioRead signal nonblock iov =>
      obtain ⟨mid, events, hmid, hbus, hb, hctx, hread⟩ :=
        charSlaveAioRead_spec wops signal nonblock iov run.ctx run.bus h.bounded
      have hrun : run.step wops (.aioRead signal nonblock iov) = { run with
          ctx := (charSlaveAioRead wops signal nonblock iov run.ctx run.bus).2.2.1
          bus := mid.2
          returned := run.returned ++
            transferred (charSlaveAioRead wops signal nonblock iov run.ctx run.bus).1
              (charSlaveAioRead wops signal nonblock iov run.ctx run.bus).2.1 } := by
        rw [← hbus]
        rfl
      have hneg := congrArg (·.negotiated) hctx
      rw [hrun]
      refine ⟨hb, ?_, ?_⟩
      · dsimp only
        rw [List.append_assoc, hread]
        exact hmid.stream h.bounded h.stream
      · dsimp only at hneg ⊢
        rw [hneg]
        exact hmid.quiet h.quiet
  | aioWrite signal iov =>
      have hans := charSlaveAioWrite_answered wops signal iov run.ctx run.bus
      obtain ⟨hbuf, hdone, hend⟩ := hans.output
      obtain ⟨rs, hrs, _⟩ := hans.replies
      obtain ⟨x, hx⟩ : ∃ x, charSlaveAioWrite wops signal iov run.ctx run.bus = x := ⟨_, rfl⟩
      rw [hx] at hbuf hdone hend hrs hans
      have hrun : (run.step wops (.aioWrite signal iov)).ctx = x.2.1 ∧
          (run.step wops (.aioWrite signal iov)).bus = x.2.2 ∧
          (run.step wops (.aioWrite signal iov)).returned = run.returned := by
        rw [← hx]
        exact ⟨rfl, rfl, rfl⟩
      obtain ⟨hc, hbus, hret⟩ := hrun
      have hunread : unread x.2.1 = unread run.ctx := by rw [unread, unread, hbuf, hdone, hend]
      refine ⟨?_, ?_, ?_⟩
      · rw [hc, Bounded, hdone, hend]
        exact h.bounded
      · rw [hc, hbus, hret, hunread, hrs, replyAll_trace, dequeued_append, dequeued_replies,
          List.append_nil]
        exact h.stream
      · rw [hc, hbus]
        intro hneg r hr
        rw [hrs, replyAll_trace] at hr
        rcases List.mem_append.mp hr with hr | hr
        · refine h.quiet ?_ r hr
          by_contra hyes
          rw [hans.negotiated (Bool.of_not_eq_false hyes)] at hneg
          cases hneg
        · obtain ⟨_, _, heq⟩ := List.mem_map.mp hr
          cases heq
  | poll =>
      obtain ⟨events, hmid⟩ := etherboneSlaveOutProcess_spec wops run.ctx run.bus
      exact ⟨hmid.bounded h.bounded, hmid.stream h.bounded h.stream, hmid.quiet h.quiet⟩

/-- A freshly opened file satisfies the invariant. -/
theorem streamInv_start (mem : EtherboneSlaveContext) (st : σ) :
    StreamInv probeBytes (SlaveRun.start (initContext mem) ⟨st, []⟩) :=
  ⟨⟨Nat.zero_le 8, (by decide : 8 ≤ 24)⟩, rfl, fun _ _ h => absurd h List.not_mem_nil⟩

/-- **Reading the slave device returns the probe and then the requests**, each one
    once, in the order in which they were taken from the hardware: whatever the
    calls, what was read and what waits in `rbuf` are exactly that stream, and
    nothing is taken before negotiation. -/
theorem slave_reads_requests (mem : EtherboneSlaveContext) (st : σ) (calls : List SlaveCall) :
    let run := (SlaveRun.start (initContext mem) ⟨st, []⟩).exec wops calls
    let stream := probeBytes ++ (dequeued run.bus.trace).flatMap requestBytes
    run.returned <+: stream ∧
    run.returned ++ load run.ctx.rbuf run.ctx.rbufDone (run.ctx.rbufEnd - run.ctx.rbufDone) =
      stream ∧
    (∀ request, (requestBytes request).length = 24) ∧
    (run.ctx.negotiated = false → ∀ r, .request r ∉ run.bus.trace) ∧
    run.ctx.rbufDone ≤ run.ctx.rbufEnd ∧ run.ctx.rbufEnd ≤ 24 := by
  intro run stream
  have h : StreamInv probeBytes run := List.foldlRecOn calls _ (streamInv_start mem st)
    (fun r hr call _ => hr.step call)
  exact ⟨⟨unread run.ctx, h.stream⟩, h.stream, requestBytes_length, h.quiet, h.bounded⟩

end WbSlaveRequests
