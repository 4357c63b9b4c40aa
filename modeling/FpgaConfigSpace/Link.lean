import FpgaConfigSpace.LinkWire
import FpgaConfigSpace.SlaveDevice

/-! # A slave device and a master device joined by a relay

    A user program reads requests from a slave device and writes them to the master
    device of a peer, and carries the responses back.  It may do so in any order
    and in pieces of any size.  `LinkInv` accounts for every byte on the way: what
    the slave device has been given back is the beginning of the peer's responses
    to the requests taken so far. -/

namespace WbLink

open BigEndian WbIovec WbWishbone WbMaster WbTransducer WbMasterRing WbMasterRuns
open WbSlave WbSlaveParser WbSlaveWrite WbSlaveRuns WbSlaveRequests WbSlaveDevice WbLinkWire
open CyclicBuffer Frames

variable {σ τ : Type} (wops : WishboneOperations σ) (peerOps : WishboneOperations τ)

/-- Both devices, and the bytes the relay holds in each direction. -/
structure Link (σ τ : Type) where
  slave : SlaveRun σ
  peer : MasterRun τ
  toPeer : List Byte
  toSlave : List Byte

/-- What the relay does.  A write takes the first bytes it holds, cut into segments
    of the given lengths. -/
inductive LinkEvent where
  | slaveRead (signal nonblock : Bool) (iov : Iovec)
  | slavePoll
  | peerWrite (signal nonblock : Bool) (cut : List Nat)
  | peerRead (signal nonblock : Bool) (iov : Iovec)
  | slaveWrite (signal : Bool) (cut : List Nat)

/-- Cut bytes into segments. -/
def segments : List Nat → List Byte → Iovec
  | [], _ => []
  | n :: ns, bytes => bytes.take n :: segments ns (bytes.drop n)

/-- One event: what the slave returns is on the wire, and so is what the peer answers. -/
def Link.step (l : Link σ τ) : LinkEvent → Link σ τ
  | .slaveRead signal nonblock iov =>
      let slave := l.slave.step wops (.aioRead signal nonblock iov)
      { l with
        slave := slave
        toPeer := l.toPeer ++ slave.returned.drop l.slave.returned.length }
  | .slavePoll => { l with slave := l.slave.step wops .poll }
  | .peerWrite signal nonblock cut =>
      let peer := l.peer.step peerOps (.aioWrite signal nonblock (segments cut l.toPeer))
      { l with
        peer := peer
        toPeer := l.toPeer.drop (peer.accepted.length - l.peer.accepted.length) }
  | .peerRead signal nonblock iov =>
      let peer := l.peer.step peerOps (.aioRead signal nonblock iov)
      { l with
        peer := peer
        toSlave := l.toSlave ++ peer.returned.drop l.peer.returned.length }
  | .slaveWrite signal cut =>
      let slave := l.slave.step wops (.aioWrite signal (segments cut l.toSlave))
      { l with
        slave := slave
        toSlave := l.toSlave.drop (slave.offered.length - l.slave.offered.length) }

/-- A run of the link. -/
def Link.exec (l : Link σ τ) (events : List LinkEvent) : Link σ τ :=
  events.foldl (Link.step wops peerOps) l

/-- A link with nothing on the way. -/
def Link.start (ctx : EtherboneSlaveContext) (st : σ) (peer : MasterRun τ) : Link σ τ :=
  ⟨SlaveRun.start ctx ⟨st, []⟩, peer, [], []⟩

/-- A slave context that is negotiated and idle; a record that does nothing may
    wait in `wbuf` for the byte behind it. -/
structure SlaveReady (ctx : EtherboneSlaveContext) : Prop where
  negotiated : ctx.negotiated = true
  settled : ctx.pendingErr = 0
  drained : ctx.rbufDone = ctx.rbufEnd
  bounded : ctx.rbufEnd ≤ 24
  padding : ctx.wbufFill = 0 ∨ ctx.wbufFill = 4 ∧ ctx.wbuf 2 = 0 ∧ ctx.wbuf 3 = 0

/-- A master context past its header whose ring is empty. -/
structure PeerReady (ctx : EtherboneMasterContext) : Prop where
  live : ctx.state ≠ .header
  unread : ringReadLen ctx = 0
  unprocessed : ringProcLen ctx = 0

/-- A cut of some bytes is a beginning of them. -/
theorem segments_flatten (cut : List Nat) (bytes : List Byte) :
    (segments cut bytes).flatten <+: bytes := by
  induction cut generalizing bytes with
  | nil => exact List.nil_prefix
  | cons n ns ih =>
      rw [segments, List.flatten_cons]
      obtain ⟨rest, hrest⟩ := ih (bytes.drop n)
      refine ⟨rest, ?_⟩
      rw [List.append_assoc, hrest, List.take_append_drop]

variable {wops peerOps}

/-! ## The peer -/

/-- An idle peer has sent all it had to send. -/
theorem transduce_idle {bus₀ : Bus τ} {peer : MasterRun τ} (h : RunInv peerOps bus₀ peer)
    (hidle : PeerReady peer.ctx) :
    transduce peerOps bus₀ peer.accepted = ⟨(peer.ctx.state, peer.bus), [], peer.returned⟩ := by
  obtain ⟨⟨state, rest, out⟩, ht⟩ : ∃ t, transduce peerOps bus₀ peer.accepted = t := ⟨_, rfl⟩
  have hstate := h.rep.state
  have hread := h.rep.ringReadLen
  have hproc := h.rep.ringProcLen
  have htotal := h.rep.total
  have hout := h.out
  rw [ht] at hstate hread hproc htotal hout ⊢
  dsimp only at hstate hread hproc htotal hout
  rw [hidle.unread] at hread
  rw [hidle.unprocessed] at hproc
  have hlen : out.length = peer.returned.length := by
    have := hout.length_le
    omega
  have hrest : rest = [] := List.length_eq_zero_iff.mp (by omega)
  have hreturned : peer.returned = out := hout.eq_of_length hlen.symm
  rw [hrest, hreturned, ← hstate]

/-- What a peer has sent after accepting more bytes. -/
theorem transduce_more {bus₀ : Bus τ} {peer : MasterRun τ} (h : RunInv peerOps bus₀ peer)
    (hidle : PeerReady peer.ctx) (bytes : List Byte) :
    let d := drain (masterFramer peerOps) (peer.ctx.state, peer.bus) bytes
    transduce peerOps bus₀ (peer.accepted ++ bytes) = ⟨d.state, d.rest, peer.returned ++ d.out⟩ := by
  have happend := drain_append (masterFramer peerOps) bytes (.header, bus₀) peer.accepted
  have hdone : drain (masterFramer peerOps) (.header, bus₀) peer.accepted = _ :=
    transduce_idle h hidle
  rw [hdone] at happend
  exact happend

/-- What is transferred is a beginning of the buffer. -/
theorem transferred_prefix_of (r : Except Errno Nat) (iov : Iovec) :
    transferred r iov <+: iov.flatten := by
  cases r with
  | ok n => exact List.take_prefix n _
  | error _ => exact List.nil_prefix

/-! ## The slave -/

/-- Bytes that wait in `wbuf` of a ready context do not change what is parsed. -/
theorem drain_padding {ctx : EtherboneSlaveContext} (h : SlaveReady ctx) (n : Nat) (data : Word)
    (xs : List Byte) :
    let d := drain (slaveFramer 1) ⟨true, n, data, false⟩ xs
    let e := drain (slaveFramer 1) ⟨true, n, data, false⟩ (held ctx ++ xs)
    e.state = d.state ∧ e.out = d.out := by
  rcases h.padding with hfill | ⟨hfill, h2, h3⟩
  · have hheld : held ctx = [] := by
      rw [held, hfill]
      rfl
    rw [hheld]
    exact ⟨rfl, rfl⟩
  · have hheld : held ctx = [ctx.wbuf 0, ctx.wbuf 1, 0, 0] := by
      have hfour : load ctx.wbuf 0 4 = [ctx.wbuf 0, ctx.wbuf 1, ctx.wbuf 2, ctx.wbuf 3] := rfl
      rw [held, hfill, hfour, h2, h3]
    rw [hheld]
    cases xs with
    | nil =>
        have hempty : drain (slaveFramer 1) ⟨true, n, data, false⟩ [] = ⟨_, [], []⟩ :=
          drain_of_none _ rfl
        have hshort : drain (slaveFramer 1) ⟨true, n, data, false⟩
            ([ctx.wbuf 0, ctx.wbuf 1, 0, 0] ++ []) = ⟨_, _, []⟩ :=
          drain_of_none _ rfl
        rw [hempty, hshort]
        exact ⟨rfl, rfl⟩
    | cons x xs =>
        rw [drain_noop _ rfl rfl _ _ (List.cons_ne_nil x xs)]
        exact ⟨rfl, rfl⟩

/-- The parser loses no request. -/
theorem drain_count : ∀ (s : ParserState) (xs : List Byte),
    (drain (slaveFramer 1) s xs).out.length + (drain (slaveFramer 1) s xs).state.pendingErr =
      s.pendingErr := by
  refine drain_induction (slaveFramer 1) ?_ ?_
  · intro s xs h
    rw [drain_of_none _ h]
    exact Nat.zero_add _
  · intro s xs k h ih
    have hstep : ((slaveFramer 1).step s (xs.take k)).2.length +
        ((slaveFramer 1).step s (xs.take k)).1.pendingErr = s.pendingErr := by
      show (slaveStep s (xs.take k)).2.length + (slaveStep s (xs.take k)).1.pendingErr = _
      rw [slaveStep]
      split
      · exact cfgExec_count _ _
      · exact Nat.zero_add _
    rw [drain_of_some _ h, List.length_append, ← hstep, ← ih]
    exact Nat.add_assoc _ _ _

/-! ## Runs of the link -/

/-- Where every byte is, and how far the slave has got. -/
structure LinkInv (wops : WishboneOperations σ) (peerOps : WishboneOperations τ)
    (ctx₀ : EtherboneSlaveContext) (bus₀ : Bus τ) (peer₀ : MasterRun τ) (l : Link σ τ) : Prop where
  stream : StreamInv [] l.slave
  relayed : ∃ sent, l.peer.accepted = peer₀.accepted ++ sent ∧ l.slave.returned = sent ++ l.toPeer
  peer : RunInv peerOps bus₀ l.peer
  back : l.peer.returned = peer₀.returned ++ (l.slave.offered ++ l.toSlave)
  ok : l.slave.eio = false
  waiting : Waiting l.slave.ctx
  parsed :
    let d := drain (slaveFramer 1)
      ⟨true, (dequeued l.slave.bus.trace).length, ctx₀.data, false⟩ (held ctx₀ ++ l.slave.offered)
    parserOf l.slave.ctx = d.state ∧ held l.slave.ctx = d.rest ∧ answered l.slave.bus.trace = d.out

section
variable {ctx₀ : EtherboneSlaveContext} {bus₀ : Bus τ} {peer₀ : MasterRun τ} {l : Link σ τ}

/-- What the requests taken so far come to on the peer's bus. -/
def outcomes (peerOps : WishboneOperations τ) (peer₀ : MasterRun τ) (l : Link σ τ) :
    List Outcome × (MasterState × Bus τ) :=
  serveAll peerOps (dequeued l.slave.bus.trace) (peer₀.ctx.state, peer₀.bus)

/-- **What comes back is the beginning of the responses.** -/
theorem LinkInv.responses_prefix_of (h : LinkInv wops peerOps ctx₀ bus₀ peer₀ l)
    (h₀ : RunInv peerOps bus₀ peer₀) (hpeer : PeerReady peer₀.ctx) :
    l.slave.offered ++ l.toSlave <+:
      responses (dequeued l.slave.bus.trace) (outcomes peerOps peer₀ l).1 := by
  obtain ⟨sent, haccepted, hreturned⟩ := h.relayed
  have hout := h.peer.out
  rw [haccepted, transduce_more h₀ hpeer, h.back] at hout
  have hsent := (List.prefix_append_right_inj _).mp hout
  have hstream := h.stream.stream
  rw [List.nil_append, hreturned, List.append_assoc] at hstream
  have hall := drain_out_extends (masterFramer peerOps) (peer₀.ctx.state, peer₀.bus) sent
    (l.toPeer ++ unread l.slave.ctx)
  rw [hstream, drain_requests peerOps _ (s := (peer₀.ctx.state, peer₀.bus)) hpeer.live] at hall
  exact hsent.trans hall

/-- The beginning of the responses is parsed without failure, into the beginning of
    the answers. -/
theorem parse_responses (hslave : SlaveReady ctx₀) {requests : List WishboneRequest}
    (hmask : ∀ request ∈ requests, FullMask request) (s : MasterState × Bus τ) {bytes : List Byte}
    (hbytes : bytes <+: responses requests (serveAll peerOps requests s).1) :
    let d := drain (slaveFramer 1) ⟨true, requests.length, ctx₀.data, false⟩ (held ctx₀ ++ bytes)
    d.state.failed = false ∧ d.out <+: replies ctx₀.data (serveAll peerOps requests s).1 := by
  obtain ⟨rest, hrest⟩ := hbytes
  obtain ⟨hok, _, _, hout⟩ := drain_responses peerOps requests hmask s 0 ctx₀.data
  obtain ⟨hstate, hanswers⟩ := drain_padding hslave requests.length ctx₀.data
    (responses requests (serveAll peerOps requests s).1)
  rw [Nat.add_zero] at hok hout
  rw [← hstate, ← hrest, ← List.append_assoc] at hok
  rw [← hanswers, ← hrest, ← List.append_assoc] at hout
  refine ⟨drain_ok_of_append hok, ?_⟩
  rw [← hout]
  exact drain_out_extends _ _ _ _

/-- Answers and open requests make up the requests taken. -/
theorem LinkInv.count (h : LinkInv wops peerOps ctx₀ bus₀ peer₀ l) :
    (answered l.slave.bus.trace).length + l.slave.ctx.pendingErr =
      (dequeued l.slave.bus.trace).length := by
  obtain ⟨hstate, _, hans⟩ := h.parsed
  have hpend : l.slave.ctx.pendingErr = (parserOf l.slave.ctx).pendingErr := rfl
  rw [hans, hpend, hstate]
  exact drain_count _ _

/-- Taking a request from the hardware. -/
theorem LinkInv.refill (h : LinkInv wops peerOps ctx₀ bus₀ peer₀ l)
    {mid : EtherboneSlaveContext × Bus σ} {events : List WopsCall}
    (hmid : Refilled l.slave.ctx l.slave.bus mid events)
    (hfew : unanswered mid.2.trace < 0x100000000) :
    let d := drain (slaveFramer 1)
      ⟨true, (dequeued mid.2.trace).length, ctx₀.data, false⟩ (held ctx₀ ++ l.slave.offered)
    Waiting mid.1 ∧ parserOf mid.1 = d.state ∧ held mid.1 = d.rest ∧
      answered mid.2.trace = d.out := by
  obtain ⟨hneg, hdata, hwbuf, hfill⟩ := hmid.input
  obtain ⟨hstate, hheld, hans⟩ := h.parsed
  have hcount := h.count
  have hquiet := answered_asked hmid.asked
  have hsingle := hmid.single
  have hheld' : held mid.1 = held l.slave.ctx := by rw [held, held, hwbuf, hfill]
  have hans' : answered mid.2.trace = answered l.slave.bus.trace := by
    rw [hmid.trace, answered_append, hquiet, List.append_nil]
  have hdeq : (dequeued mid.2.trace).length =
      (dequeued l.slave.bus.trace).length + (dequeued events).length := by
    rw [hmid.trace, dequeued_append, List.length_append]
  have hpend : mid.1.pendingErr = l.slave.ctx.pendingErr + (dequeued events).length := by
    rw [unanswered, hans', hdeq] at hfew
    rcases hmid.pendingErr with hp | ⟨hnil, hp⟩
    · rw [hp, u32_of_lt (by omega)]
    · rw [hp, hnil]
      rfl
  have hwait : Waiting mid.1 := by
    rw [waiting_iff, hneg, hwbuf, hfill, ← waiting_iff]
    exact h.waiting
  rw [hheld', hans', hdeq, hheld, hans]
  rcases Nat.lt_or_eq_of_le hsingle with hzero | hone
  · -- no request was waiting
    have hzero' : (dequeued events).length = 0 := by omega
    have hsame : parserOf mid.1 = parserOf l.slave.ctx := by
      rw [parserOf, parserOf, hneg, hdata, hpend, hzero']
      rfl
    rw [hzero', Nat.add_zero, hsame]
    exact ⟨hwait, hstate, rfl, rfl⟩
  · -- one more request is open
    have hmore : parserOf mid.1 = oneMore (parserOf l.slave.ctx) := by
      rw [parserOf, hneg, hdata, hpend, hone]
      rfl
    have hfail : (drain (slaveFramer 1)
        ⟨true, (dequeued l.slave.bus.trace).length, ctx₀.data, false⟩
        (held ctx₀ ++ l.slave.offered)).state.failed = false := by
      rw [← hstate]
      rfl
    have hdrain := drain_more _ _ hfail
    rw [hone, hmore, hstate]
    refine ⟨hwait, ?_, ?_, ?_⟩
    · exact (congrArg (·.state) hdrain).symm
    · exact (congrArg (·.rest) hdrain).symm
    · exact (congrArg (·.out) hdrain).symm

/-- What the relay hands to the slave is parsed behind what it handed over before. -/
theorem LinkInv.write (h : LinkInv wops peerOps ctx₀ bus₀ peer₀ l) (hslave : SlaveReady ctx₀)
    (hpeer : PeerReady peer₀.ctx) (h₀ : RunInv peerOps bus₀ peer₀)
    (hmask : ∀ request ∈ dequeued l.slave.bus.trace, FullMask request)
    (signal : Bool) (cut : List Nat) :
    LinkInv wops peerOps ctx₀ bus₀ peer₀ (l.step wops peerOps (.slaveWrite signal cut)) := by
  obtain ⟨iov, hiov⟩ : ∃ iov, segments cut l.toSlave = iov := ⟨_, rfl⟩
  obtain ⟨zs, hzs⟩ : ∃ zs, (if signal then [] else iov.flatten.take (u32 (iovLength iov))) = zs :=
    ⟨_, rfl⟩
  have hprefix : zs <+: l.toSlave := by
    have hflat := segments_flatten cut l.toSlave
    rw [hiov] at hflat
    rw [← hzs]
    cases signal with
    | true => exact List.nil_prefix
    | false => exact (List.take_prefix _ _).trans hflat
  obtain ⟨rest, hrest⟩ := hprefix
  obtain ⟨hstate, hheld, hans⟩ := h.parsed
  -- the write, as one that continues from the bytes held
  have hlocal : ParseInv wops (parserOf l.slave.ctx) l.slave.bus
      ⟨l.slave.ctx, l.slave.bus, [], held l.slave.ctx, false, []⟩ := by
    have hnone : drain (slaveFramer 1) (parserOf l.slave.ctx) (held l.slave.ctx) = ⟨_, _, []⟩ :=
      drain_of_none _ h.waiting
    refine ⟨h.waiting, fun _ h => absurd h List.not_mem_nil, ?_, ?_⟩
    · rw [hnone]
      rfl
    · intro _
      rw [hnone]
      exact ⟨rfl, rfl, rfl⟩
  have hwrite := hlocal.write signal iov
  obtain ⟨x, hx⟩ : ∃ x, charSlaveAioWrite wops signal iov l.slave.ctx l.slave.bus = x := ⟨_, rfl⟩
  obtain ⟨run, hrun⟩ : ∃ run, (SlaveRun.mk l.slave.ctx l.slave.bus [] (held l.slave.ctx) false
    []).step wops (.aioWrite signal iov) = run := ⟨_, rfl⟩
  have hfields : run.ctx = x.2.1 ∧ run.bus = x.2.2 ∧ run.offered = held l.slave.ctx ++ zs ∧
      run.eio = isEio x.1 := by
    rw [← hrun, ← hx, ← hzs]
    exact ⟨rfl, rfl, rfl, Bool.false_or _⟩
  rw [hrun] at hwrite
  obtain ⟨hctx, hbus, hoff, heio⟩ := hfields
  obtain ⟨copies, hcopies⟩ : ∃ copies, (l.slave.step wops (.aioWrite signal iov)).copies = copies :=
    ⟨_, rfl⟩
  have hslavestep : l.slave.step wops (.aioWrite signal iov) =
      ⟨run.ctx, run.bus, l.slave.returned, l.slave.offered ++ zs, l.slave.eio || run.eio, copies⟩ := by
    rw [hctx, hbus, heio, ← hx, ← hzs, ← hcopies]
    rfl
  have hstep : l.step wops peerOps (.slaveWrite signal cut) =
      ⟨⟨run.ctx, run.bus, l.slave.returned, l.slave.offered ++ zs, l.slave.eio || run.eio, copies⟩,
        l.peer, l.toPeer, rest⟩ := by
    rw [Link.step, hiov, hslavestep]
    dsimp only
    rw [List.length_append, Nat.add_sub_cancel_left, ← hrest, List.drop_left]
  -- the parser has not failed on these bytes
  have hcomes := h.responses_prefix_of h₀ hpeer
  have hpart : l.slave.offered ++ zs <+:
      responses (dequeued l.slave.bus.trace) (outcomes peerOps peer₀ l).1 := by
    rw [← hrest, ← List.append_assoc] at hcomes
    exact (List.prefix_append _ _).trans hcomes
  obtain ⟨hgood, _⟩ := parse_responses hslave hmask _ hpart
  have happend := drain_append (slaveFramer 1) zs
    ⟨true, (dequeued l.slave.bus.trace).length, ctx₀.data, false⟩ (held ctx₀ ++ l.slave.offered)
  rw [List.append_assoc] at happend
  rw [← hstate, ← hheld, ← hans] at happend
  rw [happend] at hgood
  have hok : run.eio = false := by
    rw [hwrite.eio, hoff]
    exact hgood
  obtain ⟨hp1, hp2, hp3⟩ := hwrite.parsed hok
  rw [hoff] at hp1 hp2 hp3
  have htrace : run.bus.trace = _ := congrArg Bus.trace hp3
  rw [replyAll_trace] at htrace
  have hdeq : dequeued run.bus.trace = dequeued l.slave.bus.trace := by
    rw [htrace, dequeued_append, dequeued_replies, List.append_nil]
  rw [hstep]
  refine ⟨?_, h.relayed, h.peer, ?_, ?_, hwrite.waiting, ?_⟩
  · have hs : StreamInv [] (l.slave.step wops (.aioWrite signal iov)) := h.stream.step _
    refine ⟨?_, ?_, ?_⟩
    · show Bounded run.ctx
      rw [hctx, ← hx]
      exact hs.bounded
    · show l.slave.returned ++ unread run.ctx = [] ++ (dequeued run.bus.trace).flatMap _
      rw [hctx, hbus, ← hx]
      exact hs.stream
    · show run.ctx.negotiated = false → ∀ r, .request r ∉ run.bus.trace
      rw [hctx, hbus, ← hx]
      exact hs.quiet
  · dsimp only
    rw [List.append_assoc l.slave.offered, hrest]
    exact h.back
  · dsimp only
    rw [h.ok, hok]
    rfl
  · dsimp only
    rw [hdeq, happend]
    refine ⟨hp1, hp2, ?_⟩
    rw [htrace, answered_append, answered_replies]

/-- What the exchange needs of the requests: every value is read under the full
    mask, and the counter of open requests does not wrap. -/
def Answerable (l : Link σ τ) : Prop :=
  (∀ request ∈ dequeued l.slave.bus.trace, FullMask request) ∧
  unanswered l.slave.bus.trace < 0x100000000

/-- **Every step of the relay preserves the invariant.** -/
theorem LinkInv.step (h : LinkInv wops peerOps ctx₀ bus₀ peer₀ l) (hslave : SlaveReady ctx₀)
    (hpeer : PeerReady peer₀.ctx) (h₀ : RunInv peerOps bus₀ peer₀) (event : LinkEvent)
    (hbefore : Answerable l) (hafter : Answerable (l.step wops peerOps event)) :
    LinkInv wops peerOps ctx₀ bus₀ peer₀ (l.step wops peerOps event) := by
  cases event with
  | slaveRead signal nonblock iov =>
      obtain ⟨mid, events, hmid, hbus, hb, hctx, hread⟩ :=
        charSlaveAioRead_spec wops signal nonblock iov l.slave.ctx l.slave.bus h.stream.bounded
      obtain ⟨x, hx⟩ : ∃ x, charSlaveAioRead wops signal nonblock iov l.slave.ctx l.slave.bus = x :=
        ⟨_, rfl⟩
      rw [hx] at hbus hb hctx hread
      have hstep : l.step wops peerOps (.slaveRead signal nonblock iov) =
          ⟨⟨x.2.2.1, mid.2, l.slave.returned ++ transferred x.1 x.2.1, l.slave.offered, l.slave.eio,
            l.slave.copies⟩, l.peer, l.toPeer ++ transferred x.1 x.2.1, l.toSlave⟩ := by
        rw [← hbus, ← hx, Link.step]
        show Link.mk _ _ (l.toPeer ++ (l.slave.returned ++ _).drop _) _ = _
        rw [List.drop_left]
        rfl
      rw [hstep] at hafter ⊢
      obtain ⟨hwait, hstate, hheld, hans⟩ := h.refill hmid hafter.2
      have hparser : parserOf x.2.2.1 = parserOf mid.1 := by
        rw [hctx]
        rfl
      have hkept : held x.2.2.1 = held mid.1 := by
        rw [hctx]
        rfl
      obtain ⟨sent, haccepted, hreturned⟩ := h.relayed
      refine ⟨⟨hb, ?_, ?_⟩, ⟨sent, haccepted, ?_⟩, h.peer, h.back, h.ok, ?_, ?_⟩
      · dsimp only
        rw [List.append_assoc, hread]
        exact hmid.stream h.stream.bounded h.stream.stream
      · have hneg : x.2.2.1.negotiated = mid.1.negotiated := congrArg (·.negotiated) hctx
        dsimp only
        rw [hneg]
        exact hmid.quiet h.stream.quiet
      · dsimp only
        rw [hreturned, List.append_assoc]
      · show slaveFrame 1 (parserOf x.2.2.1) (held x.2.2.1) = none
        rw [hparser, hkept]
        exact hwait
      · dsimp only
        rw [hparser, hkept]
        exact ⟨hstate, hheld, hans⟩
  | slavePoll =>
      obtain ⟨events, hmid⟩ := etherboneSlaveOutProcess_spec wops l.slave.ctx l.slave.bus
      obtain ⟨hwait, hparsed⟩ := h.refill hmid hafter.2
      exact ⟨h.stream.step .poll, h.relayed, h.peer, h.back, h.ok, hwait, hparsed⟩
  | peerWrite signal nonblock cut =>
      obtain ⟨sent, haccepted, hreturned⟩ := h.relayed
      obtain ⟨x, hx⟩ : ∃ x, charMasterAioWrite peerOps signal nonblock (segments cut l.toPeer)
        l.peer.ctx l.peer.bus = x := ⟨_, rfl⟩
      obtain ⟨rest, hrest⟩ := (transferred_prefix_of x.1 (segments cut l.toPeer)).trans
        (segments_flatten cut l.toPeer)
      have hinv := h.peer.step (.aioWrite signal nonblock (segments cut l.toPeer))
      have hacc : (l.peer.step peerOps (.aioWrite signal nonblock (segments cut l.toPeer))).accepted =
          l.peer.accepted ++ transferred x.1 (segments cut l.toPeer) := by
        rw [← hx]
        rfl
      have hleft : (l.step wops peerOps (.peerWrite signal nonblock cut)).toPeer = rest := by
        show l.toPeer.drop ((l.peer.step peerOps (.aioWrite signal nonblock
          (segments cut l.toPeer))).accepted.length - _) = _
        rw [hacc, List.length_append, Nat.add_sub_cancel_left]
        nth_rewrite 2 [← hrest]
        exact List.drop_left
      refine ⟨h.stream, ⟨sent ++ transferred x.1 (segments cut l.toPeer), ?_, ?_⟩, hinv, h.back, h.ok,
        h.waiting, h.parsed⟩
      · rw [← List.append_assoc, ← haccepted]
        exact hacc
      · rw [hleft, List.append_assoc, hrest]
        exact hreturned
  | peerRead signal nonblock iov =>
      have hinv := h.peer.step (.aioRead signal nonblock iov)
      refine ⟨h.stream, h.relayed, hinv, ?_, h.ok, h.waiting, h.parsed⟩
      show l.peer.returned ++ _ = peer₀.returned ++ (l.slave.offered ++ (l.toSlave ++
        (l.peer.returned ++ _).drop _))
      rw [List.drop_left, h.back]
      simp only [List.append_assoc]
  | slaveWrite signal cut => exact h.write hslave hpeer h₀ hbefore.1 signal cut

/-- A link with nothing on the way satisfies the invariant. -/
theorem linkInv_start (hslave : SlaveReady ctx₀) (st : σ) (h₀ : RunInv peerOps bus₀ peer₀) :
    LinkInv wops peerOps ctx₀ bus₀ peer₀ (Link.start ctx₀ st peer₀) := by
  have hwait : Waiting ctx₀ := by
    rw [waiting_iff]
    rcases hslave.padding with h | ⟨h, _⟩
    · exact .inl (by omega)
    · exact .inl (by omega)
  have hparser : parserOf ctx₀ = ⟨true, 0, ctx₀.data, false⟩ := by
    rw [parserOf, hslave.negotiated, hslave.settled]
  have hnone : drain (slaveFramer 1) ⟨true, 0, ctx₀.data, false⟩ (held ctx₀ ++ []) =
      ⟨parserOf ctx₀, held ctx₀, []⟩ := by
    rw [← hparser]
    exact parse_nil hwait
  refine ⟨⟨⟨Nat.le_of_eq hslave.drained, hslave.bounded⟩, ?_, fun _ _ h => absurd h List.not_mem_nil⟩,
    ⟨[], (List.append_nil _).symm, rfl⟩, h₀, (List.append_nil _).symm, rfl, hwait, ?_⟩
  · show [] ++ unread ctx₀ = []
    rw [unread, hslave.drained, Nat.sub_self]
    rfl
  · show parserOf ctx₀ = (drain (slaveFramer 1) ⟨true, 0, ctx₀.data, false⟩ (held ctx₀ ++ [])).state ∧
      held ctx₀ = (drain (slaveFramer 1) ⟨true, 0, ctx₀.data, false⟩ (held ctx₀ ++ [])).rest ∧
      [] = (drain (slaveFramer 1) ⟨true, 0, ctx₀.data, false⟩ (held ctx₀ ++ [])).out
    rw [hnone]
    exact ⟨rfl, rfl, rfl⟩

/-- The invariant holds throughout every run whose requests can be answered. -/
theorem linkInv_exec (hslave : SlaveReady ctx₀) (hpeer : PeerReady peer₀.ctx)
    (h₀ : RunInv peerOps bus₀ peer₀) : ∀ (events : List LinkEvent) (l : Link σ τ),
    LinkInv wops peerOps ctx₀ bus₀ peer₀ l →
    (∀ n, Answerable (l.exec wops peerOps (events.take n))) →
    LinkInv wops peerOps ctx₀ bus₀ peer₀ (l.exec wops peerOps events) := by
  intro events
  induction events with
  | nil => intro l h _; exact h
  | cons event events ih =>
      intro l h hgood
      exact ih (l.step wops peerOps event) (h.step hslave hpeer h₀ event (hgood 0) (hgood 1))
        (fun n => hgood (n + 1))

/-- When the relay holds nothing and the peer has answered everything, the peer has
    served all requests and all responses have come back. -/
theorem LinkInv.delivered (h : LinkInv wops peerOps ctx₀ bus₀ peer₀ l)
    (h₀ : RunInv peerOps bus₀ peer₀) (hslave : SlaveReady ctx₀) (hpeer : PeerReady peer₀.ctx)
    (hmask : ∀ request ∈ dequeued l.slave.bus.trace, FullMask request)
    (hread : unread l.slave.ctx = []) (htoPeer : l.toPeer = [])
    (hring : ringReadLen l.peer.ctx = 0) (htoSlave : l.toSlave = []) :
    answered l.slave.bus.trace = replies ctx₀.data (outcomes peerOps peer₀ l).1 ∧
      l.peer.bus = (outcomes peerOps peer₀ l).2.2 := by
  obtain ⟨sent, haccepted, hreturned⟩ := h.relayed
  have hstream := h.stream.stream
  rw [hread, hreturned, htoPeer, List.append_nil, List.append_nil, List.nil_append] at hstream
  have hmore := transduce_more h₀ hpeer sent
  rw [hstream, drain_requests peerOps _ (s := (peer₀.ctx.state, peer₀.bus)) hpeer.live,
    ← hstream, ← haccepted] at hmore
  have hout := h.peer.out
  have hlen := h.peer.rep.ringReadLen
  have hstate := h.peer.rep.state
  rw [hmore] at hout hlen hstate
  rw [hring] at hlen
  dsimp only at hout hlen hstate
  have hreturns := hout.eq_of_length (by have := hout.length_le; omega)
  rw [h.back, htoSlave, List.append_nil] at hreturns
  have hoffered : l.slave.offered = responses (dequeued l.slave.bus.trace)
      (serveAll peerOps (dequeued l.slave.bus.trace) (peer₀.ctx.state, peer₀.bus)).1 :=
    List.append_cancel_left hreturns
  obtain ⟨_, _, hans⟩ := h.parsed
  obtain ⟨_, hpad⟩ := drain_padding hslave (dequeued l.slave.bus.trace).length ctx₀.data
    l.slave.offered
  obtain ⟨_, _, _, hall⟩ := drain_responses peerOps _ hmask (peer₀.ctx.state, peer₀.bus) 0 ctx₀.data
  rw [Nat.add_zero, ← hoffered] at hall
  exact ⟨hans.trans (hpad.trans hall), congrArg Prod.snd hstate⟩

end

/-- A response that carries a value read under another mask makes the write fail. -/
theorem partial_read_fails {request : WishboneRequest} (hmask : ¬ FullMask request)
    {s : MasterState × Bus τ} (hs : s.1 ≠ .header) {ctx : EtherboneSlaveContext}
    (hneg : ctx.negotiated = true) (bus : Bus σ) (writes : List (Bool × Iovec)) :
    let run := (SlaveRun.start { ctx with wbufFill := 0 } bus).exec wops
      (writes.map fun w => .aioWrite w.1 w.2)
    run.offered = (drain (masterFramer peerOps) s (requestBytes request)).out → run.eio = true := by
  intro run hoffered
  obtain ⟨hread, hpart⟩ := Classical.not_imp.mp hmask
  have hinv : ParseInv wops (parserOf { ctx with wbufFill := 0 }) bus run :=
    parseInv_writes ctx bus writes
  have hvalue : (serve peerOps request s).1.value ≠ none := by
    intro h
    rw [(serve_value peerOps request s).mp h] at hread
    cases hread
  obtain ⟨o, ho⟩ : ∃ o, (serve peerOps request s).1 = o := ⟨_, rfl⟩
  rw [ho] at hvalue
  rcases o with ⟨status, _ | v⟩
  · exact absurd rfl hvalue
  rw [drain_requestBytes peerOps hs, ho] at hoffered
  have hparser : parserOf { ctx with wbufFill := 0 } = ⟨true, ctx.pendingErr, ctx.data, false⟩ := by
    rw [parserOf]
    dsimp only
    rw [hneg]
  have hfail := drain_responseBytes_partial ctx.pendingErr ctx.data request status v hpart []
  rw [List.append_nil] at hfail
  rw [hinv.eio, hoffered, hparser]
  exact hfail

/-- **Requests are answered through the link**, as long as every value is read under
    the full mask: no write to the slave fails, and the answers are those the peer's
    bus has given, one for each request and in their order, with bit 0 of the error
    status and, for a read, the value that was read.  When all bytes have been
    carried every request has its answer, and the peer's bus has seen exactly the
    requests.  The condition is needed: the response to a read under another mask is
    refused. -/
theorem link_requests_answered (ctx₀ : EtherboneSlaveContext) (st : σ)
    (mem : EtherboneMasterContext) (peerSt : τ) (history : List MasterCall)
    (events : List LinkEvent) (hslave : SlaveReady ctx₀)
    (hpeer : PeerReady ((MasterRun.opened mem ⟨peerSt, []⟩).exec peerOps history).ctx)
    (hgood : ∀ n, Answerable ((Link.start ctx₀ st
      ((MasterRun.opened mem ⟨peerSt, []⟩).exec peerOps history)).exec wops peerOps
        (events.take n))) :
    let peer₀ := (MasterRun.opened mem ⟨peerSt, []⟩).exec peerOps history
    let l := (Link.start ctx₀ st peer₀).exec wops peerOps events
    let requests := dequeued l.slave.bus.trace
    let served := serveAll peerOps requests (peer₀.ctx.state, peer₀.bus)
    l.slave.eio = false ∧
    answered l.slave.bus.trace <+: replies ctx₀.data served.1 ∧
    (answered l.slave.bus.trace).length + l.slave.ctx.pendingErr = requests.length ∧
    (unread l.slave.ctx = [] → l.toPeer = [] → ringReadLen l.peer.ctx = 0 → l.toSlave = [] →
      answered l.slave.bus.trace = replies ctx₀.data served.1 ∧ l.peer.bus = served.2.2) ∧
    (∀ (request : WishboneRequest), ¬ FullMask request → ∀ (s : MasterState × Bus τ),
      s.1 ≠ .header → ∀ (ctx : EtherboneSlaveContext), ctx.negotiated = true →
      ∀ (bus : Bus σ) (writes : List (Bool × Iovec)),
      let run := (SlaveRun.start { ctx with wbufFill := 0 } bus).exec wops
        (writes.map fun w => .aioWrite w.1 w.2)
      run.offered = (drain (masterFramer peerOps) s (requestBytes request)).out →
        run.eio = true) := by
  intro peer₀ l requests served
  have h₀ : RunInv peerOps ⟨peerSt, []⟩ peer₀ := runInv_exec mem ⟨peerSt, []⟩ history
  have h : LinkInv wops peerOps ctx₀ ⟨peerSt, []⟩ peer₀ l :=
    linkInv_exec hslave hpeer h₀ events _ (linkInv_start hslave st h₀) hgood
  have hmask : ∀ request ∈ requests, FullMask request := by
    have := (hgood events.length).1
    rw [List.take_length] at this
    exact this
  obtain ⟨_, _, hans⟩ := h.parsed
  have hcomes := h.responses_prefix_of h₀ hpeer
  obtain ⟨_, hout⟩ := parse_responses hslave hmask _ ((List.prefix_append _ _).trans hcomes)
  refine ⟨h.ok, hans ▸ hout, h.count, ?_, ?_⟩
  · intro hread htoPeer hring htoSlave
    exact h.delivered h₀ hslave hpeer hmask hread htoPeer hring htoSlave
  · intro request hpart s hs ctx hneg bus writes
    exact partial_read_fails hpart hs hneg bus writes

/-- A device whose requests wait in a list. -/
def queued : WishboneOperations (List WishboneRequest) where
  cycle st _ := st
  byteenable st _ := st
  write st _ _ := st
  read st _ := (0, st)
  readCfg st _ := (0, st)
  request st := (st.head?, st.tail)
  reply st _ _ := st

/-- A peer whose bus reads the same word everywhere. -/
def constant : WishboneOperations Word where
  cycle st _ := st
  byteenable st _ := st
  write st _ _ := st
  read st _ := (st, st)
  readCfg st _ := (0, st)
  request st := (none, st)
  reply st _ _ := st

/-- An idle slave context, and a peer that has answered a probe. -/
def idleSlave : EtherboneSlaveContext := ⟨0, true, 0, 8, 8, fun _ => 0, 0, fun _ => 0⟩

/-- A program that opens a connection and reads the answer to its probe. -/
def probed : List MasterCall :=
  [.aioWrite false false [[0x4E, 0x6F, 0x11, 0xFF, 0, 0, 0, 1]],
   .aioRead false false [List.replicate 8 0]]

/-- The master behind the wire, once it was probed. -/
def probedPeer : MasterRun Word :=
  (MasterRun.opened ⟨.header, 0, 0, 0, fun _ => 0⟩ ⟨0xAB, []⟩).exec constant probed

/-- Carry one request and its response. -/
def oneExchange : List LinkEvent :=
  [.slaveRead false false [List.replicate 24 0],
   .peerWrite false false [24],
   .peerRead false false [List.replicate 24 0],
   .slaveWrite false [24]]

/-- The slave can be used. -/
theorem idleSlave_ready : SlaveReady idleSlave := ⟨rfl, rfl, rfl, by decide, .inl rfl⟩

/-- So can the master. -/
theorem probedPeer_ready : PeerReady probedPeer.ctx :=
  ⟨by decide, by decide +kernel, by decide +kernel⟩

/-- A read of one byte lane is never answered: the response is refused. -/
theorem link_partial_read :
    let l := (Link.start idleSlave [⟨false, 0x10, 0, 0x1⟩] probedPeer).exec queued constant
      oneExchange
    SlaveReady idleSlave ∧ PeerReady probedPeer.ctx ∧
    (dequeued l.slave.bus.trace).length = 1 ∧ l.slave.eio = true ∧ answered l.slave.bus.trace = [] :=
  ⟨idleSlave_ready, probedPeer_ready, by decide +kernel, by decide +kernel, by decide +kernel⟩

/-- A queued request comes back with its answer. -/
theorem link_requests_answered_read :
    let l := (Link.start idleSlave [⟨false, 0x10, 0, 0xf⟩] probedPeer).exec queued constant
      oneExchange
    l.slave.eio = false ∧ answered l.slave.bus.trace = [⟨0, 0xAB⟩] := by
  intro l
  have hgood : ∀ n, Answerable ((Link.start idleSlave [⟨false, 0x10, 0, 0xf⟩] probedPeer).exec
      queued constant (oneExchange.take n)) := by
    intro n
    match n with
    | 0 => exact ⟨by decide +kernel, by decide +kernel⟩
    | 1 => exact ⟨by decide +kernel, by decide +kernel⟩
    | 2 => exact ⟨by decide +kernel, by decide +kernel⟩
    | 3 => exact ⟨by decide +kernel, by decide +kernel⟩
    | n + 4 =>
        rw [List.take_of_length_le (show oneExchange.length ≤ n + 4 from Nat.le_add_left 4 n)]
        exact ⟨by decide +kernel, by decide +kernel⟩
  have h := @link_requests_answered _ _ queued constant idleSlave
    [⟨false, 0x10, 0, 0xf⟩] ⟨.header, 0, 0, 0, fun _ => 0⟩ 0xAB probed oneExchange
    idleSlave_ready probedPeer_ready hgood
  have hdone := h.2.2.2.1 (by decide +kernel) (by decide +kernel) (by decide +kernel)
    (by decide +kernel)
  exact ⟨h.1, hdone.1.trans (by decide +kernel)⟩
end WbLink
