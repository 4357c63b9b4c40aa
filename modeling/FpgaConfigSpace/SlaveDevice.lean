import FpgaConfigSpace.SlaveRequests

/-! # The slave device and its clients

    Any number of clients open and release the slave file of one device, and make
    system calls on the file they have open.  The device hands out one context at a
    time.  Every request taken from the hardware is accounted for: it is pending in
    the open context, or it has been answered. -/

namespace WbSlaveDevice

open WbIovec WbWishbone WbSlave WbSlaveParser WbSlaveWrite WbSlaveRuns WbSlaveRequests

variable {σ : Type} (wops : WishboneOperations σ)

/-- What a client does; a client stands for one `struct file`. -/
inductive SlaveEvent where
  | charOpen (client : Nat) (mem : Option EtherboneSlaveContext)
  | call (client : Nat) (call : SlaveCall)
  | charRelease (client : Nat)

/-- The part of `struct wishbone` behind the slave device, with the contexts of the
    open files.  `slave` is the client whose context the device points to;
    `openedAt` is the number of bus calls made before it was opened. -/
structure SlaveDevice (σ : Type) where
  files : Nat → Option EtherboneSlaveContext
  slave : Option Nat
  bus : Bus σ
  openedAt : Nat

/-- Set the context of a client. -/
def setFile (files : Nat → Option EtherboneSlaveContext) (client : Nat)
    (ctx : Option EtherboneSlaveContext) : Nat → Option EtherboneSlaveContext :=
  fun c => if c = client then ctx else files c

/-- One event of the device: a user's call, or a request of the bus. -/
def SlaveDevice.step (d : SlaveDevice σ) : SlaveEvent → SlaveDevice σ
  | .charOpen client mem =>
      match d.files client, charSlaveOpen mem d.slave.isSome with
      | none, .ok ctx =>
          { d with
            files := setFile d.files client (some ctx)
            slave := some client
            openedAt := d.bus.trace.length }
      | _, _ => d
  | .call client call =>
      match d.files client with
      | none => d
      | some ctx =>
          let run := (SlaveRun.start ctx d.bus).step wops call
          { d with files := setFile d.files client (some run.ctx), bus := run.bus }
  | .charRelease client =>
      match d.files client with
      | none => d
      | some ctx =>
          { d with
            files := setFile d.files client none
            slave := none
            bus := (charSlaveRelease wops ctx d.bus).2 }

/-- A run of the device. -/
def SlaveDevice.exec (d : SlaveDevice σ) (events : List SlaveEvent) : SlaveDevice σ :=
  events.foldl (SlaveDevice.step wops) d

/-- A registered device that nobody has opened. -/
def SlaveDevice.start (st : σ) : SlaveDevice σ := ⟨fun _ => none, none, ⟨st, []⟩, 0⟩

/-- Requests taken and not answered. -/
def unanswered (trace : List WopsCall) : Nat := (dequeued trace).length - (answered trace).length

/-- No request is answered before it is taken. -/
def Causal (trace : List WopsCall) : Prop :=
  ∀ n, (answered (trace.take n)).length ≤ (dequeued (trace.take n)).length

variable {wops}

/-! ## One call on the open file -/

/-- What happened on the bus in a step that leaves `pending` requests open. -/
structure Accounted (before after : Nat) (events : List WopsCall) : Prop where
  balance : (answered events).length + after = before + (dequeued events).length
  causal : ∀ n, (answered (events.take n)).length ≤ before + (dequeued (events.take n)).length

/-- Asking for requests answers none. -/
theorem answered_asked {ctx : EtherboneSlaveContext} {events : List WopsCall}
    (h : ∀ c ∈ events, ctx.negotiated = true ∧ ∃ r, c = .request r) : answered events = [] := by
  rw [answered, List.filterMap_eq_nil_iff]
  intro c hc
  obtain ⟨_, r, rfl⟩ := h c hc
  rfl

/-- Taking a request raises the count of open ones. -/
theorem refilled_accounted {ctx : EtherboneSlaveContext} {bus : Bus σ}
    {x : EtherboneSlaveContext × Bus σ} {events : List WopsCall} (h : Refilled ctx bus x events)
    (hfew : ctx.pendingErr < 0x80000000) : Accounted ctx.pendingErr x.1.pendingErr events := by
  have hsingle := h.single
  constructor
  · rw [answered_asked h.asked, List.length_nil]
    rcases h.pendingErr with hp | ⟨hnil, hp⟩
    · rw [hp, u32_of_lt (by omega)]
      omega
    · rw [hp, hnil, List.length_nil]
      omega
  · intro n
    rw [answered_asked fun c hc => h.asked c (List.mem_of_mem_take hc)]
    exact Nat.zero_le _

/-- Answers lower the count of open ones. -/
theorem accounted_replies (rs : List Reply) {before after : Nat}
    (h : rs.length + after = before) :
    Accounted before after (rs.map fun r => .reply r.err r.data) := by
  constructor
  · rw [answered_replies, dequeued_replies, List.length_nil]
    omega
  · intro n
    rw [← List.map_take, answered_replies, List.length_take]
    omega

/-- **A system call accounts for its requests and answers.** -/
theorem step_accounted {ctx : EtherboneSlaveContext} (bus : Bus σ) (hb : Bounded ctx)
    (hfew : ctx.pendingErr < 0x80000000) (call : SlaveCall) :
    let run := (SlaveRun.start ctx bus).step wops call
    Bounded run.ctx ∧ ∃ events, run.bus.trace = bus.trace ++ events ∧
      Accounted ctx.pendingErr run.ctx.pendingErr events := by
  cases call with
  | aioRead signal nonblock iov =>
      obtain ⟨mid, events, hmid, hbus, hb', hctx, _⟩ :=
        charSlaveAioRead_spec wops signal nonblock iov ctx bus hb
      have hpend := congrArg (·.pendingErr) hctx
      refine ⟨hb', events, ?_, ?_⟩
      · show (charSlaveAioRead wops signal nonblock iov ctx bus).2.2.2.trace = _
        rw [hbus]
        exact hmid.trace
      · show Accounted _ (charSlaveAioRead wops signal nonblock iov ctx bus).2.2.1.pendingErr _
        dsimp only at hpend
        rw [hpend]
        exact refilled_accounted hmid hfew
  | aioWrite signal iov =>
      have hans := charSlaveAioWrite_answered wops signal iov ctx bus
      obtain ⟨_, hdone, hend⟩ := hans.output
      obtain ⟨rs, hrs, hcount⟩ := hans.replies
      refine ⟨?_, rs.map (fun r : Reply => WopsCall.reply r.err r.data), ?_, accounted_replies rs hcount⟩
      · show Bounded (charSlaveAioWrite wops signal iov ctx bus).2.1
        rw [Bounded, hdone, hend]
        exact hb
      · show (charSlaveAioWrite wops signal iov ctx bus).2.2.trace = _
        rw [hrs, replyAll_trace]
  | poll =>
      obtain ⟨events, hmid⟩ := etherboneSlaveOutProcess_spec wops ctx bus
      exact ⟨hmid.bounded hb, events, hmid.trace, refilled_accounted hmid hfew⟩

/-- Releasing a file answers what is open. -/
theorem charSlaveRelease_accounted (ctx : EtherboneSlaveContext) (bus : Bus σ)
    (hfew : ctx.pendingErr < 0x80000000) :
    ∃ events, (charSlaveRelease wops ctx bus).2.trace = bus.trace ++ events ∧
      Accounted ctx.pendingErr 0 events := by
  have hreply : ∀ (n : Nat) (bus : Bus σ),
      replyErrors wops n bus = replyAll wops (List.replicate n ⟨1, 0⟩) bus := by
    intro n
    induction n with
    | zero => intro bus; rfl
    | succ n ih => intro bus; exact ih (bus.reply wops 1 0)
  have herrors : (BitVec.ofNat 32 ctx.pendingErr).toInt.toNat = ctx.pendingErr := by
    have hnat : (BitVec.ofNat 32 ctx.pendingErr).toNat = ctx.pendingErr :=
      Nat.mod_eq_of_lt (by omega)
    rw [BitVec.toInt_eq_toNat_of_lt (by rw [hnat]; omega), hnat]
    rfl
  refine ⟨(List.replicate ctx.pendingErr (Reply.mk 1 0)).map fun r => .reply r.err r.data, ?_,
    accounted_replies _ (by rw [List.length_replicate]; rfl)⟩
  show (replyErrors wops (BitVec.ofNat 32 ctx.pendingErr).toInt.toNat bus).trace = _
  rw [herrors, hreply, replyAll_trace]

/-! ## Runs of the device -/

/-- What holds after every event. -/
structure DeviceInv (d : SlaveDevice σ) : Prop where
  single : ∀ c ctx, d.files c = some ctx → d.slave = some c
  bounded : ∀ c ctx, d.files c = some ctx → Bounded ctx
  pointed : ∀ c, d.slave = some c → ∃ ctx, d.files c = some ctx
  opened : ∀ c ctx, d.files c = some ctx →
    (answered d.bus.trace).length + ctx.pendingErr = (dequeued d.bus.trace).length
  closed : d.slave = none → (answered d.bus.trace).length = (dequeued d.bus.trace).length
  before : d.openedAt ≤ d.bus.trace.length ∧
    (answered (d.bus.trace.take d.openedAt)).length =
      (dequeued (d.bus.trace.take d.openedAt)).length
  causal : Causal d.bus.trace

/-- Answers stay behind their requests. -/
theorem Causal.append {t events : List WopsCall} {before after : Nat} (h : Causal t)
    (hc : (answered t).length + before = (dequeued t).length)
    (he : Accounted before after events) : Causal (t ++ events) := by
  intro n
  rw [List.take_append]
  by_cases hn : n ≤ t.length
  · rw [Nat.sub_eq_zero_of_le hn, List.take_zero, List.append_nil]
    exact h n
  · rw [List.take_of_length_le (by omega), answered_append, dequeued_append, List.length_append,
      List.length_append]
    have := he.causal (n - t.length)
    omega

/-- The account goes on. -/
theorem Accounted.balance_append {t events : List WopsCall} {before after : Nat}
    (he : Accounted before after events)
    (hc : (answered t).length + before = (dequeued t).length) :
    (answered (t ++ events)).length + after = (dequeued (t ++ events)).length := by
  rw [answered_append, dequeued_append, List.length_append, List.length_append]
  have := he.balance
  omega

/-- **Every event preserves the invariant**, as long as few requests are open. -/
theorem DeviceInv.step {d : SlaveDevice σ} (h : DeviceInv d)
    (hfew : unanswered d.bus.trace < 0x80000000) (event : SlaveEvent) :
    DeviceInv (d.step wops event) := by
  have hpend : ∀ c ctx, d.files c = some ctx → ctx.pendingErr < 0x80000000 := by
    intro c ctx hctx
    have := h.opened c ctx hctx
    rw [unanswered] at hfew
    omega
  -- the bytes before the last open stay where they are
  have hbefore : ∀ events : List WopsCall,
      d.openedAt ≤ (d.bus.trace ++ events).length ∧
      (answered ((d.bus.trace ++ events).take d.openedAt)).length =
        (dequeued ((d.bus.trace ++ events).take d.openedAt)).length := by
    intro events
    obtain ⟨hle, heq⟩ := h.before
    rw [List.take_append_of_le_length hle, List.length_append]
    exact ⟨Nat.le_add_right_of_le hle, heq⟩
  cases event with
  | charOpen client mem =>
      rw [SlaveDevice.step]
      split
      · rename_i ctx hfile hopen
        -- the open succeeds only when no context is out
        have hfree : d.slave = none ∧ ∃ m, ctx = initContext m := by
          cases mem with
          | none => cases hopen
          | some m =>
              rw [charSlaveOpen] at hopen
              cases hs : d.slave with
              | none =>
                  rw [hs] at hopen
                  injection hopen with hopen
                  exact ⟨rfl, m, hopen.symm⟩
              | some c =>
                  rw [hs] at hopen
                  cases hopen
        obtain ⟨hslave, m, rfl⟩ := hfree
        have hnone : ∀ c, d.files c = none := by
          intro c
          cases hc : d.files c with
          | none => rfl
          | some ctx => cases (hslave.symm.trans (h.single c ctx hc))
        have honly : ∀ c ctx, setFile d.files client (some (initContext m)) c = some ctx →
            c = client ∧ ctx = initContext m := by
          intro c ctx hc
          rw [setFile] at hc
          split at hc
          · injection hc with hc
            exact ⟨‹_›, hc.symm⟩
          · rw [hnone c] at hc
            cases hc
        refine ⟨?_, ?_, ?_, ?_, (fun h => by cases h), ⟨Nat.le_refl _, ?_⟩, h.causal⟩
        · intro c ctx hc
          rw [(honly c ctx hc).1]
        · intro c ctx hc
          rw [(honly c ctx hc).2]
          exact ⟨Nat.zero_le 8, (by decide : 8 ≤ 24)⟩
        · intro c hc
          injection hc with hc
          exact ⟨initContext m, if_pos hc.symm⟩
        · intro c ctx hc
          rw [(honly c ctx hc).2]
          exact h.closed hslave
        · rw [List.take_length]
          exact h.closed hslave
      · exact h
  | call client call =>
      rw [SlaveDevice.step]
      split
      · exact h
      · rename_i ctx hfile
        obtain ⟨hb, events, htrace, hacc⟩ := @step_accounted σ wops ctx d.bus
          (h.bounded client ctx hfile) (hpend client ctx hfile) call
        have hslave := h.single client ctx hfile
        obtain ⟨run, hrun⟩ : ∃ run, (SlaveRun.start ctx d.bus).step wops call = run := ⟨_, rfl⟩
        rw [hrun] at hb htrace hacc ⊢
        have hopened := h.opened client ctx hfile
        have honly : ∀ c ctx', setFile d.files client (some run.ctx) c = some ctx' →
            c = client ∧ ctx' = run.ctx := by
          intro c ctx' hc
          rw [setFile] at hc
          split at hc
          · injection hc with hc
            exact ⟨‹_›, hc.symm⟩
          · rename_i hne
            have := hslave.symm.trans (h.single c ctx' hc)
            injection this with this
            exact absurd this.symm hne
        constructor
        · intro c ctx' hc
          rw [(honly c ctx' hc).1]
          exact hslave
        · intro c ctx' hc
          rw [(honly c ctx' hc).2]
          exact hb
        · intro c hc
          have hcc : some client = some c := hslave.symm.trans hc
          injection hcc with hcc
          exact ⟨run.ctx, if_pos hcc.symm⟩
        · intro c ctx' hc
          rw [(honly c ctx' hc).2]
          dsimp only
          rw [htrace]
          exact hacc.balance_append hopened
        · intro hnone
          cases (hslave.symm.trans hnone)
        · dsimp only
          rw [htrace]
          exact hbefore events
        · dsimp only
          rw [htrace]
          exact h.causal.append hopened hacc
  | charRelease client =>
      rw [SlaveDevice.step]
      split
      · exact h
      · rename_i ctx hfile
        obtain ⟨events, htrace, hacc⟩ := @charSlaveRelease_accounted σ wops ctx d.bus
          (hpend client ctx hfile)
        have hslave := h.single client ctx hfile
        have hopened := h.opened client ctx hfile
        have hnone : ∀ c, setFile d.files client none c = none := by
          intro c
          rw [setFile]
          split
          · rfl
          · rename_i hne
            cases hc : d.files c with
            | none => rfl
            | some ctx' =>
                have := hslave.symm.trans (h.single c ctx' hc)
                injection this with this
                exact absurd this.symm hne
        constructor
        · intro c ctx' hc
          cases ((hnone c).symm.trans hc)
        · intro c ctx' hc
          cases ((hnone c).symm.trans hc)
        · intro c hc
          cases hc
        · intro c ctx' hc
          cases ((hnone c).symm.trans hc)
        · intro _
          dsimp only
          rw [htrace]
          exact hacc.balance_append hopened
        · dsimp only
          rw [htrace]
          exact hbefore events
        · dsimp only
          rw [htrace]
          exact h.causal.append hopened hacc

/-- A device nobody has opened satisfies the invariant. -/
theorem deviceInv_start (st : σ) : DeviceInv (SlaveDevice.start st) := by
  refine ⟨(fun _ _ h => by cases h), (fun _ _ h => by cases h), (fun _ h => by cases h),
    (fun _ _ h => by cases h), fun _ => rfl, ⟨Nat.le_refl 0, rfl⟩, ?_⟩
  intro n
  show (answered (List.take n [])).length ≤ (dequeued (List.take n [])).length
  rw [List.take_nil]
  exact Nat.le_refl 0

/-- The invariant holds throughout every run with few open requests. -/
theorem deviceInv_exec : ∀ (events : List SlaveEvent) (d : SlaveDevice σ), DeviceInv d →
    (∀ n, unanswered (d.exec wops (events.take n)).bus.trace < 0x80000000) →
    DeviceInv (d.exec wops events) := by
  intro events
  induction events with
  | nil => intro d h _; exact h
  | cons event events ih =>
      intro d h hfew
      exact ih (d.step wops event) (h.step (hfew 0) event) (fun n => hfew (n + 1))

/-- **One context at a time, and one answer for every request.**  For the open
    context, the answers since it was opened and the requests it has pending make
    up the requests taken since then.  When no file is open every request ever
    taken has been answered, and at no moment were there more answers than
    requests. -/
theorem slave_requests_answered (st : σ) (events : List SlaveEvent)
    (hfew : ∀ n,
      unanswered ((SlaveDevice.start st).exec wops (events.take n)).bus.trace < 0x80000000) :
    let d := (SlaveDevice.start st).exec wops events
    (∀ c c' ctx ctx', d.files c = some ctx → d.files c' = some ctx' → c = c') ∧
    (∀ c ctx, d.files c = some ctx →
      (answered (d.bus.trace.drop d.openedAt)).length + ctx.pendingErr =
        (dequeued (d.bus.trace.drop d.openedAt)).length) ∧
    ((∀ c, d.files c = none) →
      (answered (d.bus.trace.drop d.openedAt)).length =
        (dequeued (d.bus.trace.drop d.openedAt)).length ∧
      (answered d.bus.trace).length = (dequeued d.bus.trace).length) ∧
    (∀ n, (answered (d.bus.trace.take n)).length ≤ (dequeued (d.bus.trace.take n)).length) := by
  intro d
  have h : DeviceInv d := deviceInv_exec events _ (deviceInv_start st) hfew
  -- counts since the last open are counts of the whole less those before it
  have hsplit := List.take_append_drop d.openedAt d.bus.trace
  have hans : (answered (d.bus.trace.take d.openedAt)).length +
      (answered (d.bus.trace.drop d.openedAt)).length = (answered d.bus.trace).length := by
    rw [← List.length_append, ← answered_append, hsplit]
  have hdeq : (dequeued (d.bus.trace.take d.openedAt)).length +
      (dequeued (d.bus.trace.drop d.openedAt)).length = (dequeued d.bus.trace).length := by
    rw [← List.length_append, ← dequeued_append, hsplit]
  have hbefore := h.before.2
  refine ⟨?_, ?_, ?_, h.causal⟩
  · intro c c' ctx ctx' hc hc'
    have := (h.single c ctx hc).symm.trans (h.single c' ctx' hc')
    injection this
  · intro c ctx hc
    have := h.opened c ctx hc
    omega
  · intro hnone
    have hslave : d.slave = none := by
      cases hs : d.slave with
      | none => rfl
      | some c =>
          obtain ⟨ctx, hctx⟩ := h.pointed c hs
          cases ((hnone c).symm.trans hctx)
    have := h.closed hslave
    omega

/-- A back end with one request waiting. -/
def oneRequest : WishboneOperations Bool where
  cycle st _ := st
  byteenable st _ := st
  write st _ _ := st
  read st _ := (0, st)
  readCfg st _ := (0, st)
  request st := (if st then some ⟨true, 0x10, 0x20, 0xf⟩ else none, false)
  reply st _ _ := st

/-- A client that accepts the probe, takes a request, and leaves without answering. -/
def badUser : List SlaveEvent :=
  [.charOpen 0 (some ⟨0, false, 0, 0, 0, fun _ => 0, 0, fun _ => 0⟩),
   .call 0 (.aioWrite false [[0x4E, 0x6F, 0x16, 0x44, 0, 0, 0, 0]]),
   .call 0 (.aioRead false false [[0, 0, 0, 0, 0, 0, 0, 0]]),
   .call 0 .poll,
   .charRelease 0]

/-- The user drops a request, and it is answered with an error. -/
theorem slave_requests_answered_badUser :
    let d := (SlaveDevice.start true).exec oneRequest badUser
    (dequeued d.bus.trace).length = 1 ∧
      (answered d.bus.trace).length = (dequeued d.bus.trace).length := by
  intro d
  have hfew : ∀ n, unanswered
      ((SlaveDevice.start true).exec oneRequest (badUser.take n)).bus.trace < 0x80000000 := by
    intro n
    match n with
    | 0 => decide
    | 1 => decide
    | 2 => decide
    | 3 => decide
    | 4 => decide
    | n + 5 =>
        rw [List.take_of_length_le (show badUser.length ≤ n + 5 from Nat.le_add_left 5 n)]
        decide
  refine ⟨by decide, ((slave_requests_answered true badUser hfew).2.2.1 ?_).2⟩
  intro c
  by_cases hc : c = 0
  · rw [hc]
    rfl
  · exact (if_neg hc).trans ((if_neg hc).trans ((if_neg hc).trans
      ((if_neg hc).trans (if_neg hc))))
end WbSlaveDevice
