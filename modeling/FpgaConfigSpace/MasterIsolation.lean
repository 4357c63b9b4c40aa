import Mathlib.Data.List.Chain
import Mathlib.Logic.Relation
import FpgaConfigSpace.Lib.Sections
import FpgaConfigSpace.MasterCycles
import FpgaConfigSpace.SlaveDevice
import FpgaConfigSpace.SpecWb

/-! # Several masters on one card

    Any number of files are open on the master device of one card, with the slave device
    beside them, and their calls reach the back end in any order; `wb_cycle` waits for the
    mutex of the card, and that is all that keeps the masters apart.  It is enough: the
    cycles happen one after another, each by one master, on a memory of words. -/

namespace MasterIsolation

open BigEndian WbIovec WbWishbone WbMaster WbMasterRuns WbMasterCycles WbMasterMemory WbSlave
open WbSlaveParser WbSlaveWrite WbSlaveRuns WbSlaveRequests WbSlaveDevice Sections
open PcieWb (maskLanes nextMask)
open PcieLanes (wordAt wordAddr startMem WordMem)

/-! ## The system -/

/-- Who makes a call: an open file of the master device, or the slave device. -/
inductive Party (ι : Type) where
  | master (file : ι)
  | slave
deriving DecidableEq

variable {σ : Type}

/-- The back end makes a call, if it returns what the call has returned. -/
def answer (wops : WishboneOperations σ) (st : σ) : WopsCall → Option σ
  | .cycle on => some (wops.cycle st on)
  | .byteenable be => some (wops.byteenable st be)
  | .write addr data => some (wops.write st addr data)
  | .read addr result => if (wops.read st addr).1 = result then some (wops.read st addr).2 else none
  | .readCfg addr result =>
      if (wops.readCfg st addr).1 = result then some (wops.readCfg st addr).2 else none
  | .request result => if (wops.request st).1 = result then some (wops.request st).2 else none
  | .reply err data => some (wops.reply st err data)

/-- Calls of a back end, one after the other, if each value that was read is the one that is
    returned now. -/
def replay (wops : WishboneOperations σ) : σ → List WopsCall → Option σ
  | st, [] => some st
  | st, call :: calls => (answer wops st call).bind fun st' => replay wops st' calls

/-- The calls of one file of the master device, as far as it has come: its code makes them
    on some bus, for some operations on the file. -/
def IsMasterCode (calls : List WopsCall) : Prop :=
  ∃ (τ : Type) (wops : WishboneOperations τ) (st : τ) (mem : EtherboneMasterContext)
    (ops : List MasterCall),
    calls <+: (charMasterRelease wops ((MasterRun.opened mem ⟨st, []⟩).exec wops ops).ctx
      ((MasterRun.opened mem ⟨st, []⟩).exec wops ops).bus).trace

/-- The calls of the slave device, for all who open it. -/
def IsSlaveCode (calls : List WopsCall) : Prop :=
  ∃ (τ : Type) (wops : WishboneOperations τ) (st : τ) (events : List SlaveEvent),
    calls <+: ((SlaveDevice.start st).exec wops events).bus.trace

/-- The card, and the calls made so far. -/
structure System (ι σ : Type) where
  card : σ
  log : List (Party ι × WopsCall)

variable {ι : Type}

/-- The calls of the masters. -/
def masterLog (log : List (Party ι × WopsCall)) : List (ι × WopsCall) :=
  log.filterMap fun e => match e.1 with
    | .master file => some (file, e.2)
    | .slave => none

/-- A call of a master is in the masters' log, and one of the slave is not. -/
theorem masterLog_master (log : List (Party ι × WopsCall)) (file : ι) (call : WopsCall) :
    masterLog (log ++ [(.master file, call)]) = masterLog log ++ [(file, call)] :=
  List.filterMap_append

theorem masterLog_slave (log : List (Party ι × WopsCall)) (call : WopsCall) :
    masterLog (log ++ [(.slave, call)]) = masterLog log := by
  rw [masterLog, List.filterMap_append]
  exact List.append_nil _

variable [DecidableEq ι]

/-- One call of anybody.  `wb_cycle` waits until the mutex is free. -/
inductive Step (wops : WishboneOperations σ) (mutex : σ → Bool) : System ι σ → System ι σ → Prop where
  | master {s : System ι σ} {file : ι} {call : WopsCall} {card : σ}
      (hcode : IsMasterCode (own (.master file) s.log ++ [call]))
      (hfree : call = .cycle true → mutex s.card = false)
      (hanswer : answer wops s.card call = some card) :
      Step wops mutex s ⟨card, s.log ++ [(.master file, call)]⟩
  | slave {s : System ι σ} {call : WopsCall} {card : σ}
      (hcode : IsSlaveCode (own .slave s.log ++ [call]))
      (hanswer : answer wops s.card call = some card) :
      Step wops mutex s ⟨card, s.log ++ [(.slave, call)]⟩

/-- What can become of a card that nobody has opened. -/
def Reachable (wops : WishboneOperations σ) (mutex : σ → Bool) (card : σ) (s : System ι σ) : Prop :=
  Relation.ReflTransGen (Step wops mutex) ⟨card, []⟩ s

/-! ## The code of the parties -/

/-- What a call is to the mutex of the card. -/
def kindOf : WopsCall → Kind
  | .cycle true => .take
  | .cycle false => .drop
  | _ => .work

/-- What a master calls at all. -/
def IsMasterCall (call : WopsCall) : Prop := IsAccess call ∨ ∃ on, call = .cycle on

/-- A cycle is opened with a byte enable. -/
def ByteenableNext (call call' : WopsCall) : Prop :=
  call = .cycle true → ∃ be, call' = .byteenable be

theorem kindOf_access {call : WopsCall} (h : IsAccess call) : kindOf call = .work := by
  cases call with
  | cycle on => exact h.elim
  | _ => rfl

/-- What is between the calls that open and close a cycle is an access. -/
theorem access_of_work {call : WopsCall} (h : IsMasterCall call) (hwork : kindOf call = .work) :
    IsAccess call := by
  rcases h with h | ⟨on, rfl⟩
  · exact h
  · cases on <;> cases hwork

/-- A block that is open is an open section, and a block is a whole one. -/
theorem isOpen_of_openBlock {b : List WopsCall} (h : IsOpenBlock b) : IsOpen kindOf b := by
  obtain ⟨be, body, rfl, hbody⟩ := h
  refine ⟨.cycle true, .byteenable be :: body, rfl, rfl, ?_⟩
  intro call hcall
  rcases List.mem_cons.mp hcall with rfl | hcall
  · rfl
  · exact kindOf_access (hbody call hcall)

theorem isSection_of_block {b : List WopsCall} (h : IsBlock b) : IsSection kindOf b := by
  obtain ⟨o, ho, rfl⟩ := h
  exact (isOpen_of_openBlock ho).close rfl

/-- What is known of the calls of a master. -/
structure Ordered (calls : List WopsCall) : Prop where
  within : (within kindOf false calls).isSome
  known : ∀ call ∈ calls, IsMasterCall call
  chain : calls.IsChain ByteenableNext

/-- A beginning of ordered calls is ordered. -/
theorem ordered_of_front {calls calls' : List WopsCall} (h : Ordered calls') (hp : calls <+: calls') :
    Ordered calls := by
  obtain ⟨rest, rfl⟩ := hp
  refine ⟨?_, fun call hcall => h.known call (List.mem_append_left _ hcall), h.chain.left_of_append⟩
  have hwithin := h.within
  rw [within_append] at hwithin
  cases hb : Sections.within kindOf false calls with
  | none => rw [hb] at hwithin; cases hwithin
  | some b => rfl

/-- Calls that open no cycle, in front of others. -/
theorem chain_append {calls rest : List WopsCall} (h : ∀ call ∈ calls, call ≠ .cycle true)
    (hrest : rest.IsChain ByteenableNext) : (calls ++ rest).IsChain ByteenableNext := by
  induction calls with
  | nil => exact hrest
  | cons call calls ih =>
      refine (ih fun call' hcall' => h call' (List.mem_cons_of_mem _ hcall')).cons ?_
      intro call' _ heq
      exact absurd heq (h call List.mem_cons_self)

/-- An access takes no lock. -/
theorem access_ne_cycle {call : WopsCall} (h : IsAccess call) : call ≠ .cycle true := by
  rintro rfl
  exact h

/-- Behind the first call of a block comes its byte enable. -/
theorem chain_openBlock {o rest : List WopsCall} (ho : IsOpenBlock o)
    (hrest : rest.IsChain ByteenableNext) : (o ++ rest).IsChain ByteenableNext := by
  obtain ⟨be, body, rfl, hbody⟩ := ho
  have htail : ∀ call ∈ WopsCall.byteenable be :: body, call ≠ .cycle true := by
    intro call hcall
    rcases List.mem_cons.mp hcall with rfl | hcall
    · simp
    · exact access_ne_cycle (hbody call hcall)
  refine (chain_append htail hrest).cons ?_
  rintro call ⟨rfl⟩ -
  exact ⟨be, rfl⟩

/-- Complete cycles are in order. -/
theorem ordered_blocks {blocks : List (List WopsCall)} (h : ∀ b ∈ blocks, IsBlock b) :
    within kindOf false blocks.flatten = some false ∧
      (∀ call ∈ blocks.flatten, IsMasterCall call) ∧
      blocks.flatten.IsChain ByteenableNext := by
  induction blocks with
  | nil => exact ⟨rfl, by simp, .nil⟩
  | cons b blocks ih =>
      obtain ⟨hwithin, hknown, hchain⟩ := ih fun b' hb' => h b' (List.mem_cons_of_mem _ hb')
      have hb := h b List.mem_cons_self
      rw [List.flatten_cons]
      refine ⟨?_, ?_, ?_⟩
      · rw [within_append, (isSection_of_block hb).within]
        exact hwithin
      · intro call hcall
        obtain ⟨o, ⟨be, body, rfl, hbody⟩, rfl⟩ := hb
        simp only [List.cons_append, List.append_assoc, List.mem_cons, List.mem_append,
          List.not_mem_nil, false_or] at hcall
        rcases hcall with rfl | rfl | hcall | rfl | hcall
        · exact Or.inr ⟨true, rfl⟩
        · exact Or.inl trivial
        · exact Or.inl (hbody call hcall)
        · exact Or.inr ⟨false, rfl⟩
        · exact hknown call hcall
      · obtain ⟨o, ho, rfl⟩ := hb
        rw [List.append_assoc]
        exact chain_openBlock ho (chain_append (by simp) hchain)

/-- Releasing the file closes the cycle. -/
theorem balanced_release (wops : WishboneOperations σ) {ctx : EtherboneMasterContext} {bus : Bus σ}
    (h : CycleInv ctx.state bus.trace) : Balanced (charMasterRelease wops ctx bus).trace := by
  rw [charMasterRelease]
  rw [CycleInv] at h
  split at h
  · next hcycle =>
      obtain ⟨closed, o, htrace, hclosed, ho⟩ := h
      rw [if_pos hcycle]
      show Balanced (bus.trace ++ [.cycle false])
      rw [htrace, List.append_assoc]
      exact hclosed.append_block ⟨o, ho, rfl⟩
  · next hcycle =>
      rw [if_neg hcycle]
      exact h

/-- **What a file of the master device calls is in order.** -/
theorem ordered_masterCode {calls : List WopsCall} (h : IsMasterCode calls) : Ordered calls := by
  obtain ⟨τ, wops, st, mem, ops, hfront⟩ := h
  have hinv : CycleInv ((MasterRun.opened mem ⟨st, []⟩).exec wops ops).ctx.state
      ((MasterRun.opened mem ⟨st, []⟩).exec wops ops).bus.trace := by
    have hrun : RunInv wops ⟨st, []⟩ ((MasterRun.opened mem ⟨st, []⟩).exec wops ops) :=
      runInv_exec mem ⟨st, []⟩ ops
    have htrans := transduce_cycleInv wops st ((MasterRun.opened mem ⟨st, []⟩).exec wops ops).accepted
    rw [← hrun.rep.state] at htrans
    exact htrans
  obtain ⟨blocks, heq, hblocks⟩ := balanced_release wops hinv
  rw [heq] at hfront
  obtain ⟨hwithin, hknown, hchain⟩ := ordered_blocks hblocks
  exact ordered_of_front ⟨by rw [hwithin]; rfl, hknown, hchain⟩ hfront

/-! ## The slave device -/

/-- What the slave device calls at all. -/
def IsSlaveCall (call : WopsCall) : Prop :=
  (∃ r, call = .request r) ∨ ∃ err data, call = .reply err data

/-- `bus'` is `bus` after some calls of the slave device. -/
def Served (bus bus' : Bus σ) : Prop :=
  ∃ calls, bus'.trace = bus.trace ++ calls ∧ ∀ call ∈ calls, IsSlaveCall call

theorem Served.refl (bus : Bus σ) : Served bus bus := ⟨[], by simp, by simp⟩

/-- Calls of the slave, and more of them. -/
theorem Served.trans {bus bus' bus'' : Bus σ} (h : Served bus bus') (h' : Served bus' bus'') :
    Served bus bus'' := by
  obtain ⟨calls, htrace, hcalls⟩ := h
  obtain ⟨calls', htrace', hcalls'⟩ := h'
  refine ⟨calls ++ calls', by rw [htrace', htrace, List.append_assoc], ?_⟩
  intro call hcall
  rcases List.mem_append.mp hcall with hcall | hcall
  · exact hcalls call hcall
  · exact hcalls' call hcall

section

variable (wops : WishboneOperations σ)

/-- The slave asks the bus for requests only, and gives answers, or errors when it is closed. -/
theorem served_outProcess (ctx : EtherboneSlaveContext) (bus : Bus σ) :
    Served bus (etherboneSlaveOutProcess wops ctx bus).2 := by
  obtain ⟨events, h⟩ := etherboneSlaveOutProcess_spec wops ctx bus
  exact ⟨events, h.trace, fun call hcall => Or.inl (h.asked call hcall).2⟩

theorem served_replies (rs : List Reply) (bus : Bus σ) : Served bus (replyAll wops rs bus) := by
  refine ⟨_, replyAll_trace wops rs bus, ?_⟩
  intro call hcall
  obtain ⟨r, -, rfl⟩ := List.mem_map.mp hcall
  exact Or.inr ⟨r.err, r.data, rfl⟩

theorem served_replyErrors (n : Nat) : ∀ bus : Bus σ, Served bus (replyErrors wops n bus) := by
  induction n with
  | zero => exact fun bus => Served.refl bus
  | succ n ih => exact fun bus => (served_replies wops [⟨1, 0⟩] bus).trans (ih _)

/-- A system call on the slave file. -/
theorem served_step (run : SlaveRun σ) (call : SlaveCall) :
    Served run.bus (run.step wops call).bus := by
  cases call with
  | aioRead signal nonblock iov =>
      show Served run.bus (charSlaveAioRead wops signal nonblock iov run.ctx run.bus).2.2.2
      rw [charSlaveAioRead, slaveAioReadWith]
      dsimp only
      by_cases hzero : u32 (iovLength iov) = 0
      · rw [if_pos hzero]
        exact Served.refl _
      · rw [if_neg hzero]
        by_cases hsignal : signal = true
        · rw [if_pos hsignal]
          exact Served.refl _
        · rw [if_neg hsignal]
          split <;> split <;> exact served_outProcess wops run.ctx run.bus
  | aioWrite signal iov =>
      show Served run.bus (charSlaveAioWrite wops signal iov run.ctx run.bus).2.2
      obtain ⟨rs, hrs, -⟩ := (charSlaveAioWrite_answered wops signal iov run.ctx run.bus).replies
      rw [hrs]
      exact served_replies wops rs run.bus
  | poll => exact served_outProcess wops run.ctx run.bus

/-- The step lemma: an event of the slave's device. -/
theorem served_event (d : SlaveDevice σ) (event : SlaveEvent) :
    Served d.bus (d.step wops event).bus := by
  cases event with
  | charOpen client mem =>
      rw [SlaveDevice.step]
      split <;> exact Served.refl _
  | call client call =>
      rw [SlaveDevice.step]
      split
      · exact Served.refl _
      · exact served_step wops (SlaveRun.start _ d.bus) call
  | charRelease client =>
      rw [SlaveDevice.step]
      split
      · exact Served.refl _
      · exact served_replyErrors wops _ d.bus

/-- So it is in a run of events. -/
theorem served_exec (d : SlaveDevice σ) (events : List SlaveEvent) :
    Served d.bus (d.exec wops events).bus := by
  induction events generalizing d with
  | nil => exact Served.refl _
  | cons event events ih => exact (served_event wops d event).trans (ih (d.step wops event))

end

/-- **The slave device asks and replies, and nothing else.** -/
theorem slaveCode_calls {calls : List WopsCall} (h : IsSlaveCode calls) :
    ∀ call ∈ calls, IsSlaveCall call := by
  obtain ⟨τ, wops, st, events, hfront⟩ := h
  obtain ⟨made, htrace, hmade⟩ := served_exec wops (SlaveDevice.start st) events
  rw [htrace] at hfront
  exact fun call hcall => hmade call (hfront.subset hcall)

/-! ## The card -/

/-- `wb_cycle` takes and drops the mutex, and nothing else does. -/
structure Guarded (wops : WishboneOperations σ) (mutex : σ → Bool) : Prop where
  cycle : ∀ st on, mutex (wops.cycle st on) = on
  byteenable : ∀ st be, mutex (wops.byteenable st be) = mutex st
  write : ∀ st addr data, mutex (wops.write st addr data) = mutex st
  read : ∀ st addr, mutex (wops.read st addr).2 = mutex st
  readCfg : ∀ st addr, mutex (wops.readCfg st addr).2 = mutex st
  request : ∀ st, mutex (wops.request st).2 = mutex st
  reply : ∀ st err data, mutex (wops.reply st err data) = mutex st

/-- What the slave device does cannot be seen from the other side. -/
structure Undisturbed {τ : Type} (wops : WishboneOperations σ) (R : σ → τ → Prop) : Prop where
  request : ∀ {st t}, R st t → R (wops.request st).2 t
  reply : ∀ {st t}, R st t → ∀ err data, R (wops.reply st err data) t

/-- The mutex after a call. -/
theorem Guarded.answer {wops : WishboneOperations σ} {mutex : σ → Bool} (h : Guarded wops mutex)
    {st st' : σ} {call : WopsCall} (ha : answer wops st call = some st') :
    mutex st' = match kindOf call with
      | .take => true
      | .work => mutex st
      | .drop => false := by
  cases call with
  | cycle on =>
      cases ha
      rw [h.cycle]
      cases on <;> rfl
  | byteenable be => cases ha; exact h.byteenable st be
  | write addr data => cases ha; exact h.write st addr data
  | read addr result =>
      obtain ⟨-, ha⟩ := Option.ite_none_right_eq_some.mp ha
      cases ha
      exact h.read st addr
  | readCfg addr result =>
      obtain ⟨-, ha⟩ := Option.ite_none_right_eq_some.mp ha
      cases ha
      exact h.readCfg st addr
  | request result =>
      obtain ⟨-, ha⟩ := Option.ite_none_right_eq_some.mp ha
      cases ha
      exact h.request st
  | reply err data => cases ha; exact h.reply st err data

section

variable {τ : Type} {wops : WishboneOperations σ} {wops' : WishboneOperations τ} {R : σ → τ → Prop}

/-- A master's call is answered alike. -/
theorem answer_simulates (hsim : Simulates wops wops' R) {st st' : σ} {t : τ} (hR : R st t)
    {call : WopsCall} (hcall : IsMasterCall call) (ha : answer wops st call = some st') :
    ∃ t', answer wops' t call = some t' ∧ R st' t' := by
  cases call with
  | cycle on => cases ha; exact ⟨_, rfl, hsim.cycle hR on⟩
  | byteenable be => cases ha; exact ⟨_, rfl, hsim.byteenable hR be⟩
  | write addr data => cases ha; exact ⟨_, rfl, hsim.write hR addr data⟩
  | read addr result =>
      obtain ⟨hresult, ha⟩ := Option.ite_none_right_eq_some.mp ha
      cases ha
      obtain ⟨hvalue, hnext⟩ := hsim.read hR addr
      exact ⟨_, if_pos (hvalue.symm.trans hresult), hnext⟩
  | readCfg addr result =>
      obtain ⟨hresult, ha⟩ := Option.ite_none_right_eq_some.mp ha
      cases ha
      obtain ⟨hvalue, hnext⟩ := hsim.readCfg hR addr
      exact ⟨_, if_pos (hvalue.symm.trans hresult), hnext⟩
  | request result => rcases hcall with h | ⟨on, h⟩ <;> cases h
  | reply err data => rcases hcall with h | ⟨on, h⟩ <;> cases h

/-- A call of the slave device is not seen. -/
theorem answer_undisturbed (hquiet : Undisturbed wops R) {st st' : σ} {t : τ} (hR : R st t)
    {call : WopsCall} (hcall : IsSlaveCall call) (ha : answer wops st call = some st') :
    R st' t := by
  rcases hcall with ⟨r, rfl⟩ | ⟨err, data, rfl⟩
  · obtain ⟨-, ha⟩ := Option.ite_none_right_eq_some.mp ha
    cases ha
    exact hquiet.request hR
  · cases ha
    exact hquiet.reply hR err data

/-- The slave never holds the mutex. -/
theorem kindOf_slaveCall {call : WopsCall} (h : IsSlaveCall call) : kindOf call = .work := by
  rcases h with ⟨r, rfl⟩ | ⟨err, data, rfl⟩ <;> rfl

/-- Calls and calls are replayed one after the other. -/
theorem replay_append (st : σ) (calls calls' : List WopsCall) :
    replay wops st (calls ++ calls') =
      (replay wops st calls).bind fun st' => replay wops st' calls' := by
  induction calls generalizing st with
  | nil => rfl
  | cons call calls ih =>
      rw [List.cons_append, replay, replay]
      cases answer wops st call with
      | none => rfl
      | some st' => exact ih st'

theorem replay_singleton (st : σ) (call : WopsCall) :
    replay wops st [call] = answer wops st call := by
  rw [replay]
  cases answer wops st call <;> rfl

/-! ## What holds after every call -/

/-- A master's own calls are in the masters' log. -/
theorem own_master (log : List (Party ι × WopsCall)) (file : ι) :
    own (.master file) log = own file (masterLog log) := by
  rw [own, own, masterLog, List.filterMap_filterMap]
  refine List.filterMap_congr ?_
  rintro ⟨party, call⟩ -
  cases party with
  | master file' => simp
  | slave => simp

/-- The calls of the masters so far, against a back end that simulates the card. -/
structure CardInv (wops' : WishboneOperations τ) (R : σ → τ → Prop) (mutex : σ → Bool) (t₀ : τ)
    (s : System ι σ) : Prop where
  ordered : ∀ file, Ordered (own file (masterLog s.log))
  order : Interleaved kindOf (masterLog s.log)
  lock : mutex s.card = locked kindOf (masterLog s.log)
  replayed : ∃ t, replay wops' t₀ ((masterLog s.log).map Prod.snd) = some t ∧ R s.card t

variable {mutex : σ → Bool} {t₀ : τ}

/-- The invariant holds when the card is probed. -/
theorem CardInv.start {card : σ} (hR : R card t₀) (hfree : mutex card = false) :
    CardInv wops' R mutex t₀ (⟨card, []⟩ : System ι σ) where
  ordered _ := ⟨rfl, by simp [own, masterLog], .nil⟩
  order := .nil
  lock := hfree
  replayed := ⟨t₀, rfl, hR⟩

/-- **Every call keeps it.** -/
theorem CardInv.step (hsim : Simulates wops wops' R) (hguard : Guarded wops mutex)
    (hquiet : Undisturbed wops R) {s s' : System ι σ} (h : CardInv wops' R mutex t₀ s)
    (hstep : Step wops mutex s s') : CardInv wops' R mutex t₀ s' := by
  obtain ⟨t, hreplay, hR⟩ := h.replayed
  cases hstep with
  | @master file call card hcode hfree hanswer =>
      rw [own_master] at hcode
      have hord := ordered_masterCode hcode
      have hcall := hord.known call (List.mem_append_right _ (List.mem_singleton_self call))
      obtain ⟨t', ht', hR'⟩ := answer_simulates hsim hR hcall hanswer
      refine ⟨?_, ?_, ?_, ?_⟩
      · intro file'
        rw [masterLog_master]
        by_cases heq : file = file'
        · subst heq
          rw [own_snoc_self]
          exact hord
        · have hkept : own file' (masterLog s.log ++ [(file, call)]) = own file' (masterLog s.log) := by
            rw [own_append]
            simp [own, heq]
          rw [hkept]
          exact h.ordered file'
      · rw [masterLog_master]
        refine h.order.snoc hord.within fun hkind => ?_
        rw [← h.lock]
        refine hfree ?_
        cases call with
        | cycle on => cases on with
          | true => rfl
          | false => cases hkind
        | _ => cases hkind
      · rw [masterLog_master, locked_snoc, ← h.lock]
        exact hguard.answer hanswer
      · rw [masterLog_master, List.map_append, replay_append, hreplay]
        exact ⟨t', (replay_singleton t call).trans ht', hR'⟩
  | @slave call card hcode hanswer =>
      have hcall := slaveCode_calls hcode call (List.mem_append_right _ (List.mem_singleton_self call))
      have hlog := masterLog_slave s.log call
      refine ⟨?_, ?_, ?_, t, ?_, answer_undisturbed hquiet hR hcall hanswer⟩
      · rw [hlog]
        exact h.ordered
      · rw [hlog]
        exact h.order
      · have hlock := hguard.answer hanswer
        rw [kindOf_slaveCall hcall] at hlock
        rw [hlog]
        exact hlock.trans h.lock
      · rw [hlog]
        exact hreplay

/-- By induction, it holds in every state that is reached. -/
theorem CardInv.reachable (hsim : Simulates wops wops' R) (hguard : Guarded wops mutex)
    (hquiet : Undisturbed wops R) {card : σ} (hR : R card t₀) (hfree : mutex card = false)
    {s : System ι σ} (h : Reachable wops mutex card s) : CardInv wops' R mutex t₀ s := by
  induction h with
  | refl => exact CardInv.start hR hfree
  | tail _ hstep ih => exact ih.step hsim hguard hquiet hstep

end

/-! ## The cycles -/

/-- Only raising the cycle line takes the mutex, and only dropping it gives the mutex back. -/
theorem eq_cycle_of_take {call : WopsCall} (h : kindOf call = .take) : call = .cycle true := by
  cases call with
  | cycle on => cases on with
    | true => rfl
    | false => cases h
  | _ => cases h

theorem eq_cycle_of_drop {call : WopsCall} (h : kindOf call = .drop) : call = .cycle false := by
  cases call with
  | cycle on => cases on with
    | true => cases h
    | false => rfl
  | _ => cases h

/-- A cycle that is open. -/
theorem openBlock_of_open {b : List WopsCall} (h : IsOpen kindOf b)
    (hknown : ∀ call ∈ b, IsMasterCall call) (hchain : b.IsChain ByteenableNext) :
    b = [.cycle true] ∨ IsOpenBlock b := by
  obtain ⟨call, body, rfl, hc, hbody⟩ := h
  cases eq_cycle_of_take hc
  cases body with
  | nil => exact Or.inl rfl
  | cons first body =>
      obtain ⟨be, rfl⟩ := List.rel_of_isChain_cons_cons hchain rfl
      refine Or.inr ⟨be, body, rfl, ?_⟩
      intro call hcall
      have hmem := List.mem_cons_of_mem (WopsCall.byteenable be) hcall
      exact access_of_work (hknown call (List.mem_cons_of_mem _ hmem)) (hbody call hmem)

/-- A complete cycle. -/
theorem block_of_section {b : List WopsCall} (h : IsSection kindOf b)
    (hknown : ∀ call ∈ b, IsMasterCall call) (hchain : b.IsChain ByteenableNext) : IsBlock b := by
  obtain ⟨call, body, last, rfl, hc, hbody, hl⟩ := h
  rw [← List.cons_append] at hknown hchain ⊢
  cases eq_cycle_of_drop hl
  rcases openBlock_of_open ⟨call, body, rfl, hc, hbody⟩
    (fun call' hcall' => hknown call' (List.mem_append_left _ hcall')) hchain.left_of_append with
    hone | hopen
  · -- the byte enable is missing
    rw [hone] at hchain
    obtain ⟨be, hbe⟩ := List.rel_of_isChain_cons_cons hchain rfl
    cases hbe
  · exact ⟨_, hopen, rfl⟩

/-- The calls of the masters are cycles, each of one of them, and at most one is open. -/
structure Cycles (log : List (ι × WopsCall)) (cycles : List (ι × List WopsCall))
    (last : Option (ι × List WopsCall)) : Prop where
  log_eq : log = (cycles ++ last.toList).flatMap tagged
  complete : ∀ cyc ∈ cycles, IsBlock cyc.2
  opened : ∀ cyc ∈ last, cyc.2 = [.cycle true] ∨ IsOpenBlock cyc.2

/-- Sections of ordered calls are cycles. -/
theorem cycles_of_split {log : List (ι × WopsCall)} {cycles : List (ι × List WopsCall)}
    {last : Option (ι × List WopsCall)} (h : Split kindOf log cycles last)
    (hordered : ∀ file, Ordered (own file log)) : Cycles log cycles last := by
  have hpart : ∀ cyc ∈ cycles ++ last.toList,
      (∀ call ∈ cyc.2, IsMasterCall call) ∧ cyc.2.IsChain ByteenableNext := by
    intro cyc hcyc
    have hslice := h.isInfix hcyc
    exact ⟨fun call hcall => (hordered cyc.1).known call (hslice.subset hcall),
      List.IsChain.infix (hordered cyc.1).chain hslice⟩
  refine ⟨h.log_eq, ?_, ?_⟩
  · intro cyc hcyc
    obtain ⟨hknown, hchain⟩ := hpart cyc (List.mem_append_left _ hcyc)
    exact block_of_section (h.complete cyc hcyc) hknown hchain
  · intro cyc hcyc
    obtain ⟨hknown, hchain⟩ := hpart cyc (List.mem_append_right _ (Option.mem_toList.mpr hcyc))
    exact openBlock_of_open (h.opened cyc hcyc) hknown hchain

/-- **Cycles one after another**, on any back end that is a simulation of the card. -/
theorem serial {τ : Type} {wops : WishboneOperations σ} {wops' : WishboneOperations τ}
    {R : σ → τ → Prop} {mutex : σ → Bool} (hsim : Simulates wops wops' R)
    (hguard : Guarded wops mutex) (hquiet : Undisturbed wops R) {card : σ} {t₀ : τ}
    (hR : R card t₀) (hfree : mutex card = false) {s : System ι σ}
    (h : Reachable wops mutex card s) :
    ∃ cycles last t, Cycles (masterLog s.log) cycles last ∧
      replay wops' t₀ ((cycles ++ last.toList).flatMap Prod.snd) = some t ∧ R s.card t := by
  have hinv := CardInv.reachable hsim hguard hquiet hR hfree h
  obtain ⟨cycles, last, hsplit⟩ := hinv.order.split
  obtain ⟨t, hreplay, ht⟩ := hinv.replayed
  refine ⟨cycles, last, t, cycles_of_split hsplit hinv.ordered, ?_, ht⟩
  rw [← map_snd_tagged, ← hsplit.log_eq]
  exact hreplay

/-! ## The cards -/

/-- Moving the window leaves the mutex alone. -/
theorem mutex_moveWindow (dev : PcieWb.Dev) (addr : Word) :
    (PcieWb.moveWindow dev addr).mutex = dev.mutex := by
  rw [PcieWb.moveWindow]
  split <;> rfl

/-- The driver of the PCIe card holds the mutex for a cycle. -/
theorem guarded_pcie (littleEndian : Bool) :
    Guarded (PcieWb.wbOps littleEndian) PcieWb.Dev.mutex where
  cycle _ _ := rfl
  byteenable dev be := by
    show (PcieWb.wbByteenable littleEndian dev be).mutex = dev.mutex
    rw [PcieWb.wbByteenable_eq]
    cases maskLanes be <;> rfl
  write dev addr data := by
    show (PcieWb.wbWrite littleEndian dev addr data).mutex = dev.mutex
    rw [PcieWb.wbWrite, ← mutex_moveWindow dev addr]
    split
    · rfl
    · split
      · rfl
      · split <;> rfl
  read dev addr := by
    show (PcieWb.wbRead littleEndian dev addr).2.mutex = dev.mutex
    rw [PcieWb.wbRead, ← mutex_moveWindow dev addr]
    split
    · rfl
    · split
      · rfl
      · split <;> rfl
  readCfg dev addr := by
    show (PcieWb.wbReadCfg dev addr).2.mutex = dev.mutex
    rw [PcieWb.wbReadCfg]
    simp only [apply_ite Prod.snd, ite_self]
  request dev := by
    show (PcieWb.wbRequest dev).2.mutex = dev.mutex
    rw [PcieWb.wbRequest]
    split <;> rfl
  reply _ _ _ := rfl

/-- A control register that is neither the window nor in the configuration space. -/
theorem stands_setControl {littleEndian : Bool} {dev : PcieWb.Dev} {b : WordBus}
    (h : WbMasterMemory.Stands littleEndian dev b) {reg : Word} (v : Word) (hcfg : ¬ IsCfg reg)
    (hwindow : PcieWb.WINDOW_OFFSET_LOW ≠ reg) :
    WbMasterMemory.Stands littleEndian (dev.setControl reg v) b := by
  refine ⟨⟨⟨h.mem.settled.lanes, ?_⟩, h.mem.words⟩, fun addr => ?_⟩
  · show dev.windowOffset = if PcieWb.WINDOW_OFFSET_LOW = reg then v else _
    rw [if_neg hwindow]
    exact h.mem.settled.window
  · exact ((sameCfg_setControl dev v hcfg).wbReadCfg addr).trans (h.cfg addr)

/-- The registers of the slave device are others than those of the masters. -/
theorem undisturbed_pcie (littleEndian : Bool) :
    Undisturbed (PcieWb.wbOps littleEndian) (WbMasterMemory.Stands littleEndian) where
  request := by
    intro dev b h
    show WbMasterMemory.Stands littleEndian (PcieWb.wbRequest dev).2 b
    have hctl : ¬ IsCfg PcieWb.MASTER_CTL_HIGH := by rw [IsCfg]; decide
    rw [PcieWb.wbRequest]
    split
    · exact stands_setControl (stands_setControl h 1 hctl (by decide)) _ not_isCfg_control (by decide)
    · exact stands_setControl h _ not_isCfg_control (by decide)
  reply := by
    intro dev b h err data
    have hctl : ¬ IsCfg PcieWb.MASTER_CTL_HIGH := by rw [IsCfg]; decide
    have hdat : ¬ IsCfg PcieWb.MASTER_DAT_LOW := by rw [IsCfg]; decide
    exact stands_setControl (stands_setControl h data hdat (by decide)) _ hctl (by decide)

/-- So does that of the SPEC card. -/
theorem guarded_spec (littleEndian : Bool) : Guarded (SpecWb.wbOps littleEndian) SpecWb.Dev.mutex where
  cycle _ _ := rfl
  byteenable dev be := by
    show (SpecWb.wbByteenable littleEndian dev be).mutex = dev.mutex
    rw [SpecWb.wbByteenable_eq]
    cases maskLanes be <;> rfl
  write dev addr data := by
    show (SpecWb.wbWrite dev addr data).mutex = dev.mutex
    rw [SpecWb.wbWrite]
    split
    · rfl
    · split
      · rfl
      · split <;> rfl
  read dev addr := by
    show (SpecWb.wbRead dev addr).2.mutex = dev.mutex
    rw [SpecWb.wbRead]
    split
    · rfl
    · split
      · rfl
      · split <;> rfl
  readCfg dev addr := by
    show (SpecWb.wbReadCfg dev addr).2.mutex = dev.mutex
    rw [SpecWb.wbReadCfg]
    simp only [apply_ite Prod.snd, ite_self]
  request _ := rfl
  reply _ _ _ := rfl

/-- The slave's calls leave the words of a SPEC card alone. -/
theorem undisturbed_spec : Undisturbed (SpecWb.wbOps true) SpecWb.Stands where
  request h := h
  reply h _ _ := h

/-! ## What the masters see -/

/-- **The masters of a PCIe card take turns**: on a little-endian machine, whatever the order
    of the calls, they are cycles one after another, each of one master, on a memory of words,
    and what the card has returned is what the memory returns.  The slave device is not
    noticed. -/
theorem pcie_serial (control : Word → Word) (bus : Word → Byte) (msi : Bool)
    {s : System ι PcieWb.Dev} (h : Reachable (PcieWb.wbOps true) PcieWb.Dev.mutex
      (PcieWb.probed control bus msi) s) :
    ∃ cycles last b, Cycles (masterLog s.log) cycles last ∧
      replay (wordOps id) (WbMasterMemory.startBus true control bus msi)
        ((cycles ++ last.toList).flatMap Prod.snd) = some b ∧
      ∀ addr, wordAt true s.card.bus (wordAddr addr) = b.mem.words (wordAddr addr) := by
  obtain ⟨cycles, last, b, hcycles, hreplay, hb⟩ := serial (pcie_simulates true)
    (guarded_pcie true) (undisturbed_pcie true)
    (WbMasterMemory.stands_probed true control bus msi) rfl h
  exact ⟨cycles, last, b, hcycles, hreplay, hb.mem.words⟩

/-- The masters of a SPEC card take turns as well: there is no slave device to notice. -/
theorem spec_serial (sdbAddr : Word) (window : Word → Byte) {s : System ι SpecWb.Dev}
    (h : Reachable (SpecWb.wbOps true) SpecWb.Dev.mutex (SpecWb.probed sdbAddr window) s) :
    ∃ cycles last b, Cycles (masterLog s.log) cycles last ∧
      replay (wordOps SpecWb.place) (SpecWb.startBus sdbAddr window)
        ((cycles ++ last.toList).flatMap Prod.snd) = some b ∧
      ∀ addr, wordAt true s.card.window (wordAddr addr) = b.mem.words (wordAddr addr) := by
  obtain ⟨cycles, last, b, hcycles, hreplay, hb⟩ := serial SpecWb.spec_simulates
    (guarded_spec true) undisturbed_spec (SpecWb.stands_probed sdbAddr window) rfl h
  exact ⟨cycles, last, b, hcycles, hreplay, hb.words⟩

section

variable {place : Word → Word}

/-- One cycle on the words alone: the mask that was left behind is not asked for. -/
def runCycle (place : Word → Word) (cfg words : Word → Word) (cyc : List WopsCall) :
    Option (Word → Word) :=
  (replay (wordOps place) ⟨⟨0xF, words⟩, cfg⟩ cyc).map fun b => b.mem.words

/-- The first byte enable is one of the seven. -/
def OpensSupported (cyc : List WopsCall) : Prop :=
  cyc = [.cycle true] ∨
    ∃ be body, cyc = .cycle true :: .byteenable be :: body ∧ (maskLanes be).isSome

/-- No call changes the configuration space. -/
theorem answer_cfg {b b' : WordBus} {call : WopsCall} (h : answer (wordOps place) b call = some b') :
    b'.cfg = b.cfg := by
  cases call with
  | cycle on => cases h; rfl
  | byteenable be => cases h; rfl
  | write addr data => cases h; rfl
  | read addr result =>
      obtain ⟨-, h⟩ := Option.ite_none_right_eq_some.mp h
      cases h
      rfl
  | readCfg addr result =>
      obtain ⟨-, h⟩ := Option.ite_none_right_eq_some.mp h
      cases h
      rfl
  | request result =>
      obtain ⟨-, h⟩ := Option.ite_none_right_eq_some.mp h
      cases h
      rfl
  | reply err data => cases h; rfl

/-- So no replay does. -/
theorem replay_cfg {calls : List WopsCall} : ∀ {b b' : WordBus},
    replay (wordOps place) b calls = some b' → b'.cfg = b.cfg := by
  induction calls with
  | nil => rintro b _ ⟨rfl⟩; rfl
  | cons call calls ih =>
      intro b b' h
      obtain ⟨b1, h1, h2⟩ := Option.bind_eq_some_iff.mp h
      exact (ih h2).trans (answer_cfg h1)

/-- A supported mask at the start of a cycle makes up for any other. -/
theorem runCycle_of_replay {cyc : List WopsCall} (hopen : OpensSupported cyc) {b b' : WordBus}
    (h : replay (wordOps place) b cyc = some b') :
    runCycle place b.cfg b.mem.words cyc = some b'.mem.words := by
  rcases hopen with rfl | ⟨be, body, rfl, hbe⟩
  · cases h
    rfl
  · have hmask : ∀ mask, nextMask mask be = be := fun mask => by rw [nextMask, if_pos hbe]
    have hsame : ∀ mask, replay (wordOps place) ⟨⟨mask, b.mem.words⟩, b.cfg⟩
        (.cycle true :: .byteenable be :: body) =
          replay (wordOps place) ⟨⟨be, b.mem.words⟩, b.cfg⟩ body := by
      intro mask
      show replay (wordOps place) ⟨⟨nextMask mask be, b.mem.words⟩, b.cfg⟩ body = _
      rw [hmask]
    rw [runCycle, hsame, ← hsame b.mem.mask]
    exact congrArg (Option.map _) h

/-- A replay of cycles is the cycles' functions, one after the other. -/
theorem foldlM_of_replay {κ : Type} {cycles : List (κ × List WopsCall)}
    (hopen : ∀ cyc ∈ cycles, OpensSupported cyc.2) : ∀ {b b' : WordBus},
    replay (wordOps place) b (cycles.flatMap Prod.snd) = some b' →
    cycles.foldlM (fun words cyc => runCycle place b.cfg words cyc.2) b.mem.words =
      some b'.mem.words := by
  induction cycles with
  | nil => rintro b _ ⟨rfl⟩; rfl
  | cons cyc cycles ih =>
      intro b b' h
      rw [List.flatMap_cons, replay_append] at h
      obtain ⟨b1, h1, h2⟩ := Option.bind_eq_some_iff.mp h
      rw [List.foldlM_cons, runCycle_of_replay (hopen cyc List.mem_cons_self) h1, ← replay_cfg h1]
      exact ih (fun cyc' hcyc' => hopen cyc' (List.mem_cons_of_mem _ hcyc')) h2

end

/-- A call of a cycle is in the log. -/
theorem mem_log_of_cycle {κ : Type} {log : List (Party κ × WopsCall)}
    {cycles : List (κ × List WopsCall)} (h : masterLog log = cycles.flatMap tagged)
    {cyc : κ × List WopsCall} (hcyc : cyc ∈ cycles)
    {call : WopsCall} (hcall : call ∈ cyc.2) : (Party.master cyc.1, call) ∈ log := by
  have hmem : (cyc.1, call) ∈ masterLog log := by
    rw [h]
    exact List.mem_flatMap.mpr ⟨cyc, hcyc, List.mem_map_of_mem hcall⟩
  obtain ⟨⟨party, call'⟩, hin, heq⟩ := List.mem_filterMap.mp hmem
  cases party with
  | master file => cases heq; exact hin
  | slave => cases heq

/-- Every mask is supported, so the first one of a cycle is. -/
theorem opensSupported {κ : Type} {log : List (Party κ × WopsCall)}
    {cycles : List (κ × List WopsCall)} {last : Option (κ × List WopsCall)}
    (h : Cycles (masterLog log) cycles last)
    (hmasks : ∀ party be, (party, WopsCall.byteenable be) ∈ log → (maskLanes be).isSome) :
    ∀ cyc ∈ cycles ++ last.toList, OpensSupported cyc.2 := by
  intro cyc hcyc
  have hopen : cyc.2 = [.cycle true] ∨
      ∃ be body, cyc.2 = .cycle true :: .byteenable be :: body := by
    rcases List.mem_append.mp hcyc with hdone | hlast
    · obtain ⟨o, ⟨be, body, rfl, -⟩, heq⟩ := h.complete cyc hdone
      exact Or.inr ⟨be, _, heq⟩
    · rcases h.opened cyc (Option.mem_toList.mp hlast) with hone | ⟨be, body, heq, -⟩
      · exact Or.inl hone
      · exact Or.inr ⟨be, body, heq⟩
  rcases hopen with hone | ⟨be, body, heq⟩
  · exact Or.inl hone
  · refine Or.inr ⟨be, body, heq, hmasks (.master cyc.1) be ?_⟩
    refine mem_log_of_cycle h.log_eq hcyc ?_
    rw [heq]
    simp

/-- **With supported masks the cycles are atomic**: on a little-endian machine each takes the
    words to other words on its own, whoever had the bus before. -/
theorem pcie_atomic (control : Word → Word) (bus : Word → Byte) (msi : Bool)
    {s : System ι PcieWb.Dev} (h : Reachable (PcieWb.wbOps true) PcieWb.Dev.mutex
      (PcieWb.probed control bus msi) s)
    (hmasks : ∀ party be, (party, WopsCall.byteenable be) ∈ s.log → (maskLanes be).isSome) :
    ∃ cycles last words, Cycles (masterLog s.log) cycles last ∧
      (cycles ++ last.toList).foldlM (fun words cyc => runCycle id
        (fun addr => (PcieWb.wbReadCfg (PcieWb.probed control bus msi) addr).1) words cyc.2)
        (wordAt true bus) = some words ∧
      ∀ addr, wordAt true s.card.bus (wordAddr addr) = words (wordAddr addr) := by
  obtain ⟨cycles, last, b, hcycles, hreplay, hb⟩ := serial (pcie_simulates true)
    (guarded_pcie true) (undisturbed_pcie true)
    (WbMasterMemory.stands_probed true control bus msi) rfl h
  exact ⟨cycles, last, b.mem.words, hcycles, foldlM_of_replay (opensSupported hcycles hmasks) hreplay,
    hb.mem.words⟩

/-! ## A schedule -/

/-- The card makes the calls of a schedule, as long as nobody takes the mutex while it is
    taken. -/
def schedule (wops : WishboneOperations σ) (mutex : σ → Bool) :
    σ → List (Party ι × WopsCall) → Option σ
  | card, [] => some card
  | card, (_, call) :: rest =>
      if call = .cycle true ∧ mutex card then none
      else (answer wops card call).bind fun card' => schedule wops mutex card' rest

/-- Schedules are run one after the other. -/
theorem schedule_append {κ : Type} (wops : WishboneOperations σ) (mutex : σ → Bool) (card : σ)
    (log log' : List (Party κ × WopsCall)) :
    schedule wops mutex card (log ++ log') =
      (schedule wops mutex card log).bind fun card' => schedule wops mutex card' log' := by
  induction log generalizing card with
  | nil => rfl
  | cons e log ih =>
      rw [List.cons_append, schedule, schedule]
      split
      · rfl
      · cases answer wops card e.2 with
        | none => rfl
        | some card' => exact ih card'

/-- A master that is stopped has run master code. -/
theorem masterCode_of_front {calls calls' : List WopsCall} (h : IsMasterCode calls')
    (hp : calls <+: calls') : IsMasterCode calls := by
  obtain ⟨τ, wops, st, mem, ops, h⟩ := h
  exact ⟨τ, wops, st, mem, ops, hp.trans h⟩

/-- So has a slave. -/
theorem slaveCode_of_front {calls calls' : List WopsCall} (h : IsSlaveCode calls')
    (hp : calls <+: calls') : IsSlaveCode calls := by
  obtain ⟨τ, wops, st, events, h⟩ := h
  exact ⟨τ, wops, st, events, hp.trans h⟩

/-- **Every schedule can come about** in which each party follows its code. -/
theorem reachable_of_schedule {wops : WishboneOperations σ} {mutex : σ → Bool} {card : σ}
    {log : List (Party ι × WopsCall)} : ∀ {card' : σ},
    (∀ file, IsMasterCode (own (.master file) log)) → IsSlaveCode (own .slave log) →
    schedule wops mutex card log = some card' → Reachable wops mutex card ⟨card', log⟩ := by
  induction log using List.reverseRecOn with
  | nil => rintro card' - - ⟨rfl⟩; exact Relation.ReflTransGen.refl
  | append_singleton log e ih =>
      intro card' hmaster hslave hrun
      obtain ⟨party, call⟩ := e
      rw [schedule_append] at hrun
      obtain ⟨mid, hmid, hcall⟩ := Option.bind_eq_some_iff.mp hrun
      rw [schedule] at hcall
      obtain ⟨hfree, hcall⟩ := Option.ite_none_left_eq_some.mp hcall
      obtain ⟨last, hanswer, hlast⟩ := Option.bind_eq_some_iff.mp hcall
      cases hlast
      have hbefore : ∀ p : Party ι, own p log <+: own p (log ++ [(party, call)]) := fun p => by
        rw [own_append]
        exact List.prefix_append _ _
      refine (ih (fun file => masterCode_of_front (hmaster file) (hbefore _))
        (slaveCode_of_front hslave (hbefore _)) hmid).tail ?_
      cases party with
      | master file =>
          refine Step.master ?_ (fun hc => ?_) hanswer
          · rw [← own_snoc_self]
            exact hmaster file
          · exact Bool.eq_false_iff.mpr fun hm => hfree ⟨hc, hm⟩
      | slave =>
          refine Step.slave ?_ hanswer
          rw [← own_snoc_self]
          exact hslave

/-- A record of one write, and one of one read, each a cycle of its own. -/
def writeRecord : List Byte :=
  [0x4e, 0x6f, 0x11, 0xff, 0, 0, 0, 0, 0x08, 0x0f, 1, 0, 0, 0, 0, 4, 0x11, 0x22, 0x33, 0x44]

/-- A probe, and a record that reads the word at 4. -/
def readRecord : List Byte :=
  [0x4e, 0x6f, 0x11, 0xff, 0, 0, 0, 0, 0x08, 0x0f, 0, 1, 0, 0, 0, 0, 0, 0, 0, 4]

/-- The first master writes a word that the second one reads; the slave device asks for a
    request in between. -/
def turns : List (Party Bool × WopsCall) :=
  [(.master false, .cycle true), (.master false, .byteenable 0xF), (.slave, .request none),
    (.master false, .write 4 0x11223344), (.master false, .cycle false),
    (.master true, .cycle true), (.master true, .byteenable 0xF),
    (.master true, .read 4 0x11223344)]

/-- A bus on which every word is the same. -/
def sameWords (word : Word) : WordBus := ⟨⟨0xF, fun _ => word⟩, fun _ => 0⟩

/-- A write, and the beginning of a read, as a master file does them. -/
theorem isMasterCode_write : IsMasterCode
    [.cycle true, .byteenable 0xF, .write 4 0x11223344, .cycle false] := by
  refine ⟨WordBus, wordOps id, sameWords 0, ⟨.header, 0, 0, 0, fun _ => 0⟩,
    [.aioWrite false false [writeRecord]], ?_⟩
  decide +kernel

theorem isMasterCode_read : IsMasterCode
    [.cycle true, .byteenable 0xF, .read 4 0x11223344] := by
  refine ⟨WordBus, wordOps id, sameWords 0x11223344, ⟨.header, 0, 0, 0, fun _ => 0⟩,
    [.aioWrite false false [readRecord]], ?_⟩
  decide +kernel

/-- The slave device asks once its user has read the probe and answered it. -/
theorem isSlaveCode_request : IsSlaveCode [.request none] := by
  refine ⟨WordBus, wordOps id, sameWords 0,
    [.charOpen 0 (some ⟨0, false, 0, 0, 0, fun _ => 0, 0, fun _ => 0⟩),
      .call 0 (.aioRead false false [[0, 0, 0, 0, 0, 0, 0, 0]]),
      .call 0 (.aioWrite false [[0x4e, 0x6f, 0x16, 0x44, 0, 0, 0, 0]]), .call 0 .poll], ?_⟩
  decide +kernel

/-- The turns can be taken on a PCIe card. -/
theorem turns_reachable : ∃ card, Reachable (PcieWb.wbOps true) PcieWb.Dev.mutex
    (PcieWb.probed (fun _ => 0) (fun _ => 0) true) ⟨card, turns⟩ := by
  have hrun : (schedule (PcieWb.wbOps true) PcieWb.Dev.mutex
      (PcieWb.probed (fun _ => 0) (fun _ => 0) true) turns).isSome := by
    decide +kernel
  obtain ⟨card, hcard⟩ := Option.isSome_iff_exists.mp hrun
  refine ⟨card, reachable_of_schedule ?_ isSlaveCode_request hcard⟩
  intro file
  cases file with
  | false => exact isMasterCode_write
  | true => exact isMasterCode_read

/-- The two masters and the slave device on one card. -/
theorem pcie_serial_turns : ∃ card cycles last b,
    Cycles (masterLog turns) cycles last ∧
      replay (wordOps id) (WbMasterMemory.startBus true (fun _ => 0) (fun _ => 0) true)
        ((cycles ++ last.toList).flatMap Prod.snd) = some b ∧
      ∀ addr, wordAt true (PcieWb.Dev.bus card) (wordAddr addr) = b.mem.words (wordAddr addr) := by
  obtain ⟨card, hcard⟩ := turns_reachable
  obtain ⟨cycles, last, b, h⟩ := pcie_serial (fun _ => 0) (fun _ => 0) true hcard
  exact ⟨card, cycles, last, b, h⟩

/-- Two masters and a slave take turns. -/
theorem pcie_atomic_turns : ∃ card cycles last words,
    Cycles (masterLog turns) cycles last ∧
      (cycles ++ last.toList).foldlM (fun words cyc => runCycle id
        (fun addr => (PcieWb.wbReadCfg (PcieWb.probed (fun _ => 0) (fun _ => 0) true) addr).1)
        words cyc.2) (wordAt true fun _ => 0) = some words ∧
      ∀ addr, wordAt true (PcieWb.Dev.bus card) (wordAddr addr) = words (wordAddr addr) := by
  obtain ⟨card, hcard⟩ := turns_reachable
  have hmasks : ∀ party be, (party, WopsCall.byteenable be) ∈ turns → (maskLanes be).isSome := by
    intro party be hmem
    simp only [turns, List.mem_cons, Prod.mk.injEq, WopsCall.byteenable.injEq, reduceCtorEq,
      and_false, false_or, or_false, List.not_mem_nil] at hmem
    rcases hmem with ⟨-, rfl⟩ | ⟨-, rfl⟩ <;> rfl
  obtain ⟨cycles, last, words, h⟩ :=
    pcie_atomic (fun _ => 0) (fun _ => 0) true hcard hmasks
  exact ⟨card, cycles, last, words, h⟩

end MasterIsolation
