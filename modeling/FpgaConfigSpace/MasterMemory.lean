import FpgaConfigSpace.MasterRuns
import FpgaConfigSpace.PcieLanes

/-! # The master device over a memory of words

    The master device uses nothing of its back end but what the operations return.  So a
    back end can be replaced by any other that returns the same, such as a memory of words
    with a few registers for the configuration space: user space reads the same bytes, and
    the words on the bus are those of the memory. -/

namespace WbMasterMemory

open BigEndian WbIovec WbWishbone WbMaster WbMasterRuns PcieWb PcieLanes

/-! ## Back ends that return the same -/

/-- A relation between the states of two back ends that the operations keep, and under
    which they return the same. -/
structure Simulates {σ τ : Type} (wops : WishboneOperations σ) (wops' : WishboneOperations τ)
    (R : σ → τ → Prop) : Prop where
  cycle : ∀ {s t}, R s t → ∀ on, R (wops.cycle s on) (wops'.cycle t on)
  byteenable : ∀ {s t}, R s t → ∀ be, R (wops.byteenable s be) (wops'.byteenable t be)
  write : ∀ {s t}, R s t → ∀ addr data, R (wops.write s addr data) (wops'.write t addr data)
  read : ∀ {s t}, R s t → ∀ addr, (wops.read s addr).1 = (wops'.read t addr).1 ∧
    R (wops.read s addr).2 (wops'.read t addr).2
  readCfg : ∀ {s t}, R s t → ∀ addr, (wops.readCfg s addr).1 = (wops'.readCfg t addr).1 ∧
    R (wops.readCfg s addr).2 (wops'.readCfg t addr).2

variable {σ τ : Type} {wops : WishboneOperations σ} {wops' : WishboneOperations τ}
  {R : σ → τ → Prop}

/-- The same calls, and related states. -/
structure SameBus (R : σ → τ → Prop) (bus : Bus σ) (bus' : Bus τ) : Prop where
  st : R bus.st bus'.st
  trace : bus.trace = bus'.trace

/-- The same place in the same buffer, and the same calls. -/
structure SameCursor (R : σ → τ → Prop) (m : RecordCursor σ) (m' : RecordCursor τ) : Prop where
  state : m.state = m'.state
  buf : m.buf = m'.buf
  i : m.i = m'.i
  bus : SameBus R m.bus m'.bus

section

variable (hsim : Simulates wops wops' R)

include hsim

/-- The cycle line. -/
theorem SameBus.cycle {bus : Bus σ} {bus' : Bus τ} (h : SameBus R bus bus') (on : Bool) :
    SameBus R (bus.cycle wops on) (bus'.cycle wops' on) :=
  ⟨hsim.cycle h.st on, congrArg (· ++ [_]) h.trace⟩

/-- A byte enable. -/
theorem SameBus.byteenable {bus : Bus σ} {bus' : Bus τ} (h : SameBus R bus bus') (be : Byte) :
    SameBus R (bus.byteenable wops be) (bus'.byteenable wops' be) :=
  ⟨hsim.byteenable h.st be, congrArg (· ++ [_]) h.trace⟩

/-- A write. -/
theorem SameBus.write {bus : Bus σ} {bus' : Bus τ} (h : SameBus R bus bus') (addr data : Word) :
    SameBus R (bus.write wops addr data) (bus'.write wops' addr data) :=
  ⟨hsim.write h.st addr data, congrArg (· ++ [_]) h.trace⟩

/-- A read returns the same word. -/
theorem SameBus.read {bus : Bus σ} {bus' : Bus τ} (h : SameBus R bus bus') (addr : Word) :
    (bus.read wops addr).1 = (bus'.read wops' addr).1 ∧
      SameBus R (bus.read wops addr).2 (bus'.read wops' addr).2 := by
  obtain ⟨hvalue, hst⟩ := hsim.read h.st addr
  refine ⟨hvalue, hst, ?_⟩
  show bus.trace ++ [.read addr _] = bus'.trace ++ [.read addr _]
  rw [h.trace, hvalue]

/-- So does a read of the configuration space. -/
theorem SameBus.readCfg {bus : Bus σ} {bus' : Bus τ} (h : SameBus R bus bus') (addr : Word) :
    (bus.readCfg wops addr).1 = (bus'.readCfg wops' addr).1 ∧
      SameBus R (bus.readCfg wops addr).2 (bus'.readCfg wops' addr).2 := by
  obtain ⟨hvalue, hst⟩ := hsim.readCfg h.st addr
  refine ⟨hvalue, hst, ?_⟩
  show bus.trace ++ [.readCfg addr _] = bus'.trace ++ [.readCfg addr _]
  rw [h.trace, hvalue]

/-! ## The record loop -/

/-- The writes of a record, by induction on their number. -/
theorem SameCursor.writeWords (wca : Bool) (increment : Word) : ∀ (n : Nat) (base : Word)
    {m : RecordCursor σ} {m' : RecordCursor τ}, SameCursor R m m' →
    SameCursor R (WbMaster.writeWords wops wca increment n base m)
      (WbMaster.writeWords wops' wca increment n base m') := by
  intro n
  induction n with
  | zero => exact fun _ _ _ h => h
  | succ n ih =>
      rintro base ⟨state, buf, i, bus⟩ ⟨_, _, _, bus'⟩ ⟨rfl, rfl, rfl, hbus⟩
      rw [WbMaster.writeWords, WbMaster.writeWords]
      cases wca with
      | true => exact ih base ⟨rfl, rfl, rfl, hbus⟩
      | false => exact ih _ ⟨rfl, rfl, rfl, hbus.write hsim base _⟩

/-- The reads of a record. -/
theorem SameCursor.readWords (rca : Bool) : ∀ (n : Nat) {m : RecordCursor σ}
    {m' : RecordCursor τ}, SameCursor R m m' →
    SameCursor R (WbMaster.readWords wops rca n m) (WbMaster.readWords wops' rca n m') := by
  intro n
  induction n with
  | zero => exact fun h => h
  | succ n ih =>
      rintro ⟨state, buf, i, bus⟩ ⟨_, _, _, bus'⟩ ⟨rfl, rfl, rfl, hbus⟩
      rw [WbMaster.readWords, WbMaster.readWords]
      cases rca with
      | true =>
          obtain ⟨hvalue, hnext⟩ := hbus.readCfg hsim (ebToCpu buf i)
          exact ih ⟨rfl, congrArg (ebFromCpu buf i) hvalue, rfl, hnext⟩
      | false =>
          obtain ⟨hvalue, hnext⟩ := hbus.read hsim (ebToCpu buf i)
          exact ih ⟨rfl, congrArg (ebFromCpu buf i) hvalue, rfl, hnext⟩

/-- The phases of a record are the same on both: the cycle line in front, the writes, the
    reads, and the cycle line behind. -/
theorem SameCursor.raiseCycle (be : Byte) {m : RecordCursor σ} {m' : RecordCursor τ}
    (h : SameCursor R m m') :
    SameCursor R (WbMaster.raiseCycle wops be m) (WbMaster.raiseCycle wops' be m') := by
  obtain ⟨state, buf, i, bus⟩ := m
  obtain ⟨_, _, _, bus'⟩ := m'
  obtain ⟨rfl, rfl, rfl, hbus⟩ := h
  rw [WbMaster.raiseCycle, WbMaster.raiseCycle]
  by_cases hidle : state = .idle
  · rw [if_pos hidle, if_pos hidle]
    exact ⟨rfl, rfl, rfl, (hbus.cycle hsim true).byteenable hsim be⟩
  · rw [if_neg hidle, if_neg hidle]
    exact ⟨rfl, rfl, rfl, hbus.byteenable hsim be⟩

theorem SameCursor.processWrites (flags wcount : Byte) {m : RecordCursor σ} {m' : RecordCursor τ}
    (h : SameCursor R m m') : SameCursor R (WbMaster.processWrites wops flags wcount m)
      (WbMaster.processWrites wops' flags wcount m') := by
  obtain ⟨state, buf, i, bus⟩ := m
  obtain ⟨_, _, _, bus'⟩ := m'
  obtain ⟨rfl, rfl, rfl, hbus⟩ := h
  rw [WbMaster.processWrites, WbMaster.processWrites]
  by_cases hcount : wcount.toNat > 0
  · rw [if_pos hcount, if_pos hcount]
    exact SameCursor.writeWords hsim _ _ _ _ ⟨rfl, rfl, rfl, hbus⟩
  · rw [if_neg hcount, if_neg hcount]
    exact ⟨rfl, rfl, rfl, hbus⟩

theorem SameCursor.processReads (flags be rcount : Byte) {m : RecordCursor σ}
    {m' : RecordCursor τ} (h : SameCursor R m m') :
    SameCursor R (WbMaster.processReads wops flags be rcount m)
      (WbMaster.processReads wops' flags be rcount m') := by
  obtain ⟨state, buf, i, bus⟩ := m
  obtain ⟨_, _, _, bus'⟩ := m'
  obtain ⟨rfl, rfl, rfl, hbus⟩ := h
  rw [WbMaster.processReads, WbMaster.processReads]
  by_cases hcount : rcount.toNat > 0
  · rw [if_pos hcount, if_pos hcount]
    exact SameCursor.readWords hsim _ _ ⟨rfl, rfl, rfl, hbus⟩
  · rw [if_neg hcount, if_neg hcount]
    exact ⟨rfl, rfl, rfl, hbus⟩

theorem SameCursor.dropCycle (flags : Byte) {m : RecordCursor σ} {m' : RecordCursor τ}
    (h : SameCursor R m m') :
    SameCursor R (WbMaster.dropCycle wops flags m) (WbMaster.dropCycle wops' flags m') := by
  rw [WbMaster.dropCycle, WbMaster.dropCycle]
  by_cases hcyc : flags &&& ETHERBONE_CYC ≠ 0
  · rw [if_pos hcyc, if_pos hcyc]
    exact ⟨rfl, h.buf, h.i, h.bus.cycle hsim false⟩
  · rw [if_neg hcyc, if_neg hcyc]
    exact h

/-- One record is the same on both. -/
theorem SameCursor.processRecord {m : RecordCursor σ} {m' : RecordCursor τ}
    (h : SameCursor R m m') :
    SameCursor R (WbMaster.processRecord wops m) (WbMaster.processRecord wops' m') := by
  rw [WbMaster.processRecord, WbMaster.processRecord]
  simp only [h.buf, h.i]
  exact (((h.raiseCycle hsim _).processWrites hsim _ _).processReads hsim _ _ _).dropCycle hsim _

/-- By induction, the loop over the records. -/
theorem SameCursor.recordLoop : ∀ (fuel left : Nat) {m : RecordCursor σ} {m' : RecordCursor τ},
    SameCursor R m m' →
    (WbMaster.recordLoop wops fuel left m).1 = (WbMaster.recordLoop wops' fuel left m').1 ∧
      SameCursor R (WbMaster.recordLoop wops fuel left m).2
        (WbMaster.recordLoop wops' fuel left m').2 := by
  intro fuel
  induction fuel with
  | zero => exact fun _ _ _ h => ⟨rfl, h⟩
  | succ fuel ih =>
      intro left m m' h
      rw [WbMaster.recordLoop, WbMaster.recordLoop]
      simp only [h.buf, h.i]
      by_cases hshort : left < 4
      · rw [if_pos hshort, if_pos hshort]
        exact ⟨rfl, h⟩
      · rw [if_neg hshort, if_neg hshort]
        by_cases hlen : left < recordLen (m'.buf (m'.i + 2)) (m'.buf (m'.i + 3))
        · rw [if_pos hlen, if_pos hlen]
          exact ⟨rfl, h⟩
        · rw [if_neg hlen, if_neg hlen]
          exact ih _ (h.processRecord hsim)

/-! ## The file operations -/

/-- Both drivers leave the loop at the same place. -/
theorem SameBus.processRecords {bus : Bus σ} {bus' : Bus τ} (h : SameBus R bus bus')
    (ctx : EtherboneMasterContext) :
    (processRecords wops ctx bus).1 = (processRecords wops' ctx bus').1 ∧
      SameBus R (processRecords wops ctx bus).2 (processRecords wops' ctx bus').2 := by
  have hcursor : SameCursor R ⟨ctx.state, ctx.buf, ringIndex ctx.processed, bus⟩
      ⟨ctx.state, ctx.buf, ringIndex ctx.processed, bus'⟩ := ⟨rfl, rfl, rfl, h⟩
  obtain ⟨hleft, hloop⟩ := hcursor.recordLoop hsim (ringProcLen ctx) (ringProcLen ctx)
  refine ⟨?_, hloop.bus⟩
  rw [WbMaster.processRecords, WbMaster.processRecords]
  simp only [hleft, hloop.state, hloop.buf]

/-- So it is with a probe in front. -/
theorem SameBus.process {bus : Bus σ} {bus' : Bus τ} (h : SameBus R bus bus')
    (ctx : EtherboneMasterContext) :
    (etherboneMasterProcess wops ctx bus).1 = (etherboneMasterProcess wops' ctx bus').1 ∧
      SameBus R (etherboneMasterProcess wops ctx bus).2 (etherboneMasterProcess wops' ctx bus').2 := by
  rw [etherboneMasterProcess, etherboneMasterProcess]
  by_cases hheader : ctx.state = .header
  · rw [if_pos hheader, if_pos hheader]
    by_cases hshort : ctx.received < 8
    · rw [if_pos hshort, if_pos hshort]
      exact ⟨rfl, h⟩
    · rw [if_neg hshort, if_neg hshort]
      exact h.processRecords hsim _
  · rw [if_neg hheader, if_neg hheader]
    exact h.processRecords hsim _

/-- A write to the device file. -/
theorem SameBus.aioWrite {bus : Bus σ} {bus' : Bus τ} (h : SameBus R bus bus')
    (signal nonblock : Bool) (iov : Iovec) (ctx : EtherboneMasterContext) :
    (charMasterAioWrite wops signal nonblock iov ctx bus).1 =
        (charMasterAioWrite wops' signal nonblock iov ctx bus').1 ∧
      (charMasterAioWrite wops signal nonblock iov ctx bus).2.1 =
        (charMasterAioWrite wops' signal nonblock iov ctx bus').2.1 ∧
      SameBus R (charMasterAioWrite wops signal nonblock iov ctx bus).2.2
        (charMasterAioWrite wops' signal nonblock iov ctx bus').2.2 := by
  rw [charMasterAioWrite, charMasterAioWrite, masterAioWriteWith, masterAioWriteWith]
  simp only
  by_cases hzero : u32 (iovLength iov) = 0
  · rw [if_pos hzero, if_pos hzero]
    exact ⟨rfl, rfl, h⟩
  · rw [if_neg hzero, if_neg hzero]
    by_cases hsignal : signal = true
    · rw [if_pos hsignal, if_pos hsignal]
      exact ⟨rfl, rfl, h⟩
    · rw [if_neg hsignal, if_neg hsignal]
      split
      · exact ⟨rfl, (h.process hsim _).1, (h.process hsim _).2⟩
      · exact ⟨rfl, (h.process hsim _).1, (h.process hsim _).2⟩

/-- **Runs over two such back ends cannot be told apart**: the contexts, the bytes that were
    accepted and returned, and the calls are the same after any file operations. -/
theorem sameRun (mem : EtherboneMasterContext) {s : σ} {t : τ} (hst : R s t)
    (calls : List MasterCall) :
    let run := (MasterRun.opened mem ⟨s, []⟩).exec wops calls
    let run' := (MasterRun.opened mem ⟨t, []⟩).exec wops' calls
    run.ctx = run'.ctx ∧ run.accepted = run'.accepted ∧ run.returned = run'.returned ∧
      SameBus R run.bus run'.bus := by
  have hkey : ∀ (calls : List MasterCall) {run : MasterRun σ} {run' : MasterRun τ},
      run.ctx = run'.ctx → run.accepted = run'.accepted → run.returned = run'.returned →
      SameBus R run.bus run'.bus →
      (run.exec wops calls).ctx = (run'.exec wops' calls).ctx ∧
        (run.exec wops calls).accepted = (run'.exec wops' calls).accepted ∧
        (run.exec wops calls).returned = (run'.exec wops' calls).returned ∧
        SameBus R (run.exec wops calls).bus (run'.exec wops' calls).bus := by
    intro calls
    induction calls with
    | nil => exact fun hctx hacc hret hbus => ⟨hctx, hacc, hret, hbus⟩
    | cons call calls ih =>
        rintro ⟨ctx, bus, accepted, returned⟩ ⟨_, bus', _, _⟩ rfl rfl rfl hbus
        show (((MasterRun.step wops _ call).exec wops calls).ctx = _) ∧ _
        cases call with
        | aioRead signal nonblock iov => exact ih rfl rfl rfl hbus
        | poll => exact ih rfl rfl rfl hbus
        | aioWrite signal nonblock iov =>
            obtain ⟨hret, hctx, hnext⟩ := hbus.aioWrite hsim signal nonblock iov ctx
            exact ih hctx (congrArg (fun r => accepted ++ transferred r iov) hret) rfl hnext
  exact hkey calls rfl rfl rfl ⟨hst, rfl⟩

end

/-! ## A memory of words as a back end -/

/-- A memory of words, and what is read from the configuration space. -/
structure WordBus where
  mem : WordMem
  cfg : Word → Word

/-- The operations on it; `place` is what the bus makes of an address.  Nobody asks for
    anything, and nothing has to be locked. -/
def wordOps (place : Word → Word) : WishboneOperations WordBus where
  cycle b on := { b with mem := (b.mem.call (.cycle on)).1 }
  byteenable b be := { b with mem := (b.mem.call (.byteenable be)).1 }
  write b addr data := { b with mem := (b.mem.call (.write (place addr) data)).1 }
  read b addr := (merge b.mem.mask 0 (b.mem.words (wordAddr (place addr))), b)
  readCfg b addr := (b.cfg addr, b)
  request b := (none, b)
  reply b _ _ := b

/-! ## The PCIe back end -/

/-- The device holds the words, and has the registers of the configuration space. -/
structure Stands (littleEndian : Bool) (dev : Dev) (b : WordBus) : Prop where
  mem : Represents littleEndian dev b.mem
  cfg : ∀ addr, (wbReadCfg dev addr).1 = b.cfg addr

/-- The registers that are read there. -/
def IsCfg (reg : Word) : Prop :=
  reg = ERROR_FLAG_HIGH ∨ reg = ERROR_FLAG_LOW ∨ reg = SDWB_ADDRESS_HIGH ∨ reg = SDWB_ADDRESS_LOW

/-- The configuration space is as it was. -/
def SameCfg (dev dev' : Dev) : Prop := ∀ reg, IsCfg reg → dev'.control reg = dev.control reg

/-- The configuration space reads the same. -/
theorem SameCfg.wbReadCfg {dev dev' : Dev} (h : SameCfg dev dev') (addr : Word) :
    (PcieWb.wbReadCfg dev' addr).1 = (PcieWb.wbReadCfg dev addr).1 := by
  rw [PcieWb.wbReadCfg, PcieWb.wbReadCfg, h _ (Or.inl rfl), h _ (Or.inr (Or.inl rfl)),
    h _ (Or.inr (Or.inr (Or.inl rfl))), h _ (Or.inr (Or.inr (Or.inr rfl)))]
  simp only [apply_ite Prod.fst]

/-- Other registers don't matter for it, such as that of the window. -/
theorem sameCfg_setControl (dev : Dev) {reg : Word} (v : Word) (h : ¬ IsCfg reg) :
    SameCfg dev (dev.setControl reg v) := by
  intro r hr
  refine if_neg fun heq => ?_
  rw [heq] at hr
  exact h hr

theorem not_isCfg_control : ¬ IsCfg CONTROL_REGISTER_HIGH := by
  rw [IsCfg]
  decide

theorem not_isCfg_window : ¬ IsCfg WINDOW_OFFSET_LOW := by
  rw [IsCfg]
  decide

theorem sameCfg_moveWindow (dev : Dev) (addr : Word) : SameCfg dev (moveWindow dev addr) := by
  rw [moveWindow]
  split
  · exact sameCfg_setControl dev _ not_isCfg_window
  · exact fun _ _ => rfl

/-- **The PCIe back end is a memory of words** for whoever uses its operations. -/
theorem pcie_simulates (littleEndian : Bool) :
    Simulates (wbOps littleEndian) (wordOps id) (Stands littleEndian) where
  cycle := by
    intro dev b h on
    refine ⟨(h.mem.call (.cycle on)).1, fun a => Eq.trans (SameCfg.wbReadCfg ?_ a) (h.cfg a)⟩
    exact sameCfg_setControl dev _ not_isCfg_control
  byteenable := by
    intro dev b h be
    refine ⟨(h.mem.call (.byteenable be)).1, fun a => Eq.trans (SameCfg.wbReadCfg ?_ a) (h.cfg a)⟩
    show SameCfg dev (wbByteenable littleEndian dev be)
    rw [wbByteenable_eq]
    cases maskLanes be <;> exact fun _ _ => rfl
  write := by
    intro dev b h addr data
    refine ⟨(h.mem.call (.write addr data)).1,
      fun a => Eq.trans (SameCfg.wbReadCfg ?_ a) (h.cfg a)⟩
    obtain ⟨n, s, hmask, -⟩ := h.mem.settled.lanes
    show SameCfg dev (wbWrite littleEndian dev addr data)
    rw [wbWrite_eq h.mem.settled hmask]
    exact sameCfg_moveWindow dev addr
  read := by
    intro dev b h addr
    obtain ⟨hmem, hvalue⟩ := h.mem.call (.read addr)
    refine ⟨Option.some.inj hvalue, hmem, fun a => Eq.trans (SameCfg.wbReadCfg ?_ a) (h.cfg a)⟩
    obtain ⟨n, s, hmask, -⟩ := h.mem.settled.lanes
    show SameCfg dev (wbRead littleEndian dev addr).2
    rw [wbRead_eq h.mem.settled hmask]
    exact sameCfg_moveWindow dev addr
  readCfg := by
    intro dev b h addr
    refine ⟨h.cfg addr, ?_⟩
    have hsame : (wbReadCfg dev addr).2 = dev := by
      rw [wbReadCfg]
      simp only [apply_ite Prod.snd, ite_self]
    show Stands littleEndian (wbReadCfg dev addr).2 b
    rw [hsame]
    exact h

/-- The memory of a card. -/
def startBus (littleEndian : Bool) (control : Word → Word) (bus : Word → Byte) (msi : Bool) :
    WordBus :=
  ⟨startMem littleEndian bus, fun addr => (wbReadCfg (probed control bus msi) addr).1⟩

/-- A card that was probed stands for its words. -/
theorem stands_probed (littleEndian : Bool) (control : Word → Word) (bus : Word → Byte) (msi : Bool) :
    Stands littleEndian (probed control bus msi) (startBus littleEndian control bus msi) :=
  ⟨⟨settled_probed littleEndian control bus msi, fun _ => rfl⟩, fun _ => rfl⟩

/-- **The master device over the PCIe back end is the master device over the words on the
    bus**, on a little-endian machine and after any file operations: user space has read the
    same bytes, the calls were the same, and the words are those of the memory. -/
theorem master_over_pcie (control : Word → Word) (bus : Word → Byte) (msi : Bool)
    (mem : EtherboneMasterContext) (calls : List MasterCall) :
    let run := (MasterRun.opened mem ⟨probed control bus msi, []⟩).exec (wbOps true) calls
    let ideal := (MasterRun.opened mem ⟨startBus true control bus msi, []⟩).exec
      (wordOps id) calls
    run.ctx = ideal.ctx ∧ run.accepted = ideal.accepted ∧ run.returned = ideal.returned ∧
      run.bus.trace = ideal.bus.trace ∧
      ∀ addr, wordAt true run.bus.st.bus (wordAddr addr) =
        ideal.bus.st.mem.words (wordAddr addr) := by
  intro run ideal
  obtain ⟨hctx, hacc, hret, hbus⟩ := sameRun (pcie_simulates true) mem
    (stands_probed true control bus msi) calls
  exact ⟨hctx, hacc, hret, hbus.trace, hbus.st.mem.words⟩

end WbMasterMemory
