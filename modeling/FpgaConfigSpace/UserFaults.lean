import FpgaConfigSpace.MasterRuns
import FpgaConfigSpace.SlaveMemory

/-! # Copies that fault

    The character devices do not look at what `memcpy_toiovecend` and
    `memcpy_fromiovecend` return.  Here a copy may stop with `-EFAULT` anywhere: the
    bytes before that place get through, and in the kernel buffer the others are
    replaced by whatever the copy leaves there.  The four entry points are followed
    with such copies, and compared with what they should do. -/

namespace WbUserFaults

open BigEndian WbIovec WbWishbone WbMaster WbSlave WbTransducer WbMasterRecord WbMasterRuns
open WbSlaveParser WbSlaveWrite WbSlaveMemory CyclicBuffer

/-- The user memory behind the buffer of a call.  Of a copy of some bytes at an offset
    of the buffer, `passed` get through, and `leftover` is what a copy into the kernel
    leaves in the place of the others; cells behind the leftover are not changed. -/
structure UserMemory where
  passed : (offset len : Nat) → Nat
  leftover : (offset len : Nat) → List Byte

namespace UserMemory

variable (user : UserMemory)

/-- The bytes of a copy that get through. -/
def through (offset len : Nat) : Nat := min len (user.passed offset len)

/-- No more gets through than there is. -/
theorem through_le (offset len : Nat) : user.through offset len ≤ len := Nat.min_le_left _ _

/-- `memcpy_toiovecend`, up to the fault. -/
def memcpyToiovecend (iov : Iovec) (kdata : List Byte) (offset : Nat) : Iovec :=
  WbIovec.memcpyToiovecend iov (kdata.take (user.through offset kdata.length)) offset

/-- `memcpy_fromiovecend`, up to the fault, and what is left behind it.  `place` is where
    in the buffer of the call the bytes at `offset` of the remaining segments are. -/
def memcpyFromiovecend (place : Nat) (iov : Iovec) (offset len : Nat) : List Byte :=
  WbIovec.memcpyFromiovecend iov offset (user.through place len) ++
    (user.leftover place len).take (len - user.through place len)

/-- The bytes before the first fault, of copies one behind the other. -/
def throughAll : List (Nat × Nat) → Nat
  | [] => 0
  | c :: copies =>
      if user.through c.1 c.2 < c.2 then user.through c.1 c.2 else c.2 + throughAll copies

/-- No copy faults. -/
def Faultless (copies : List (Nat × Nat)) : Prop := ∀ c ∈ copies, user.through c.1 c.2 = c.2

end UserMemory

/-- The bytes of copies. -/
def copiesLength : List (Nat × Nat) → Nat
  | [] => 0
  | c :: copies => c.2 + copiesLength copies

/-- All bytes get through exactly if no copy faults. -/
theorem throughAll_spec (user : UserMemory) (copies : List (Nat × Nat)) :
    user.throughAll copies ≤ copiesLength copies ∧
      (user.throughAll copies = copiesLength copies ↔ user.Faultless copies) := by
  induction copies with
  | nil => exact ⟨Nat.le_refl 0, fun _ c hc => absurd hc List.not_mem_nil, fun _ => rfl⟩
  | cons c copies ih =>
      have hle := user.through_le c.1 c.2
      rw [UserMemory.throughAll, copiesLength, UserMemory.Faultless, List.forall_mem_cons]
      by_cases hshort : user.through c.1 c.2 < c.2
      · rw [if_pos hshort]
        refine ⟨by omega, fun h => ?_, fun h => ?_⟩
        · omega
        · omega
      · rw [if_neg hshort]
        refine ⟨by omega, fun h => ⟨by omega, ih.2.mp (by omega)⟩, fun h => ?_⟩
        rw [ih.2.mpr h.2]

/-! ## The master device -/

/-- The copies between the user and the ring, for `len` bytes at a position. -/
def ringCopies (pos len : Nat) : List (Nat × Nat) :=
  let bufLen := RING_SIZE - ringIndex pos
  if bufLen < len then [(0, bufLen), (bufLen, len - bufLen)] else [(0, len)]

/-- The copies have all the bytes. -/
theorem ringCopies_length (pos len : Nat) : copiesLength (ringCopies pos len) = len := by
  rw [ringCopies]
  split
  · show _ + (_ + 0) = len
    omega
  · rfl

/-- `char_master_aio_read`, with copies that may fault. -/
def charMasterAioRead (user : UserMemory) (signal nonblock : Bool) (iov : Iovec)
    (ctx : EtherboneMasterContext) : Except Errno Nat × Iovec × EtherboneMasterContext :=
  masterAioReadWith user.memcpyToiovecend signal nonblock iov ctx

/-- The copies of a read. -/
def masterReadCopies (signal : Bool) (iov : Iovec) (ctx : EtherboneMasterContext) :
    List (Nat × Nat) :=
  if u32 (iovLength iov) = 0 ∨ signal then []
  else ringCopies ctx.sent (min (ringReadLen ctx) (u32 (iovLength iov)))

variable {σ : Type} (wops : WishboneOperations σ)

/-- `char_master_aio_write`, with copies that may fault. -/
def charMasterAioWrite (user : UserMemory) (signal nonblock : Bool) (iov : Iovec)
    (ctx : EtherboneMasterContext) (bus : Bus σ) :
    Except Errno Nat × EtherboneMasterContext × Bus σ :=
  masterAioWriteWith wops user.memcpyFromiovecend signal nonblock iov ctx bus

/-- The copies of a write. -/
def masterWriteCopies (signal : Bool) (iov : Iovec) (ctx : EtherboneMasterContext) :
    List (Nat × Nat) :=
  if u32 (iovLength iov) = 0 ∨ signal then []
  else ringCopies ctx.received (min (ringWriteLen ctx) (u32 (iovLength iov)))

/-! ## The slave device -/

/-- `char_slave_aio_read`, with a copy that may fault. -/
def charSlaveAioRead (user : UserMemory) (signal nonblock : Bool) (iov : Iovec)
    (ctx : EtherboneSlaveContext) (bus : Bus σ) :
    Except Errno Nat × Iovec × EtherboneSlaveContext × Bus σ :=
  slaveAioReadWith wops user.memcpyToiovecend signal nonblock iov ctx bus

/-- The copy of a read. -/
def slaveReadCopies (signal : Bool) (iov : Iovec) (ctx : EtherboneSlaveContext) (bus : Bus σ) :
    List (Nat × Nat) :=
  if u32 (iovLength iov) = 0 ∨ signal then []
  else
    let r := etherboneSlaveOutProcess wops ctx bus
    [(0, if subU32 r.1.rbufEnd r.1.rbufDone > u32 (iovLength iov) then u32 (iovLength iov)
      else subU32 r.1.rbufEnd r.1.rbufDone)]

/-- The body of the write loop, with copies that may fault. -/
def slaveWriteBody (user : UserMemory) (place : Nat) (iov : Iovec) (iovOff iovLen : Nat)
    (ctx : EtherboneSlaveContext) (bus : Bus σ) : WriteIteration σ :=
  slaveWriteBodyWith wops (user.memcpyFromiovecend place) iov iovOff iovLen ctx bus

/-- The write loop, with copies that may fault. -/
def slaveWriteLoop (user : UserMemory) (fuel place : Nat) (iov : Iovec) (iovOff iovLen : Nat)
    (ctx : EtherboneSlaveContext) (bus : Bus σ) : Nat × EtherboneSlaveContext × Bus σ :=
  slaveWriteLoopWith wops user.memcpyFromiovecend fuel place iov iovOff iovLen ctx bus

/-- `char_slave_aio_write`, with copies that may fault. -/
def charSlaveAioWrite (user : UserMemory) (signal : Bool) (iov : Iovec)
    (ctx : EtherboneSlaveContext) (bus : Bus σ) :
    Except Errno Nat × EtherboneSlaveContext × Bus σ :=
  slaveAioWriteWith wops user.memcpyFromiovecend signal iov ctx bus

/-! ## Copies that do not fault -/

/-- User memory that can be copied. -/
def UserMemory.Mapped (user : UserMemory) : Prop := ∀ offset len, user.through offset len = len

/-- Without faults it is the copy itself, in both directions. -/
theorem memcpyToiovecend_mapped {user : UserMemory} (h : user.Mapped) :
    user.memcpyToiovecend = WbIovec.memcpyToiovecend := by
  funext iov kdata offset
  rw [UserMemory.memcpyToiovecend, h, List.take_length]

theorem memcpyFromiovecend_mapped {user : UserMemory} (h : user.Mapped) :
    user.memcpyFromiovecend = fun _ => WbIovec.memcpyFromiovecend := by
  funext place iov offset len
  rw [UserMemory.memcpyFromiovecend, h, Nat.sub_self, List.take_zero, List.append_nil]

/-- **Without a fault the entry points are those of the devices.** -/
theorem charMasterAioRead_mapped {user : UserMemory} (h : user.Mapped) :
    charMasterAioRead user = WbMaster.charMasterAioRead := by
  funext signal nonblock iov ctx
  rw [charMasterAioRead, memcpyToiovecend_mapped h, WbMaster.charMasterAioRead]

/-- So it is for a write, and for both calls on the slave. -/
theorem charMasterAioWrite_mapped {user : UserMemory} (h : user.Mapped) :
    charMasterAioWrite wops user = WbMaster.charMasterAioWrite wops := by
  funext signal nonblock iov ctx bus
  rw [charMasterAioWrite, memcpyFromiovecend_mapped h, WbMaster.charMasterAioWrite]

theorem charSlaveAioRead_mapped {user : UserMemory} (h : user.Mapped) :
    charSlaveAioRead wops user = WbSlave.charSlaveAioRead wops := by
  funext signal nonblock iov ctx bus
  rw [charSlaveAioRead, memcpyToiovecend_mapped h, WbSlave.charSlaveAioRead]

theorem charSlaveAioWrite_mapped {user : UserMemory} (h : user.Mapped) :
    charSlaveAioWrite wops user = WbSlave.charSlaveAioWrite wops := by
  funext signal iov ctx bus
  rw [charSlaveAioWrite, memcpyFromiovecend_mapped h, WbSlave.charSlaveAioWrite]

/-! ## What the entry points should do -/

/-- A read of the master device takes away no byte that was not delivered. -/
def MasterReadKeeps (user : UserMemory) (signal nonblock : Bool) (iov : Iovec)
    (ctx : EtherboneMasterContext) : Prop :=
  let x := charMasterAioRead user signal nonblock iov ctx
  ∃ n, n ≤ user.throughAll (masterReadCopies signal iov ctx) ∧
    ringPos x.2.2.sent = ringPos (ctx.sent + n) ∧ x.2.2 = { ctx with sent := x.2.2.sent }

/-- The context after bytes were accepted. -/
def accepted (ctx : EtherboneMasterContext) (bytes : List Byte) : EtherboneMasterContext :=
  { ctx with
    buf := storeCyclic RING_SIZE ctx.buf ctx.received bytes
    received := ringPos (ctx.received + bytes.length) }

/-- A write to the master device receives, processes and reports only bytes that the
    user supplied. -/
def MasterWriteKeeps (user : UserMemory) (signal nonblock : Bool) (iov : Iovec)
    (ctx : EtherboneMasterContext) (bus : Bus σ) : Prop :=
  let x := charMasterAioWrite wops user signal nonblock iov ctx bus
  ∃ n, n ≤ user.throughAll (masterWriteCopies signal iov ctx) ∧
    ringPos x.2.1.received = ringPos (ctx.received + n) ∧ (∀ m, x.1 = .ok m → m ≤ n) ∧
    (x.2 = (ctx, bus) ∨
      x.2 = etherboneMasterProcess wops (accepted ctx (iov.flatten.take n)) bus)

/-- A read of the slave device takes away no byte that was not delivered. -/
def SlaveReadKeeps (user : UserMemory) (signal nonblock : Bool) (iov : Iovec)
    (ctx : EtherboneSlaveContext) (bus : Bus σ) : Prop :=
  let x := charSlaveAioRead wops user signal nonblock iov ctx bus
  let r := etherboneSlaveOutProcess wops ctx bus
  ∃ n, n ≤ user.throughAll (slaveReadCopies wops signal iov ctx bus) ∧
    x.2.2 = if u32 (iovLength iov) = 0 ∨ signal then (ctx, bus)
      else ({ r.1 with rbufDone := u32 (r.1.rbufDone + n) }, r.2)

theorem ringPos_lt (x : Nat) : ringPos x < 16384 := by
  rw [ringPos_eq]
  exact Nat.mod_lt x (by decide)

/-- Positions tell how far they were moved. -/
theorem ringPos_move {s a b : Nat} (ha : a < 16384) (hb : b < 16384)
    (h : ringPos (ringPos (s + a)) = ringPos (s + b)) : a = b := by
  rw [ringPos_eq, ringPos_eq, ringPos_eq] at h
  omega

/-- The bytes before the first fault are all bytes exactly if there is no fault. -/
theorem faultless_of_le {user : UserMemory} {copies : List (Nat × Nat)} {n : Nat}
    (hn : n ≤ user.throughAll copies) (hall : n = copiesLength copies) : user.Faultless copies := by
  obtain ⟨hle, hiff⟩ := throughAll_spec user copies
  exact hiff.mp (by omega)

/-- Without a fault all bytes get through. -/
theorem le_of_faultless {user : UserMemory} {copies : List (Nat × Nat)}
    (h : user.Faultless copies) : copiesLength copies ≤ user.throughAll copies :=
  Nat.le_of_eq ((throughAll_spec user copies).2.mpr h).symm

/-- **A read of the master device keeps what was not delivered** exactly if no copy
    faults. -/
theorem masterRead_keeps (user : UserMemory) (signal nonblock : Bool) (iov : Iovec)
    (ctx : EtherboneMasterContext) :
    MasterReadKeeps user signal nonblock iov ctx ↔
      user.Faultless (masterReadCopies signal iov ctx) := by
  rw [MasterReadKeeps, masterReadCopies, charMasterAioRead, masterAioReadWith]
  dsimp only
  by_cases hzero : u32 (iovLength iov) = 0
  · rw [if_pos hzero, if_pos (.inl hzero)]
    exact ⟨fun _ c hc => absurd hc List.not_mem_nil, fun _ => ⟨0, Nat.le_refl 0, rfl, rfl⟩⟩
  rw [if_neg hzero]
  cases signal with
  | true =>
      rw [if_pos (.inr rfl)]
      exact ⟨fun _ c hc => absurd hc List.not_mem_nil, fun _ => ⟨0, Nat.le_refl 0, rfl, rfl⟩⟩
  | false =>
      have hgo : ¬ (u32 (iovLength iov) = 0 ∨ false = true) := by
        rintro (h | h)
        · exact hzero h
        · cases h
      rw [if_neg hgo, if_neg Bool.false_ne_true]
      obtain ⟨len, hlen⟩ : ∃ len, min (ringReadLen ctx) (u32 (iovLength iov)) = len := ⟨_, rfl⟩
      have hsmall : len < 16384 := by
        have hpos := ringPos_lt (subU32 ctx.processed ctx.sent)
        rw [ringReadLen] at hlen
        omega
      rw [hlen]
      have hcopies := ringCopies_length ctx.sent len
      generalize (if RING_SIZE - ringIndex ctx.sent < len then _ else _ : Iovec) = iov'
      have hctx : (if len = 0 ∧ nonblock = true then
          (Except.error Errno.eagain, iov', { ctx with sent := ringPos (ctx.sent + len) })
          else (.ok len, iov', { ctx with sent := ringPos (ctx.sent + len) })).2.2 =
            { ctx with sent := ringPos (ctx.sent + len) } := by
        split
        · rfl
        · rfl
      rw [hctx]
      constructor
      · rintro ⟨n, hn, hpos, _⟩
        have hle := (throughAll_spec user (ringCopies ctx.sent len)).1
        have hmove := ringPos_move hsmall (show n < 16384 by omega) hpos
        exact faultless_of_le hn (by rw [hcopies]; exact hmove.symm)
      · intro h
        refine ⟨len, Nat.le_trans (Nat.le_of_eq hcopies.symm) (le_of_faultless h), ?_, rfl⟩
        rw [ringPos_eq, ringPos_eq]
        exact Nat.mod_mod _ _

/-- The loop over the records takes nothing from the user. -/
theorem processRecords_received (ctx : EtherboneMasterContext) (bus : Bus σ) :
    (processRecords wops ctx bus).1.received = ctx.received := by
  rw [processRecords]

/-- Processing receives nothing. -/
theorem process_received (ctx : EtherboneMasterContext) (bus : Bus σ) :
    (etherboneMasterProcess wops ctx bus).1.received = ctx.received := by
  rw [etherboneMasterProcess]
  by_cases hheader : ctx.state = .header
  · rw [if_pos hheader]
    by_cases hshort : ctx.received < 8
    · rw [if_pos hshort]
    · rw [if_neg hshort, processRecords_received, answerProbe]
  · rw [if_neg hheader, processRecords_received]

/-- A copy that does not fault is the copy. -/
theorem memcpyFromiovecend_faultless {user : UserMemory} {place len : Nat}
    (h : user.through place len = len) (iov : Iovec) (offset : Nat) :
    user.memcpyFromiovecend place iov offset len = WbIovec.memcpyFromiovecend iov offset len := by
  rw [UserMemory.memcpyFromiovecend, h, Nat.sub_self, List.take_zero, List.append_nil]

/-- Both copies of a write, if they do not fault. -/
theorem copyIn_faultless {user : UserMemory} {pos len : Nat}
    (h : user.Faultless (ringCopies pos len)) (buf : Nat → Byte) (iov : Iovec)
    (hspan : len ≤ iov.flatten.length) :
    (if RING_SIZE - ringIndex pos < len then
        store (store buf (ringIndex pos)
          (user.memcpyFromiovecend 0 iov 0 (RING_SIZE - ringIndex pos))) 0
          (user.memcpyFromiovecend (RING_SIZE - ringIndex pos) iov (RING_SIZE - ringIndex pos)
            (len - (RING_SIZE - ringIndex pos)))
      else store buf (ringIndex pos) (user.memcpyFromiovecend 0 iov 0 len)) =
      storeCyclic RING_SIZE buf pos (iov.flatten.take len) := by
  rw [← copyIn_eq buf pos iov hspan]
  rw [ringCopies] at h
  by_cases hwrap : RING_SIZE - ringIndex pos < len
  · rw [if_pos hwrap, if_pos hwrap]
    rw [if_pos hwrap] at h
    rw [memcpyFromiovecend_faultless (h _ (List.mem_cons_self ..)),
      memcpyFromiovecend_faultless (h _ (List.mem_cons_of_mem _ (List.mem_cons_self ..)))]
  · rw [if_neg hwrap, if_neg hwrap]
    rw [if_neg hwrap] at h
    rw [memcpyFromiovecend_faultless (h _ (List.mem_cons_self ..))]

/-- **A write to the master device takes only what was supplied** exactly if no copy
    faults. -/
theorem masterWrite_keeps (user : UserMemory) (signal nonblock : Bool) (iov : Iovec)
    (ctx : EtherboneMasterContext) (bus : Bus σ) :
    MasterWriteKeeps wops user signal nonblock iov ctx bus ↔
      user.Faultless (masterWriteCopies signal iov ctx) := by
  rw [MasterWriteKeeps, masterWriteCopies, charMasterAioWrite, masterAioWriteWith]
  dsimp only
  by_cases hzero : u32 (iovLength iov) = 0
  · rw [if_pos hzero, if_pos (.inl hzero)]
    refine ⟨fun _ c hc => absurd hc List.not_mem_nil, fun _ => ⟨0, Nat.le_refl 0, rfl, ?_, .inl rfl⟩⟩
    intro m hm
    cases hm
    exact Nat.le_refl 0
  rw [if_neg hzero]
  cases signal with
  | true =>
      rw [if_pos (.inr rfl)]
      refine ⟨fun _ c hc => absurd hc List.not_mem_nil, fun _ => ⟨0, Nat.le_refl 0, rfl, ?_, .inl rfl⟩⟩
      intro m hm
      cases hm
  | false =>
      have hgo : ¬ (u32 (iovLength iov) = 0 ∨ false = true) := by
        rintro (h | h)
        · exact hzero h
        · cases h
      rw [if_neg hgo, if_neg Bool.false_ne_true]
      obtain ⟨len, hlen⟩ : ∃ len, min (ringWriteLen ctx) (u32 (iovLength iov)) = len := ⟨_, rfl⟩
      have hsmall : len < 16384 := by
        have hpos := ringPos_lt (subU32 (ctx.sent + RING_SIZE) ctx.received)
        rw [ringWriteLen] at hlen
        omega
      have hspan : len ≤ iov.flatten.length := by
        have hle := u32_le (iovLength iov)
        rw [iovLength_eq] at hle hlen
        omega
      rw [hlen]
      have hcopies := ringCopies_length ctx.received len
      obtain ⟨buf, hbuf⟩ : ∃ buf, (if RING_SIZE - ringIndex ctx.received < len then
          store (store ctx.buf (ringIndex ctx.received)
            (user.memcpyFromiovecend 0 iov 0 (RING_SIZE - ringIndex ctx.received))) 0
            (user.memcpyFromiovecend (RING_SIZE - ringIndex ctx.received) iov
              (RING_SIZE - ringIndex ctx.received) (len - (RING_SIZE - ringIndex ctx.received)))
          else store ctx.buf (ringIndex ctx.received) (user.memcpyFromiovecend 0 iov 0 len)) = buf :=
        ⟨_, rfl⟩
      rw [hbuf]
      obtain ⟨r, hr⟩ : ∃ r, etherboneMasterProcess wops
          { ctx with buf := buf, received := ringPos (ctx.received + len) } bus = r := ⟨_, rfl⟩
      rw [hr]
      have hstate : (if len = 0 ∧ nonblock = true then (Except.error Errno.eagain, r.1, r.2)
          else (.ok len, r.1, r.2)).2 = r := by
        split
        · rfl
        · rfl
      rw [hstate]
      have hreceived : r.1.received = ringPos (ctx.received + len) := by
        rw [← hr, process_received]
      constructor
      · rintro ⟨n, hn, hpos, _⟩
        have hle := (throughAll_spec user (ringCopies ctx.received len)).1
        rw [hreceived] at hpos
        have hmove := ringPos_move hsmall (show n < 16384 by omega) hpos
        exact faultless_of_le hn (by rw [hcopies]; exact hmove.symm)
      · intro h
        refine ⟨len, Nat.le_trans (Nat.le_of_eq hcopies.symm) (le_of_faultless h), ?_, ?_, .inr ?_⟩
        · rw [hreceived, ringPos_eq, ringPos_eq]
          exact Nat.mod_mod _ _
        · intro m hm
          split at hm
          · cases hm
          · cases hm
            exact Nat.le_refl len
        · rw [copyIn_faultless h ctx.buf iov hspan] at hbuf
          have hlength : (iov.flatten.take len).length = len := by
            rw [List.length_take]
            omega
          rw [← hr, accepted, hlength, hbuf]

/-- **A read of the slave device keeps what was not delivered** exactly if its copy does
    not fault. -/
theorem slaveRead_keeps (user : UserMemory) (signal nonblock : Bool) (iov : Iovec)
    (ctx : EtherboneSlaveContext) (bus : Bus σ) :
    SlaveReadKeeps wops user signal nonblock iov ctx bus ↔
      user.Faultless (slaveReadCopies wops signal iov ctx bus) := by
  rw [SlaveReadKeeps, slaveReadCopies, charSlaveAioRead, slaveAioReadWith]
  dsimp only
  by_cases hnone : u32 (iovLength iov) = 0 ∨ signal = true
  · rw [if_pos hnone]
    refine ⟨fun _ c hc => absurd hc List.not_mem_nil, fun _ => ⟨0, Nat.le_refl 0, ?_⟩⟩
    rw [if_pos hnone]
    by_cases hzero : u32 (iovLength iov) = 0
    · rw [if_pos hzero]
    · rw [if_neg hzero, if_pos (hnone.resolve_left hzero)]
  · obtain ⟨hzero, hsignal⟩ := not_or.mp hnone
    rw [if_neg hnone, if_neg hzero, if_neg hsignal]
    simp only [if_neg hnone]
    generalize etherboneSlaveOutProcess wops ctx bus = r
    obtain ⟨len, hlen⟩ : ∃ len, (if subU32 r.1.rbufEnd r.1.rbufDone > u32 (iovLength iov) then
        u32 (iovLength iov) else subU32 r.1.rbufEnd r.1.rbufDone) = len := ⟨_, rfl⟩
    have hsmall : len < 0x100000000 := by
      have hu := u32_lt (iovLength iov)
      have hs : subU32 r.1.rbufEnd r.1.rbufDone < 0x100000000 := Nat.mod_lt _ (by decide)
      rw [← hlen]
      split
      · exact hu
      · exact hs
    rw [hlen]
    generalize user.memcpyToiovecend iov (load r.1.rbuf r.1.rbufDone len) 0 = iov'
    have hstate : (if len = 0 ∧ nonblock = true then (Except.error Errno.eagain, iov',
        { r.1 with rbufDone := u32 (r.1.rbufDone + len) }, r.2)
        else (.ok len, iov', { r.1 with rbufDone := u32 (r.1.rbufDone + len) }, r.2)).2.2 =
          ({ r.1 with rbufDone := u32 (r.1.rbufDone + len) }, r.2) := by
      split
      · rfl
      · rfl
    rw [hstate]
    have hcopies : copiesLength [(0, len)] = len := rfl
    constructor
    · rintro ⟨n, hn, heq⟩
      have hle := (throughAll_spec user [(0, len)]).1
      have hdone : u32 (r.1.rbufDone + len) = u32 (r.1.rbufDone + n) :=
        congrArg (fun x => x.1.rbufDone) heq
      rw [u32, u32] at hdone
      exact faultless_of_le hn (by omega)
    · intro h
      exact ⟨len, le_of_faultless h, rfl⟩

end WbUserFaults
