import FpgaConfigSpace.Wishbone
import FpgaConfigSpace.Lib.CyclicBuffer

/-! # The master device

    One context per open of the master character device: a ring of 8192 bytes
    that holds, in this order, responses user space has not read, and requests
    that have not been executed.  `write` appends requests and executes every
    complete record in place, turning it into its response; `read` takes
    responses away.  The three positions run modulo twice the ring size, so that
    a full ring and an empty one are told apart. -/

namespace WbMaster

open BigEndian WbIovec WbWishbone CyclicBuffer

/-- The size of the ring buffer, `buf`. -/
def RING_SIZE : Nat := 8192

/-- `RING_INDEX`: the cell of a position. -/
def ringIndex (x : Nat) : Nat := x &&& (RING_SIZE - 1)

/-- `RING_POS`: positions are kept modulo `2 * RING_SIZE`. -/
def ringPos (x : Nat) : Nat := x &&& (RING_SIZE * 2 - 1)

/-- What `etherbone_master_process` is in the middle of. -/
inductive MasterState where
  | header
  | idle
  | cycle
deriving DecidableEq

/-- `struct etherbone_master_context`. -/
structure EtherboneMasterContext where
  state : MasterState
  sent : Nat
  processed : Nat
  received : Nat
  buf : Nat → Byte

/-- `RING_READ_LEN`. -/
def ringReadLen (ctx : EtherboneMasterContext) : Nat :=
  ringPos (subU32 ctx.processed ctx.sent)

/-- `RING_PROC_LEN`. -/
def ringProcLen (ctx : EtherboneMasterContext) : Nat :=
  ringPos (subU32 ctx.received ctx.processed)

/-- `RING_WRITE_LEN`. -/
def ringWriteLen (ctx : EtherboneMasterContext) : Nat :=
  ringPos (subU32 (ctx.sent + RING_SIZE) ctx.received)

/-! ## `etherbone_master_process` -/

/-- What the record loop carries from one record to the next. -/
structure RecordCursor (σ : Type) where
  state : MasterState
  buf : Nat → Byte
  i : Nat
  bus : Bus σ

variable {σ : Type} (wops : WishboneOperations σ)

/-- Length in bytes of a record with these counts. -/
def recordLen (wcount rcount : Byte) : Nat :=
  (1 + wcount.toNat + rcount.toNat + (if wcount.toNat > 0 then 1 else 0)
    + (if rcount.toNat > 0 then 1 else 0)) * 4

/-- The two loops over the write words: erase the word behind, step, and write
    unless the words address the configuration space. -/
def writeWords (wca : Bool) (increment : Word) : Nat → Word → RecordCursor σ → RecordCursor σ
  | 0, _, m => m
  | j + 1, baseAddress, m =>
      let buf := ebFromCpu m.buf m.i 0
      let i := ringIndex (m.i + 4)
      if wca then
        writeWords wca increment j baseAddress { m with buf := buf, i := i }
      else
        writeWords wca increment j (baseAddress + increment)
          { m with buf := buf, i := i, bus := m.bus.write wops baseAddress (ebToCpu buf i) }

/-- The two loops over the read words: each address is replaced by what is read. -/
def readWords (rca : Bool) : Nat → RecordCursor σ → RecordCursor σ
  | 0, m => m
  | j + 1, m =>
      let r := if rca then m.bus.readCfg wops (ebToCpu m.buf m.i)
               else m.bus.read wops (ebToCpu m.buf m.i)
      readWords rca j
        { m with buf := ebFromCpu m.buf m.i r.1, i := ringIndex (m.i + 4), bus := r.2 }

/-- "Configure byte enable and raise cycle line". -/
def raiseCycle (be : Byte) (m : RecordCursor σ) : RecordCursor σ :=
  let m := if m.state = .idle then
      { m with bus := m.bus.cycle wops true, state := .cycle }
    else m
  { m with bus := m.bus.byteenable wops be }

/-- "Process the writes". -/
def processWrites (flags wcount : Byte) (m : RecordCursor σ) : RecordCursor σ :=
  if wcount.toNat > 0 then
    let wff := flags &&& ETHERBONE_WFF
    let wca := flags &&& ETHERBONE_WCA
    -- increment=0 if wff!=0
    let increment := BitVec.ofNat 32 (4 * (1 - wff.toNat / ETHERBONE_WFF.toNat))
    -- Erase the header
    let buf := ebFromCpu m.buf m.i 0
    let i := ringIndex (m.i + 4)
    writeWords wops (wca ≠ 0) increment wcount.toNat (ebToCpu buf i) { m with buf := buf, i := i }
  else m

/-- The flags of the response. -/
def responseFlags (flags : Byte) : Byte :=
  (flags &&& ETHERBONE_CYC) |||
  (if flags &&& ETHERBONE_RFF ≠ 0 then ETHERBONE_WFF else 0) |||
  (if flags &&& ETHERBONE_BCA ≠ 0 then ETHERBONE_WCA else 0)

/-- The response header and the reads behind it. -/
def processReads (flags be rcount : Byte) (m : RecordCursor σ) : RecordCursor σ :=
  -- rcount -> wcount
  let m := { m with buf := storeFour m.buf m.i (responseFlags flags) be rcount 0 }
  if rcount.toNat > 0 then
    let rca := flags &&& ETHERBONE_RCA
    -- Move past header, and leave BaseRetAddr intact
    readWords wops (rca ≠ 0) rcount.toNat { m with i := ringIndex (m.i + 4 + 4) }
  else
    { m with i := ringIndex (m.i + 4) }

/-- Drop the cycle line if the record says so. -/
def dropCycle (flags : Byte) (m : RecordCursor σ) : RecordCursor σ :=
  if flags &&& ETHERBONE_CYC ≠ 0 then
    { m with bus := m.bus.cycle wops false, state := .idle }
  else m

/-- One complete record, executed in place. -/
def processRecord (m : RecordCursor σ) : RecordCursor σ :=
  let flags := m.buf (m.i + 0)
  let be := m.buf (m.i + 1)
  let wcount := m.buf (m.i + 2)
  let rcount := m.buf (m.i + 3)
  dropCycle wops flags
    (processReads wops flags be rcount
      (processWrites wops flags wcount
        (raiseCycle wops be m)))

/-- `for (left = size; left >= 4; left -= record_len)`, stopping at the first
    incomplete record.  The first argument bounds the iterations. -/
def recordLoop : Nat → Nat → RecordCursor σ → Nat × RecordCursor σ
  | 0, left, m => (left, m)
  | fuel + 1, left, m =>
      if left < 4 then (left, m)
      else
        let len := recordLen (m.buf (m.i + 2)) (m.buf (m.i + 3))
        if left < len then (left, m)
        else recordLoop fuel (left - len) (processRecord wops m)

/-- The V.1 probe response in place of the probe; bytes 4-7 are the identifier
    and stay. -/
def answerProbe (ctx : EtherboneMasterContext) : EtherboneMasterContext :=
  { ctx with
    buf := storeFour ctx.buf 0 0x4E 0x6F 0x12 0x44
    processed := 8
    state := .idle }

/-- The records after the header.  `size` iterations are enough, as every
    record takes bytes. -/
def processRecords (ctx : EtherboneMasterContext) (bus : Bus σ) :
    EtherboneMasterContext × Bus σ :=
  let size := ringProcLen ctx
  let r := recordLoop wops size size ⟨ctx.state, ctx.buf, ringIndex ctx.processed, bus⟩
  ({ ctx with
      state := r.2.state
      buf := r.2.buf
      processed := ringPos (ctx.processed + size - r.1) }, r.2.bus)

/-- `etherbone_master_process`. -/
def etherboneMasterProcess (ctx : EtherboneMasterContext) (bus : Bus σ) :
    EtherboneMasterContext × Bus σ :=
  if ctx.state = .header then
    if ctx.received < 8 then (ctx, bus)
    else processRecords wops (answerProbe ctx) bus
  else processRecords wops ctx bus

/-! ## The file operations -/

/-- `char_master_open`: a fresh context in the memory `kmalloc` returned; `buf` keeps what
    was there. -/
def initContext (mem : EtherboneMasterContext) : EtherboneMasterContext :=
  { mem with state := .header, sent := 0, processed := 0, received := 0 }

/-- `char_master_release`: did the bad user forget to drop the cycle line? -/
def charMasterRelease (ctx : EtherboneMasterContext) (bus : Bus σ) : Bus σ :=
  if ctx.state = .cycle then bus.cycle wops false else bus

/-- `char_master_aio_read`, with a copy to the user in the place of `memcpy_toiovecend`.
    `signal` is a signal that interrupts the wait for the mutex, `nonblock` the `O_NONBLOCK`
    flag of the file. -/
def masterAioReadWith (copyOut : Iovec → List Byte → Nat → Iovec) (signal nonblock : Bool)
    (iov : Iovec) (ctx : EtherboneMasterContext) :
    Except Errno Nat × Iovec × EtherboneMasterContext :=
  let iovLen := u32 (iovLength iov)
  if iovLen = 0 then (.ok 0, iov, ctx)
  else if signal then (.error .eintr, iov, ctx)
  else
    let len := min (ringReadLen ctx) iovLen
    -- How far till we must wrap?
    let bufLen := RING_SIZE - ringIndex ctx.sent
    let iov :=
      if bufLen < len then
        copyOut (copyOut iov (load ctx.buf (ringIndex ctx.sent) bufLen) 0)
          (load ctx.buf 0 (len - bufLen)) bufLen
      else copyOut iov (load ctx.buf (ringIndex ctx.sent) len) 0
    let ctx := { ctx with sent := ringPos (ctx.sent + len) }
    if len = 0 ∧ nonblock then (.error .eagain, iov, ctx) else (.ok len, iov, ctx)

/-- `char_master_aio_read`. -/
def charMasterAioRead (signal nonblock : Bool) (iov : Iovec) (ctx : EtherboneMasterContext) :
    Except Errno Nat × Iovec × EtherboneMasterContext :=
  masterAioReadWith memcpyToiovecend signal nonblock iov ctx

/-- `char_master_aio_write`, with a copy from the user in the place of `memcpy_fromiovecend`.
    The copy knows where in the buffer of the call it is. -/
def masterAioWriteWith (copyIn : (place : Nat) → Iovec → (offset len : Nat) → List Byte)
    (signal nonblock : Bool) (iov : Iovec) (ctx : EtherboneMasterContext) (bus : Bus σ) :
    Except Errno Nat × EtherboneMasterContext × Bus σ :=
  let iovLen := u32 (iovLength iov)
  if iovLen = 0 then (.ok 0, ctx, bus)
  else if signal then (.error .eintr, ctx, bus)
  else
    let len := min (ringWriteLen ctx) iovLen
    -- How far till we must wrap?
    let bufLen := RING_SIZE - ringIndex ctx.received
    let buf :=
      if bufLen < len then
        store (store ctx.buf (ringIndex ctx.received) (copyIn 0 iov 0 bufLen))
          0 (copyIn bufLen iov bufLen (len - bufLen))
      else store ctx.buf (ringIndex ctx.received) (copyIn 0 iov 0 len)
    let ctx := { ctx with buf := buf, received := ringPos (ctx.received + len) }
    let r := etherboneMasterProcess wops ctx bus
    if len = 0 ∧ nonblock then (.error .eagain, r.1, r.2) else (.ok len, r.1, r.2)

/-- `char_master_aio_write`. -/
def charMasterAioWrite (signal nonblock : Bool) (iov : Iovec) (ctx : EtherboneMasterContext)
    (bus : Bus σ) : Except Errno Nat × EtherboneMasterContext × Bus σ :=
  masterAioWriteWith wops (fun _ => memcpyFromiovecend) signal nonblock iov ctx bus

/-- `char_master_poll`: readable, writable. -/
def charMasterPoll (ctx : EtherboneMasterContext) : Bool × Bool :=
  (ringReadLen ctx ≠ 0, ringWriteLen ctx ≠ 0)

end WbMaster
