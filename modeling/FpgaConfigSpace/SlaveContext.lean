import FpgaConfigSpace.Wishbone
import FpgaConfigSpace.Lib.CyclicBuffer

/-! # The slave device

    The slave device turns bus accesses that wait in the hardware into Etherbone
    records for user space to read, and takes the answers back as records that
    write to two configuration-space addresses: `WBA_DATA` holds the value read,
    and a write to `WBA_ERR` completes the oldest access.  A probe and its
    response are exchanged first.  One context holds both directions: `rbuf`
    carries at most one outgoing item, `wbuf` at most one incoming record. -/

namespace WbSlave

open BigEndian WbIovec WbWishbone CyclicBuffer

/-- `struct etherbone_slave_context`. -/
structure EtherboneSlaveContext where
  pendingErr : Nat
  negotiated : Bool
  data : Word
  rbufDone : Nat
  rbufEnd : Nat
  rbuf : Nat → Byte
  wbufFill : Nat
  wbuf : Nat → Byte

variable {σ : Type} (wops : WishboneOperations σ)

/-! ## `etherbone_slave_out_process` -/

/-- The record of a bus access, and behind it a record that reads the error
    status and closes the cycle. -/
def putRequest (rbuf : Nat → Byte) (request : WishboneRequest) : Nat → Byte :=
  let rbuf := storeByte rbuf 0 ETHERBONE_BCA
  let rbuf := storeByte rbuf 1 request.mask
  let rbuf :=
    if request.write then
      let rbuf := storeByte (storeByte rbuf 2 1) 3 0
      let rbuf := ebFromCpu rbuf 4 request.addr
      ebFromCpu rbuf 8 request.data
    else
      let rbuf := storeByte (storeByte rbuf 2 0) 3 1
      let rbuf := ebFromCpu rbuf 4 WBA_DATA
      ebFromCpu rbuf 8 request.addr
  let rbuf := storeFour rbuf 12 (ETHERBONE_CYC ||| ETHERBONE_BCA ||| ETHERBONE_RCA) 0xf 0 1
  let rbuf := ebFromCpu rbuf 16 WBA_ERR
  -- low bits of error status register
  ebFromCpu rbuf 20 4

/-- `etherbone_slave_out_process`: refill an empty `rbuf` with the next request. -/
def etherboneSlaveOutProcess (ctx : EtherboneSlaveContext) (bus : Bus σ) :
    EtherboneSlaveContext × Bus σ :=
  -- unread data?  negotiation incomplete?
  if ctx.rbufDone ≠ ctx.rbufEnd ∨ ctx.negotiated = false then (ctx, bus)
  else
    let r := bus.request wops
    match r.1 with
    | none => (ctx, r.2)
    | some request =>
        ({ ctx with
            pendingErr := u32 (ctx.pendingErr + 1)
            rbufDone := 0
            rbuf := putRequest ctx.rbuf request
            rbufEnd := 24 }, r.2)

/-! ## `etherbone_slave_in_process` -/

/-- "Process the writes": the words from `rptr` on, with the address of the first
    one.  An error leaves behind what was done before it. -/
def slaveWrites (wff : Bool) : Nat → Nat → Word → EtherboneSlaveContext → Bus σ →
    Except Errno Unit × EtherboneSlaveContext × Bus σ
  | 0, _, _, ctx, bus => (.ok (), ctx, bus)
  | j + 1, rptr, baseAddress, ctx, bus =>
      let data := ebToCpu ctx.wbuf rptr
      let next := if wff then baseAddress else baseAddress + 4
      if baseAddress = WBA_DATA then
        slaveWrites wff j (rptr + 4) next { ctx with data := data } bus
      else if baseAddress = WBA_ERR then
        if ctx.pendingErr = 0 then (.error .eio, ctx, bus)
        else
          slaveWrites wff j (rptr + 4) next { ctx with pendingErr := ctx.pendingErr - 1 }
            (bus.reply wops (data &&& 1) ctx.data)
      else (.error .eio, ctx, bus)

/-- `etherbone_slave_in_process`: execute the record in `wbuf`. -/
def etherboneSlaveInProcess (ctx : EtherboneSlaveContext) (bus : Bus σ) :
    Except Errno Unit × EtherboneSlaveContext × Bus σ :=
  let flags := ctx.wbuf 0
  let be := ctx.wbuf 1
  let wcount := ctx.wbuf 2
  let rcount := ctx.wbuf 3
  -- Must be a full write to the config space!
  if rcount ≠ 0 then (.error .eio, ctx, bus)
  else if wcount = 0 then (.ok (), ctx, bus)
  else if be ≠ 0xf then (.error .eio, ctx, bus)
  else if flags &&& ETHERBONE_WCA = 0 then (.error .eio, ctx, bus)
  else
    slaveWrites wops (flags &&& ETHERBONE_WFF ≠ 0) wcount.toNat 8 (ebToCpu ctx.wbuf 4) ctx bus

/-! ## The file operations -/

/-- The V.1 probe, 32-bit only. -/
def putProbe (rbuf : Nat → Byte) : Nat → Byte :=
  storeFour (storeFour rbuf 0 0x4E 0x6F 0x11 0x44) 4 0 0 0 0

/-- A fresh context in the memory `kmalloc` returned; `data`, `wbuf` and the end
    of `rbuf` keep what was there. -/
def initContext (mem : EtherboneSlaveContext) : EtherboneSlaveContext :=
  { mem with
    pendingErr := 0
    negotiated := false
    rbufDone := 0
    wbufFill := 0
    rbuf := putProbe mem.rbuf
    rbufEnd := 8 }

/-- `char_slave_open`: only a single open of the slave device is allowed.  `busy`
    is whether the device has a slave context already. -/
def charSlaveOpen (mem : Option EtherboneSlaveContext) (busy : Bool) :
    Except Errno EtherboneSlaveContext :=
  match mem with
  | none => .error .enomem
  | some mem => if busy then .error .ebusy else .ok (initContext mem)

/-- `for (pending = errors; pending > 0; --pending)`: answer with an error. -/
def replyErrors : Nat → Bus σ → Bus σ
  | 0, bus => bus
  | pending + 1, bus => replyErrors pending (bus.reply wops 1 0)

/-- `char_slave_release`: answer any requests pending, even if the bad user did
    not.  The count is converted to a signed integer first. -/
def charSlaveRelease (ctx : EtherboneSlaveContext) (bus : Bus σ) : Except Errno Unit × Bus σ :=
  let errors := (BitVec.ofNat 32 ctx.pendingErr).toInt
  let bus := replyErrors wops errors.toNat bus
  (if errors ≠ 0 then .error .eio else .ok (), bus)

/-- `char_slave_aio_read`, with a copy to the user in the place of `memcpy_toiovecend`. -/
def slaveAioReadWith (copyOut : Iovec → List Byte → Nat → Iovec) (signal nonblock : Bool)
    (iov : Iovec) (ctx : EtherboneSlaveContext) (bus : Bus σ) :
    Except Errno Nat × Iovec × EtherboneSlaveContext × Bus σ :=
  let iovLen := u32 (iovLength iov)
  if iovLen = 0 then (.ok 0, iov, ctx, bus)
  else if signal then (.error .eintr, iov, ctx, bus)
  else
    let r := etherboneSlaveOutProcess wops ctx bus
    let ctx := r.1
    let bufLen := subU32 ctx.rbufEnd ctx.rbufDone
    let len := if bufLen > iovLen then iovLen else bufLen
    let iov := copyOut iov (load ctx.rbuf ctx.rbufDone len) 0
    let ctx := { ctx with rbufDone := u32 (ctx.rbufDone + len) }
    if len = 0 ∧ nonblock then (.error .eagain, iov, ctx, r.2) else (.ok len, iov, ctx, r.2)

/-- `char_slave_aio_read`. -/
def charSlaveAioRead (signal nonblock : Bool) (iov : Iovec) (ctx : EtherboneSlaveContext)
    (bus : Bus σ) : Except Errno Nat × Iovec × EtherboneSlaveContext × Bus σ :=
  slaveAioReadWith wops memcpyToiovecend signal nonblock iov ctx bus

/-- `while (iov_off >= iov->iov_len)`: step to the segment an offset lies in. -/
def skipSegments : Iovec → Nat → Iovec × Nat
  | [], iovOff => ([], iovOff)
  | seg :: iov, iovOff =>
      if iovOff ≥ seg.length then skipSegments iov (iovOff - seg.length)
      else (seg :: iov, iovOff)

/-- Length in bytes of the record whose header is in `wbuf`. -/
def slaveRecordLen (wbuf : Nat → Byte) : Nat :=
  ((if (wbuf 2).toNat > 0 then 1 else 0) + (if (wbuf 3).toNat > 0 then 1 else 0) +
    (wbuf 2).toNat + (wbuf 3).toNat + 1) * 4

/-- Is this the response to the probe? -/
def probeAccepted (wbuf : Nat → Byte) : Bool :=
  wbuf 0 = 0x4E ∧ wbuf 1 = 0x6F ∧ wbuf 2 &&& 0x7 = 0x6 ∧ wbuf 3 &&& 0x44 = 0x44

/-- What one iteration of the write loop does: the bytes it copies, and whether it
    ends in `break`. -/
structure WriteIteration (σ : Type) where
  len : Nat
  broke : Bool
  ctx : EtherboneSlaveContext
  bus : Bus σ

/-- The body of the write loop, at a segment, with a copy from the user in the place of
    `memcpy_fromiovecend`. -/
def slaveWriteBodyWith (copyIn : Iovec → (offset len : Nat) → List Byte) (iov : Iovec)
    (iovOff iovLen : Nat) (ctx : EtherboneSlaveContext) (bus : Bus σ) : WriteIteration σ :=
  if ctx.wbufFill < 4 then
    let bufLen := 4 - ctx.wbufFill
    let len := if bufLen > iovLen then iovLen else bufLen
    let wbuf := store ctx.wbuf ctx.wbufFill (copyIn iov iovOff len)
    ⟨len, false, { ctx with wbuf := wbuf, wbufFill := ctx.wbufFill + len }, bus⟩
  else if ctx.negotiated = false then
    if probeAccepted ctx.wbuf then
      ⟨0, false, { ctx with wbufFill := 0, negotiated := true }, bus⟩
    else ⟨0, true, ctx, bus⟩
  else
    let bufLen := subU32 (slaveRecordLen ctx.wbuf) ctx.wbufFill
    if bufLen > iovLen then
      let len := iovLen
      let wbuf := store ctx.wbuf ctx.wbufFill (copyIn iov iovOff len)
      ⟨len, false, { ctx with wbuf := wbuf, wbufFill := ctx.wbufFill + len }, bus⟩
    else
      let len := bufLen
      let wbuf := store ctx.wbuf ctx.wbufFill (copyIn iov iovOff len)
      let r := etherboneSlaveInProcess wops { ctx with wbuf := wbuf, wbufFill := 0 } bus
      match r.1 with
      | .ok () => ⟨len, false, r.2.1, r.2.2⟩
      | .error _ => ⟨len, true, r.2.1, r.2.2⟩

/-- `for (iov_off = 0, iov_len = outlen; iov_len > 0; iov_off += len, iov_len -= len)`:
    the bytes left over, with what the loop did.  The first argument bounds the
    iterations, and `place` is how much of the buffer is behind the loop. -/
def slaveWriteLoopWith (copyIn : (place : Nat) → Iovec → (offset len : Nat) → List Byte) :
    Nat → (place : Nat) → Iovec → Nat → Nat → EtherboneSlaveContext → Bus σ →
    Nat × EtherboneSlaveContext × Bus σ
  | 0, _, _, _, iovLen, ctx, bus => (iovLen, ctx, bus)
  | fuel + 1, place, iov, iovOff, iovLen, ctx, bus =>
      if iovLen > 0 then
        let p := skipSegments iov iovOff
        let r := slaveWriteBodyWith wops (copyIn place) p.1 p.2 iovLen ctx bus
        if r.broke then (iovLen, r.ctx, r.bus)
        else
          slaveWriteLoopWith copyIn fuel (place + r.len) p.1 (p.2 + r.len) (iovLen - r.len) r.ctx r.bus
      else (iovLen, ctx, bus)

/-- `char_slave_aio_write`, with a copy from the user in the place of `memcpy_fromiovecend`.
    Between two iterations that consume nothing lies one that does, so twice the length
    bounds them. -/
def slaveAioWriteWith (copyIn : (place : Nat) → Iovec → (offset len : Nat) → List Byte)
    (signal : Bool) (iov : Iovec) (ctx : EtherboneSlaveContext) (bus : Bus σ) :
    Except Errno Nat × EtherboneSlaveContext × Bus σ :=
  let outlen := u32 (iovLength iov)
  if signal then (.error .eintr, ctx, bus)
  else
    let r := slaveWriteLoopWith wops copyIn (2 * outlen + 1) 0 iov 0 outlen ctx bus
    (if r.1 > 0 then .error .eio else .ok outlen, r.2)

/-- The body of the write loop. -/
def slaveWriteBody (iov : Iovec) (iovOff iovLen : Nat) (ctx : EtherboneSlaveContext)
    (bus : Bus σ) : WriteIteration σ :=
  slaveWriteBodyWith wops memcpyFromiovecend iov iovOff iovLen ctx bus

/-- The write loop. -/
def slaveWriteLoop (fuel : Nat) (iov : Iovec) (iovOff iovLen : Nat) (ctx : EtherboneSlaveContext)
    (bus : Bus σ) : Nat × EtherboneSlaveContext × Bus σ :=
  slaveWriteLoopWith wops (fun _ => memcpyFromiovecend) fuel 0 iov iovOff iovLen ctx bus

/-- `char_slave_aio_write`. -/
def charSlaveAioWrite (signal : Bool) (iov : Iovec) (ctx : EtherboneSlaveContext)
    (bus : Bus σ) : Except Errno Nat × EtherboneSlaveContext × Bus σ :=
  slaveAioWriteWith wops (fun _ => memcpyFromiovecend) signal iov ctx bus

/-- A copy that is the same everywhere does not notice where the loop is. -/
theorem slaveWriteLoopWith_place (copyIn : Iovec → Nat → Nat → List Byte) : ∀ (fuel place : Nat),
    slaveWriteLoopWith wops (fun _ => copyIn) fuel place =
      slaveWriteLoopWith wops (fun _ => copyIn) fuel 0 := by
  intro fuel
  induction fuel with
  | zero => exact fun _ => rfl
  | succ fuel ih =>
      intro place
      funext iov iovOff iovLen ctx bus
      rw [slaveWriteLoopWith, slaveWriteLoopWith]
      simp only
      rw [ih (place + _), ih (0 + _)]

/-- One iteration of the write loop. -/
theorem slaveWriteLoop_succ (fuel : Nat) (iov : Iovec) (iovOff iovLen : Nat)
    (ctx : EtherboneSlaveContext) (bus : Bus σ) :
    slaveWriteLoop wops (fuel + 1) iov iovOff iovLen ctx bus =
      if iovLen > 0 then
        let p := skipSegments iov iovOff
        let r := slaveWriteBody wops p.1 p.2 iovLen ctx bus
        if r.broke then (iovLen, r.ctx, r.bus)
        else slaveWriteLoop wops fuel p.1 (p.2 + r.len) (iovLen - r.len) r.ctx r.bus
      else (iovLen, ctx, bus) := by
  rw [slaveWriteLoop, slaveWriteLoopWith]
  simp only
  rw [slaveWriteLoopWith_place]
  rfl

/-- The loop begins at the front of the buffer. -/
theorem charSlaveAioWrite_eq (signal : Bool) (iov : Iovec) (ctx : EtherboneSlaveContext)
    (bus : Bus σ) : charSlaveAioWrite wops signal iov ctx bus =
      if signal then (.error .eintr, ctx, bus)
      else
        let r := slaveWriteLoop wops (2 * u32 (iovLength iov) + 1) iov 0 (u32 (iovLength iov)) ctx bus
        (if r.1 > 0 then .error .eio else .ok (u32 (iovLength iov)), r.2) := rfl

/-- `char_slave_poll`: readable, writable. -/
def charSlavePoll (ctx : EtherboneSlaveContext) (bus : Bus σ) :
    (Bool × Bool) × EtherboneSlaveContext × Bus σ :=
  let r := etherboneSlaveOutProcess wops ctx bus
  ((r.1.rbufDone ≠ r.1.rbufEnd, true), r)

end WbSlave
