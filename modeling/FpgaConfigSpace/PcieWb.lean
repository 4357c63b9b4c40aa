import FpgaConfigSpace.Lib.Lanes
import FpgaConfigSpace.Wishbone

/-! # The PCIe back end

    The operations of `pcie_wb.c`.  The first BAR holds control registers; the
    second is a window of 64 KiB on the bus, which the register
    `WINDOW_OFFSET_LOW` moves.  The bus is a memory of bytes: an access through the
    window at offset `o` reaches the bytes from `WINDOW_OFFSET_LOW + o` on, in the
    byte order of the host.

    `littleEndian` is that byte order, which the driver is compiled for.  The kernel's
    `iowrite16`, `iowrite32` and their readers are little-endian on every machine, so only
    on a little-endian one are the bytes here those that the card sees. -/

namespace PcieWb

open BigEndian Lanes WbWishbone

/-- The control register: bit 31 is the cycle line. -/
def CONTROL_REGISTER_HIGH : Word := 0

/-- The upper half of the error flags. -/
def ERROR_FLAG_HIGH : Word := 8

/-- The lower half of the error flags. -/
def ERROR_FLAG_LOW : Word := 12

/-- The window register: the upper 16 bits of the addresses in the window. -/
def WINDOW_OFFSET_LOW : Word := 20

/-- The upper half of the address of the SDB records. -/
def SDWB_ADDRESS_HIGH : Word := 24

/-- The lower half of the address of the SDB records. -/
def SDWB_ADDRESS_LOW : Word := 28

/-- The control register of the queue in which the card's masters ask. -/
def MASTER_CTL_HIGH : Word := 64

/-- The address that a master on the card asks for. -/
def MASTER_ADR_LOW : Word := 76

/-- The data of its request, and of the answer. -/
def MASTER_DAT_LOW : Word := 84

/-- The bits of an address that go to the window register. -/
def WINDOW_HIGH : Word := 0xffff0000

/-- The bits of an address that are an offset in the window. -/
def WINDOW_LOW : Word := 0x0000fffc

/-- An access to the bus: its address, how many bytes it moves, and the lanes of
    the word they stand in. -/
structure Access where
  write : Bool
  addr : Word
  width : Nat
  lane : Nat
deriving DecidableEq

/-- `struct pcie_wb_dev` and the card behind it. -/
structure Dev where
  windowOffset : Word
  lowAddr : Word
  width : Nat
  shift : Nat
  msi : Bool
  /-- `mutex` is taken. -/
  mutex : Bool
  control : Word → Word
  bus : Word → Byte
  /-- The accesses to the bus so far. -/
  accesses : List Access

/-! ## Access through the window -/

/-- Which byte of an `n`-byte value stands at place `j`. -/
def hostLane (littleEndian : Bool) (n j : Nat) : Nat := if littleEndian then j else n - 1 - j

/-- `n` bytes of memory as a value, in the byte order of the host: what `ioread8`,
    `ioread16` and `ioread32` read on a little-endian machine. -/
def loadBus (littleEndian : Bool) (n : Nat) (addr : Word) (bus : Word → Byte) : Word :=
  ofLanes fun k =>
    if k < n then bus (addr + BitVec.ofNat 32 (hostLane littleEndian n k)) else 0

/-- `n` bytes of memory overwritten by a value, in the byte order of the host: what
    `iowrite8`, `iowrite16` and `iowrite32` do on a little-endian machine. -/
def storeBus (littleEndian : Bool) (n : Nat) (v addr : Word) (bus : Word → Byte) : Word → Byte :=
  fun x =>
    if (x - addr).toNat < n then laneOf v (hostLane littleEndian n (x - addr).toNat) else bus x

/-- `iowrite32` to a control register. -/
def Dev.setControl (dev : Dev) (reg v : Word) : Dev :=
  { dev with control := fun r => if r = reg then v else dev.control r }

/-- The bus address of an offset into the window. -/
def Dev.busAddr (dev : Dev) (offset : Word) : Word := dev.control WINDOW_OFFSET_LOW + offset

/-- `iowrite8`, `iowrite16` or `iowrite32` to the window. -/
def Dev.iowrite (littleEndian : Bool) (dev : Dev) (n lane : Nat) (v offset : Word) : Dev :=
  { dev with
    bus := storeBus littleEndian n v (dev.busAddr offset) dev.bus
    accesses := dev.accesses ++ [⟨true, dev.busAddr offset, n, lane⟩] }

/-- `ioread8`, `ioread16` or `ioread32` from the window. -/
def Dev.ioread (littleEndian : Bool) (dev : Dev) (n lane : Nat) (offset : Word) : Word × Dev :=
  (loadBus littleEndian n (dev.busAddr offset) dev.bus,
   { dev with accesses := dev.accesses ++ [⟨false, dev.busAddr offset, n, lane⟩] })

/-! ## The operations -/

/-- `pcie_int_enable`. -/
def pcieIntEnable (dev : Dev) (on : Bool) : Dev :=
  dev.setControl CONTROL_REGISTER_HIGH ((if on && !dev.msi then 0x20000000 else 0) + 0x10000000)

/-- `wb_cycle`, once the mutex is granted. -/
def wbCycle (dev : Dev) (on : Bool) : Dev :=
  { dev.setControl CONTROL_REGISTER_HIGH ((if on then 0x80000000 else 0) + 0x40000000) with
    mutex := on }

/-- `endian_addr`. -/
def endianAddr (littleEndian : Bool) (width shift : Nat) : Word :=
  BitVec.ofNat 32 (if littleEndian then shift else 4 - width - shift)

/-- A width and a lane; where the lane is within the word depends on the byte order. -/
def setLanes (littleEndian : Bool) (dev : Dev) (width lane : Nat) : Dev :=
  { dev with width := width, shift := 8 * lane, lowAddr := endianAddr littleEndian width lane }

/-- `wb_byteenable`. -/
def wbByteenable (littleEndian : Bool) (dev : Dev) (be : Byte) : Dev :=
  if be = 0x1 then setLanes littleEndian dev 1 0
  else if be = 0x2 then setLanes littleEndian dev 1 1
  else if be = 0x4 then setLanes littleEndian dev 1 2
  else if be = 0x8 then setLanes littleEndian dev 1 3
  else if be = 0x3 then setLanes littleEndian dev 2 0
  else if be = 0xC then setLanes littleEndian dev 2 2
  else if be = 0xF then setLanes littleEndian dev 4 0
  -- noop -- ignore the strange bitmask
  else dev

/-- The first lines of `wb_write` and `wb_read`: move the window if it has to be. -/
def moveWindow (dev : Dev) (addr : Word) : Dev :=
  if addr &&& WINDOW_HIGH ≠ dev.windowOffset then
    { dev.setControl WINDOW_OFFSET_LOW (addr &&& WINDOW_HIGH) with
      windowOffset := addr &&& WINDOW_HIGH }
  else dev

/-- `wb_write`. -/
def wbWrite (littleEndian : Bool) (dev : Dev) (addr data : Word) : Dev :=
  let dev := moveWindow dev addr
  if dev.width = 4 then dev.iowrite littleEndian 4 0 data (addr &&& WINDOW_LOW)
  else if dev.width = 2 then
    dev.iowrite littleEndian 2 (dev.shift / 8) (data >>> dev.shift)
      ((addr &&& WINDOW_LOW) + dev.lowAddr)
  else if dev.width = 1 then
    dev.iowrite littleEndian 1 (dev.shift / 8) (data >>> dev.shift)
      ((addr &&& WINDOW_LOW) + dev.lowAddr)
  else dev

/-- `wb_read`. -/
def wbRead (littleEndian : Bool) (dev : Dev) (addr : Word) : Word × Dev :=
  let dev := moveWindow dev addr
  if dev.width = 4 then dev.ioread littleEndian 4 0 (addr &&& WINDOW_LOW)
  else if dev.width = 2 then
    let r := dev.ioread littleEndian 2 (dev.shift / 8) ((addr &&& WINDOW_LOW) + dev.lowAddr)
    (r.1 <<< dev.shift, r.2)
  else if dev.width = 1 then
    let r := dev.ioread littleEndian 1 (dev.shift / 8) ((addr &&& WINDOW_LOW) + dev.lowAddr)
    (r.1 <<< dev.shift, r.2)
  -- technically should be unreachable
  else (0, dev)

/-- `wb_read_cfg`. -/
def wbReadCfg (dev : Dev) (addr : Word) : Word × Dev :=
  if addr = 0 then (dev.control ERROR_FLAG_HIGH, dev)
  else if addr = 4 then (dev.control ERROR_FLAG_LOW, dev)
  else if addr = 8 then (dev.control SDWB_ADDRESS_HIGH, dev)
  else if addr = 12 then (dev.control SDWB_ADDRESS_LOW, dev)
  else (0, dev)

/-- `wb_request`. -/
def wbRequest (dev : Dev) : Option WishboneRequest × Dev :=
  let ctl := dev.control MASTER_CTL_HIGH
  let req : WishboneRequest :=
    { write := ctl &&& 0x40000000 ≠ 0
      addr := dev.control MASTER_ADR_LOW
      data := dev.control MASTER_DAT_LOW
      mask := (ctl &&& 0xf).setWidth 8 }
  -- dequeue operation
  if ctl &&& 0x80000000 ≠ 0 then
    (some req, pcieIntEnable (dev.setControl MASTER_CTL_HIGH 1) true)
  else (none, pcieIntEnable dev true)

/-- `wb_reply`. -/
def wbReply (dev : Dev) (err data : Word) : Dev :=
  (dev.setControl MASTER_DAT_LOW data).setControl MASTER_CTL_HIGH (err + 2)

/-- `wb_ops`. -/
def wbOps (littleEndian : Bool) : WishboneOperations Dev where
  cycle := wbCycle
  byteenable := wbByteenable littleEndian
  write := wbWrite littleEndian
  read := wbRead littleEndian
  readCfg := wbReadCfg
  request := wbRequest
  reply := wbReply

/-- What `probe` makes of a card, whatever its registers and its bus hold. -/
def probed (control : Word → Word) (bus : Word → Byte) (msi : Bool) : Dev :=
  (Dev.setControl
    { windowOffset := 0
      lowAddr := 0
      width := 4
      shift := 0
      msi := msi
      mutex := false
      control := control
      bus := bus
      accesses := [] } WINDOW_OFFSET_LOW 0).setControl CONTROL_REGISTER_HIGH 0

/-! ## What the operations do -/

/-- The lanes of the seven supported masks: how many, and the first. -/
def maskLanes (be : Byte) : Option (Nat × Nat) :=
  if be = 0x1 then some (1, 0)
  else if be = 0x2 then some (1, 1)
  else if be = 0x4 then some (1, 2)
  else if be = 0x8 then some (1, 3)
  else if be = 0x3 then some (2, 0)
  else if be = 0xC then some (2, 2)
  else if be = 0xF then some (4, 0)
  else none

/-- A supported mask is the mask of its lanes. -/
theorem maskLanes_spec {be : Byte} {n s : Nat} (h : maskLanes be = some (n, s)) :
    (n = 1 ∨ n = 2 ∨ (n = 4 ∧ s = 0)) ∧ s + n ≤ 4 ∧
      ∀ k, k < 4 → (be.getLsbD k = true ↔ s ≤ k ∧ k < s + n) := by
  rw [maskLanes] at h
  repeat' split at h
  all_goals cases h
  all_goals subst be
  all_goals decide

/-- The lanes given to the driver; none are ignored. -/
def applyLanes (littleEndian : Bool) (dev : Dev) : Option (Nat × Nat) → Dev
  | some (n, s) => setLanes littleEndian dev n s
  | none => dev

/-- The switch over the masks is a table of lanes. -/
theorem wbByteenable_eq (littleEndian : Bool) (dev : Dev) (be : Byte) :
    wbByteenable littleEndian dev be = applyLanes littleEndian dev (maskLanes be) := by
  rw [maskLanes]
  simp only [apply_ite (applyLanes littleEndian dev)]
  rfl

/-- The driver's copies are those of a supported mask, and the cached window is the
    register. -/
structure Settled (littleEndian : Bool) (mask : Byte) (dev : Dev) : Prop where
  lanes : ∃ n s, maskLanes mask = some (n, s) ∧ dev.width = n ∧ dev.shift = 8 * s ∧
    dev.lowAddr = endianAddr littleEndian n s
  window : dev.windowOffset = dev.control WINDOW_OFFSET_LOW

variable {littleEndian : Bool} {mask : Byte} {dev : Dev}

/-- A card that was probed has the full mask in force. -/
theorem settled_probed (littleEndian : Bool) (control : Word → Word) (bus : Word → Byte)
    (msi : Bool) : Settled littleEndian 0xF (probed control bus msi) := by
  refine ⟨⟨4, 0, rfl, rfl, rfl, ?_⟩, rfl⟩
  cases littleEndian <;> rfl

/-- Moving the window leaves everything else alone and ends at the window asked for. -/
theorem settled_moveWindow (h : Settled littleEndian mask dev) (addr : Word) :
    Settled littleEndian mask (moveWindow dev addr) ∧
      (moveWindow dev addr).control WINDOW_OFFSET_LOW = addr &&& WINDOW_HIGH ∧
      (moveWindow dev addr).bus = dev.bus ∧
      (moveWindow dev addr).accesses = dev.accesses := by
  rw [moveWindow]
  split
  · exact ⟨⟨h.lanes, rfl⟩, rfl, rfl, rfl⟩
  · next heq => exact ⟨h, h.window.symm.trans (not_not.mp heq).symm, rfl, rfl⟩

/-- The bus address of a word and of the lanes in it. -/
theorem window_addr (addr low : Word) :
    (addr &&& WINDOW_HIGH) + ((addr &&& WINDOW_LOW) + low) = (addr &&& 0xfffffffc) + low := by
  have hmask : WINDOW_HIGH ||| WINDOW_LOW = 0xfffffffc := by decide
  rw [← BitVec.add_assoc, and_add_and _ _ _ (by decide), hmask]

/-- `wb_write` writes the lanes of the mask in the word addressed. -/
theorem wbWrite_eq (h : Settled littleEndian mask dev) {n s : Nat}
    (hmask : maskLanes mask = some (n, s)) (addr data : Word) :
    wbWrite littleEndian dev addr data = { moveWindow dev addr with
      bus := storeBus littleEndian n (data >>> (8 * s))
        ((addr &&& 0xfffffffc) + endianAddr littleEndian n s) dev.bus
      accesses := dev.accesses ++
        [⟨true, (addr &&& 0xfffffffc) + endianAddr littleEndian n s, n, s⟩] } := by
  obtain ⟨hmoved, hwindow, hbus, haccesses⟩ := settled_moveWindow h addr
  obtain ⟨n', s', hmask', hwidth, hshift, hlow⟩ := hmoved.lanes
  rw [hmask] at hmask'
  cases hmask'
  obtain ⟨hn, -, -⟩ := maskLanes_spec hmask
  have haddr : ∀ low, (moveWindow dev addr).busAddr ((addr &&& WINDOW_LOW) + low) =
      (addr &&& 0xfffffffc) + low := by
    intro low
    rw [Dev.busAddr, hwindow, window_addr]
  have hlane : 8 * s / 8 = s := by omega
  rw [wbWrite]
  simp only [hwidth, hshift, hlow, hlane]
  rcases hn with rfl | rfl | ⟨rfl, rfl⟩
  · rw [if_neg (by decide), if_neg (by decide), if_pos rfl, Dev.iowrite, haddr, hbus, haccesses]
    simp only [hwidth, hshift, hlow]
  · rw [if_neg (by decide), if_pos rfl, Dev.iowrite, haddr, hbus, haccesses]
    simp only [hwidth, hshift, hlow]
  · have hzero : endianAddr littleEndian 4 0 = 0#32 := by cases littleEndian <;> rfl
    have hword := haddr 0#32
    rw [BitVec.add_zero, BitVec.add_zero] at hword
    rw [if_pos rfl, Dev.iowrite, hword, hbus, haccesses, hzero, BitVec.add_zero, Nat.mul_zero,
      BitVec.ushiftRight_zero]
    simp only [hwidth, hshift, hlow, hzero]

/-- `wb_read` reads the lanes of the mask in the word addressed. -/
theorem wbRead_eq (h : Settled littleEndian mask dev) {n s : Nat}
    (hmask : maskLanes mask = some (n, s)) (addr : Word) :
    wbRead littleEndian dev addr =
      (loadBus littleEndian n ((addr &&& 0xfffffffc) + endianAddr littleEndian n s) dev.bus
        <<< (8 * s),
       { moveWindow dev addr with
         accesses := dev.accesses ++
           [⟨false, (addr &&& 0xfffffffc) + endianAddr littleEndian n s, n, s⟩] }) := by
  obtain ⟨hmoved, hwindow, hbus, haccesses⟩ := settled_moveWindow h addr
  obtain ⟨n', s', hmask', hwidth, hshift, hlow⟩ := hmoved.lanes
  rw [hmask] at hmask'
  cases hmask'
  obtain ⟨hn, -, -⟩ := maskLanes_spec hmask
  have haddr : ∀ low, (moveWindow dev addr).busAddr ((addr &&& WINDOW_LOW) + low) =
      (addr &&& 0xfffffffc) + low := by
    intro low
    rw [Dev.busAddr, hwindow, window_addr]
  have hlane : 8 * s / 8 = s := by omega
  rw [wbRead]
  simp only [hwidth, hshift, hlow, hlane]
  rcases hn with rfl | rfl | ⟨rfl, rfl⟩
  · rw [if_neg (by decide), if_neg (by decide), if_pos rfl, Dev.ioread, haddr, hbus, haccesses]
    simp only [hwidth, hshift, hlow]
  · rw [if_neg (by decide), if_pos rfl, Dev.ioread, haddr, hbus, haccesses]
    simp only [hwidth, hshift, hlow]
  · have hzero : endianAddr littleEndian 4 0 = 0#32 := by cases littleEndian <;> rfl
    have hword := haddr 0#32
    rw [BitVec.add_zero, BitVec.add_zero] at hword
    rw [if_pos rfl, Dev.ioread, hword, hbus, haccesses, hzero, BitVec.add_zero, Nat.mul_zero,
      BitVec.shiftLeft_zero]
    simp only [hwidth, hshift, hlow, hzero]

/-! ## The invariant -/

/-- The mask in force after a byte enable: one that is not supported is ignored. -/
def nextMask (mask be : Byte) : Byte := if (maskLanes be).isSome then be else mask

/-- A byte enable that is supported changes the mask. -/
theorem settled_wbByteenable (h : Settled littleEndian mask dev) (be : Byte) :
    Settled littleEndian (nextMask mask be) (wbByteenable littleEndian dev be) := by
  rw [wbByteenable_eq, nextMask]
  cases hbe : maskLanes be with
  | none => exact h
  | some lanes =>
      obtain ⟨n, s⟩ := lanes
      exact ⟨⟨n, s, hbe, rfl, rfl, rfl⟩, h.window⟩

theorem settled_wbCycle (h : Settled littleEndian mask dev) (on : Bool) :
    Settled littleEndian mask (wbCycle dev on) :=
  ⟨h.lanes, h.window⟩

/-- A write leaves it in force, and so does a read. -/
theorem settled_wbWrite (h : Settled littleEndian mask dev) (addr data : Word) :
    Settled littleEndian mask (wbWrite littleEndian dev addr data) := by
  obtain ⟨n, s, hmask, -⟩ := h.lanes
  obtain ⟨hmoved, -⟩ := settled_moveWindow h addr
  rw [wbWrite_eq h hmask]
  exact ⟨hmoved.lanes, hmoved.window⟩

theorem settled_wbRead (h : Settled littleEndian mask dev) (addr : Word) :
    Settled littleEndian mask (wbRead littleEndian dev addr).2 := by
  obtain ⟨n, s, hmask, -⟩ := h.lanes
  obtain ⟨hmoved, -⟩ := settled_moveWindow h addr
  rw [wbRead_eq h hmask]
  exact ⟨hmoved.lanes, hmoved.window⟩

end PcieWb
