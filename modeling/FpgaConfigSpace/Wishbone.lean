import FpgaConfigSpace.Iovec

/-! # The bus behind the character devices

    `struct wishbone_operations` is the interface between the character devices
    and the hardware back end.  A back end is any deterministic machine over a
    state `σ`: every operation takes the state and returns the next one, with the
    value it delivers.  `Bus` pairs that state with the calls made so far, oldest
    first, so that what a device does to the hardware is part of its state. -/

namespace WbWishbone

open BigEndian

/-- "Answer from the configuration space", the first of the flags of a record. -/
def ETHERBONE_BCA : Byte := 0x80

/-- "Read from the configuration space". -/
def ETHERBONE_RCA : Byte := 0x40

/-- "Read from a FIFO": the address stays. -/
def ETHERBONE_RFF : Byte := 0x20

/-- "Drop the cycle line behind this record". -/
def ETHERBONE_CYC : Byte := 0x08

/-- "Write to the configuration space". -/
def ETHERBONE_WCA : Byte := 0x04

/-- "Write to a FIFO": the address stays. -/
def ETHERBONE_WFF : Byte := 0x02

/-- The configuration address of the answer of a slave. -/
def WBA_DATA : Word := 0x8000

/-- The configuration address of its error. -/
def WBA_ERR : Word := 0x8004

/-- `struct wishbone_request`: a bus access that waits for user space. -/
structure WishboneRequest where
  write : Bool
  addr : Word
  data : Word
  mask : Byte
deriving DecidableEq

/-- `struct wishbone_operations`. -/
structure WishboneOperations (σ : Type) where
  cycle : σ → Bool → σ
  byteenable : σ → Byte → σ
  write : σ → Word → Word → σ
  read : σ → Word → Word × σ
  readCfg : σ → Word → Word × σ
  request : σ → Option WishboneRequest × σ
  reply : σ → Word → Word → σ

/-- One call through the operations table, with its arguments and its result. -/
inductive WopsCall where
  | cycle (on : Bool)
  | byteenable (mask : Byte)
  | write (addr data : Word)
  | read (addr result : Word)
  | readCfg (addr result : Word)
  | request (result : Option WishboneRequest)
  | reply (err data : Word)
deriving DecidableEq

/-- The back end's state and the calls made so far. -/
structure Bus (σ : Type) where
  st : σ
  trace : List WopsCall

variable {σ : Type} (wops : WishboneOperations σ)

namespace Bus

/-- `wops->cycle`. -/
def cycle (bus : Bus σ) (on : Bool) : Bus σ :=
  ⟨wops.cycle bus.st on, bus.trace ++ [.cycle on]⟩

/-- `wops->byteenable`. -/
def byteenable (bus : Bus σ) (mask : Byte) : Bus σ :=
  ⟨wops.byteenable bus.st mask, bus.trace ++ [.byteenable mask]⟩

/-- `wops->write`. -/
def write (bus : Bus σ) (addr data : Word) : Bus σ :=
  ⟨wops.write bus.st addr data, bus.trace ++ [.write addr data]⟩

/-- `wops->read`. -/
def read (bus : Bus σ) (addr : Word) : Word × Bus σ :=
  let r := wops.read bus.st addr
  (r.1, ⟨r.2, bus.trace ++ [.read addr r.1]⟩)

/-- `wops->read_cfg`. -/
def readCfg (bus : Bus σ) (addr : Word) : Word × Bus σ :=
  let r := wops.readCfg bus.st addr
  (r.1, ⟨r.2, bus.trace ++ [.readCfg addr r.1]⟩)

/-- `wops->request`. -/
def request (bus : Bus σ) : Option WishboneRequest × Bus σ :=
  let r := wops.request bus.st
  (r.1, ⟨r.2, bus.trace ++ [.request r.1]⟩)

/-- `wops->reply`. -/
def reply (bus : Bus σ) (err data : Word) : Bus σ :=
  ⟨wops.reply bus.st err data, bus.trace ++ [.reply err data]⟩

end Bus

/-- Error returns of the character devices. -/
inductive Errno where
  | eintr
  | eagain
  | eio
  | enomem
  | ebusy
deriving DecidableEq

/-- The bytes of the user buffer a call reports as transferred. -/
def transferred : Except Errno Nat → WbIovec.Iovec → List Byte
  | .ok n, iov => iov.flatten.take n
  | .error _, _ => []

/-! ## Word access to byte buffers -/

/-- `buf[i] = b`. -/
def storeByte (buf : Nat → Byte) (i : Nat) (b : Byte) : Nat → Byte :=
  fun x => if x = i then b else buf x

/-- Four byte stores at `i`, `i + 1`, `i + 2` and `i + 3`. -/
def storeFour (buf : Nat → Byte) (i : Nat) (b0 b1 b2 b3 : Byte) : Nat → Byte :=
  storeByte (storeByte (storeByte (storeByte buf i b0) (i + 1) b1) (i + 2) b2) (i + 3) b3

/-- `eb_to_cpu`: the big-endian word at `i`. -/
def ebToCpu (buf : Nat → Byte) (i : Nat) : Word :=
  wordOf (buf i) (buf (i + 1)) (buf (i + 2)) (buf (i + 3))

/-- `eb_from_cpu`: store a word at `i`, big-endian. -/
def ebFromCpu (buf : Nat → Byte) (i : Nat) (dat : Word) : Nat → Byte :=
  storeFour buf i (byteOf dat 0) (byteOf dat 1) (byteOf dat 2) (byteOf dat 3)

/-- Four bytes are stored, and no other. -/
theorem storeFour_outside (buf : Nat → Byte) {i x : Nat} (b0 b1 b2 b3 : Byte)
    (hx : x < i ∨ i + 4 ≤ x) : storeFour buf i b0 b1 b2 b3 x = buf x := by
  simp only [storeFour, storeByte]
  rw [if_neg (by omega), if_neg (by omega), if_neg (by omega), if_neg (by omega)]

/-- The word at the cell that was written. -/
theorem ebToCpu_storeFour_self (buf : Nat → Byte) (i : Nat) (b0 b1 b2 b3 : Byte) :
    ebToCpu (storeFour buf i b0 b1 b2 b3) i = wordOf b0 b1 b2 b3 := by
  simp [ebToCpu, storeFour, storeByte]

/-- Aligned stores leave the other aligned words alone. -/
theorem ebToCpu_storeFour_ne (buf : Nat → Byte) {i j : Nat} (b0 b1 b2 b3 : Byte)
    (hi : 4 ∣ i) (hj : 4 ∣ j) (hne : j ≠ i) :
    ebToCpu (storeFour buf i b0 b1 b2 b3) j = ebToCpu buf j := by
  simp only [ebToCpu]
  rw [storeFour_outside _ _ _ _ _ (by omega), storeFour_outside _ _ _ _ _ (by omega),
    storeFour_outside _ _ _ _ _ (by omega), storeFour_outside _ _ _ _ _ (by omega)]

/-- The bytes of a word are the bytes it was decoded from. -/
theorem bytesOf_ebToCpu (buf : Nat → Byte) (i : Nat) :
    bytesOf (ebToCpu buf i) = [buf i, buf (i + 1), buf (i + 2), buf (i + 3)] :=
  bytesOf_wordOf _ _ _ _

end WbWishbone
