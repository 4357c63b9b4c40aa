import FpgaConfigSpace.MasterMemory

/-! # The SPEC back end

    The operations of `spec_wb.c`.  There is no window to move: 256 KiB of the bus stand in
    the first BAR, from `WB_OFFSET` on, and an address is cut down to them.  So the bus is
    a memory of words again, of which every address shows one, 256 KiB apart the same.

    `writel`, `iowrite16` and their readers are little-endian on every machine.  The lanes
    are moved for the byte order `littleEndian` that the driver is compiled for, and the two
    go together on a little-endian machine. -/

namespace SpecWb

open BigEndian Lanes WbWishbone WbMaster WbMasterRuns WbMasterMemory
open PcieWb (loadBus storeBus endianAddr maskLanes maskLanes_spec nextMask)
open PcieLanes (merge WordMem wordAddr wordAt loadBus_lanes wordAt_storeBus four_dvd_wordAddr)

/-- The bits of an address that are an offset in the window. -/
def WB_LOW : Word := 0x3fffc

/-- `struct spec_wb_dev`, the parameter `sdb_addr` of the module, and the bytes behind
    `WB_OFFSET`. -/
structure Dev where
  lowAddr : Word
  width : Nat
  shift : Nat
  /-- `mutex` is taken. -/
  mutex : Bool
  sdbAddr : Word
  window : Word → Byte

/-! ## The operations -/

/-- `wb_cycle`, once the mutex is granted. -/
def wbCycle (dev : Dev) (on : Bool) : Dev := { dev with mutex := on }

/-- A width and a lane; where the lane is within the word depends on the byte order. -/
def setLanes (littleEndian : Bool) (dev : Dev) (width lane : Nat) : Dev :=
  { dev with width := width, shift := 8 * lane, lowAddr := endianAddr littleEndian width lane }

/-- `wb_byteenable`. -/
def wbByteenable (littleEndian : Bool) (dev : Dev) (be : Byte) : Dev :=
  if be = 0x1 then setLanes littleEndian dev 1 0
  else if be = 0x2 then setLanes littleEndian dev 1 1
  else if be = 0x4 then setLanes littleEndian dev 1 2
  else if be = 0x8 then setLanes littleEndian dev 1 3
  else if be = 0x3 then setLanes littleEndian dev 2 0
  else if be = 0xC then setLanes littleEndian dev 2 2
  else if be = 0xF then setLanes littleEndian dev 4 0
  -- noop -- ignore the strange bitmask
  else dev

/-- `wb_write`, with `writel`, `iowrite16` and `iowrite8`. -/
def wbWrite (dev : Dev) (addr data : Word) : Dev :=
  let addr := (addr &&& WB_LOW) + dev.lowAddr
  if dev.width = 4 then { dev with window := storeBus true 4 data addr dev.window }
  else if dev.width = 2 then
    { dev with window := storeBus true 2 (data >>> dev.shift) addr dev.window }
  else if dev.width = 1 then
    { dev with window := storeBus true 1 (data >>> dev.shift) addr dev.window }
  else dev

/-- `wb_read`, with `readl`, `ioread16` and `ioread8`. -/
def wbRead (dev : Dev) (addr : Word) : Word × Dev :=
  let addr := (addr &&& WB_LOW) + dev.lowAddr
  if dev.width = 4 then (loadBus true 4 addr dev.window, dev)
  else if dev.width = 2 then (loadBus true 2 addr dev.window <<< dev.shift, dev)
  else if dev.width = 1 then (loadBus true 1 addr dev.window <<< dev.shift, dev)
  -- technically should be unreachable
  else (0, dev)

/-- `wb_read_cfg`. -/
def wbReadCfg (dev : Dev) (addr : Word) : Word × Dev :=
  if addr = 0 then (0, dev)
  else if addr = 4 then (0, dev)
  else if addr = 8 then (0, dev)
  else if addr = 12 then (dev.sdbAddr, dev)
  else (0, dev)

/-- `wb_ops`.  Nothing is ever requested, and a reply is lost. -/
def wbOps (littleEndian : Bool) : WishboneOperations Dev where
  cycle := wbCycle
  byteenable := wbByteenable littleEndian
  write := wbWrite
  read := wbRead
  readCfg := wbReadCfg
  request dev := (none, dev)
  reply dev _ _ := dev

/-- What `probe` makes of a card. -/
def probed (sdbAddr : Word) (window : Word → Byte) : Dev where
  lowAddr := 0
  width := 4
  shift := 0
  mutex := false
  sdbAddr := sdbAddr
  window := window

/-! ## The lanes -/

/-- The lanes given to the driver; none are ignored. -/
def applyLanes (littleEndian : Bool) (dev : Dev) : Option (Nat × Nat) → Dev
  | some (n, s) => setLanes littleEndian dev n s
  | none => dev

/-- The switch over the masks is a table of lanes. -/
theorem wbByteenable_eq (littleEndian : Bool) (dev : Dev) (be : Byte) :
    wbByteenable littleEndian dev be = applyLanes littleEndian dev (maskLanes be) := by
  rw [maskLanes]
  simp only [apply_ite (applyLanes littleEndian dev)]
  rfl

/-- The driver's copies are those of a supported mask. -/
def Settled (littleEndian : Bool) (mask : Byte) (dev : Dev) : Prop :=
  ∃ n s, maskLanes mask = some (n, s) ∧ dev.width = n ∧ dev.shift = 8 * s ∧
    dev.lowAddr = endianAddr littleEndian n s

/-- The word of the window that an address shows. -/
def place (addr : Word) : Word := addr &&& WB_LOW

/-- The address of a word, in the window. -/
theorem wordAddr_place (addr : Word) : wordAddr (place addr) = addr &&& WB_LOW := by
  have hmask : WB_LOW &&& 0xfffffffc = WB_LOW := by decide
  rw [wordAddr, place, BitVec.and_assoc, hmask]

variable {mask : Byte} {dev : Dev}

/-- `wb_write` writes the lanes of the mask in the word shown. -/
theorem wbWrite_eq (h : Settled true mask dev) {n s : Nat}
    (hmask : maskLanes mask = some (n, s)) (addr data : Word) :
    wbWrite dev addr data = { dev with
      window := storeBus true n (data >>> (8 * s))
        (wordAddr (place addr) + endianAddr true n s) dev.window } := by
  obtain ⟨n', s', hmask', hwidth, hshift, hlow⟩ := h
  cases Option.some.inj (hmask'.symm.trans hmask)
  obtain ⟨hn, -, -⟩ := maskLanes_spec hmask
  rw [wbWrite, wordAddr_place]
  simp only [hwidth, hshift, hlow]
  rcases hn with rfl | rfl | ⟨rfl, rfl⟩
  · rw [if_neg (by decide), if_neg (by decide), if_pos rfl]
  · rw [if_neg (by decide), if_pos rfl]
  · rw [if_pos rfl, Nat.mul_zero, BitVec.ushiftRight_zero]

/-- `wb_read` reads them. -/
theorem wbRead_eq (h : Settled true mask dev) {n s : Nat}
    (hmask : maskLanes mask = some (n, s)) (addr : Word) :
    wbRead dev addr =
      (loadBus true n (wordAddr (place addr) + endianAddr true n s) dev.window
        <<< (8 * s), dev) := by
  obtain ⟨n', s', hmask', hwidth, hshift, hlow⟩ := h
  cases Option.some.inj (hmask'.symm.trans hmask)
  obtain ⟨hn, -, -⟩ := maskLanes_spec hmask
  rw [wbRead, wordAddr_place]
  simp only [hwidth, hshift, hlow]
  rcases hn with rfl | rfl | ⟨rfl, rfl⟩
  · rw [if_neg (by decide), if_neg (by decide), if_pos rfl]
  · rw [if_neg (by decide), if_pos rfl]
  · rw [if_pos rfl, Nat.mul_zero, BitVec.shiftLeft_zero]

/-! ## The memory -/

/-- The card holds the words, on a little-endian machine, and the driver's copies are those
    of the mask. -/
structure Stands (dev : Dev) (b : WordBus) : Prop where
  settled : Settled true b.mem.mask dev
  words : ∀ addr, wordAt true dev.window (wordAddr addr) = b.mem.words (wordAddr addr)
  cfg : ∀ addr, (wbReadCfg dev addr).1 = b.cfg addr

/-- The lanes do not matter for the configuration space. -/
theorem Stands.cfg_of {b : WordBus} (h : Stands dev b) (dev' : Dev)
    (hsame : dev'.sdbAddr = dev.sdbAddr) (addr : Word) : (wbReadCfg dev' addr).1 = b.cfg addr := by
  rw [← h.cfg addr, wbReadCfg, wbReadCfg, hsame]
  simp only [apply_ite Prod.fst]

/-- **The SPEC back end is a memory of words** of which the address shows 256 KiB. -/
theorem spec_simulates :
    Simulates (wbOps true) (wordOps place) (Stands) where
  cycle := by
    intro dev b h on
    exact ⟨h.settled, h.words, h.cfg_of (wbCycle dev on) rfl⟩
  byteenable := by
    intro dev b h be
    show Stands (wbByteenable true dev be) _
    rw [wbByteenable_eq]
    cases hbe : maskLanes be with
    | none =>
        have hkept : nextMask b.mem.mask be = b.mem.mask := by rw [nextMask, hbe]; rfl
        refine ⟨?_, h.words, h.cfg⟩
        show Settled true (nextMask b.mem.mask be) dev
        rw [hkept]
        exact h.settled
    | some lanes =>
        obtain ⟨n, s⟩ := lanes
        have hnew : nextMask b.mem.mask be = be := by rw [nextMask, hbe]; rfl
        refine ⟨?_, h.words, h.cfg_of (setLanes true dev n s) rfl⟩
        show Settled true (nextMask b.mem.mask be) (setLanes true dev n s)
        rw [hnew]
        exact ⟨n, s, hbe, rfl, rfl, rfl⟩
  write := by
    intro dev b h addr data
    obtain ⟨n, s, hmask, hlanes⟩ := h.settled
    have hwrite := wbWrite_eq h.settled hmask addr data
    show Stands (wbWrite dev addr data) _
    rw [hwrite]
    refine ⟨⟨n, s, hmask, hlanes⟩, fun x => ?_, h.cfg_of _ rfl⟩
    show wordAt true (storeBus true n (data >>> (8 * s))
        (wordAddr (place addr) + endianAddr true n s) dev.window) (wordAddr x) =
      if wordAddr x = wordAddr (place addr) then merge b.mem.mask (b.mem.words (wordAddr x)) data
      else b.mem.words (wordAddr x)
    rw [← h.words x]
    exact wordAt_storeBus true hmask (four_dvd_wordAddr x) (four_dvd_wordAddr (place addr))
      data dev.window
  read := by
    intro dev b h addr
    obtain ⟨n, s, hmask, -⟩ := h.settled
    have hread := wbRead_eq h.settled hmask addr
    show (wbRead dev addr).1 = _ ∧ Stands (wbRead dev addr).2 b
    rw [hread]
    refine ⟨?_, h⟩
    show _ = merge b.mem.mask 0 (b.mem.words (wordAddr (place addr)))
    rw [← h.words (place addr)]
    exact loadBus_lanes true hmask _ _
  readCfg := by
    intro dev b h addr
    refine ⟨h.cfg addr, ?_⟩
    have hsame : (wbReadCfg dev addr).2 = dev := by
      rw [wbReadCfg]
      simp only [apply_ite Prod.snd, ite_self]
    show Stands (wbReadCfg dev addr).2 b
    rw [hsame]
    exact h

/-- The memory of a card. -/
def startBus (sdbAddr : Word) (window : Word → Byte) : WordBus :=
  ⟨PcieLanes.startMem true window, fun addr => (wbReadCfg (probed sdbAddr window) addr).1⟩

/-- A card that was probed stands for its words. -/
theorem stands_probed (sdbAddr : Word) (window : Word → Byte) :
    Stands (probed sdbAddr window) (startBus sdbAddr window) := by
  exact ⟨⟨4, 0, rfl, rfl, rfl, rfl⟩, fun _ => rfl, fun _ => rfl⟩

/-- **The master device over the SPEC back end is the master device over the words in the
    window**, on a little-endian machine and after any file operations: what differs from the
    bus behind the PCIe back end is the address alone. -/
theorem master_over_spec (sdbAddr : Word) (window : Word → Byte)
    (mem : EtherboneMasterContext) (calls : List MasterCall) :
    let run := (MasterRun.opened mem ⟨probed sdbAddr window, []⟩).exec (wbOps true) calls
    let ideal := (MasterRun.opened mem ⟨startBus sdbAddr window, []⟩).exec
      (wordOps place) calls
    run.ctx = ideal.ctx ∧ run.accepted = ideal.accepted ∧ run.returned = ideal.returned ∧
      run.bus.trace = ideal.bus.trace ∧
      ∀ addr, wordAt true run.bus.st.window (wordAddr addr) =
        ideal.bus.st.mem.words (wordAddr addr) := by
  intro run ideal
  obtain ⟨hctx, hacc, hret, hbus⟩ := sameRun spec_simulates mem
    (stands_probed sdbAddr window) calls
  exact ⟨hctx, hacc, hret, hbus.trace, hbus.st.words⟩

end SpecWb
