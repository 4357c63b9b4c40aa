import FpgaConfigSpace.PcieWb

/-! # The PCIe back end as a memory of words

    What the operations of `pcie_wb.c` are for, without window, width and shift: a
    memory of 32-bit words, and the mask of byte lanes that was last given.  A write
    changes these lanes of a word, a read returns them.  The driver does the same in
    either byte order, after any sequence of calls. -/

namespace PcieLanes

open BigEndian Lanes WbWishbone PcieWb

/-! ## The memory -/

/-- The lanes of a mask from one word, the others from another. -/
def merge (mask : Byte) (old new : Word) : Word :=
  ofLanes fun k => if mask.getLsbD k then laneOf new k else laneOf old k

/-- Words at addresses that are multiples of four, and the mask in force. -/
structure WordMem where
  mask : Byte
  words : Word → Word

/-- The word an address lies in. -/
def wordAddr (addr : Word) : Word := addr &&& 0xfffffffc

/-- A call of the back end, by a master. -/
inductive Call where
  | cycle (on : Bool)
  | byteenable (be : Byte)
  | write (addr data : Word)
  | read (addr : Word)

/-- One call on the memory, and what it returns. -/
def WordMem.call (m : WordMem) : Call → WordMem × Option Word
  | .cycle _ => (m, none)
  | .byteenable be => ({ m with mask := nextMask m.mask be }, none)
  | .write addr data =>
      ({ m with words := fun x =>
          if x = wordAddr addr then merge m.mask (m.words x) data else m.words x }, none)
  | .read addr => (m, some (merge m.mask 0 (m.words (wordAddr addr))))

/-- One call of the driver, and what it returns. -/
def devCall (littleEndian : Bool) (dev : Dev) : Call → Dev × Option Word
  | .cycle on => ((wbOps littleEndian).cycle dev on, none)
  | .byteenable be => ((wbOps littleEndian).byteenable dev be, none)
  | .write addr data => ((wbOps littleEndian).write dev addr data, none)
  | .read addr =>
      let r := (wbOps littleEndian).read dev addr
      (r.2, some r.1)

/-- A sequence of calls: the state at the end, and what each call returned. -/
def run {S : Type} (call : S → Call → S × Option Word) : S → List Call → S × List (Option Word)
  | s, [] => (s, [])
  | s, c :: cs =>
      let r := call s c
      let rest := run call r.1 cs
      (rest.1, r.2 :: rest.2)

/-- The word at an address, in the byte order of the host. -/
def wordAt (littleEndian : Bool) (bus : Word → Byte) (addr : Word) : Word :=
  loadBus littleEndian 4 addr bus

/-! ## Bytes and lanes -/

/-- The address of a word is the multiple of four below. -/
theorem wordAddr_toNat (addr : Word) : (wordAddr addr).toNat = addr.toNat / 4 * 4 := and_not_three addr

/-- Lane `k` of the word at `addr` is `hostLane 4 k` bytes behind it; seen from the
    first byte of `n` lanes from `s` on it is lane `k - s` of them. -/
theorem lane_addr (littleEndian : Bool) (addr : Word) {n s k : Nat} (hfit : s + n ≤ 4)
    (hlo : s ≤ k) (hhi : k < s + n) :
    addr + endianAddr littleEndian n s + BitVec.ofNat 32 (hostLane littleEndian n (k - s)) =
      addr + BitVec.ofNat 32 (hostLane littleEndian 4 k) := by
  rw [BitVec.add_assoc, endianAddr, ← BitVec.ofNat_add]
  refine congrArg (fun j => addr + BitVec.ofNat 32 j) ?_
  cases littleEndian with
  | true =>
      show s + (k - s) = k
      omega
  | false =>
      show 4 - n - s + (n - 1 - (k - s)) = 4 - 1 - k
      omega

/-- A lane of what is read from the bus. -/
theorem laneOf_loadBus (littleEndian : Bool) (n : Nat) (addr : Word) (bus : Word → Byte) {k : Nat}
    (hk : k < 4) :
    laneOf (loadBus littleEndian n addr bus) k =
      if k < n then bus (addr + BitVec.ofNat 32 (hostLane littleEndian n k)) else 0 :=
  laneOf_ofLanes _ hk

/-- The lanes of a mask, read and shifted into their place. -/
theorem loadBus_lanes (littleEndian : Bool) {mask : Byte} {n s : Nat}
    (hmask : maskLanes mask = some (n, s)) (addr : Word) (bus : Word → Byte) :
    loadBus littleEndian n (addr + endianAddr littleEndian n s) bus <<< (8 * s) =
      merge mask 0 (wordAt littleEndian bus addr) := by
  obtain ⟨-, hfit, hbits⟩ := maskLanes_spec hmask
  apply lane_ext
  intro k hk
  rw [laneOf_shiftLeft _ _ hk, merge, laneOf_ofLanes _ hk, wordAt]
  by_cases hlo : k < s
  · rw [if_pos hlo, if_neg fun hbit => by have := (hbits k hk).mp hbit; omega,
      laneOf_zero]
  · rw [if_neg hlo, laneOf_loadBus _ _ _ _ (by omega), laneOf_loadBus _ _ _ _ hk]
    by_cases hhi : k < s + n
    · rw [if_pos (by omega), if_pos ((hbits k hk).mpr ⟨by omega, hhi⟩), if_pos hk,
        lane_addr littleEndian addr hfit (by omega) hhi]
    · rw [if_neg (by omega), if_neg fun hbit => hhi ((hbits k hk).mp hbit).2, laneOf_zero]

/-- A byte of an aligned word lies among the lanes written exactly if the word is
    the one addressed and the lane is one of the mask. -/
theorem lane_offset (littleEndian : Bool) {x addr : Word} {n s k : Nat} (hfit : s + n ≤ 4)
    (hk : k < 4) (hx : 4 ∣ x.toNat) (haddr : 4 ∣ addr.toNat) :
    ((x + BitVec.ofNat 32 (hostLane littleEndian 4 k) -
        (addr + endianAddr littleEndian n s)).toNat < n ↔ x = addr ∧ s ≤ k ∧ k < s + n) ∧
    (x = addr → s ≤ k → k < s + n →
      hostLane littleEndian n (x + BitVec.ofNat 32 (hostLane littleEndian 4 k) -
        (addr + endianAddr littleEndian n s)).toNat + s = k) := by
  have hxlt := x.isLt
  have halt := addr.isLt
  have heq : x = addr ↔ x.toNat = addr.toNat := BitVec.toNat_eq
  rw [heq, BitVec.toNat_sub, BitVec.toNat_add, BitVec.toNat_add, endianAddr, BitVec.toNat_ofNat,
    BitVec.toNat_ofNat]
  cases littleEndian with
  | true =>
      simp only [hostLane, if_true]
      constructor
      · omega
      · intro h h1 h2
        omega
  | false =>
      simp only [hostLane, Bool.false_eq_true, if_false]
      constructor
      · omega
      · intro h h1 h2
        omega

/-- Writing the lanes of a mask changes these lanes of the word, and no other word. -/
theorem wordAt_storeBus (littleEndian : Bool) {mask : Byte} {n s : Nat}
    (hmask : maskLanes mask = some (n, s)) {x addr : Word} (hx : 4 ∣ x.toNat)
    (haddr : 4 ∣ addr.toNat) (data : Word) (bus : Word → Byte) :
    wordAt littleEndian (storeBus littleEndian n (data >>> (8 * s))
        (addr + endianAddr littleEndian n s) bus) x =
      if x = addr then merge mask (wordAt littleEndian bus x) data
      else wordAt littleEndian bus x := by
  obtain ⟨-, hfit, hbits⟩ := maskLanes_spec hmask
  apply lane_ext
  intro k hk
  obtain ⟨hiff, hlane⟩ := lane_offset littleEndian (n := n) (s := s) hfit hk hx haddr
  rw [wordAt, laneOf_loadBus _ _ _ _ hk, if_pos hk, storeBus]
  have hold : laneOf (wordAt littleEndian bus x) k =
      bus (x + BitVec.ofNat 32 (hostLane littleEndian 4 k)) := by
    rw [wordAt, laneOf_loadBus _ _ _ _ hk, if_pos hk]
  by_cases heq : x = addr
  · rw [if_pos heq, merge, laneOf_ofLanes _ hk]
    by_cases hbit : mask.getLsbD k = true
    · obtain ⟨hlo, hhi⟩ := (hbits k hk).mp hbit
      rw [if_pos hbit, if_pos (hiff.mpr ⟨heq, hlo, hhi⟩), laneOf_ushiftRight, hlane heq hlo hhi]
    · rw [if_neg hbit, if_neg fun hlt => hbit ((hbits k hk).mpr (hiff.mp hlt).2), hold]
  · rw [if_neg heq, if_neg fun hlt => heq (hiff.mp hlt).1, hold]

/-! ## The driver refines the memory -/

/-- The device holds the words of the memory, and the driver's copies are those of
    its mask and of the window register. -/
structure Represents (littleEndian : Bool) (dev : Dev) (m : WordMem) : Prop where
  settled : Settled littleEndian m.mask dev
  words : ∀ addr, wordAt littleEndian dev.bus (wordAddr addr) = m.words (wordAddr addr)

variable {littleEndian : Bool} {dev : Dev} {m : WordMem}

theorem four_dvd_wordAddr (addr : Word) : 4 ∣ (wordAddr addr).toNat := by
  rw [wordAddr_toNat]
  exact Nat.dvd_mul_left 4 _

/-- **One call.**  The driver returns what the memory returns, and stays in step. -/
theorem Represents.call (h : Represents littleEndian dev m) (c : Call) :
    Represents littleEndian (devCall littleEndian dev c).1 (m.call c).1 ∧
      (devCall littleEndian dev c).2 = (m.call c).2 := by
  cases c with
  | cycle on => exact ⟨⟨settled_wbCycle h.settled on, h.words⟩, rfl⟩
  | byteenable be =>
      refine ⟨⟨settled_wbByteenable h.settled be, ?_⟩, rfl⟩
      have hbus : (wbByteenable littleEndian dev be).bus = dev.bus := by
        rw [wbByteenable_eq]
        cases maskLanes be <;> rfl
      intro addr
      show wordAt littleEndian (wbByteenable littleEndian dev be).bus (wordAddr addr) = _
      rw [hbus]
      exact h.words addr
  | write addr data =>
      obtain ⟨n, s, hmask, -⟩ := h.settled.lanes
      refine ⟨⟨settled_wbWrite h.settled addr data, ?_⟩, rfl⟩
      intro x
      show wordAt littleEndian (wbWrite littleEndian dev addr data).bus (wordAddr x) =
        if wordAddr x = wordAddr addr then merge m.mask (m.words (wordAddr x)) data
        else m.words (wordAddr x)
      rw [wbWrite_eq h.settled hmask, ← h.words x]
      exact wordAt_storeBus littleEndian hmask (four_dvd_wordAddr x) (four_dvd_wordAddr addr) data
        dev.bus
  | read addr =>
      obtain ⟨n, s, hmask, -⟩ := h.settled.lanes
      have hread := wbRead_eq h.settled hmask addr
      obtain ⟨-, -, hbus, -⟩ := settled_moveWindow h.settled addr
      refine ⟨⟨settled_wbRead h.settled addr, ?_⟩, ?_⟩
      · intro x
        show wordAt littleEndian (wbRead littleEndian dev addr).2.bus (wordAddr x) = _
        rw [hread]
        show wordAt littleEndian (moveWindow dev addr).bus (wordAddr x) = _
        rw [hbus]
        exact h.words x
      · show some (wbRead littleEndian dev addr).1 = some (merge m.mask 0 (m.words (wordAddr addr)))
        rw [hread, ← h.words addr]
        exact congrArg some (loadBus_lanes littleEndian hmask _ _)

/-- **A run of calls returns the same, and leaves the same words.** -/
theorem Represents.run (h : Represents littleEndian dev m) (calls : List Call) :
    Represents littleEndian (run (devCall littleEndian) dev calls).1 (run WordMem.call m calls).1 ∧
      (run (devCall littleEndian) dev calls).2 = (run WordMem.call m calls).2 := by
  induction calls generalizing dev m with
  | nil => exact ⟨h, rfl⟩
  | cons c cs ih =>
      obtain ⟨hcall, hret⟩ := h.call c
      obtain ⟨hrest, hrets⟩ := ih hcall
      refine ⟨hrest, ?_⟩
      show _ :: _ = _ :: _
      rw [hret, hrets]

/-- The memory a card starts with: its words as they are, and all lanes. -/
def startMem (littleEndian : Bool) (bus : Word → Byte) : WordMem where
  mask := 0xF
  words := wordAt littleEndian bus

/-- **The PCIe back end is the memory of words**, in either byte order, after any
    sequence of calls: each call returns what the memory returns, the words are
    those of the memory, and the cached window is the register. -/
theorem pcie_refines_words (littleEndian : Bool) (control : Word → Word) (bus : Word → Byte)
    (msi : Bool) (calls : List Call) :
    let s := run (devCall littleEndian) (probed control bus msi) calls
    let m := run WordMem.call (startMem littleEndian bus) calls
    s.2 = m.2 ∧
    (∀ addr, wordAt littleEndian s.1.bus (wordAddr addr) = m.1.words (wordAddr addr)) ∧
    s.1.windowOffset = s.1.control WINDOW_OFFSET_LOW := by
  intro s m
  have hstart : Represents littleEndian (probed control bus msi) (startMem littleEndian bus) :=
    ⟨settled_probed littleEndian control bus msi, fun _ => rfl⟩
  obtain ⟨hrep, hret⟩ := hstart.run calls
  exact ⟨hret, hrep.words, hrep.settled.window⟩

end PcieLanes
