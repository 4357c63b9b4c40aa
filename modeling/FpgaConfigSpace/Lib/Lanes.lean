import FpgaConfigSpace.Lib.BigEndian

/-! # Byte lanes

    A word as four lanes, lane 0 the least significant byte, and what shifts do to
    the lanes.  At the end, addresses that are taken apart by two masks. -/

namespace Lanes

open BigEndian

/-- Lane `k` of a word. -/
def laneOf (w : Word) (k : Nat) : Byte := w.extractLsb' (8 * k) 8

/-- The word with these lanes. -/
def ofLanes (f : Nat → Byte) : Word := wordOf (f 3) (f 2) (f 1) (f 0)

/-- Bit `i` of a lane. -/
theorem laneOf_getLsbD (w : Word) (k i : Nat) :
    (laneOf w k).getLsbD i = (decide (i < 8) && w.getLsbD (8 * k + i)) := by
  rw [laneOf, BitVec.getLsbD_extractLsb']

/-- A word has the lanes it is made of. -/
theorem laneOf_ofLanes (f : Nat → Byte) {k : Nat} (hk : k < 4) : laneOf (ofLanes f) k = f k := by
  match k, hk with
  | 0, _ => exact byteOf_wordOf_three _ _ _ _
  | 1, _ => exact byteOf_wordOf_two _ _ _ _
  | 2, _ => exact byteOf_wordOf_one _ _ _ _
  | 3, _ => exact byteOf_wordOf_zero _ _ _ _

/-- A word is made up of its lanes. -/
theorem ofLanes_laneOf (w : Word) : ofLanes (laneOf w) = w := wordOf_byteOf w

/-- A word is determined by its four lanes. -/
theorem ofLanes_congr {f g : Nat → Byte} (h : ∀ k, k < 4 → f k = g k) : ofLanes f = ofLanes g := by
  rw [ofLanes, ofLanes, h 0 (by decide), h 1 (by decide), h 2 (by decide), h 3 (by decide)]

/-- Words with the same lanes are the same. -/
theorem lane_ext {v w : Word} (h : ∀ k, k < 4 → laneOf v k = laneOf w k) : v = w := by
  rw [← ofLanes_laneOf v, ← ofLanes_laneOf w]
  exact ofLanes_congr h

@[simp] theorem laneOf_zero (k : Nat) : laneOf 0 k = 0 := by
  apply BitVec.eq_of_getLsbD_eq
  intro i hi
  rw [laneOf_getLsbD]
  simp

/-- A shift to the right by whole lanes. -/
theorem laneOf_ushiftRight (w : Word) (s k : Nat) : laneOf (w >>> (8 * s)) k = laneOf w (k + s) := by
  apply BitVec.eq_of_getLsbD_eq
  intro i hi
  rw [laneOf_getLsbD, laneOf_getLsbD, BitVec.getLsbD_ushiftRight,
    show 8 * s + (8 * k + i) = 8 * (k + s) + i by omega]

/-- A shift to the left by whole lanes. -/
theorem laneOf_shiftLeft (w : Word) (s : Nat) {k : Nat} (hk : k < 4) :
    laneOf (w <<< (8 * s)) k = if k < s then 0 else laneOf w (k - s) := by
  apply BitVec.eq_of_getLsbD_eq
  intro i hi
  rw [laneOf_getLsbD, BitVec.getLsbD_shiftLeft]
  by_cases hs : k < s
  · rw [if_pos hs, decide_eq_true (show 8 * k + i < 8 * s by omega)]
    simp
  · rw [if_neg hs, laneOf_getLsbD, decide_eq_false (show ¬ 8 * k + i < 8 * s by omega),
      show 8 * k + i - 8 * s = 8 * (k - s) + i by omega,
      decide_eq_true (show 8 * k + i < 32 by omega)]
    rfl

/-! ## Masks -/

/-- Two masks without a common bit take an address apart. -/
theorem and_add_and (x h l : Word) (hd : h &&& l = 0#32) : (x &&& h) + (x &&& l) = x &&& (h ||| l) := by
  have hand : (x &&& h) &&& (x &&& l) = 0#32 := by
    calc (x &&& h) &&& (x &&& l)
        = x &&& ((h &&& x) &&& l) := by rw [BitVec.and_assoc, BitVec.and_assoc]
      _ = x &&& (x &&& (h &&& l)) := by rw [BitVec.and_comm h x, BitVec.and_assoc]
      _ = 0#32 := by rw [hd, BitVec.and_zero, BitVec.and_zero]
  rw [BitVec.add_eq_or_of_and_eq_zero _ _ hand, ← BitVec.and_or_distrib_left]

/-- Clearing the two low bits rounds down to a multiple of four. -/
theorem and_not_three (x : Word) : (x &&& 0xfffffffc).toNat = x.toNat / 4 * 4 := by
  have hlow : (x &&& 0xfffffffc) + (x &&& 3) = x := by
    rw [and_add_and x 0xfffffffc 3 (by decide)]
    exact BitVec.and_allOnes
  have hthree : (x &&& 3).toNat = x.toNat % 4 := by
    rw [BitVec.toNat_and]
    exact Nat.and_two_pow_sub_one_eq_mod x.toNat 2
  have hsum := congrArg BitVec.toNat hlow
  have hle : (x &&& 0xfffffffc).toNat ≤ x.toNat := by
    rw [BitVec.toNat_and]
    exact Nat.and_le_left
  rw [BitVec.toNat_add, hthree] at hsum
  have := x.isLt
  omega

end Lanes
