import FpgaConfigSpace.Lib.BigEndian

/-! # User buffers

    A system call of the character devices gets its buffer as a vector of
    segments, `struct iovec`.  A segment is the list of the bytes it spans.  The
    copy routines walk the segments exactly as the compatibility versions in
    `wishbone.c` do; the theorems say that the walk is a copy from, or into, the
    concatenation of the segments.

    Segment lengths are natural numbers here: the 32-bit `min_t` of the copy loop
    is exact for segments below 4 GiB.  The truncation of the total length by the
    callers is kept, in `u32`. -/

namespace WbIovec

open BigEndian

/-- Conversion to `unsigned int`. -/
def u32 (x : Nat) : Nat := x % 0x100000000

/-- `unsigned int` subtraction. -/
def subU32 (a b : Nat) : Nat := (a + (0x100000000 - b % 0x100000000)) % 0x100000000

theorem subU32_of_le {a b : Nat} (h : b ≤ a) (ha : a < 0x100000000) : subU32 a b = a - b := by
  unfold subU32
  omega

theorem u32_of_lt {x : Nat} (h : x < 0x100000000) : u32 x = x := Nat.mod_eq_of_lt h

theorem u32_le (x : Nat) : u32 x ≤ x := Nat.mod_le x _

theorem u32_lt (x : Nat) : u32 x < 0x100000000 := Nat.mod_lt x (by decide)

/-- The segments of a user buffer. -/
abbrev Iovec := List (List Byte)

/-- `iov_length`: the bytes spanned by all segments. -/
def iovLength : Iovec → Nat
  | [] => 0
  | seg :: iov => seg.length + iovLength iov

/-- The length of the segments is that of their bytes. -/
theorem iovLength_eq (iov : Iovec) : iovLength iov = iov.flatten.length := by
  induction iov with
  | nil => rfl
  | cons seg iov ih => rw [iovLength, List.flatten_cons, List.length_append, ih]

/-- `memcpy_fromiovecend`: skip `offset` bytes, then gather `len` bytes. -/
def memcpyFromiovecend : Iovec → Nat → Nat → List Byte
  | [], _, _ => []
  | seg :: iov, offset, len =>
      if offset ≥ seg.length then memcpyFromiovecend iov (offset - seg.length) len
      else
        let copy := min len (seg.length - offset)
        (seg.drop offset).take copy ++ memcpyFromiovecend iov 0 (len - copy)

/-- `memcpy_toiovecend`: skip `offset` bytes, then scatter `kdata`. -/
def memcpyToiovecend : Iovec → List Byte → Nat → Iovec
  | [], _, _ => []
  | seg :: iov, kdata, offset =>
      if kdata = [] then seg :: iov
      else if offset ≥ seg.length then
        seg :: memcpyToiovecend iov kdata (offset - seg.length)
      else
        let copy := min (seg.length - offset) kdata.length
        (seg.take offset ++ kdata.take copy ++ seg.drop (offset + copy)) ::
          memcpyToiovecend iov (kdata.drop copy) 0

/-- **Gathering reads the concatenation of the segments.** -/
theorem memcpyFromiovecend_eq (iov : Iovec) (offset len : Nat) :
    memcpyFromiovecend iov offset len = (iov.flatten.drop offset).take len := by
  induction iov generalizing offset len with
  | nil => simp [memcpyFromiovecend]
  | cons seg iov ih =>
      rw [memcpyFromiovecend, List.flatten_cons]
      by_cases hskip : offset ≥ seg.length
      · rw [if_pos hskip, ih, List.drop_append, List.drop_eq_nil_of_le hskip, List.nil_append]
      · rw [if_neg hskip]
        dsimp only
        rw [ih, List.drop_zero, List.drop_append_of_le_length (by omega),
          List.take_append, List.length_drop]
        congr 1
        · rw [Nat.min_def]
          by_cases hlen : len ≤ seg.length - offset
          · rw [if_pos hlen]
          · rw [if_neg hlen, List.take_of_length_le (by simp),
              List.take_of_length_le (by rw [List.length_drop]; omega)]
        · congr 1
          omega

/-- Overwriting part of a list. -/
def splice (xs ys : List Byte) (offset : Nat) : List Byte :=
  xs.take offset ++ ys ++ xs.drop (offset + ys.length)

/-- Bytes are replaced, not added. -/
theorem splice_length {xs ys : List Byte} {offset : Nat} (h : offset + ys.length ≤ xs.length) :
    (splice xs ys offset).length = xs.length := by
  simp only [splice, List.length_append, List.length_take, List.length_drop]
  omega

/-- **Scattering overwrites the concatenation of the segments.** -/
theorem memcpyToiovecend_flatten (iov : Iovec) (kdata : List Byte) (offset : Nat)
    (h : offset + kdata.length ≤ iov.flatten.length) :
    (memcpyToiovecend iov kdata offset).flatten = splice iov.flatten kdata offset := by
  induction iov generalizing kdata offset with
  | nil =>
      obtain rfl : kdata = [] := by
        rw [List.flatten_nil, List.length_nil] at h
        exact List.length_eq_zero_iff.mp (by omega)
      simp [memcpyToiovecend, splice]
  | cons seg iov ih =>
      rw [List.flatten_cons, List.length_append] at h
      rw [memcpyToiovecend, List.flatten_cons]
      by_cases hk : kdata = []
      · rw [if_pos hk, hk, List.flatten_cons]
        simp [splice]
      rw [if_neg hk]
      by_cases hskip : offset ≥ seg.length
      · rw [if_pos hskip, List.flatten_cons, ih kdata _ (by omega)]
        simp only [splice]
        rw [List.take_append, List.take_of_length_le hskip, List.drop_append,
          List.drop_eq_nil_of_le (show seg.length ≤ offset + kdata.length by omega),
          List.nil_append,
          show offset - seg.length + kdata.length = offset + kdata.length - seg.length by omega]
        simp only [List.append_assoc]
      · rw [if_neg hskip]
        simp only
        have hcopy : min (seg.length - offset) kdata.length ≤ kdata.length := Nat.min_le_right _ _
        rw [List.flatten_cons, ih _ _ (by rw [List.length_drop]; omega)]
        simp only [splice, List.take_zero, List.nil_append, List.length_drop, Nat.zero_add]
        rw [List.take_append_of_le_length (by omega)]
        by_cases hfit : kdata.length ≤ seg.length - offset
        · -- the data ends inside this segment
          rw [Nat.min_eq_right hfit, List.take_length, List.drop_length, Nat.sub_self,
            List.drop_zero, List.drop_append_of_le_length (by omega)]
          simp
        · -- the segment is filled and the copy goes on in the next one
          rw [Nat.min_eq_left (by omega), List.drop_append,
            List.drop_eq_nil_of_le (show seg.length ≤ offset + (seg.length - offset) by omega),
            List.drop_eq_nil_of_le (show seg.length ≤ offset + kdata.length by omega)]
          simp only [List.append_nil, List.nil_append, List.append_assoc]
          rw [← List.append_assoc (kdata.take _), List.take_append_drop,
            show kdata.length - (seg.length - offset) = offset + kdata.length - seg.length by omega]

/-- What was scattered to the start of the buffer is found there. -/
theorem take_memcpyToiovecend (iov : Iovec) (a : List Byte)
    (h : a.length ≤ iov.flatten.length) :
    (memcpyToiovecend iov a 0).flatten.take a.length = a := by
  rw [memcpyToiovecend_flatten iov a 0 (by omega), splice, List.take_zero, List.nil_append,
    List.take_append_of_le_length (Nat.le_refl _), List.take_length]

/-- The same for two copies, the second going on where the first stopped. -/
theorem take_memcpyToiovecend_two (iov : Iovec) (a b : List Byte)
    (h : a.length + b.length ≤ iov.flatten.length) :
    (memcpyToiovecend (memcpyToiovecend iov a 0) b a.length).flatten.take
      (a.length + b.length) = a ++ b := by
  have h1 := memcpyToiovecend_flatten iov a 0 (by omega)
  have hlen := congrArg List.length h1
  rw [splice_length (by omega)] at hlen
  have htake := take_memcpyToiovecend iov a (by omega)
  rw [memcpyToiovecend_flatten _ b a.length (by omega), splice, htake,
    List.take_append_of_le_length (Nat.le_of_eq List.length_append.symm),
    List.take_of_length_le (Nat.le_of_eq List.length_append)]

end WbIovec
