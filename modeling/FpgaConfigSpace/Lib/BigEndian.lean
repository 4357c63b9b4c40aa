import Mathlib.Data.List.Basic

/-! # Big-endian words

    Bytes, 32-bit words, and the network byte order that relates them: `wordOf`
    puts four bytes together, most significant first, and `byteOf w k` is the
    `k`-th of the four bytes of `w`.  The two are inverse, and so are their list
    forms `wordsOf` and `bytesOf`. -/

namespace BigEndian

/-- Eight bits. -/
abbrev Byte := BitVec 8

/-- Thirty-two bits. -/
abbrev Word := BitVec 32

/-- The word whose bytes are `a b c d`, most significant first. -/
def wordOf (a b c d : Byte) : Word := a ++ b ++ c ++ d

/-- Byte `k` of a word, counted from the most significant one. -/
def byteOf (w : Word) (k : Nat) : Byte := w.extractLsb' (24 - 8 * k) 8

/-- The four bytes of a word. -/
def bytesOf (w : Word) : List Byte := [byteOf w 0, byteOf w 1, byteOf w 2, byteOf w 3]

/-- The words of a byte string; up to three bytes at its end are dropped. -/
def wordsOf : List Byte → List Word
  | a :: b :: c :: d :: rest => wordOf a b c d :: wordsOf rest
  | _ => []

/-- A word is made of its bytes. -/
@[simp] theorem wordOf_byteOf (w : Word) :
    wordOf (byteOf w 0) (byteOf w 1) (byteOf w 2) (byteOf w 3) = w := by
  apply BitVec.eq_of_getLsbD_eq
  intro i hi
  simp only [wordOf, byteOf, BitVec.getLsbD_append, BitVec.getLsbD_extractLsb']
  by_cases h1 : i < 8
  · simp [h1]
  · by_cases h2 : i < 16
    · simp [h1, show i - 8 < 8 by omega, show 8 + (i - 8) = i by omega]
    · by_cases h3 : i < 24
      · simp [h1, show ¬ i - 8 < 8 by omega, show i - 8 - 8 < 8 by omega,
          show 16 + (i - 8 - 8) = i by omega]
      · simp [h1, show ¬ i - 8 < 8 by omega, show ¬ i - 8 - 8 < 8 by omega,
          show i - 8 - 8 - 8 < 8 by omega, show 24 + (i - 8 - 8 - 8) = i by omega]

/-- The first byte of a word. -/
@[simp] theorem byteOf_wordOf_zero (a b c d : Byte) : byteOf (wordOf a b c d) 0 = a := by
  apply BitVec.eq_of_getLsbD_eq
  intro i hi
  simp only [wordOf, byteOf, BitVec.getLsbD_append, BitVec.getLsbD_extractLsb']
  simp [hi, show ¬ 24 + i < 8 by omega, show ¬ 24 + i - 8 < 8 by omega,
    show ¬ 24 + i - 8 - 8 < 8 by omega, show 24 + i - 8 - 8 - 8 = i by omega]

/-- The second one. -/
@[simp] theorem byteOf_wordOf_one (a b c d : Byte) : byteOf (wordOf a b c d) 1 = b := by
  apply BitVec.eq_of_getLsbD_eq
  intro i hi
  simp only [wordOf, byteOf, BitVec.getLsbD_append, BitVec.getLsbD_extractLsb']
  simp [hi, show ¬ 16 + i < 8 by omega, show ¬ 16 + i - 8 < 8 by omega,
    show 16 + i - 8 - 8 = i by omega]

/-- The third one. -/
@[simp] theorem byteOf_wordOf_two (a b c d : Byte) : byteOf (wordOf a b c d) 2 = c := by
  apply BitVec.eq_of_getLsbD_eq
  intro i hi
  simp only [wordOf, byteOf, BitVec.getLsbD_append, BitVec.getLsbD_extractLsb']
  simp [hi, show ¬ 8 + i < 8 by omega]

/-- The fourth one. -/
@[simp] theorem byteOf_wordOf_three (a b c d : Byte) : byteOf (wordOf a b c d) 3 = d := by
  apply BitVec.eq_of_getLsbD_eq
  intro i hi
  simp only [wordOf, byteOf, BitVec.getLsbD_append, BitVec.getLsbD_extractLsb']
  simp [hi]

@[simp] theorem bytesOf_length (w : Word) : (bytesOf w).length = 4 := rfl

/-- The bytes of a word that is made of bytes. -/
theorem bytesOf_wordOf (a b c d : Byte) : bytesOf (wordOf a b c d) = [a, b, c, d] := by
  simp [bytesOf]

/-- Decoding the bytes of a word in front of a string. -/
@[simp] theorem wordsOf_bytesOf_append (w : Word) (rest : List Byte) :
    wordsOf (bytesOf w ++ rest) = w :: wordsOf rest := by
  simp [bytesOf, wordsOf]

/-- Decoding is the left inverse of encoding. -/
@[simp] theorem wordsOf_flatMap (ws : List Word) : wordsOf (ws.flatMap bytesOf) = ws := by
  induction ws with
  | nil => rfl
  | cons w ws ih => rw [List.flatMap_cons, wordsOf_bytesOf_append, ih]

/-- Words have four bytes each. -/
@[simp] theorem length_flatMap_bytesOf (ws : List Word) :
    (ws.flatMap bytesOf).length = 4 * ws.length := by
  induction ws with
  | nil => rfl
  | cons w ws ih =>
      rw [List.flatMap_cons, List.length_append, ih, bytesOf_length, List.length_cons]
      omega

end BigEndian
