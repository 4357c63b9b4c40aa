import Mathlib.Data.List.Induction
import FpgaConfigSpace.GensdbfsText

/-! # The numbers of a configuration file

    A vendor and a device are scanned as unsigned decimals first, and as hexadecimals if that
    gives zero, which it does in front of an "x".  The doc has octal numbers as well; their
    digits are read as decimal ones. -/

namespace GensdbfsLiteral

open BigEndian SdbRecord SdbFields SdbfsOpen Gensdbfs GensdbfsText

/-! ## Literals -/

/-- A digit of a base. -/
def IsDigit (base : Nat) (c : Byte) : Prop := ∃ d, digitValue c = some d ∧ d < base

instance (base : Nat) (c : Byte) : Decidable (IsDigit base c) :=
  decidable_of_iff ((digitValue c).any (fun d => decide (d < base)) = true) (by
    rw [Option.any_eq_true]
    simp only [decide_eq_true_eq, IsDigit])

/-- The value of a digit. -/
def valueOf (c : Byte) : Nat := (digitValue c).getD 0

/-- What digits denote in a base. -/
def numberOf (base : Nat) (t : List Byte) : Nat := t.foldl (fun n c => n * base + valueOf c) 0

/-- The literals of C: decimal, octal behind a "0", or hexadecimal behind "0x" or "0X". -/
inductive Literal where
  | decimal (c : Byte) (t : List Byte) (digits : ∀ d ∈ c :: t, IsDigit 10 d) (nonzero : c ≠ 0x30)
  | octal (t : List Byte) (digits : ∀ d ∈ t, IsDigit 8 d)
  | hexadecimal (x : Byte) (t : List Byte) (ex : x = 0x78 ∨ x = 0x58)
      (digits : ∀ d ∈ t, IsDigit 16 d) (nonempty : t ≠ [])

/-- How a literal is written. -/
def Literal.text : Literal → List Byte
  | .decimal c t _ _ => c :: t
  | .octal t _ => 0x30 :: t
  | .hexadecimal x t _ _ _ => 0x30 :: x :: t

/-- The number it stands for. -/
def Literal.number : Literal → Nat
  | .decimal c t _ _ => numberOf 10 (c :: t)
  | .octal t _ => numberOf 8 t
  | .hexadecimal _ t _ _ _ => numberOf 16 t

/-- It begins with a zero, and is not hexadecimal. -/
def Literal.IsOctal : Literal → Prop
  | .octal _ _ => True
  | _ => False

/-- The line for a word and a literal, with white space around the equals sign. -/
def lineOf (word : String) (before after : List Byte) (lit : Literal) : List Byte :=
  (word.toList.map fun c => BitVec.ofNat 8 c.toNat) ++ (before ++ 0x3d :: (after ++ lit.text))

/-- A line stores a number as the vendor of every entry, in big-endian order. -/
def StoresVendor (t : List Byte) (n : Nat) : Prop := ∀ (level : Nat) (f : Sdbf),
  (be64 (applyDirective level f (parseConfigLine t)).record vendorOffset).toNat = n

/-- With this text, the device number that is stored is `n`, whatever it was. -/
def StoresDevice (t : List Byte) (n : Nat) : Prop := ∀ (level : Nat) (f : Sdbf),
  (be32 (applyDirective level f (parseConfigLine t)).record deviceOffset).toNat = n

/-! ## Digits -/

theorem IsDigit.mono {a b : Nat} (hab : a ≤ b) {c : Byte} (h : IsDigit a c) : IsDigit b c := by
  obtain ⟨d, hd, hlt⟩ := h
  exact ⟨d, hd, Nat.lt_of_lt_of_le hlt hab⟩

/-- A digit has its value in every base that has it. -/
theorem digitValue_eq {base : Nat} {c : Byte} (h : IsDigit base c) :
    digitValue c = some (valueOf c) := by
  obtain ⟨d, hd, -⟩ := h
  rw [valueOf, hd]
  rfl

/-- It is below the base. -/
theorem valueOf_lt {base : Nat} {c : Byte} (h : IsDigit base c) : valueOf c < base := by
  obtain ⟨d, hd, hlt⟩ := h
  rw [valueOf, hd]
  exact hlt

/-- No digit is a sign, white space, or the "x" of a prefix. -/
theorem digit_plain {base : Nat} {c : Byte} (h : IsDigit base c) :
    isspace c = false ∧ c ≠ 0x2d ∧ c ≠ 0x2b ∧ c ≠ 0x78 ∧ c ≠ 0x58 := by
  have hall : ∀ c : Byte, digitValue c ≠ none →
      isspace c = false ∧ c ≠ 0x2d ∧ c ≠ 0x2b ∧ c ≠ 0x78 ∧ c ≠ 0x58 := by decide +kernel
  refine hall c ?_
  rw [digitValue_eq h]
  exact Option.some_ne_none _

/-- All digits of a text are read. -/
theorem digits_all {base : Nat} {t : List Byte} (h : ∀ c ∈ t, IsDigit base c) :
    digits base t = t.map valueOf := by
  induction t with
  | nil => rfl
  | cons c t ih =>
      have hc := h c List.mem_cons_self
      rw [digits, digitValue_eq hc, List.map_cons, ← ih fun d hd => h d (List.mem_cons_of_mem c hd)]
      exact if_pos (valueOf_lt hc)

/-- Digits up to the end are scanned as the number they denote. -/
theorem scanNumber_all {base : Nat} {t : List Byte} (h : ∀ c ∈ t, IsDigit base c) (hne : t ≠ []) :
    scanNumber base t = some (numberOf base t) := by
  rw [scanNumber, digits_all h, if_neg (fun hnil => hne (List.map_eq_nil_iff.mp hnil)),
    List.foldl_map]
  rfl

/-! ## Octal digits, read as decimal ones -/

/-- What octal digits denote in base 10 is more, by this. -/
def excess (n : Nat) : Nat := if n = 0 then 0 else 10 * excess (n / 8) + 2 * (n / 8)
termination_by n
decreasing_by omega

/-- How much more the digits of an octal number are worth to the base 10. -/
theorem excess_eq (n : Nat) : excess n = 10 * excess (n / 8) + 2 * (n / 8) := by
  by_cases hn : n = 0
  · subst hn
    simp [excess]
  · rw [excess, if_neg hn]

/-- By induction on the digits: to the base 10 there is an excess. -/
theorem foldl_excess {t : List Byte} : ∀ {a b : Nat}, (∀ c ∈ t, IsDigit 8 c) → a = b + excess b →
    t.foldl (fun n c => n * 10 + valueOf c) a = t.foldl (fun n c => n * 8 + valueOf c) b +
      excess (t.foldl (fun n c => n * 8 + valueOf c) b) := by
  induction t with
  | nil => exact fun _ h => h
  | cons c t ih =>
      intro a b h hab
      have hlt := valueOf_lt (h c List.mem_cons_self)
      refine ih (fun d hd => h d (List.mem_cons_of_mem c hd)) ?_
      have hdiv : (b * 8 + valueOf c) / 8 = b := by omega
      show a * 10 + valueOf c = b * 8 + valueOf c + excess (b * 8 + valueOf c)
      rw [excess_eq (b * 8 + valueOf c), hdiv]
      omega

/-- An octal number, read as a decimal one. -/
theorem numberOf_ten {t : List Byte} (h : ∀ c ∈ t, IsDigit 8 c) :
    numberOf 10 t = numberOf 8 t + excess (numberOf 8 t) :=
  foldl_excess h (by simp [excess])

/-- A larger number has a larger excess. -/
theorem excess_mono {n : Nat} : ∀ {m : Nat}, m ≤ n → excess m ≤ excess n := by
  induction n using Nat.strong_induction_on with
  | _ n ih =>
      intro m hmn
      rcases Nat.eq_zero_or_pos n with rfl | hn
      · rw [Nat.le_zero.mp hmn]
      · have hdiv : m / 8 ≤ n / 8 := Nat.div_le_div_right hmn
        have hstep := ih (n / 8) (by omega) hdiv
        rw [excess_eq m, excess_eq n]
        omega

/-- Only a single digit has none. -/
theorem excess_zero_iff (n : Nat) : excess n = 0 ↔ n < 8 := by
  have hzero : excess 0 = 0 := by simp [excess]
  constructor
  · intro h
    rw [excess_eq] at h
    omega
  · intro h
    rw [excess_eq, show n / 8 = 0 by omega, hzero]

theorem excess_last : excess 0xffffffff = 33482810482 := by simp [excess]

/-- Below 2^32 the excess is no multiple of 2^32, if there is one. -/
theorem excess_mod {n : Nat} (hn : n < 0x100000000) :
    excess n % 0x100000000 = 0 ↔ n < 8 := by
  rw [← excess_zero_iff]
  refine ⟨fun h => ?_, fun h => by rw [h]⟩
  -- no multiple is between neighbours
  have hgap : ∀ a k : Nat, excess a < k → k < excess (a + 1) → excess n ≠ k := by
    intro a k hbelow habove heq
    rcases Nat.lt_or_ge a n with hlt | hle
    · have hmono : excess (a + 1) ≤ excess n := excess_mono hlt
      omega
    · have hmono := excess_mono hle
      omega
  have h1 := hgap 671088639 0x100000000 (by simp [excess]) (by simp [excess])
  have h2 := hgap 1073741823 0x200000000 (by simp [excess]) (by simp [excess])
  have h3 := hgap 1711276031 0x300000000 (by simp [excess]) (by simp [excess])
  have h4 := hgap 2147483647 0x400000000 (by simp [excess]) (by simp [excess])
  have h5 := hgap 2717908991 0x500000000 (by simp [excess]) (by simp [excess])
  have h6 := hgap 3221225471 0x600000000 (by simp [excess]) (by simp [excess])
  have h7 := hgap 3758096383 0x700000000 (by simp [excess]) (by simp [excess])
  have hmax := excess_mono (Nat.le_of_lt_succ hn)
  rw [excess_last] at hmax
  omega

/-! ## The scans of a literal -/

/-- One more digit. -/
theorem numberOf_snoc (base : Nat) (t : List Byte) (c : Byte) :
    numberOf base (t ++ [c]) = numberOf base t * base + valueOf c := by
  rw [numberOf, List.foldl_append]
  rfl

/-- Only zeros denote zero. -/
theorem numberOf_eq_zero_iff {base : Nat} (hbase : 0 < base) (t : List Byte) :
    numberOf base t = 0 ↔ ∀ c ∈ t, valueOf c = 0 := by
  induction t using List.reverseRecOn with
  | nil => exact ⟨fun _ c hc => absurd hc List.not_mem_nil, fun _ => rfl⟩
  | append_singleton t c ih =>
      rw [numberOf_snoc, Nat.add_eq_zero_iff, Nat.mul_eq_zero, or_iff_left (Nat.ne_of_gt hbase), ih]
      constructor
      · rintro ⟨hfront, hlast⟩ d hd
        rcases List.mem_append.mp hd with hd | hd
        · exact hfront d hd
        · exact List.mem_singleton.mp hd ▸ hlast
      · exact fun h => ⟨fun d hd => h d (List.mem_append_left _ hd),
          h c (List.mem_append_right _ List.mem_cons_self)⟩

/-- The "%u" and the "%x" of a literal. -/
def Literal.decimalScan : Literal → Nat
  | .decimal c t _ _ => numberOf 10 (c :: t)
  | .octal t _ => numberOf 10 t
  | .hexadecimal _ _ _ _ _ => 0

/-- What `%u` makes of a literal. -/
theorem scanDecimal_text (lit : Literal) : scanDecimal lit.text = some lit.decimalScan := by
  cases lit with
  | decimal c t digits nonzero => exact scanNumber_all digits (List.cons_ne_nil c t)
  | octal t digits =>
      refine (scanNumber_all (t := 0x30 :: t) ?_ (List.cons_ne_nil _ t)).trans rfl
      intro d hd
      rcases List.mem_cons.mp hd with rfl | hd
      · exact ⟨0, rfl, by decide⟩
      · exact (digits d hd).mono (by decide)
  | hexadecimal x t ex digits nonempty =>
      rcases ex with rfl | rfl <;> rfl

/-- A decimal number does not begin with "0x". -/
theorem afterHexPrefix_digits {c : Byte} {t : List Byte} (h : ∀ d ∈ t, IsDigit 10 d) :
    afterHexPrefix (c :: t) = none := by
  cases t with
  | nil => rfl
  | cons d t =>
      have hd := digit_plain (h d List.mem_cons_self)
      exact if_neg fun hprefix => hprefix.2.elim hd.2.2.2.1 hd.2.2.2.2

/-- The second scan gives what a literal denotes, if the first one gave zero. -/
theorem scanHex_text {lit : Literal} (hzero : lit.decimalScan = 0) :
    scanHex lit.text = some lit.number := by
  cases lit with
  | decimal c t digits nonzero =>
      have hvalue := (numberOf_eq_zero_iff (by decide) (c :: t)).mp hzero c List.mem_cons_self
      have hall : ∀ c : Byte, digitValue c = some 0 → c = 0x30 := by decide +kernel
      refine absurd (hall c ?_) nonzero
      rw [digitValue_eq (digits c List.mem_cons_self), hvalue]
  | octal t digits =>
      have hten : ∀ d ∈ t, IsDigit 10 d := fun d hd => (digits d hd).mono (by decide)
      have hall := (numberOf_eq_zero_iff (by decide) t).mp hzero
      have hsixteen : ∀ d ∈ 0x30 :: t, IsDigit 16 d := by
        intro d hd
        rcases List.mem_cons.mp hd with rfl | hd
        · exact ⟨0, rfl, by decide⟩
        · exact (digits d hd).mono (by decide)
      have hnumber : numberOf 8 t = 0 := (numberOf_eq_zero_iff (by decide) t).mpr hall
      have hhex : numberOf 16 (0x30 :: t) = 0 := (numberOf_eq_zero_iff (by decide) t).mpr hall
      show scanNumber 16 ((afterHexPrefix (0x30 :: t)).getD (0x30 :: t)) = some (numberOf 8 t)
      rw [afterHexPrefix_digits hten, hnumber, ← hhex]
      exact scanNumber_all hsixteen (List.cons_ne_nil _ t)
  | hexadecimal x t ex digits nonempty =>
      have hprefix : afterHexPrefix (0x30 :: x :: t) = some t := if_pos ⟨rfl, ex⟩
      exact (congrArg (fun o => scanNumber 16 (Option.getD o _)) hprefix).trans
        (scanNumber_all digits nonempty)

/-! ## The line -/

/-- The word is passed over. -/
theorem afterWord_append (word t : List Byte) : afterWord word (word ++ t) = some t := by
  induction word with
  | nil => rfl
  | cons c word ih =>
      rw [List.cons_append, afterWord, if_pos rfl]
      exact ih

/-- A literal begins with a digit. -/
theorem text_cons (lit : Literal) : ∃ c t, lit.text = c :: t ∧
    isspace c = false ∧ c ≠ 0x2d ∧ c ≠ 0x2b := by
  have hzero : isspace 0x30 = false ∧ (0x30 : Byte) ≠ 0x2d ∧ (0x30 : Byte) ≠ 0x2b := by decide
  cases lit with
  | decimal c t digits nonzero =>
      have hc := digit_plain (digits c List.mem_cons_self)
      exact ⟨c, t, rfl, hc.1, hc.2.1, hc.2.2.1⟩
  | octal t digits => exact ⟨_, t, rfl, hzero⟩
  | hexadecimal x t ex digits nonempty => exact ⟨_, x :: t, rfl, hzero⟩

/-- White space in front of a number is passed over. -/
theorem dropWhile_spaces {spaces : List Byte} (h : ∀ c ∈ spaces, isspace c = true) {c : Byte}
    (hc : isspace c = false) (t : List Byte) :
    (spaces ++ c :: t).dropWhile isspace = c :: t := by
  rw [List.dropWhile_append_of_pos h, List.dropWhile_cons_of_neg (by rw [hc]; exact Bool.false_ne_true)]

section

variable {before after : List Byte} (hbefore : ∀ c ∈ before, isspace c = true)
  (hafter : ∀ c ∈ after, isspace c = true)

include hbefore hafter

/-- What `sscanf` gets out of a line is what the conversion gets out of the literal. -/
theorem sscanf_line (word : String) (scan : List Byte → Option Nat) (lit : Literal) :
    sscanf word scan (lineOf word before after lit) = (scan lit.text).map fun n => (n : Int) := by
  obtain ⟨c, t, htext, hspace, hminus, hplus⟩ := text_cons lit
  rw [sscanf, lineOf, afterWord_append, Option.bind_some, dropWhile_spaces hbefore (by decide)]
  simp only [if_true]
  rw [htext, dropWhile_spaces hafter hspace, scanSigned, if_neg hminus, if_neg hplus]

end

/-- Too large a number is the largest there is. -/
theorem toNat_toULong (n : Nat) : (toULong n).toNat = min n 0xffffffffffffffff := by
  rw [toULong, Int.natAbs_natCast]
  split
  · next hlarge => exact (Nat.min_eq_right (Nat.le_of_lt hlarge)).symm
  · next hsmall =>
    rw [BitVec.ofInt_natCast, BitVec.toNat_ofNat, Nat.mod_eq_of_lt (by omega),
      Nat.min_eq_left (Nat.not_lt.mp hsmall)]

theorem toULong_eq_zero_iff (n : Nat) : toULong n = 0 ↔ n = 0 := by
  have hnat := toNat_toULong n
  constructor
  · intro h
    rw [h] at hnat
    have hzero : min n 0xffffffffffffffff = 0 := hnat.symm
    omega
  · rintro rfl
    rfl

/-- The number that the two scans come to. -/
def Literal.scanned (lit : Literal) : Nat :=
  if lit.decimalScan = 0 then lit.number else lit.decimalScan

/-- It is the number of the literal, except that an octal one has its excess. -/
theorem scanned_eq (lit : Literal) :
    (lit.IsOctal → lit.scanned = lit.number + excess lit.number) ∧
      (¬ lit.IsOctal → lit.scanned = lit.number) := by
  cases lit with
  | decimal c t digits nonzero =>
      refine ⟨fun h => h.elim, fun _ => ?_⟩
      rw [Literal.scanned]
      exact ite_eq_left_iff.mpr fun _ => rfl
  | octal t digits =>
      refine ⟨fun _ => ?_, fun h => absurd trivial h⟩
      have hten := numberOf_ten digits
      rw [Literal.scanned]
      split
      · next hzero =>
        have hall := (numberOf_eq_zero_iff (by decide) t).mp hzero
        have hnumber : numberOf 8 t = 0 := (numberOf_eq_zero_iff (by decide) t).mpr hall
        show numberOf 8 t = numberOf 8 t + excess (numberOf 8 t)
        rw [(excess_zero_iff _).mpr (by omega), Nat.add_zero]
      · exact hten
  | hexadecimal x t ex digits nonempty => exact ⟨fun h => h.elim, fun _ => rfl⟩

section

variable {before after : List Byte} (hbefore : ∀ c ∈ before, isspace c = true)
  (hafter : ∀ c ∈ after, isspace c = true)

include hbefore hafter

/-- What is scanned of a line, in two steps. -/
theorem twoScans (word : String) (lit : Literal) :
    sscanf word scanDecimal (lineOf word before after lit) = some (lit.decimalScan : Int) ∧
      (if toULong lit.decimalScan = 0 then
        ((sscanf word scanHex (lineOf word before after lit)).map toULong).getD 0
        else toULong lit.decimalScan) = toULong lit.scanned := by
  rw [sscanf_line hbefore hafter, sscanf_line hbefore hafter, scanDecimal_text, Literal.scanned]
  refine ⟨rfl, ?_⟩
  by_cases hzero : lit.decimalScan = 0
  · rw [if_pos ((toULong_eq_zero_iff _).mpr hzero), if_pos hzero, scanHex_text hzero]
    rfl
  · rw [if_neg (fun h => hzero ((toULong_eq_zero_iff _).mp h)), if_neg hzero]

/-- What is stored: too large a number is the largest. -/
theorem vendor_stored (lit : Literal) (level : Nat) (f : Sdbf) :
    (be64 (applyDirective level f
      (parseConfigLine (lineOf "vendor" before after lit))).record vendorOffset).toNat =
        min lit.scanned 0xffffffffffffffff := by
  obtain ⟨hdecimal, hboth⟩ := twoScans hbefore hafter "vendor" lit
  rw [parseConfigLine, hdecimal]
  simp only [hboth]
  rw [← toNat_toULong]
  exact congrArg BitVec.toNat (be64_setBytes f.record (k := vendorOffset) (by decide) _)

/-- What a device directive stores. -/
theorem device_stored (lit : Literal) (level : Nat) (f : Sdbf) :
    (be32 (applyDirective level f
      (parseConfigLine (lineOf "device" before after lit))).record deviceOffset).toNat =
        min lit.scanned 0xffffffffffffffff % 0x100000000 := by
  obtain ⟨hdecimal, hboth⟩ := twoScans hbefore hafter "device" lit
  have hother : sscanf "vendor" scanDecimal (lineOf "device" before after lit) = none := rfl
  rw [parseConfigLine, hother, hdecimal]
  simp only [hboth]
  rw [← toNat_toULong, ← BitVec.toNat_setWidth 32]
  exact congrArg BitVec.toNat (be32_setBytes f.record (k := deviceOffset) (by decide) _)

/-- **A vendor is stored right unless it is octal; the digits 0 to 7 are the same in both bases, and
    the largest number is what too large a one becomes.  A device is, unless it is octal and not
    below 8.** -/
theorem literal_stored (lit : Literal) :
    (lit.number < 0x10000000000000000 →
      (StoresVendor (lineOf "vendor" before after lit) lit.number ↔
        (lit.IsOctal → lit.number < 8 ∨ lit.number = 0xffffffffffffffff))) ∧
    (lit.number < 0x100000000 →
      (StoresDevice (lineOf "device" before after lit) lit.number ↔
        (lit.IsOctal → lit.number < 8))) := by
  have hvendor : StoresVendor (lineOf "vendor" before after lit) lit.number ↔
      min lit.scanned 0xffffffffffffffff = lit.number :=
    ⟨fun h => (vendor_stored hbefore hafter lit 0 (fillDot 0 0)).symm.trans (h 0 (fillDot 0 0)),
      fun h level f => (vendor_stored hbefore hafter lit level f).trans h⟩
  have hdevice : StoresDevice (lineOf "device" before after lit) lit.number ↔
      min lit.scanned 0xffffffffffffffff % 0x100000000 = lit.number :=
    ⟨fun h => (device_stored hbefore hafter lit 0 (fillDot 0 0)).symm.trans (h 0 (fillDot 0 0)),
      fun h level f => (device_stored hbefore hafter lit level f).trans h⟩
  obtain ⟨hoctal, hother⟩ := scanned_eq lit
  rw [hvendor, hdevice]
  by_cases hlit : lit.IsOctal
  · have hexcess := excess_zero_iff lit.number
    rw [hoctal hlit]
    refine ⟨fun hfits => ?_, fun hfits => ?_⟩
    · constructor
      · intro h _
        omega
      · intro h
        have hsmall := h hlit
        omega
    · -- the excess of 32 bits is far below 2^64
      have hmax := excess_mono (Nat.le_of_lt_succ hfits)
      rw [excess_last] at hmax
      have hmod := excess_mod hfits
      constructor
      · intro h _
        refine hmod.mp ?_
        omega
      · intro h
        have hzero := hexcess.mpr (h hlit)
        omega
  · rw [hother hlit]
    refine ⟨fun hfits => ?_, fun hfits => ?_⟩
    · exact iff_of_true (by omega) (fun h => absurd h hlit)
    · exact iff_of_true (by omega) (fun h => absurd h hlit)

end

/-- "0x1f" -/
def hexLiteral : Literal := .hexadecimal 0x78 [0x31, 0x66] (Or.inl rfl) (by decide) (by decide)

/-- A hexadecimal literal, whose digits begin where `%u` sees a zero. -/
theorem literal_stored_hex :
    StoresVendor (lineOf "vendor" [0x20] [0x20] hexLiteral) 0x1f ∧
      StoresDevice (lineOf "device" [0x20] [0x20] hexLiteral) 0x1f := by
  have hspace : ∀ c ∈ [(0x20 : Byte)], isspace c = true := by decide
  have hall := literal_stored hspace hspace hexLiteral
  exact ⟨(hall.1 (by decide)).mpr fun h => h.elim, (hall.2 (by decide)).mpr fun h => h.elim⟩

/-- "010" -/
def octalLiteral : Literal := .octal [0x31, 0x30] (by decide)

/-- The octal literal for eight is stored as ten. -/
theorem literal_stored_octal : octalLiteral.number = 8 ∧
    (StoresVendor (lineOf "vendor" [0x20] [0x20] octalLiteral) 10 ∧
      ¬ StoresVendor (lineOf "vendor" [0x20] [0x20] octalLiteral) octalLiteral.number) ∧
    StoresDevice (lineOf "device" [0x20] [0x20] octalLiteral) 10 ∧
      ¬ StoresDevice (lineOf "device" [0x20] [0x20] octalLiteral) octalLiteral.number := by
  have hspace : ∀ c ∈ [(0x20 : Byte)], isspace c = true := by decide
  have hvendor := vendor_stored hspace hspace octalLiteral
  have hdevice := device_stored hspace hspace octalLiteral
  have hnumber : octalLiteral.number = 8 := by decide
  have hscanned : octalLiteral.scanned = 10 := by decide
  rw [hscanned] at hvendor hdevice
  refine ⟨hnumber, ⟨hvendor, fun h => ?_⟩, hdevice, fun h => ?_⟩
  · have hwrong := (hvendor 0 (fillDot 0 0)).symm.trans (h 0 (fillDot 0 0))
    rw [hnumber] at hwrong
    exact absurd hwrong (by decide)
  · have hwrong := (hdevice 0 (fillDot 0 0)).symm.trans (h 0 (fillDot 0 0))
    rw [hnumber] at hwrong
    exact absurd hwrong (by decide)

end GensdbfsLiteral
