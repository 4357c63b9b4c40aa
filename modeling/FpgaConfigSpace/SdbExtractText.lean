import FpgaConfigSpace.GensdbfsLiteral
import FpgaConfigSpace.GensdbfsFrame
import FpgaConfigSpace.SdbExtract

/-! # The configuration that is extracted

    `create_file` prints what it finds in a record as lines of a configuration file, and
    `scan_config` reads them back: the numbers, which are printed in hexadecimal, and the
    name, if it can stand on a line of its own. -/

namespace SdbExtractText

open BigEndian SdbRecord SdbFields SdbfsOpen Gensdbfs GensdbfsText GensdbfsLiteral SdbExtract

/-! ## Lines -/

/-- A line that fits is read at once. -/
theorem fgets_line {line : List Byte} (hline : 0x0a ∉ line) : ∀ {room : Nat}, line.length < room →
    ∀ text, fgets room (line ++ 0x0a :: text) = (line ++ [0x0a], text) := by
  induction line with
  | nil =>
      intro room hroom text
      obtain ⟨k, rfl⟩ : ∃ k, room = k + 1 := ⟨room - 1, by omega⟩
      exact if_pos rfl
  | cons c line ih =>
      intro room hroom text
      obtain ⟨k, rfl⟩ : ∃ k, room = k + 1 := ⟨room - 1, by omega⟩
      have hc : c ≠ 0x0a := fun h => hline (h ▸ List.mem_cons_self)
      rw [List.cons_append, fgets, if_neg hc,
        ih (fun h => hline (List.mem_cons_of_mem c h)) (Nat.lt_of_succ_lt_succ hroom)]
      rfl

/-- A call of `fgets` takes something, if there is anything. -/
theorem fgets_rest_lt (room : Nat) (c : Byte) (text : List Byte) :
    (fgets (room + 1) (c :: text)).2.length < (c :: text).length := by
  have hle : ∀ (text : List Byte) (room : Nat), (fgets room text).2.length ≤ text.length := by
    intro text
    induction text with
    | nil => exact fun room => by cases room <;> exact Nat.le_refl _
    | cons c text ih =>
        intro room
        cases room with
        | zero => exact Nat.le_refl _
        | succ room =>
            rw [fgets]
            split
            · exact Nat.le_succ _
            · exact Nat.le_succ_of_le (ih room)
  rw [fgets]
  split
  · exact Nat.lt_succ_self _
  · exact Nat.lt_succ_of_le (hle text room)

/-- The fuel does not matter, if there is enough. -/
theorem fgetsLines_fuel (room : Nat) : ∀ (fuel : Nat) (text : List Byte), text.length ≤ fuel →
    fgetsLines (room + 1) fuel text = fgetsLines (room + 1) text.length text := by
  intro fuel
  induction fuel using Nat.strong_induction_on with
  | _ fuel ih =>
      intro text hfuel
      cases text with
      | nil => cases fuel <;> rfl
      | cons c text =>
          obtain ⟨k, rfl⟩ : ∃ k, fuel = k + 1 := ⟨fuel - 1, by
            rw [List.length_cons] at hfuel
            omega⟩
          have hlt := fgets_rest_lt room c text
          rw [List.length_cons] at hfuel hlt ⊢
          rw [fgetsLines, fgetsLines, ih k (Nat.lt_succ_self k) _ (by omega)]
          rcases Nat.lt_or_ge text.length (k + 1) with hless | hge
          · rw [ih text.length hless _ (by omega)]
          · rw [show text.length = k by omega, ih k (Nat.lt_succ_self k) _ (by omega)]

/-- The first line of a text, and the rest. -/
theorem configLines_cons (c : Byte) (text : List Byte) :
    configLines (c :: text) =
      configLine (fgets 255 (c :: text)).1 :: configLines (fgets 255 (c :: text)).2 := by
  have hlt := fgets_rest_lt 254 c text
  rw [List.length_cons] at hlt
  rw [configLines, List.length_cons, fgetsLines, List.map_cons,
    fgetsLines_fuel 254 _ _ (Nat.le_of_lt_succ hlt), configLines]

/-- It is the first line of the text. -/
theorem configLines_line {line : List Byte} (hline : 0x0a ∉ line) (hlen : line.length < 255)
    (text : List Byte) :
    configLines (line ++ 0x0a :: text) = configLine (line ++ [0x0a]) :: configLines text := by
  obtain ⟨c, rest, hcons⟩ : ∃ c rest, line ++ 0x0a :: text = c :: rest := by
    cases line with
    | nil => exact ⟨_, _, rfl⟩
    | cons c line => exact ⟨_, _, rfl⟩
  have hfgets := fgets_line hline hlen text
  rw [hcons] at hfgets ⊢
  rw [configLines_cons, hfgets]

/-- Text that ends with a newline, if it is not empty. -/
def EndsLine (text : List Byte) : Prop := ∀ c, text.getLast? = some c → c = 0x0a

/-- A text that ends with a line is read on its own. -/
theorem fgets_append (text : List Byte) : ∀ {front : List Byte}, front ≠ [] → EndsLine front →
    ∀ room : Nat, EndsLine (fgets room front).2 ∧
      fgets room (front ++ text) = ((fgets room front).1, (fgets room front).2 ++ text) := by
  intro front
  induction front with
  | nil => exact fun h => absurd rfl h
  | cons c front ih =>
      intro _ hends room
      have hrest : EndsLine front := by
        intro d hd
        refine hends d ?_
        rw [List.getLast?_cons, hd]
        rfl
      cases room with
      | zero => exact ⟨hends, rfl⟩
      | succ room =>
          rw [List.cons_append, fgets, fgets]
          by_cases hc : c = 0x0a
          · rw [if_pos hc, if_pos hc]
            exact ⟨hrest, rfl⟩
          · rw [if_neg hc, if_neg hc]
            have hne : front ≠ [] := fun h => hc (hends c (by rw [h]; rfl))
            obtain ⟨hleft, heq⟩ := ih hne hrest room
            exact ⟨hleft, by rw [heq]⟩

/-- Lines are read as they would be alone. -/
theorem configLines_append {front : List Byte} (text : List Byte) (hends : EndsLine front) :
    configLines (front ++ text) = configLines front ++ configLines text := by
  induction hn : front.length using Nat.strong_induction_on generalizing front with
  | _ n ih =>
      cases front with
      | nil => rfl
      | cons c front =>
          obtain ⟨hleft, heq⟩ := fgets_append text (List.cons_ne_nil c front) hends 255
          have hlt := fgets_rest_lt 254 c front
          rw [hn] at hlt
          rw [List.cons_append] at heq ⊢
          rw [configLines_cons, configLines_cons, heq, ih _ hlt hleft rfl, List.cons_append]

/-! ## What a line is taken for -/

/-- A line without white space at its end stays. -/
theorem trimLine_chars {line : List Byte} (hnul : 0 ∉ line)
    (hlast : ∀ c, line.getLast? = some c → isspace c = false) :
    (trimLine (line ++ [0x0a])).chars = line := by
  have hwhole : (line ++ [0x0a]).takeWhile (· ≠ 0) = line ++ [0x0a] := by
    refine List.takeWhile_eq_self_iff.mpr fun c hc => decide_eq_true ?_
    rcases List.mem_append.mp hc with hc | hc
    · exact fun h => hnul (h ▸ hc)
    · rw [List.mem_singleton.mp hc]
      decide
  rw [trimLine]
  simp only [hwhole, List.reverse_append, List.reverse_singleton, List.singleton_append]
  rw [List.dropWhile_cons_of_pos (by decide)]
  cases hrev : line.reverse with
  | nil => rw [List.reverse_eq_nil_iff.mp hrev]; rfl
  | cons c rest =>
      have hc : line.getLast? = some c := by
        rw [List.getLast?_eq_head?_reverse, hrev]
        rfl
      rw [List.dropWhile_cons_of_neg (by rw [hlast c hc]; exact Bool.false_ne_true), ← hrev,
        List.reverse_reverse]

/-- A name that can stand on a line of its own. -/
structure PlainName (name : CString) : Prop where
  newline : 0x0a ∉ name.chars
  first : ∀ c, name.chars.head? = some c → c ≠ 0x23 ∧ isblank c = false
  last : ∀ c, name.chars.getLast? = some c → isspace c = false

/-- A plain name is taken for a name. -/
theorem configLine_name {name : CString} (hplain : PlainName name) (hne : name.chars ≠ []) :
    configLine (name.chars ++ [0x0a]) = .name name := by
  have htrim : trimLine (name.chars ++ [0x0a]) = name :=
    chars_inj (trimLine_chars name.noNul hplain.last)
  obtain ⟨c, rest, hcons⟩ : ∃ c rest, name.chars = c :: rest := List.exists_cons_of_ne_nil hne
  obtain ⟨hhash, hblank⟩ := hplain.first c (by rw [hcons]; rfl)
  have hdrop : name.chars.dropWhile isblank = name.chars := by
    rw [hcons, List.dropWhile_cons_of_neg (by rw [hblank]; exact Bool.false_ne_true)]
  rw [configLine]
  simp only [htrim, hdrop, if_true]
  refine if_neg ?_
  rintro (h | h)
  · rw [hcons] at h
    exact hhash (Option.some.inj h)
  · exact hne h

/-- A comment. -/
theorem configLine_comment (line : List Byte) : configLine (0x23 :: line) = .skipped := by
  have htrim : ∃ rest, (trimLine (0x23 :: line)).chars = 0x23 :: rest := by
    have hkeep : (0x23 :: line).takeWhile (· ≠ 0) = 0x23 :: line.takeWhile (· ≠ 0) :=
      List.takeWhile_cons_of_pos (by decide)
    rw [trimLine]
    simp only [hkeep, List.reverse_cons, List.dropWhile_append]
    split
    · exact ⟨[], rfl⟩
    · exact ⟨_, by rw [List.reverse_append, List.reverse_singleton, List.singleton_append]⟩
  obtain ⟨rest, htrim⟩ := htrim
  rw [configLine]
  simp only [htrim, List.dropWhile_cons_of_neg (show ¬ isblank 0x23 = true by decide)]
  exact if_pos (Or.inl rfl)

/-- A directive behind a tab. -/
theorem configLine_directive {t : List Byte} (hne : t ≠ []) (hnul : 0 ∉ t)
    (hfirst : ∀ c, t.head? = some c → c ≠ 0x23 ∧ isblank c = false)
    (hlast : ∀ c, t.getLast? = some c → isspace c = false) :
    configLine (0x09 :: t ++ [0x0a]) = .directive t := by
  obtain ⟨c, rest, rfl⟩ : ∃ c rest, t = c :: rest := List.exists_cons_of_ne_nil hne
  obtain ⟨hhash, hblank⟩ := hfirst c rfl
  have htrim : (trimLine (0x09 :: (c :: rest) ++ [0x0a])).chars = 0x09 :: c :: rest := by
    refine trimLine_chars (List.not_mem_cons_of_ne_of_not_mem (by decide) hnul) fun d hd => ?_
    rw [List.getLast?_cons_cons] at hd
    exact hlast d hd
  have hdrop : (0x09 :: c :: rest).dropWhile isblank = c :: rest := by
    rw [List.dropWhile_cons_of_pos (by decide),
      List.dropWhile_cons_of_neg (by rw [hblank]; exact Bool.false_ne_true)]
  rw [configLine]
  simp only [htrim, hdrop]
  rw [if_neg, if_neg]
  · rw [List.length_cons (a := 0x09)]
    exact Nat.ne_of_lt (Nat.lt_succ_self _)
  · rintro (h | h)
    · exact hhash (Option.some.inj h)
    · exact List.cons_ne_nil c rest h

/-! ## Numbers -/

/-- A digit that is printed has its value. -/
theorem digitValue_digitChar : ∀ d : Fin 16,
    digitValue (BitVec.ofNat 8 (Nat.digitChar d.val).toNat) = some d.val := by decide

/-- The last digit comes off the end. -/
theorem hex_eq (n : Nat) : hex n = (if n < 16 then [] else hex (n / 16)) ++
    [BitVec.ofNat 8 (Nat.digitChar (n % 16)).toNat] := by
  rw [hex, Nat.toDigits_eq_if (by decide)]
  split
  · next hlt =>
    rw [Nat.mod_eq_of_lt hlt]
    rfl
  · rw [List.map_append]
    rfl

theorem hex_ne_nil (n : Nat) : hex n ≠ [] := by
  rw [hex_eq]
  exact List.append_ne_nil_of_right_ne_nil _ (List.cons_ne_nil _ _)

/-- A number is printed in digits, which denote it. -/
theorem hex_digits (n : Nat) : (∀ c ∈ hex n, IsDigit 16 c) ∧ numberOf 16 (hex n) = n := by
  induction n using Nat.strong_induction_on with
  | _ n ih =>
      have hmod : n % 16 < 16 := Nat.mod_lt n (by decide)
      have hvalue := digitValue_digitChar ⟨n % 16, hmod⟩
      have hdigit : IsDigit 16 (BitVec.ofNat 8 (Nat.digitChar (n % 16)).toNat) :=
        ⟨n % 16, hvalue, hmod⟩
      have hlast : valueOf (BitVec.ofNat 8 (Nat.digitChar (n % 16)).toNat) = n % 16 := by
        rw [valueOf, hvalue]
        rfl
      rw [hex_eq, numberOf_snoc, hlast]
      by_cases hlt : n < 16
      · rw [if_pos hlt, List.nil_append]
        refine ⟨fun c hc => List.mem_singleton.mp hc ▸ hdigit, ?_⟩
        show 0 * 16 + n % 16 = n
        omega
      · obtain ⟨hdigits, hnumber⟩ := ih (n / 16) (by omega)
        rw [if_neg hlt, hnumber]
        refine ⟨fun c hc => ?_, by omega⟩
        rcases List.mem_append.mp hc with hc | hc
        · exact hdigits c hc
        · exact List.mem_singleton.mp hc ▸ hdigit

/-- The zeros in front do not matter. -/
theorem hexPadded_digits (k n : Nat) :
    (∀ c ∈ hexPadded k n, IsDigit 16 c) ∧ numberOf 16 (hexPadded k n) = n := by
  obtain ⟨hdigits, hnumber⟩ := hex_digits n
  refine ⟨fun c hc => ?_, ?_⟩
  · rcases List.mem_append.mp hc with hc | hc
    · rw [List.eq_of_mem_replicate hc]
      exact ⟨0, rfl, by decide⟩
    · exact hdigits c hc
  · have hzeros : ∀ m : Nat, numberOf 16 (List.replicate m 0x30) = 0 :=
      fun m => (numberOf_eq_zero_iff (by decide) _).mpr fun c hc => List.eq_of_mem_replicate hc ▸ rfl
    rw [hexPadded, numberOf, List.foldl_append]
    refine Eq.trans ?_ hnumber
    exact congrArg (fun a => (hex n).foldl (fun n c => n * 16 + valueOf c) a) (hzeros _)

theorem hexPadded_ne_nil (k n : Nat) : hexPadded k n ≠ [] :=
  List.append_ne_nil_of_right_ne_nil _ (hex_ne_nil n)

theorem small_x : (0x78 : Byte) = 0x78 ∨ (0x78 : Byte) = 0x58 :=
  Or.inl rfl

/-- A printed number, as a literal. -/
def printedLiteral (k n : Nat) : Literal :=
  .hexadecimal 0x78 (hexPadded k n) small_x (hexPadded_digits k n).1 (hexPadded_ne_nil k n)

theorem hex_eq_hexPadded (n : Nat) : hex n = hexPadded 0 n := by
  rw [hexPadded, Nat.zero_sub]
  rfl

/-! ## Directives -/

theorem oneSpace : ∀ c ∈ [(0x20 : Byte)], isspace c = true := by decide

/-- A vendor, a device, and a position below 2^63 that are printed are read back. -/
theorem parse_vendor (id : BitVec 64) :
    parseConfigLine (lineOf "vendor" [0x20] [0x20] (printedLiteral 16 id.toNat)) = .vendor id := by
  obtain ⟨hdecimal, hboth⟩ := twoScans oneSpace oneSpace "vendor" (printedLiteral 16 id.toNat)
  have hscanned : (printedLiteral 16 id.toNat).scanned = id.toNat :=
    (if_pos rfl).trans (hexPadded_digits 16 id.toNat).2
  rw [parseConfigLine, hdecimal]
  simp only [hboth, hscanned]
  refine congrArg Directive.vendor (BitVec.eq_of_toNat_eq ?_)
  rw [toNat_toULong]
  have hlt := id.isLt
  omega

theorem parse_device (id : Word) :
    parseConfigLine (lineOf "device" [0x20] [0x20] (printedLiteral 8 id.toNat)) = .device id := by
  obtain ⟨hdecimal, hboth⟩ := twoScans oneSpace oneSpace "device" (printedLiteral 8 id.toNat)
  have hscanned : (printedLiteral 8 id.toNat).scanned = id.toNat :=
    (if_pos rfl).trans (hexPadded_digits 8 id.toNat).2
  have hother : sscanf "vendor" scanDecimal
      (lineOf "device" [0x20] [0x20] (printedLiteral 8 id.toNat)) = none := rfl
  rw [parseConfigLine, hother, hdecimal]
  simp only [hboth, hscanned]
  refine congrArg Directive.device (BitVec.eq_of_toNat_eq ?_)
  rw [BitVec.toNat_setWidth, toNat_toULong]
  have hlt := id.isLt
  omega

theorem parse_position {start : ULong} (hlong : start.toNat < 0x8000000000000000) :
    parseConfigLine (lineOf "position" [0x20] [0x20] (printedLiteral 0 start.toNat)) =
      .position start := by
  obtain ⟨hdigits, hnumber⟩ := hexPadded_digits 0 start.toNat
  have hscan : scanAny (printedLiteral 0 start.toNat).text = some start.toNat := by
    have hprefix : afterHexPrefix (0x30 :: 0x78 :: hexPadded 0 start.toNat) =
        some (hexPadded 0 start.toNat) := rfl
    rw [printedLiteral, Literal.text, scanAny, hprefix]
    exact (scanNumber_all hdigits (hexPadded_ne_nil _ _)).trans (congrArg some hnumber)
  have hposition : sscanf "position" scanAny
      (lineOf "position" [0x20] [0x20] (printedLiteral 0 start.toNat)) = some (start.toNat : Int) := by
    rw [sscanf_line oneSpace oneSpace, hscan]
    rfl
  -- the words that are tried first
  have hvendor : sscanf "vendor" scanDecimal
      (lineOf "position" [0x20] [0x20] (printedLiteral 0 start.toNat)) = none := rfl
  have hdevice : sscanf "device" scanDecimal
      (lineOf "position" [0x20] [0x20] (printedLiteral 0 start.toNat)) = none := rfl
  have hwrite : sscanf "write" scanAny
      (lineOf "position" [0x20] [0x20] (printedLiteral 0 start.toNat)) = none := rfl
  have hmaxsize : sscanf "maxsize" scanAny
      (lineOf "position" [0x20] [0x20] (printedLiteral 0 start.toNat)) = none := rfl
  rw [parseConfigLine, hvendor, hdevice, hwrite, hmaxsize, hposition]
  refine congrArg Directive.position (BitVec.eq_of_toNat_eq ?_)
  have hmin : toLong (start.toNat : Int) = start.toNat := by
    rw [toLong]
    omega
  show (BitVec.ofInt 64 (toLong (start.toNat : Int))).toNat = _
  rw [hmin, BitVec.ofInt_natCast, BitVec.toNat_ofNat]
  exact Nat.mod_eq_of_lt start.isLt

/-! ## The lines of a record -/

/-- A number of 64 bits has 16 digits at most. -/
theorem hexPadded_length {k n : Nat} (hk : k ≤ 16) (hn : n < 0x10000000000000000) :
    (hexPadded k n).length ≤ 16 := by
  have hlen : (hex n).length ≤ 16 := by
    rw [hex, List.length_map]
    exact (Nat.length_toDigits_le_iff (by decide) (by decide)).mpr hn
  rw [hexPadded, List.length_append, List.length_replicate]
  omega

/-- No digit ends a line. -/
theorem digit_printed {c : Byte} (h : IsDigit 16 c) : c ≠ 0 ∧ c ≠ 0x0a := by
  have hall : ∀ c : Byte, digitValue c ≠ none → c ≠ 0 ∧ c ≠ 0x0a := by decide +kernel
  refine hall c ?_
  rw [digitValue_eq h]
  exact Option.some_ne_none _

/-- The line for a word and a number. -/
def printedLine (word : String) (k n : Nat) : List Byte :=
  lineOf word [0x20] [0x20] (printedLiteral k n)

/-- A word that a line can begin with. -/
structure PlainWord (word : String) : Prop where
  first : ∃ c t, ascii word = c :: t ∧ c ≠ 0x23 ∧ isblank c = false
  plain : ∀ c ∈ ascii word, c ≠ 0 ∧ c ≠ 0x0a
  short : (ascii word).length ≤ 8

theorem printedLine_eq (word : String) (k n : Nat) :
    printedLine word k n = ascii word ++ [0x20, 0x3d, 0x20, 0x30, 0x78] ++ hexPadded k n := by
  rw [List.append_assoc]
  rfl

section

variable {word : String} (hword : PlainWord word) (k n : Nat)

include hword

/-- Nothing in a printed line does. -/
theorem printedLine_plain : ∀ c ∈ printedLine word k n, c ≠ 0 ∧ c ≠ 0x0a := by
  intro c hc
  rw [printedLine_eq] at hc
  rcases List.mem_append.mp hc with hc | hc
  · rcases List.mem_append.mp hc with hc | hc
    · exact hword.plain c hc
    · have hall : ∀ c ∈ [(0x20 : Byte), 0x3d, 0x20, 0x30, 0x78], c ≠ 0 ∧ c ≠ 0x0a := by decide
      exact hall c hc
  · exact digit_printed ((hexPadded_digits k n).1 c hc)

/-- It is read back as a directive. -/
theorem configLine_printed :
    configLine (0x09 :: printedLine word k n ++ [0x0a]) = .directive (printedLine word k n) := by
  obtain ⟨c, t, hcons, hc⟩ := hword.first
  have hline := printedLine_eq word k n
  refine configLine_directive ?_ (fun h => (printedLine_plain hword k n 0 h).1 rfl) ?_ ?_
  · rw [hline]
    exact List.append_ne_nil_of_right_ne_nil _ (hexPadded_ne_nil k n)
  · intro d hd
    rw [hline, hcons] at hd
    cases hd
    exact hc
  · intro d hd
    rw [hline, List.getLast?_append_of_ne_nil _ (hexPadded_ne_nil k n)] at hd
    exact (digit_plain ((hexPadded_digits k n).1 d (List.mem_of_getLast? hd))).1

/-- The first of some lines. -/
theorem configLines_printed (hk : k ≤ 16) (hn : n < 0x10000000000000000) (text : List Byte) :
    configLines (0x09 :: printedLine word k n ++ 0x0a :: text) =
      .directive (printedLine word k n) :: configLines text := by
  rw [configLines_line, configLine_printed hword]
  · refine List.not_mem_cons_of_ne_of_not_mem (by decide) fun h => ?_
    exact (printedLine_plain hword k n 0x0a h).2 rfl
  · have hlen := hexPadded_length hk hn
    have hshort := hword.short
    rw [printedLine_eq]
    simp only [List.length_cons, List.length_append, List.length_nil]
    omega

end

theorem plainWord_vendor : PlainWord "vendor" := ⟨⟨_, _, rfl, by decide, by decide⟩, by decide, by decide⟩
theorem plainWord_device : PlainWord "device" := ⟨⟨_, _, rfl, by decide, by decide⟩, by decide, by decide⟩
theorem plainWord_position : PlainWord "position" :=
  ⟨⟨_, _, rfl, by decide, by decide⟩, by decide, by decide⟩

/-- The record has the flag that makes a file writable. -/
def Writable (d : Record) : Prop := busSpecific d &&& SDB_DATA_WRITE ≠ 0

instance (d : Record) : Decidable (Writable d) :=
  inferInstanceAs (Decidable (busSpecific d &&& SDB_DATA_WRITE ≠ 0))

/-- The text of a record, line by line. -/
theorem configText_eq (name : List Byte) (d : Record) (text : List Byte) :
    configText name d ++ text = name ++ 0x0a ::
      (0x09 :: printedLine "vendor" 16 (be64 d vendorOffset).toNat ++ 0x0a ::
        (0x09 :: printedLine "device" 8 (be32 d deviceOffset).toNat ++ 0x0a ::
          (0x09 :: printedLine "position" 0 (addrFirst d).toNat ++ 0x0a ::
            ((if Writable d then ascii "\twrite = 1" ++ [0x0a] else []) ++ 0x0a :: text)))) := by
  have hvendor : ascii "\n\tvendor = 0x" =
      0x0a :: 0x09 :: (ascii "vendor" ++ [0x20, 0x3d, 0x20, 0x30, 0x78]) := by decide
  have hdevice : ascii "\n\tdevice = 0x" =
      0x0a :: 0x09 :: (ascii "device" ++ [0x20, 0x3d, 0x20, 0x30, 0x78]) := by decide
  have hposition : ascii "\n\tposition = 0x" =
      0x0a :: 0x09 :: (ascii "position" ++ [0x20, 0x3d, 0x20, 0x30, 0x78]) := by decide
  have hwrite : ascii "\twrite = 1\n" = ascii "\twrite = 1" ++ [0x0a] := by decide
  have hnewline : ascii "\n" = [0x0a] := by decide
  rw [configText, hvendor, hdevice, hposition, hwrite, hnewline, hex_eq_hexPadded]
  simp only [printedLine_eq, List.append_assoc, List.cons_append, List.nil_append, Writable]
  rfl

/-- What is printed for a record, as directives. -/
def printed (d : Record) : List Directive :=
  [.vendor (be64 d vendorOffset), .device (be32 d deviceOffset), .position (addrFirst d)] ++
    (if Writable d then [.write true] else [])

/-- The lines of a record, as they are read back. -/
def recordLines (name : CString) (d : Record) : List ConfigLine :=
  [.name name, .directive (printedLine "vendor" 16 (be64 d vendorOffset).toNat),
    .directive (printedLine "device" 8 (be32 d deviceOffset).toNat),
    .directive (printedLine "position" 0 (addrFirst d).toNat)] ++
    (if Writable d then [.directive (ascii "write = 1")] else []) ++ [.skipped]

/-- The lines that are printed for a record. -/
theorem configLines_configText {name : CString} (hplain : PlainName name) (hne : name.chars ≠ [])
    (hlen : name.chars.length < 255) (d : Record) (text : List Byte) :
    configLines (configText name.chars d ++ text) = recordLines name d ++ configLines text := by
  have hempty : ∀ text, configLines (0x0a :: text) = .skipped :: configLines text :=
    fun text => @configLines_line [] List.not_mem_nil (by decide) text
  have hwrite : ∀ text, configLines (ascii "\twrite = 1" ++ [0x0a] ++ text) =
      .directive (ascii "write = 1") :: configLines text := by
    intro text
    rw [List.append_assoc, List.singleton_append, configLines_line (by decide) (by decide)]
    have hline : configLine (ascii "\twrite = 1" ++ [0x0a]) = .directive (ascii "write = 1") := rfl
    rw [hline]
  rw [configText_eq, configLines_line hplain.newline hlen, configLine_name hplain hne,
    configLines_printed plainWord_vendor _ _ (by decide) (be64 d vendorOffset).isLt,
    configLines_printed plainWord_device _ _ (by decide)
      (Nat.lt_trans (be32 d deviceOffset).isLt (by decide)),
    configLines_printed plainWord_position _ _ (by decide) (addrFirst d).isLt, recordLines]
  by_cases hw : Writable d
  · rw [if_pos hw, if_pos hw, hwrite, hempty]
    rfl
  · rw [if_neg hw, if_neg hw, List.nil_append, hempty]
    rfl

/-! ## The configuration -/

/-- Lines that begin with a name, if there are any. -/
def BeginsName (lines : List ConfigLine) : Prop := lines = [] ∨ ∃ name rest, lines = .name name :: rest

/-- The directives below a name end at the next one. -/
theorem directivesBelow_append (front : List ConfigLine) {lines : List ConfigLine}
    (h : BeginsName lines) : directivesBelow (front ++ lines) = directivesBelow front := by
  induction front with
  | nil =>
      rcases h with rfl | ⟨name, rest, rfl⟩
      · rfl
      · rfl
  | cons line front ih =>
      cases line with
      | skipped => exact ih
      | name name => rfl
      | directive t => exact congrArg (List.cons (parseConfigLine t)) ih

/-- Parts and parts. -/
theorem configOf_append (front : List ConfigLine) {lines : List ConfigLine} (h : BeginsName lines) :
    configOf (front ++ lines) = configOf front ++ configOf lines := by
  induction front with
  | nil => rfl
  | cons line front ih =>
      cases line with
      | skipped => exact ih
      | name name =>
          rw [List.cons_append, configOf, configOf, directivesBelow_append front h, ih,
            List.cons_append]
      | directive t => exact ih

/-- What is printed for a record is its name, and the directives below it. -/
theorem configOf_recordLines {name : CString} {d : Record}
    (hlong : (addrFirst d).toNat < 0x8000000000000000) :
    configOf (recordLines name d) = [(name, printed d)] := by
  have hvendor := parse_vendor (be64 d vendorOffset)
  have hdevice := parse_device (be32 d deviceOffset)
  have hposition := parse_position hlong
  rw [recordLines, printed, ← hvendor, ← hdevice, ← hposition]
  by_cases hw : Writable d
  · rw [if_pos hw, if_pos hw]
    rfl
  · rw [if_neg hw, if_neg hw]
    rfl

/-- A record that is printed and read back. -/
structure Printable (x : CString × Record) : Prop where
  plain : PlainName x.1
  nonempty : x.1.chars ≠ []
  short : x.1.chars.length < 255
  long : (addrFirst x.2).toNat < 0x8000000000000000

/-- **What is printed for some records is read back**, behind whatever there is in front. -/
theorem configOf_extracted {header : List Byte} (hends : EndsLine header)
    {records : List (CString × Record)} (h : ∀ x ∈ records, Printable x) :
    configOf (configLines (header ++ records.flatMap fun x => configText x.1.chars x.2)) =
      configOf (configLines header) ++ records.map fun x => (x.1, printed x.2) := by
  have hlines : BeginsName (configLines (records.flatMap fun x => configText x.1.chars x.2)) ∧
      configOf (configLines (records.flatMap fun x => configText x.1.chars x.2)) =
        records.map fun x => (x.1, printed x.2) := by
    induction records with
    | nil => exact ⟨Or.inl rfl, rfl⟩
    | cons x records ih =>
        obtain ⟨hplain, hne, hshort, hlong⟩ := h x List.mem_cons_self
        obtain ⟨hbegins, hrest⟩ := ih fun y hy => h y (List.mem_cons_of_mem x hy)
        rw [List.flatMap_cons, configLines_configText hplain hne hshort]
        refine ⟨Or.inr ⟨x.1, _, rfl⟩, ?_⟩
        rw [configOf_append _ hbegins, hrest, configOf_recordLines hlong]
        rfl
  rw [configLines_append _ hends, configOf_append _ hlines.1, hlines.2]

end SdbExtractText
