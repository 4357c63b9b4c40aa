import FpgaConfigSpace.GensdbfsLiteral

/-! # The description of a memory area

    `sdbmem_parse` of `sdb-iomem.c` takes the description of an area apart with two
    `sscanf`, one for either way to give the range, and goes by the number of their
    conversions.  The form of a description is that of the doc.

    `lx` is the `%lx` conversion: the value, and what it leaves of the text.  Of it
    we use that it reads the hexadecimal numbers that fit; what it makes of white
    space, of signs and of larger numbers differs from one library to the other.
    `ioremap` succeeds. -/

namespace SdbIomem

open BigEndian SdbfsOpen Gensdbfs GensdbfsText GensdbfsLiteral

/-- "Invalid argument", as the kernel numbers it. -/
def EINVAL : Int := 22

/-! ## `sdbmem_parse` -/

/-- A directive of a format, of those that are used here. -/
inductive Conversion where
  | literal (c : Byte)
  | lx
  | char

/-- `sscanf`: the values that are assigned, as many as are returned. -/
def sscanf (lx : List Byte → Option (ULong × List Byte)) : List Conversion → List Byte → List ULong
  | [], _ => []
  | .literal _ :: _, [] => []
  | .literal c :: format, d :: t => if d = c then sscanf lx format t else []
  | .lx :: format, t =>
      match lx t with
      | none => []
      | some (v, t) => v :: sscanf lx format t
  | .char :: _, [] => []
  | .char :: format, c :: t => c.setWidth 64 :: sscanf lx format t

/-- "@%lx+%lx=%lx%c", and "@%lx-%lx=%lx%c". -/
def areaFormat (sep : Byte) : List Conversion :=
  [.literal 0x40, .lx, .literal sep, .lx, .literal 0x3d, .lx, .char]

/-- What `sdbmem_parse` sets of a `struct sdbmem`, and what it calls `ioremap` with. -/
structure Sdbmem where
  name : List Byte
  mapped : ULong × ULong
  size : ULong
  datalen : ULong
  entrypoint : ULong

/-- What `sdbmem_parse` does with the values of the last `sscanf`; an entry point that is
    not assigned is zero, by the `memset`. -/
def mapArea (name : List Byte) (minus : Bool) (values : List ULong) : Except Int Sdbmem :=
  match values with
  | addr :: second :: entry =>
      if 3 < values.length then .error (-EINVAL)
      else
        let size := if minus then second - addr else second
        .ok {
          name := name
          mapped := (addr, size)
          size := size
          datalen := size
          entrypoint := entry.head?.getD 0 }
  -- fewer than two conversions
  | _ => .error (-EINVAL)

/-- `sdbmem_parse`. -/
def sdbmemParse (lx : List Byte → Option (ULong × List Byte)) (desc : CString) :
    Except Int Sdbmem :=
  let name := desc.chars.takeWhile (· != 0x40)
  match desc.chars.dropWhile (· != 0x40) with
  | [] => .error (-EINVAL)
  | c :: t =>
      let plus := sscanf lx (areaFormat 0x2b) (c :: t)
      if plus.length = 1 then mapArea name true (sscanf lx (areaFormat 0x2d) (c :: t))
      else mapArea name false plus

/-! ## The form of a description -/

/-- A hexadecimal number that fits an `unsigned long`; it may have "0x" in front. -/
structure HexNumber where
  ex : List Byte
  digits : List Byte
  optional : ex = [] ∨ ex = [0x30, 0x78] ∨ ex = [0x30, 0x58]
  hex : ∀ c ∈ digits, IsDigit 16 c
  nonempty : digits ≠ []
  fits : numberOf 16 digits < 0x10000000000000000

/-- How a number is written. -/
def HexNumber.text (h : HexNumber) : List Byte := h.ex ++ h.digits

/-- The number that is written. -/
def HexNumber.number (h : HexNumber) : Nat := numberOf 16 h.digits

/-- `<name>@<hex-address>{-<hex-end>|+<hex-size>}[=<hex-entry>]`, of a range that is not
    empty. -/
structure Area where
  name : List Byte
  address : HexNumber
  byEnd : Bool
  second : HexNumber
  entry : Option HexNumber
  named : name ≠ []
  noAt : 0x40 ∉ name
  range : if byEnd then address.number < second.number else 0 < second.number

/-- The size of an area: it is written, or the end is. -/
def Area.size (a : Area) : Nat :=
  if a.byEnd then a.second.number - a.address.number else a.second.number

/-- A minus sign stands in front of the end, a plus sign in front of the size. -/
def Area.separator (a : Area) : Byte := if a.byEnd then 0x2d else 0x2b

/-- How the entry point is written, if it is. -/
def entryText : Option HexNumber → List Byte
  | none => []
  | some h => 0x3d :: h.text

/-- How an area is written. -/
def Area.text (a : Area) : List Byte :=
  a.name ++ 0x40 :: (a.address.text ++ a.separator :: (a.second.text ++ entryText a.entry))

/-- The area is mapped, and has its name, size and entry point. -/
structure Maps (m : Sdbmem) (a : Area) : Prop where
  name : m.name = a.name
  address : m.mapped.1.toNat = a.address.number
  length : m.mapped.2.toNat = a.size
  size : m.size.toNat = a.size
  datalen : m.datalen.toNat = a.size
  entrypoint : m.entrypoint.toNat = (a.entry.map HexNumber.number).getD 0

/-- What is accepted has the documented form, what has it is accepted, and is mapped. -/
structure ParsesRight (lx : List Byte → Option (ULong × List Byte)) (desc : CString) : Prop where
  accepts_iff : (∃ m, sdbmemParse lx desc = .ok m) ↔ ∃ a : Area, a.text = desc.chars
  maps : ∀ m (a : Area), sdbmemParse lx desc = .ok m → a.text = desc.chars → Maps m a

/-! ## What the code reads -/

/-- No number goes on with this. -/
def Ends (rest : List Byte) : Prop :=
  ∀ c, rest.head? = some c → ¬ IsDigit 16 c ∧ c ≠ 0x78 ∧ c ≠ 0x58

/-- `%lx` reads hexadecimal numbers. -/
def ReadsHex (lx : List Byte → Option (ULong × List Byte)) : Prop :=
  ∀ (h : HexNumber) (rest : List Byte), Ends rest →
    lx (h.text ++ rest) = some (BitVec.ofNat 64 h.number, rest)

/-- Behind the first "@" there are two things that `%lx` takes for numbers, with a "+" or
    a "-" between. -/
structure Reading (lx : List Byte → Option (ULong × List Byte)) (s : List Byte) where
  name : List Byte
  text : List Byte
  sep : Byte
  tail : List Byte
  rest : List Byte
  first : ULong
  second : ULong
  split : s = name ++ 0x40 :: text
  noAt : 0x40 ∉ name
  separator : sep = 0x2b ∨ sep = 0x2d
  readFirst : lx text = some (first, sep :: tail)
  readSecond : lx tail = some (second, rest)

variable {lx : List Byte → Option (ULong × List Byte)} {s : List Byte}

/-- Behind them there is an entry with something behind it, which is what the `%c` is
    there to find. -/
def Reading.Overrun (r : Reading lx s) : Prop :=
  ∃ t v c t', r.rest = 0x3d :: t ∧ lx t = some (v, c :: t')

/-- There is a name, the numbers are hexadecimal ones that fit, without white space or a
    sign, the range is not empty, and behind it there is nothing, or "=" and such a number. -/
structure Reading.Plain (r : Reading lx s) : Prop where
  named : r.name ≠ []
  first : ∃ h : HexNumber, r.text = h.text ++ r.sep :: r.tail
  second : ∃ h : HexNumber, r.tail = h.text ++ r.rest
  range : if r.sep = 0x2d then r.first.toNat < r.second.toNat else 0 < r.second.toNat
  rest : r.rest = [] ∨ ∃ h : HexNumber, r.rest = 0x3d :: h.text

/-! ## The conversions -/

/-- What the part of the format behind the range assigns. -/
def entryValues (lx : List Byte → Option (ULong × List Byte)) (rest : List Byte) : List ULong :=
  sscanf lx [.literal 0x3d, .lx, .char] rest

/-- At most one value, unless there is something behind an entry. -/
theorem length_entryValues (rest : List Byte) : (entryValues lx rest).length ≤ 1 ∨
    ∃ t v c t', rest = 0x3d :: t ∧ lx t = some (v, c :: t') := by
  cases rest with
  | nil => exact Or.inl (Nat.zero_le 1)
  | cons d t =>
      rw [entryValues, sscanf]
      by_cases hd : d = 0x3d
      · subst hd
        rw [if_pos rfl, sscanf]
        cases hlx : lx t with
        | none => exact Or.inl (Nat.zero_le 1)
        | some r =>
            obtain ⟨v, t'⟩ := r
            cases t' with
            | nil => exact Or.inl (Nat.le_refl 1)
            | cons c t' => exact Or.inr ⟨t, v, c, t', rfl, hlx⟩
      · rw [if_neg hd]
        exact Or.inl (Nat.zero_le 1)

/-- An equals sign with a number behind it gives a value. -/
theorem entryValues_overrun {t : List Byte} {v : ULong} {c : Byte} {t' : List Byte}
    (h : lx t = some (v, c :: t')) : (entryValues lx (0x3d :: t)).length = 2 := by
  rw [entryValues, sscanf, if_pos rfl, sscanf, h]
  rfl

/-- The conversions from the "@" on, for either way to give the range: there are fewer
    than two, or the text can be read in this way. -/
theorem sscanf_areaFormat (sep : Byte) (text : List Byte) :
    (sscanf lx (areaFormat sep) (0x40 :: text)).length ≤ 1 ∨
    ∃ first second tail rest, lx text = some (first, sep :: tail) ∧ lx tail = some (second, rest) ∧
      sscanf lx (areaFormat sep) (0x40 :: text) = first :: second :: entryValues lx rest := by
  rw [areaFormat, sscanf, if_pos rfl, sscanf]
  cases hfirst : lx text with
  | none => exact Or.inl (Nat.zero_le 1)
  | some r =>
      obtain ⟨first, t⟩ := r
      cases t with
      | nil => exact Or.inl (Nat.le_refl 1)
      | cons d tail =>
          by_cases hd : d = sep
          · subst hd
            simp only [sscanf, if_true]
            cases hsecond : lx tail with
            | none => exact Or.inl (Nat.le_refl 1)
            | some r =>
                obtain ⟨second, rest⟩ := r
                exact Or.inr ⟨first, second, tail, rest, rfl, hsecond, rfl⟩
          · simp only [sscanf, if_neg hd]
            exact Or.inl (Nat.le_refl 1)

/-- What the second `sscanf` reads of a good text. -/
theorem sscanf_reading {text tail rest : List Byte} {sep : Byte} {first second : ULong}
    (hfirst : lx text = some (first, sep :: tail)) (hsecond : lx tail = some (second, rest)) :
    sscanf lx (areaFormat sep) (0x40 :: text) = first :: second :: entryValues lx rest := by
  rw [areaFormat, sscanf, if_pos rfl, sscanf, hfirst]
  simp only [sscanf, if_true, hsecond]
  rfl

/-- Behind the first number there is the other sign. -/
theorem sscanf_other {text tail : List Byte} {sep sep' : Byte} {first : ULong}
    (hfirst : lx text = some (first, sep :: tail)) (hne : sep ≠ sep') :
    sscanf lx (areaFormat sep') (0x40 :: text) = [first] := by
  rw [areaFormat, sscanf, if_pos rfl, sscanf, hfirst]
  simp only [sscanf, if_neg hne]

/-! ## What is accepted -/

/-- The values that are stored, if the description is accepted. -/
def Reading.sdbmem (r : Reading lx s) : Sdbmem where
  name := r.name
  mapped := (r.first, if r.sep = 0x2d then r.second - r.first else r.second)
  size := if r.sep = 0x2d then r.second - r.first else r.second
  datalen := if r.sep = 0x2d then r.second - r.first else r.second
  entrypoint := (entryValues lx r.rest).head?.getD 0

/-- The name ends at the first "@". -/
theorem takeWhile_name {name : List Byte} (h : 0x40 ∉ name) (text : List Byte) :
    (name ++ 0x40 :: text).takeWhile (· != 0x40) = name ∧
      (name ++ 0x40 :: text).dropWhile (· != 0x40) = 0x40 :: text := by
  have hne : ∀ c ∈ name, (c != 0x40) = true := by
    intro c hc
    refine bne_iff_ne.mpr ?_
    rintro rfl
    exact h hc
  constructor
  · rw [List.takeWhile_append_of_pos hne]
    simp
  · rw [List.dropWhile_append_of_pos hne]
    rfl

/-- Whether there are too many conversions is up to the entry. -/
theorem too_many (first second : ULong) (values : List ULong) :
    3 < (first :: second :: values).length ↔ ¬ values.length ≤ 1 := by
  rw [List.length_cons, List.length_cons]
  omega

/-- A text that can be read is accepted, unless the `%c` finds something. -/
theorem Reading.parse {desc : CString} (r : Reading lx desc.chars) :
    sdbmemParse lx desc =
      if (entryValues lx r.rest).length ≤ 1 then .ok r.sdbmem else .error (-EINVAL) := by
  obtain ⟨htake, hdrop⟩ := takeWhile_name r.noAt r.text
  rw [← r.split] at htake hdrop
  have hvalues := sscanf_reading r.readFirst r.readSecond
  have hmap : ∀ minus, mapArea r.name minus (r.first :: r.second :: entryValues lx r.rest) =
      if (entryValues lx r.rest).length ≤ 1 then .ok
        { name := r.name
          mapped := (r.first, if minus then r.second - r.first else r.second)
          size := if minus then r.second - r.first else r.second
          datalen := if minus then r.second - r.first else r.second
          entrypoint := (entryValues lx r.rest).head?.getD 0 }
      else .error (-EINVAL) := by
    intro minus
    simp only [mapArea, too_many, ite_not]
  rw [sdbmemParse, hdrop, htake]
  rcases r.separator with hplus | hminus
  · have hsep : ¬ r.sep = 0x2d := by
      rw [hplus]
      decide
    rw [hplus] at hvalues
    simp only [hvalues]
    rw [if_neg (fun h => by cases h), hmap false, Reading.sdbmem, if_neg hsep]
    rfl
  · have hother : sscanf lx (areaFormat 0x2b) (0x40 :: r.text) = [r.first] :=
      sscanf_other r.readFirst (by rw [hminus]; decide)
    have hone : [r.first].length = 1 := rfl
    rw [hminus] at hvalues
    simp only [hother, hvalues]
    rw [if_pos hone, hmap true, Reading.sdbmem, if_pos hminus]
    rfl

/-- An area that is taken has two values at least. -/
theorem two_of_ok {name : List Byte} {minus : Bool} {values : List ULong} {m : Sdbmem}
    (h : mapArea name minus values = .ok m) : ¬ values.length ≤ 1 := by
  intro hle
  rcases values with _ | ⟨addr, _ | ⟨second, entry⟩⟩
  · cases h
  · cases h
  · exact absurd hle (by simp)

/-- Nothing else is accepted. -/
theorem reading_of_ok {desc : CString} {m : Sdbmem} (h : sdbmemParse lx desc = .ok m) :
    Nonempty (Reading lx desc.chars) := by
  rw [sdbmemParse] at h
  cases hat : desc.chars.dropWhile (· != 0x40) with
  | nil =>
      rw [hat] at h
      cases h
  | cons c text =>
      rw [hat] at h
      have hc : c = 0x40 := by
        have hnot := List.head?_dropWhile_not (· != 0x40) desc.chars
        rw [hat] at hnot
        simpa using hnot
      subst hc
      have hsplit : desc.chars = desc.chars.takeWhile (· != 0x40) ++ 0x40 :: text := by
        rw [← hat]
        exact List.takeWhile_append_dropWhile.symm
      have hnoAt : (0x40 : Byte) ∉ desc.chars.takeWhile (· != 0x40) := by
        intro hmem
        have hne := List.mem_takeWhile_imp hmem
        simp at hne
      -- one of the two formats got two conversions
      have hread : ∀ sep, sep = 0x2b ∨ sep = 0x2d →
          ¬ (sscanf lx (areaFormat sep) (0x40 :: text)).length ≤ 1 →
          Nonempty (Reading lx desc.chars) := by
        intro sep hsep htwo
        rcases @sscanf_areaFormat lx sep text with hle | ⟨first, second, tail, rest, h1, h2, -⟩
        · exact absurd hle htwo
        · exact ⟨⟨_, text, sep, tail, rest, first, second, hsplit, hnoAt, hsep, h1, h2⟩⟩
      simp only at h
      split at h
      · exact hread 0x2d (Or.inr rfl) (two_of_ok h)
      · exact hread 0x2b (Or.inl rfl) (two_of_ok h)

/-! ## What a description says, and what is read of it -/

/-- No hexadecimal number goes on with such a character. -/
theorem ends_cons {c : Byte} (h : ¬ IsDigit 16 c ∧ c ≠ 0x78 ∧ c ≠ 0x58) (t : List Byte) :
    Ends (c :: t) := by
  intro d hd
  cases hd
  exact h

theorem ends_plus : ¬ IsDigit 16 0x2b ∧ (0x2b : Byte) ≠ 0x78 ∧ (0x2b : Byte) ≠ 0x58 := by decide
theorem ends_minus : ¬ IsDigit 16 0x2d ∧ (0x2d : Byte) ≠ 0x78 ∧ (0x2d : Byte) ≠ 0x58 := by decide
theorem ends_equals : ¬ IsDigit 16 0x3d ∧ (0x3d : Byte) ≠ 0x78 ∧ (0x3d : Byte) ≠ 0x58 := by decide

theorem ends_nil : Ends [] := by
  intro c hc
  cases hc

/-- Neither separator is a part of a number. -/
theorem ends_separator (sep : Byte) (h : sep = 0x2b ∨ sep = 0x2d) (t : List Byte) :
    Ends (sep :: t) := by
  rcases h with rfl | rfl
  · exact ends_cons ends_plus t
  · exact ends_cons ends_minus t

theorem Area.separator_cases (a : Area) : a.separator = 0x2b ∨ a.separator = 0x2d := by
  rw [Area.separator]
  split
  · exact Or.inr rfl
  · exact Or.inl rfl

theorem Area.separator_minus (a : Area) : a.separator = 0x2d ↔ a.byEnd = true := by
  rw [Area.separator]
  cases a.byEnd with
  | true => exact ⟨fun _ => rfl, fun _ => rfl⟩
  | false => decide

/-- Nor is the sign in front of the entry point. -/
theorem ends_entryText (entry : Option HexNumber) : Ends (entryText entry) := by
  cases entry with
  | none => exact ends_nil
  | some h => exact ends_cons ends_equals h.text

/-- A description of the documented form, read: its parts are those of the description. -/
structure Reading.Of (r : Reading lx s) (a : Area) : Prop where
  name : r.name = a.name
  text : r.text = a.address.text ++ r.sep :: r.tail
  tail : r.tail = a.second.text ++ r.rest
  rest : r.rest = entryText a.entry
  sep : r.sep = a.separator
  first : r.first = BitVec.ofNat 64 a.address.number
  second : r.second = BitVec.ofNat 64 a.second.number

/-- The first "@" is where the name ends. -/
theorem split_unique {name name' text text' : List Byte} (h : (0x40 : Byte) ∉ name)
    (h' : 0x40 ∉ name') (heq : name ++ 0x40 :: text = name' ++ 0x40 :: text') :
    name = name' ∧ text = text' := by
  obtain ⟨htake, hdrop⟩ := takeWhile_name h text
  obtain ⟨htake', hdrop'⟩ := takeWhile_name h' text'
  rw [heq] at htake hdrop
  exact ⟨htake.symm.trans htake', List.cons_injective (hdrop.symm.trans hdrop')⟩

/-- What `%lx` reads of the two numbers. -/
theorem Area.reads (hlx : ReadsHex lx) (a : Area) :
    lx (a.address.text ++ a.separator :: (a.second.text ++ entryText a.entry)) =
      some (BitVec.ofNat 64 a.address.number, a.separator :: (a.second.text ++ entryText a.entry)) ∧
    lx (a.second.text ++ entryText a.entry) =
      some (BitVec.ofNat 64 a.second.number, entryText a.entry) :=
  ⟨hlx _ _ (ends_separator _ a.separator_cases _), hlx _ _ (ends_entryText a.entry)⟩

/-- Any reading of it is of this kind. -/
theorem Area.of (hlx : ReadsHex lx) (a : Area) (h : a.text = s) (r : Reading lx s) : r.Of a := by
  obtain ⟨hname, htext⟩ := split_unique r.noAt a.noAt (r.split.symm.trans h.symm)
  obtain ⟨haddress, hsecond⟩ := a.reads hlx
  have hfirst := r.readFirst
  rw [htext, haddress] at hfirst
  obtain ⟨hv, hrest⟩ := Prod.mk.inj (Option.some.inj hfirst)
  obtain ⟨hsep, htail⟩ := List.cons.inj hrest
  have hread := r.readSecond
  rw [← htail, hsecond] at hread
  obtain ⟨hv', hrest'⟩ := Prod.mk.inj (Option.some.inj hread)
  refine ⟨hname, ?_, ?_, hrest'.symm, hsep.symm, hv.symm, hv'.symm⟩
  · rw [htext, hrest]
  · rw [← htail, hrest']

/-- And there is one. -/
theorem Area.reading (hlx : ReadsHex lx) (a : Area) (h : a.text = s) : Nonempty (Reading lx s) :=
  ⟨⟨a.name, _, a.separator, _, _, _, _, h.symm, a.noAt, a.separator_cases, (a.reads hlx).1,
    (a.reads hlx).2⟩⟩

theorem HexNumber.toNat_ofNat (h : HexNumber) : (BitVec.ofNat 64 h.number).toNat = h.number := by
  rw [BitVec.toNat_ofNat]
  exact Nat.mod_eq_of_lt h.fits

/-- An entry is one value, and nothing is found behind it. -/
theorem entryValues_entryText (hlx : ReadsHex lx) (entry : Option HexNumber) :
    entryValues lx (entryText entry) =
      (entry.map fun h => BitVec.ofNat 64 h.number).toList := by
  cases entry with
  | none => rfl
  | some h =>
      have hread := hlx h [] ends_nil
      rw [List.append_nil] at hread
      simp only [entryText, entryValues, sscanf, if_true, hread]
      rfl

/-- A third value is there, or not. -/
theorem Reading.overrun_iff (r : Reading lx s) :
    r.Overrun ↔ ¬ (entryValues lx r.rest).length ≤ 1 := by
  constructor
  · rintro ⟨t, v, c, t', hrest, hread⟩
    rw [hrest, entryValues_overrun hread]
    decide
  · intro h
    exact (length_entryValues r.rest).resolve_left h

/-! ## Every description -/

/-- What has the documented form is accepted, and mapped. -/
theorem Area.parse (hlx : ReadsHex lx) (a : Area) {desc : CString} (h : a.text = desc.chars)
    (r : Reading lx desc.chars) : sdbmemParse lx desc = .ok r.sdbmem ∧ Maps r.sdbmem a := by
  have hof := a.of hlx h r
  have hvalues := entryValues_entryText hlx a.entry
  rw [← hof.rest] at hvalues
  have hfirst : r.first.toNat = a.address.number := by rw [hof.first, a.address.toNat_ofNat]
  have hsecond : r.second.toNat = a.second.number := by rw [hof.second, a.second.toNat_ofNat]
  constructor
  · rw [r.parse, hvalues]
    cases a.entry <;> rfl
  · have hsize : (if r.sep = 0x2d then r.second - r.first else r.second).toNat = a.size := by
      have hrange := a.range
      rw [hof.sep, Area.size]
      by_cases hend : a.byEnd = true
      · rw [if_pos hend] at hrange
        rw [if_pos (a.separator_minus.mpr hend), if_pos hend, BitVec.toNat_sub, hfirst, hsecond]
        have hlt := a.second.fits
        have hdef : numberOf 16 a.second.digits = a.second.number := rfl
        omega
      · rw [if_neg (mt a.separator_minus.mp hend), if_neg hend, hsecond]
    refine ⟨hof.name, hfirst, hsize, hsize, hsize, ?_⟩
    rw [Reading.sdbmem, hvalues]
    cases a.entry with
    | none => rfl
    | some h => exact h.toNat_ofNat

/-- What is read plainly has the documented form. -/
theorem Reading.Plain.area (hlx : ReadsHex lx) {r : Reading lx s} (h : r.Plain) :
    ∃ a : Area, a.text = s := by
  obtain ⟨address, htext⟩ := h.first
  obtain ⟨second, htail⟩ := h.second
  obtain ⟨entry, hrest⟩ : ∃ entry, r.rest = entryText entry := by
    rcases h.rest with hnil | ⟨e, he⟩
    · exact ⟨none, hnil⟩
    · exact ⟨some e, he⟩
  have hfirst : r.first.toNat = address.number := by
    have hread := r.readFirst
    rw [htext, hlx address _ (ends_separator r.sep r.separator r.tail)] at hread
    rw [← (Prod.mk.inj (Option.some.inj hread)).1, address.toNat_ofNat]
  have hsecond : r.second.toNat = second.number := by
    have hread := r.readSecond
    rw [htail, hrest, hlx second _ (ends_entryText entry)] at hread
    rw [← (Prod.mk.inj (Option.some.inj hread)).1, second.toNat_ofNat]
  have hrange := h.range
  rw [hfirst, hsecond] at hrange
  let a : Area := ⟨r.name, address, decide (r.sep = 0x2d), second, entry, h.named, r.noAt, by
    simpa using hrange⟩
  have hsep : a.separator = r.sep := by
    show (if decide (r.sep = 0x2d) = true then (0x2d : Byte) else 0x2b) = r.sep
    rcases r.separator with hplus | hminus
    · rw [hplus]
      rfl
    · rw [hminus]
      rfl
  refine ⟨a, ?_⟩
  rw [r.split, htext, htail, hrest, Area.text, hsep]

/-- A description of the documented form is read plainly. -/
theorem Reading.Of.plain {r : Reading lx s} {a : Area} (hof : r.Of a) : r.Plain := by
  refine ⟨?_, ⟨a.address, hof.text⟩, ⟨a.second, hof.tail⟩, ?_, ?_⟩
  · rw [hof.name]
    exact a.named
  · have hrange := a.range
    rw [hof.first, hof.second, a.address.toNat_ofNat, a.second.toNat_ofNat, hof.sep]
    simpa only [a.separator_minus] using hrange
  · rw [hof.rest]
    cases a.entry with
    | none => exact Or.inl rfl
    | some e => exact Or.inr ⟨e, rfl⟩

/-- **When the parser does what the doc says.**  The descriptions that are accepted are
    those of the documented form, and they are mapped accordingly, exactly if whenever a
    description can be read and has no text behind an entry, it has a name, plain numbers
    that fit, a range that is not empty, and nothing behind that but an entry. -/
theorem parsesRight_iff (lx : List Byte → Option (ULong × List Byte)) (hlx : ReadsHex lx)
    (desc : CString) :
    ParsesRight lx desc ↔ ∀ r : Reading lx desc.chars, r.Overrun ∨ r.Plain := by
  constructor
  · intro h r
    refine or_iff_not_imp_left.mpr fun hnot => ?_
    have hle : (entryValues lx r.rest).length ≤ 1 := not_not.mp (mt r.overrun_iff.mpr hnot)
    have hok : sdbmemParse lx desc = .ok r.sdbmem := by rw [r.parse, if_pos hle]
    obtain ⟨a, ha⟩ := h.accepts_iff.mp ⟨_, hok⟩
    exact (a.of hlx ha r).plain
  · intro h
    refine ⟨⟨?_, ?_⟩, ?_⟩
    · rintro ⟨m, hm⟩
      obtain ⟨r⟩ := reading_of_ok hm
      have hle : (entryValues lx r.rest).length ≤ 1 := by
        by_contra hnot
        rw [r.parse, if_neg hnot] at hm
        cases hm
      exact ((h r).resolve_left fun hover => r.overrun_iff.mp hover hle).area hlx
    · rintro ⟨a, ha⟩
      obtain ⟨r⟩ := a.reading hlx ha
      exact ⟨_, (a.parse hlx ha r).1⟩
    · intro m a hm ha
      obtain ⟨r⟩ := a.reading hlx ha
      obtain ⟨hok, hmaps⟩ := a.parse hlx ha r
      rw [hm] at hok
      cases hok
      exact hmaps

/-! ## The conversion of ISO C -/

/-- Whether there is a minus sign, and what is behind the sign. -/
def scanSign : List Byte → Bool × List Byte
  | [] => (false, [])
  | c :: t => if c = 0x2d then (true, t) else if c = 0x2b then (false, t) else (false, c :: t)

/-- `%lx`, as in ISO C: white space, a sign and a "0x" may stand in front of the digits. -/
def scanLx (t : List Byte) : Option (ULong × List Byte) :=
  let signed := scanSign (t.dropWhile isspace)
  let t := (afterHexPrefix signed.2).getD signed.2
  (scanNumber 16 t).map fun n : Nat =>
    (toULong (if signed.1 then -(n : Int) else (n : Int)), t.drop (digits 16 t).length)

/-- The digits end where the number does. -/
theorem digits_append {t rest : List Byte} (h : ∀ c ∈ t, IsDigit 16 c) (hrest : Ends rest) :
    digits 16 (t ++ rest) = t.map valueOf := by
  induction t with
  | nil =>
      cases rest with
      | nil => rfl
      | cons c rest =>
          have hc := (hrest c rfl).1
          rw [List.nil_append, digits]
          cases hd : digitValue c with
          | none => rfl
          | some d => exact if_neg fun hlt => hc ⟨d, hd, hlt⟩
  | cons c t ih =>
      have hc := h c List.mem_cons_self
      rw [List.cons_append, digits, digitValue_eq hc, List.map_cons,
        ← ih fun d hd => h d (List.mem_cons_of_mem c hd)]
      exact if_pos (valueOf_lt hc)

/-- Digits, up to what no number goes on with. -/
theorem scanNumber_append {t rest : List Byte} (h : ∀ c ∈ t, IsDigit 16 c) (hne : t ≠ [])
    (hrest : Ends rest) : scanNumber 16 (t ++ rest) = some (numberOf 16 t) ∧
      (t ++ rest).drop (digits 16 (t ++ rest)).length = rest := by
  have hdigits := digits_append h hrest
  constructor
  · rw [scanNumber, hdigits, if_neg fun hnil => hne (List.map_eq_nil_iff.mp hnil), List.foldl_map]
    rfl
  · rw [hdigits, List.length_map]
    exact List.drop_left

/-- In front of digits there is no other "0x". -/
theorem afterHexPrefix_append {t rest : List Byte} (h : ∀ c ∈ t, IsDigit 16 c) (hne : t ≠ [])
    (hrest : Ends rest) : afterHexPrefix (t ++ rest) = none := by
  have hnot : ∀ (c d : Byte) (u : List Byte), d ≠ 0x78 → d ≠ 0x58 →
      afterHexPrefix (c :: d :: u) = none :=
    fun c d u h78 h58 => if_neg fun hx => hx.2.elim h78 h58
  rcases t with _ | ⟨c, _ | ⟨d, t⟩⟩
  · exact absurd rfl hne
  · cases rest with
    | nil => rfl
    | cons d rest => exact hnot c d rest (hrest d rfl).2.1 (hrest d rfl).2.2
  · have hd := digit_plain (h d (List.mem_cons_of_mem c List.mem_cons_self))
    exact hnot c d (t ++ rest) hd.2.2.2.1 hd.2.2.2.2

/-- A number without a sign. -/
theorem scanSign_digit {c : Byte} (hc : isspace c = false ∧ c ≠ 0x2d ∧ c ≠ 0x2b) (t : List Byte) :
    scanSign ((c :: t).dropWhile isspace) = (false, c :: t) := by
  rw [List.dropWhile_cons_of_neg (by rw [hc.1]; exact Bool.false_ne_true), scanSign,
    if_neg hc.2.1, if_neg hc.2.2]

/-- The `%lx` of the library reads what is written. -/
theorem readsHex_scanLx : ReadsHex scanLx := by
  intro h rest hrest
  obtain ⟨hscan, hdrop⟩ := scanNumber_append h.hex h.nonempty hrest
  have hvalue : toULong (h.number : Int) = BitVec.ofNat 64 h.number := by
    have hfits := h.fits
    have hdef : numberOf 16 h.digits = h.number := rfl
    rw [toULong, Int.natAbs_natCast, if_neg (by omega), BitVec.ofInt_natCast]
  -- what is behind the sign and the "0x" are the digits
  have hstart : (scanSign ((h.text ++ rest).dropWhile isspace)).1 = false ∧
      (afterHexPrefix (scanSign ((h.text ++ rest).dropWhile isspace)).2).getD
        (scanSign ((h.text ++ rest).dropWhile isspace)).2 = h.digits ++ rest := by
    have hzero : isspace 0x30 = false ∧ (0x30 : Byte) ≠ 0x2d ∧ (0x30 : Byte) ≠ 0x2b := by decide
    rw [HexNumber.text]
    rcases h.optional with hnil | hx | hx
    · rw [hnil, List.nil_append]
      obtain ⟨c, t, hct⟩ := List.exists_cons_of_ne_nil h.nonempty
      have hc := digit_plain (h.hex c (hct ▸ List.mem_cons_self))
      have hnone := afterHexPrefix_append h.hex h.nonempty hrest
      rw [hct, List.cons_append] at hnone ⊢
      rw [scanSign_digit ⟨hc.1, hc.2.1, hc.2.2.1⟩, hnone]
      exact ⟨rfl, rfl⟩
    · rw [hx]
      refine ⟨congrArg Prod.fst (scanSign_digit hzero _), ?_⟩
      exact congrArg (fun s => (afterHexPrefix s.2).getD s.2) (scanSign_digit hzero _)
    · rw [hx]
      refine ⟨congrArg Prod.fst (scanSign_digit hzero _), ?_⟩
      exact congrArg (fun s => (afterHexPrefix s.2).getD s.2) (scanSign_digit hzero _)
  simp only [scanLx, hstart.1, hstart.2, hscan, hdrop, Option.map_some]
  rw [if_neg Bool.false_ne_true]
  exact congrArg (fun v => some (v, rest)) hvalue

/-! ## Two descriptions -/

/-- The number "10". -/
def hexTen : HexNumber :=
  ⟨[], [0x31, 0x30], Or.inl rfl, by decide, List.cons_ne_nil _ _, by decide⟩

/-- The number "20". -/
def hexTwenty : HexNumber :=
  ⟨[], [0x32, 0x30], Or.inl rfl, by decide, List.cons_ne_nil _ _, by decide⟩

/-- "n@10+20". -/
def sizedArea : Area :=
  ⟨[0x6e], hexTen, false, hexTwenty, none, List.cons_ne_nil _ _, by decide, by decide⟩

theorem parsesRight_sized : ParsesRight scanLx ⟨sizedArea.text, by decide⟩ :=
  (parsesRight_iff scanLx readsHex_scanLx ⟨sizedArea.text, by decide⟩).mpr fun r =>
    Or.inr (sizedArea.of readsHex_scanLx rfl r).plain

/-- "n@10+20junk". -/
def junkDesc : CString :=
  ⟨[0x6e, 0x40, 0x31, 0x30, 0x2b, 0x32, 0x30, 0x6a, 0x75, 0x6e, 0x6b], by decide⟩

/-- The text behind the size is not looked at. -/
theorem parsesWrong_junk :
    sdbmemParse scanLx junkDesc = .ok ⟨[0x6e], (0x10, 0x20), 0x20, 0x20, 0⟩ ∧
      ¬ ParsesRight scanLx junkDesc := by
  have hok : sdbmemParse scanLx junkDesc = .ok ⟨[0x6e], (0x10, 0x20), 0x20, 0x20, 0⟩ := by rfl
  refine ⟨hok, fun h => ?_⟩
  obtain ⟨a, ha⟩ := h.accepts_iff.mp ⟨_, hok⟩
  let r : Reading scanLx junkDesc.chars :=
    ⟨[0x6e], [0x31, 0x30, 0x2b, 0x32, 0x30, 0x6a, 0x75, 0x6e, 0x6b], 0x2b,
      [0x32, 0x30, 0x6a, 0x75, 0x6e, 0x6b], [0x6a, 0x75, 0x6e, 0x6b], 0x10, 0x20, rfl, by decide,
      Or.inl rfl, by rfl, by rfl⟩
  have hrest : [0x6a, 0x75, 0x6e, 0x6b] = entryText a.entry := (a.of readsHex_scanLx ha r).rest
  cases hentry : a.entry with
  | none =>
      rw [hentry] at hrest
      cases hrest
  | some e =>
      rw [hentry] at hrest
      cases hrest

end SdbIomem
