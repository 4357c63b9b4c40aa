import FpgaConfigSpace.SdbExtractText
import FpgaConfigSpace.GensdbfsFlat
import FpgaConfigSpace.SdbfsSearch

/-! # What comes back of a record

    A record is taken apart into a name, the mode of a file, and some lines of text, and
    `gensdbfs` puts another one together from them.  Each field goes its own way: the name
    through its padding, the flags through the mode and a directive, and the identifiers
    and the address through directives. -/

namespace SdbExtractFields

open BigEndian SdbRecord SdbFields SdbfsOpen SdbfsSearch Gensdbfs GensdbfsText GensdbfsConfig
open GensdbfsFrame GensdbfsErase GensdbfsMoved GensdbfsCount GensdbfsFlat SdbExtract SdbExtractText

/-! ## The name -/

/-- A name that a record can hold, and from which no blank is taken. -/
structure FieldName (name : CString) : Prop where
  nonempty : name.chars ≠ []
  fits : name.chars.length ≤ 19
  last : name.chars.getLast? ≠ some 0x20

theorem fieldName_dot : FieldName dotName := ⟨by decide, by decide, by decide⟩

/-- The name of a record, by its bytes. -/
theorem productName_of_bytes {r : Record} {field : List Byte} (hlen : field.length = 19)
    (h : ∀ i b, field[i]? = some b → byteAt r (0x2c + i) = b) : productName r = field := by
  refine List.ext_getElem? fun i => ?_
  rw [productName, List.getElem?_ofFn]
  by_cases hi : i < 19
  · obtain ⟨b, hb⟩ : ∃ b, field[i]? = some b := ⟨_, List.getElem?_eq_getElem (by omega)⟩
    rw [dif_pos hi, hb, ← h i b hb]
    refine congrArg some (apply_eq_byteAt r ?_)
    rw [val_add (by show 0x2c + i < 64; omega)]
    rfl
  · rw [dif_neg hi, List.getElem?_eq_none (by omega)]

/-- A name that fits is padded with blanks. -/
theorem productName_fillProduct {name : CString} (hfits : name.chars.length ≤ 19) (r : Record)
    (t : Byte) : productName (fillProduct r name t) = paddedName name := by
  have hlen : (paddedName name).length = 19 := by
    rw [paddedName, List.length_append, List.length_replicate]
    omega
  refine productName_of_bytes hlen fun i b hb => ?_
  have hi : i < 19 := by
    rw [← hlen]
    exact (List.getElem?_eq_some_iff.mp hb).1
  have hfield : name.chars.take 19 ++ List.replicate (19 - (name.chars.take 19).length) 0x20 =
      paddedName name := by
    rw [List.take_of_length_le hfits]
    rfl
  rw [fillProduct]
  simp only [hfield]
  rw [setRecordType, byteAt_setBytes_of_outside _ (Or.inl (by omega)), setVersion,
    byteAt_setBytes_of_outside _ (Or.inr (by simp; omega)), setVendorId,
    byteAt_setBytes_of_outside _ (Or.inr (by simp; omega)),
    byteAt_setBytes_of_outside _ (Or.inr (by rw [List.length_take]; omega)), setName,
    byteAt_setBytes_add _ (by omega) hb]

/-- The blanks are taken off again. -/
theorem extractName_padded {name : CString} (h : FieldName name) {d : Record}
    (hname : productName d = paddedName name) : extractName d = some name.chars := by
  have htext : (paddedName name).takeWhile (· ≠ 0) = paddedName name := by
    refine List.takeWhile_eq_self_iff.mpr fun c hc => decide_eq_true ?_
    rw [paddedName] at hc
    rcases List.mem_append.mp hc with hc | hc
    · exact fun hzero => name.noNul (hzero ▸ hc)
    · rw [(List.mem_replicate.mp hc).2]
      decide
  obtain ⟨front, c, hsplit⟩ : ∃ front c, name.chars = front ++ [c] :=
    ⟨_, _, (List.dropLast_append_getLast h.nonempty).symm⟩
  have hc : c ≠ 0x20 := by
    rintro rfl
    exact h.last (by rw [hsplit, List.getLast?_concat])
  have hdrop : (paddedName name).reverse.dropWhile (· = 0x20) = c :: front.reverse := by
    rw [paddedName, List.reverse_append, List.reverse_replicate, List.dropWhile_append_of_pos,
      hsplit, List.reverse_concat, List.dropWhile_cons_of_neg (by simpa using hc)]
    intro d hd
    exact decide_eq_true (List.mem_replicate.mp hd).2
  rw [extractName, hname, htext, hdrop]
  simp only [List.reverse_cons, List.reverse_reverse, hsplit]

/-! ## The flags -/

/-- A word with another write flag. -/
def withWrite (bus : Word) (on : Bool) : Word := if on then bus ||| 0x02 else bus &&& ~~~0x02

theorem writeFlag_getLsbD {i : Nat} (hi : i < 32) :
    BitVec.getLsbD (0x02 : Word) i = decide (i = 1) := by
  have hall : ∀ i : Fin 32, BitVec.getLsbD (0x02 : Word) i.val = decide (i.val = 1) := by decide
  exact hall ⟨i, hi⟩

/-- Only bit 1 is the flag's. -/
theorem withWrite_getLsbD (bus : Word) (on : Bool) {i : Nat} (hi : i < 32) :
    (withWrite bus on).getLsbD i = if i = 1 then on else bus.getLsbD i := by
  have hmask := writeFlag_getLsbD hi
  cases on with
  | true =>
      rw [withWrite, if_pos rfl, BitVec.getLsbD_or, hmask]
      by_cases h : i = 1
      · rw [if_pos h, decide_eq_true h, Bool.or_true]
      · rw [if_neg h, decide_eq_false h, Bool.or_false]
  | false =>
      rw [withWrite, if_neg (by decide), BitVec.getLsbD_and, BitVec.getLsbD_not, hmask,
        decide_eq_true hi, Bool.true_and]
      by_cases h : i = 1
      · rw [if_pos h, decide_eq_true h, Bool.not_true, Bool.and_false]
      · rw [if_neg h, decide_eq_false h, Bool.not_false, Bool.and_true]

/-- The flag that is set last counts. -/
theorem withWrite_withWrite (bus : Word) (on on' : Bool) :
    withWrite (withWrite bus on) on' = withWrite bus on' := by
  refine BitVec.eq_of_getLsbD_eq fun i hi => ?_
  rw [withWrite_getLsbD _ _ hi, withWrite_getLsbD _ _ hi, withWrite_getLsbD _ _ hi]
  split <;> rfl

/-- Setting the flag as it is. -/
theorem withWrite_self (bus : Word) : withWrite bus (bus.getLsbD 1) = bus := by
  refine BitVec.eq_of_getLsbD_eq fun i hi => ?_
  rw [withWrite_getLsbD _ _ hi]
  by_cases h : i = 1
  · rw [if_pos h, h]
  · exact if_neg h

/-- A record is writable exactly if bit 1 of its flags is set. -/
theorem writable_iff (r : Record) : Writable r ↔ (busSpecific r).getLsbD 1 = true := by
  rw [Writable, ← not_iff_not, not_not, Bool.not_eq_true, SDB_DATA_WRITE]
  constructor
  · intro h
    have hbit := congrArg (BitVec.getLsbD · 1) h
    rw [BitVec.getLsbD_and, writeFlag_getLsbD (by decide), decide_eq_true rfl, Bool.and_true] at hbit
    exact hbit
  · intro h
    refine BitVec.eq_of_getLsbD_eq fun i hi => ?_
    have hzero : BitVec.getLsbD (0 : Word) i = false := BitVec.getLsbD_zero
    rw [BitVec.getLsbD_and, writeFlag_getLsbD hi, hzero]
    by_cases hone : i = 1
    · rw [hone, h, Bool.false_and]
    · rw [decide_eq_false hone, Bool.and_false]

theorem writable_iff_writeBit (r : Record) : Writable r ↔ writeBit r = true := by
  have hbit : byteAt r 7 = byteOf (busSpecific r) 3 := by rw [busSpecific_eq, byteOf_wordOf_three]
  rw [writable_iff, writeBit, hbit, byteOf, BitVec.getLsbD_extractLsb']
  exact Iff.rfl

section

variable (level : Nat) (f : Sdbf) (ds : List Directive)

/-- A directive changes no flag but that one. -/
theorem busSpecific_applyDirective (d : Directive) : ∃ on,
    busSpecific (applyDirective level f d).record = withWrite (busSpecific f.record) on := by
  cases d with
  | vendor id =>
      refine ⟨(busSpecific f.record).getLsbD 1, ?_⟩
      rw [withWrite_self]
      exact be32_setBytes_of_outside f.record (by decide) (Or.inl (by decide))
  | device id =>
      refine ⟨(busSpecific f.record).getLsbD 1, ?_⟩
      rw [withWrite_self]
      exact be32_setBytes_of_outside f.record (by decide) (Or.inl (by decide))
  | write on => exact ⟨on, be32_setBytes f.record (k := busOffset) (by decide) _⟩
  | maxsize size => exact ⟨(busSpecific f.record).getLsbD 1, (withWrite_self _).symm⟩
  | position start =>
      refine ⟨(busSpecific f.record).getLsbD 1, ?_⟩
      rw [withWrite_self, applyDirective]
      split <;> rfl
  | unknown => exact ⟨(busSpecific f.record).getLsbD 1, (withWrite_self _).symm⟩

/-- **A configuration changes the write flag, and nothing else of the flags.** -/
theorem busSpecific_foldl : busSpecific (ds.foldl (applyDirective level) f).record =
    withWrite (busSpecific f.record)
      (decide (Writable (ds.foldl (applyDirective level) f).record)) := by
  obtain ⟨on, hon⟩ : ∃ on, busSpecific (ds.foldl (applyDirective level) f).record =
      withWrite (busSpecific f.record) on := by
    induction ds using List.reverseRecOn with
    | nil => exact ⟨(busSpecific f.record).getLsbD 1, (withWrite_self _).symm⟩
    | append_singleton ds d ih =>
        obtain ⟨on, hon⟩ := ih
        obtain ⟨on', hd⟩ := busSpecific_applyDirective level (ds.foldl (applyDirective level) f) d
        refine ⟨on', ?_⟩
        rw [List.foldl_append, List.foldl_cons, List.foldl_nil, hd, hon, withWrite_withWrite]
  have hbit : (busSpecific (ds.foldl (applyDirective level) f).record).getLsbD 1 = on := by
    rw [hon, withWrite_getLsbD _ _ (by decide), if_pos rfl]
  have hflag : decide (Writable (ds.foldl (applyDirective level) f).record) = on :=
    Bool.eq_iff_iff.mpr ((decide_eq_true_iff.trans (writable_iff _)).trans (by rw [hbit]))
  rw [hflag, hon]

end

/-- The flags of a file, with any write flag. -/
theorem withWrite_fileFlags (file : RegularFile) (on : Bool) :
    withWrite (fileFlags file) on =
      (if file.iroth then 0x04 else 0) ||| (if on then 0x02 else 0) |||
        (if file.ixoth then 0x01 else 0) := by
  rw [fileFlags]
  cases file.iroth <;> cases file.iwoth <;> cases file.ixoth <;> cases on <;> rfl

/-- The flags that a file is given. -/
theorem busSpecific_fillFile (blocksize : BitVec 32) (level : Nat) (name : CString)
    (file : RegularFile) :
    busSpecific (fillFile blocksize level name file).record = fileFlags file := by
  have hbyte : ∀ n, n < 0x18 → byteAt (fillFile blocksize level name file).record n =
      byteAt (setBusSpecific emptyRecord (fileFlags file)) n := fun n hn =>
    byteAt_fillProduct _ _ _ hn
  rw [busSpecific_eq, hbyte 4 (by decide), hbyte 5 (by decide), hbyte 6 (by decide),
    hbyte 7 (by decide), ← busSpecific_eq]
  exact be32_setBytes emptyRecord (k := busOffset) (by decide) (fileFlags file)

/-- The mode of an extracted file says what the flags say, and that it can be read. -/
theorem fileMode_bits (d : Record) : (fileMode d).testBit 2 = true ∧
    (fileMode d).testBit 1 = decide (Writable d) ∧
      (fileMode d).testBit 0 = decide (busSpecific d &&& SDB_DATA_EXEC ≠ 0) := by
  have hmode : fileMode d = 0o444 ||| (if Writable d then 0o222 else 0) |||
      (if busSpecific d &&& SDB_DATA_EXEC ≠ 0 then 0o111 else 0) := rfl
  rw [hmode]
  by_cases hw : Writable d
  · rw [if_pos hw, decide_eq_true hw]
    by_cases hx : busSpecific d &&& SDB_DATA_EXEC ≠ 0
    · rw [if_pos hx, decide_eq_true hx]
      decide
    · rw [if_neg hx, decide_eq_false hx]
      decide
  · rw [if_neg hw, decide_eq_false hw]
    by_cases hx : busSpecific d &&& SDB_DATA_EXEC ≠ 0
    · rw [if_pos hx, decide_eq_true hx]
      decide
    · rw [if_neg hx, decide_eq_false hx]
      decide

/-! ## The directives -/

/-- What the lines of a record make of an entry. -/
structure ReadBack (r : Record) (f g : Sdbf) : Prop where
  unnamed : Unnamed f g
  userpos : g.userpos = true
  ustart : g.ustart = addrFirst r
  size : g.size = f.size
  vendor : be64 g.record vendorOffset = be64 r vendorOffset
  device : be32 g.record deviceOffset = be32 r deviceOffset
  writable : Writable g.record ↔ Writable r ∨ Writable f.record

/-- **What was printed is read back**, into any entry. -/
theorem readBack_printed (r : Record) (f : Sdbf) :
    ReadBack r f ((printed r).foldl (applyDirective 0) f) := by
  have hunnamed := foldl_unnamed 0 f (printed r)
  -- the identifiers, before the flag
  let named := setDeviceId (setVendorId f.record (be64 r vendorOffset)) (be32 r deviceOffset)
  have hvendor : be64 named vendorOffset = be64 r vendorOffset :=
    (be64_setBytes_of_outside _ (by decide) (Or.inl (by decide))).trans
      (be64_setBytes f.record (k := vendorOffset) (by decide) _)
  have hdevice : be32 named deviceOffset = be32 r deviceOffset :=
    be32_setBytes _ (k := deviceOffset) (by decide) _
  have hbus : busSpecific named = busSpecific f.record :=
    (be32_setBytes_of_outside _ (by decide) (Or.inl (by decide))).trans
      (be32_setBytes_of_outside f.record (by decide) (Or.inl (by decide)))
  by_cases hw : Writable r
  · have hfold : (printed r).foldl (applyDirective 0) f =
        { f with
          record := setBusSpecific named (withWrite (busSpecific named) true)
          userpos := true
          ustart := addrFirst r } := by
      rw [printed, if_pos hw]
      rfl
    rw [hfold] at hunnamed ⊢
    refine ⟨hunnamed, rfl, rfl, rfl, ?_, ?_, iff_of_true ?_ (Or.inl hw)⟩
    · exact (be64_setBytes_of_outside named (by decide)
        (Or.inr (show 4 + 4 ≤ 0x18 by decide))).trans hvendor
    · exact (be32_setBytes_of_outside named (by decide)
        (Or.inr (show 4 + 4 ≤ 0x20 by decide))).trans hdevice
    · have hflag : busSpecific (setBusSpecific named (withWrite (busSpecific named) true)) =
          withWrite (busSpecific named) true :=
        be32_setBytes named (k := busOffset) (by decide) _
      rw [writable_iff, hflag, withWrite_getLsbD _ _ (by decide), if_pos rfl]
  · have hfold : (printed r).foldl (applyDirective 0) f =
        { f with record := named, userpos := true, ustart := addrFirst r } := by
      rw [printed, if_neg hw]
      rfl
    rw [hfold] at hunnamed ⊢
    refine ⟨hunnamed, rfl, rfl, rfl, hvendor, hdevice, ?_⟩
    rw [writable_iff, writable_iff f.record, hbus]
    exact ⟨Or.inr, fun h => h.resolve_left hw⟩

/-! ## The addresses -/

/-- Records that have the same `product`. -/
structure SameProduct (r r' : Record) : Prop where
  bytes : ∀ n, 0x18 ≤ n → byteAt r' n = byteAt r n

section

variable {r r' : Record}

/-- The vendor, the device and the name stay. -/
theorem SameProduct.vendor (h : SameProduct r r') : be64 r' vendorOffset = be64 r vendorOffset := by
  rw [be64_eq _ (by decide), be64_eq _ (by decide), h.bytes _ (by decide), h.bytes _ (by decide),
    h.bytes _ (by decide), h.bytes _ (by decide), h.bytes _ (by decide), h.bytes _ (by decide),
    h.bytes _ (by decide), h.bytes _ (by decide)]

theorem SameProduct.device (h : SameProduct r r') : be32 r' deviceOffset = be32 r deviceOffset := by
  rw [be32_eq _ (by decide), be32_eq _ (by decide), h.bytes _ (by decide), h.bytes _ (by decide),
    h.bytes _ (by decide), h.bytes _ (by decide)]

theorem SameProduct.name (h : SameProduct r r') : productName r' = productName r := by
  refine congrArg List.ofFn (funext fun i => ?_)
  have hi := i.isLt
  rw [apply_eq_byteAt r' rfl, apply_eq_byteAt r rfl]
  refine h.bytes _ ?_
  rw [val_add (by show 0x2c + i.val < 64; omega)]
  exact Nat.le_trans (by decide : 0x18 ≤ 0x2c) (Nat.le_add_right _ _)

theorem SameProduct.trans {r'' : Record} (h : SameProduct r r') (h' : SameProduct r' r'') :
    SameProduct r r'' := ⟨fun n hn => (h'.bytes n hn).trans (h.bytes n hn)⟩

end

/-- The number of a table is in front of the product. -/
theorem sameProduct_setSdbChild (r : Record) (child : BitVec 64) :
    SameProduct r (setSdbChild r child) :=
  ⟨fun n hn => byteAt_setBytes_of_outside r (Or.inr (by rw [htonll_length]; omega))⟩

/-- A record with other addresses. -/
structure Readdressed (r r' : Record) : Prop where
  bytes : ∀ n, n < 0x08 ∨ 0x18 ≤ n → byteAt r' n = byteAt r n

section

variable {r r' : Record} (h : Readdressed r r')

include h

theorem Readdressed.byte (i : Fin 64) (hi : i.val < 0x08 ∨ 0x18 ≤ i.val) : r' i = r i := by
  rw [apply_eq_byteAt r' rfl, apply_eq_byteAt r rfl]
  exact h.bytes i.val hi

theorem Readdressed.busSpecific : busSpecific r' = SdbFields.busSpecific r := by
  rw [busSpecific_eq, busSpecific_eq, h.bytes 4 (by decide), h.bytes 5 (by decide),
    h.bytes 6 (by decide), h.bytes 7 (by decide)]

theorem Readdressed.writable : Writable r' ↔ Writable r := by
  rw [Writable, Writable, h.busSpecific]

theorem Readdressed.sameProduct : SameProduct r r' := ⟨fun n hn => h.bytes n (Or.inr hn)⟩

theorem Readdressed.vendor : be64 r' vendorOffset = be64 r vendorOffset := h.sameProduct.vendor

theorem Readdressed.device : be32 r' deviceOffset = be32 r deviceOffset := h.sameProduct.device

theorem Readdressed.product : productName r' = productName r ∧ recordType r' = recordType r :=
  ⟨h.sameProduct.name, h.byte 0x3f (by decide)⟩

end

/-- Setting the addresses changes nothing else. -/
theorem readdressed (r : Record) (first last : ULong) :
    Readdressed r (setAddrLast (setAddrFirst r first) last) where
  bytes := by
    intro n hn
    rw [setAddrLast, byteAt_setBytes_of_outside _ (by simp; omega), setAddrFirst,
      byteAt_setBytes_of_outside _ (by simp; omega)]

/-- So it is when an entry is placed, and when a directory is closed. -/
theorem readdressed_place (f : Sdbf) (rpos : ULong) :
    Readdressed f.record (place f rpos).record := by
  rw [place]
  split
  · exact readdressed f.record _ _
  · exact readdressed f.record _ _

theorem readdressed_closeDir (dot : Sdbf) (base last : ULong) :
    Readdressed dot.record (closeDir dot base last).record := readdressed dot.record 0 last

end SdbExtractFields
