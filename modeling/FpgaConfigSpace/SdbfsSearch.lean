import FpgaConfigSpace.SdbfsAccess
import FpgaConfigSpace.SdbfsRuns

/-! # Opening a record

    `sdbfs_open_name` and `sdbfs_open_id` start a new scan, ignore the root interconnect
    and stop at the first record that passes a test.  `openScan_first` says so for any
    test, by induction on what is pending.  The test of `sdbfs_open_name` compares the
    bytes of the name and looks at the one behind them: a record whose name goes on behind
    a blank passes it too. -/

namespace SdbfsSearch

open BigEndian SdbRecord SdbfsDevice SdbfsScan SdbfsOpen SdbfsAccess SdbfsTree SdbfsRuns

variable {w : Nat} {σ : Type} {host : Host w} {content : BitVec w → Record}
  {fs fs' : Sdbfs w σ} {found : Record → Bool}

/-! ## The state behind the root -/

/-- A new scan of a device with a table is behind its interconnect, also where the record
    at address 0 is the interconnect, which the caller takes for `NULL`. -/
theorem sdbfsScan_root (hd : Delivers host fs content) (ht : IsTable (content fs.entrypoint))
    (hdecl : 1 ≤ (sdbRecords (content fs.entrypoint)).toNat) :
    ∃ fs' dev, sdbfsScan host fs true = some (fs', dev) ∧ SameDevice fs fs' ∧ OnPath fs' [] ∧
      fs'.deref host fs'.currentp = some (content fs.entrypoint) ∧
      pending content fs' [] (content fs.entrypoint) =
        (preorder content fs.entrypoint).tail := by
  have hd' : Delivers host (restart fs) content := hd.same ⟨rfl, rfl, rfl⟩
  obtain ⟨drv, rec, hderef, hnew⟩ := scanNewdir_eq hd' (restart_thisPos fs)
  rw [if_pos ht] at hnew
  generalize hptr : recordPtr (restart fs) fs.entrypoint = dev at hderef hnew
  let fs₁ : Sdbfs w σ := { restart fs with
    drvdata := drv
    currentRecord := rec
    currentp := dev
    nleft := Function.update (restart fs).nleft 0 ((sdbRecords (content fs.entrypoint)).toNat - 1)
    thisPos := Function.update (restart fs).thisPos 0 (fs.entrypoint + 64)
    depth := 0 }
  have hderef₁ : fs₁.deref host dev = some (content fs.entrypoint) :=
    (deref_congr ⟨rfl, rfl, rfl⟩ rfl dev).trans hderef
  have hleft : fs₁.nleft 0 = (sdbRecords (content fs.entrypoint)).toNat - 1 :=
    Function.update_self 0 _ (restart fs).nleft
  have hpos : fs₁.thisPos 0 = fs.entrypoint + 64 :=
    Function.update_self 0 _ (restart fs).thisPos
  -- what `scan_newdir` left, wherever the record is located
  have hstate : ∀ off, OnPath { fs₁ with fOffset := off } [] ∧
      pending content { fs₁ with fOffset := off } [] (content fs.entrypoint) =
        (preorder content fs.entrypoint).tail := by
    intro off
    have hcount : ((sdbRecords (content fs.entrypoint)).toNat - 1 : Int).toNat =
        (sdbRecords (content fs.entrypoint)).toNat - 1 := by omega
    refine ⟨⟨rfl, ?_, ?_⟩, ?_⟩
    · intro p hp
      rw [List.suffix_nil.mp hp]
      exact restart_base fs
    · intro i hi
      show 0 ≤ fs₁.nleft i
      rw [Nat.le_zero.mp hi, hleft]
      omega
    · rw [pending, below_of_not_isBridge ht.not_isBridge, levelEntries, outer, List.append_nil,
        preorder, table, if_pos ht]
      show entries content _ [] (fs₁.thisPos 0) (fs₁.nleft 0).toNat = _
      rw [hleft, hpos, hcount]
      rfl
  by_cases hnull : dev.isNull = true
  · refine ⟨fs₁, RecordPtr.NULL w, ?_, ⟨rfl, rfl, rfl⟩, (hstate fs₁.fOffset).1, hderef₁,
      (hstate fs₁.fOffset).2⟩
    rw [sdbfsScan_enter (scanStart_new host fs) hnew, if_pos hnull, if_pos rfl]
  · let fs₂ : Sdbfs w σ :=
      { fs₁ with fOffset := fs₁.base fs₁.depth + (addrFirst (content fs.entrypoint)).setWidth w }
    refine ⟨fs₂, dev, ?_, ⟨rfl, rfl, rfl⟩, (hstate _).1, ?_, (hstate _).2⟩
    · rw [sdbfsScan_enter (scanStart_new host fs) hnew, if_neg hnull]
      exact scanOut_eq hderef₁ dev
    · exact (deref_congr ⟨rfl, rfl, rfl⟩ rfl dev).trans hderef₁

/-! ## The search -/

/-- The records behind the root interconnect, in the order of the scan. -/
def behindRoot (content : BitVec w → Record) (entrypoint : BitVec w) : List (Entry w) :=
  (preorder content entrypoint).tail

/-- The entries a search looks at: up to the first that passes. -/
def upTo (found : Record → Bool) : List (Entry w) → List (Entry w)
  | [] => []
  | e :: es => if found e.record then [e] else e :: upTo found es

/-- The first entry that passes. -/
def firstOf (found : Record → Bool) (es : List (Entry w)) : Option (Entry w) :=
  es.find? fun e => found e.record

/-- The first entry passes, or it is passed over. -/
theorem firstOf_pos {e : Entry w} (h : found e.record = true) (es : List (Entry w)) :
    firstOf found (e :: es) = some e := List.find?_cons_of_pos h

theorem firstOf_neg {e : Entry w} (h : ¬ found e.record = true) (es : List (Entry w)) :
    firstOf found (e :: es) = firstOf found es := List.find?_cons_of_neg h

/-- The record of an entry is the open file. -/
structure IsOpen (host : Host w) (fs fs' : Sdbfs w σ) (e : Entry w) : Prop where
  current : fs'.currentp = recordPtr fs e.pos
  opened : fs'.currentp.isNull = false
  record : fs'.deref host fs'.currentp = some e.record
  fOffset : fs'.fOffset = e.fOffset
  fLen : fs'.fLen = (addrLast e.record + 1 - addrFirst e.record).setWidth w
  readOffset : fs'.readOffset = 0

/-- What an open function should do: open the first entry that passes, or return
    `-ENOENT` if none does. -/
structure OpensFirst (host : Host w) (fs : Sdbfs w σ) (es : List (Entry w))
    (found : Record → Bool) (r : Outcome (Sdbfs w σ × Int)) : Prop where
  first : ∀ e, firstOf found es = some e → ∃ fs', r = .done (fs', 0) ∧ IsOpen host fs fs' e
  missing : (∃ fs', r = .done (fs', -ENOENT)) ↔ ∀ e ∈ es, found e.record = false

/-- A search that found an entry. -/
theorem opensFirst_of_some {es : List (Entry w)} {e : Entry w} {r : Outcome (Sdbfs w σ × Int)}
    (h : firstOf found es = some e) (hr : r = .done (fs', 0)) (ho : IsOpen host fs fs' e) :
    OpensFirst host fs es found r := by
  constructor
  · intro e' he'
    rw [h] at he'
    cases he'
    exact ⟨fs', hr, ho⟩
  · constructor
    · rintro ⟨fs'', hr'⟩
      rw [hr] at hr'
      cases hr'
    · intro hnone
      rw [firstOf] at h
      have hfound : found e.record = true := by simpa using List.find?_some h
      rw [hnone e (List.mem_of_find?_eq_some h)] at hfound
      cases hfound

/-- A search that found none. -/
theorem opensFirst_of_none {es : List (Entry w)} {r : Outcome (Sdbfs w σ × Int)}
    (h : firstOf found es = none) (hr : r = .done (fs', -ENOENT)) :
    OpensFirst host fs es found r := by
  constructor
  · intro e he
    rw [h] at he
    cases he
  · refine ⟨fun _ e he => ?_, fun _ => ⟨fs', hr⟩⟩
    exact Bool.eq_false_iff.mpr (List.find?_eq_none.mp h e he)

/-- It was the same device before. -/
theorem IsOpen.of_same {fs₁ : Sdbfs w σ} {e : Entry w} (h : IsOpen host fs₁ fs' e)
    (hsame : SameDevice fs fs₁) : IsOpen host fs fs' e :=
  { h with current := h.current.trans (hsame.recordPtr e.pos) }

/-- So it is for a search. -/
theorem OpensFirst.of_same {fs₁ : Sdbfs w σ} {es : List (Entry w)}
    {r : Outcome (Sdbfs w σ × Int)} (h : OpensFirst host fs₁ es found r)
    (hsame : SameDevice fs fs₁) : OpensFirst host fs es found r := by
  refine ⟨fun e he => ?_, h.missing⟩
  obtain ⟨fs', hr, ho⟩ := h.first e he
  exact ⟨fs', hr, ho.of_same hsame⟩

/-- An entry that does not pass is skipped. -/
theorem OpensFirst.skip {e : Entry w} {es : List (Entry w)} {r : Outcome (Sdbfs w σ × Int)}
    (h : OpensFirst host fs es found r) (he : found e.record = false) :
    OpensFirst host fs (e :: es) found r := by
  constructor
  · intro e' he'
    rw [firstOf_neg (by rw [he]; decide)] at he'
    exact h.first e' he'
  · rw [h.missing]
    simp [he]

/-- The loop finds the first of what is pending. -/
theorem openLoop_first (found : Record → Bool) : ∀ (es : List (Entry w)) (fs : Sdbfs w σ)
    (path : List Record) (rec : Record), Delivers host fs content → OnPath fs path →
    fs.deref host fs.currentp = some rec → pending content fs path rec = es →
    (∀ e ∈ upTo found es, ¬ NullAt fs e.pos) → AllDeclared es →
    ∀ n, es.length < n → OpensFirst host fs es found (openLoop host found n fs) := by
  intro es
  induction es with
  | nil =>
      intro fs path rec hd hp hcur hpend _ _ n hn
      obtain ⟨fs', hscan⟩ := sdbfsScan_ends hd hp hcur hpend
      obtain ⟨k, rfl⟩ : ∃ k, n = k + 1 := ⟨n - 1, by omega⟩
      have hdone : openLoop host found (k + 1) fs = .done (fs', -ENOENT) := by
        rw [openLoop, hscan]
        exact if_pos (RecordPtr.isNull_NULL w)
      exact opensFirst_of_none rfl hdone
  | cons e es ih =>
      intro fs path rec hd hp hcur hpend hnull hdecl n hn
      have hnull₁ : ¬ NullAt fs e.pos := by
        refine hnull e ?_
        rw [upTo]
        split <;> exact List.mem_cons_self
      obtain ⟨fs₁, dev, hscan, harr⟩ := sdbfsScan_arrives hd hp hcur hpend hnull₁
        (hdecl e List.mem_cons_self)
      obtain ⟨k, rfl⟩ : ∃ k, n = k + 1 := ⟨n - 1, by omega⟩
      have hstep : openLoop host found (k + 1) fs =
          if found e.record then .done (openCurrent { fs₁ with currentp := dev } e.record, 0)
          else openLoop host found k fs₁ := by
        rw [openLoop, hscan]
        simp only [harr.nonnull, Bool.false_eq_true, if_false, harr.record]
      rw [hstep]
      by_cases hfound : found e.record = true
      · rw [if_pos hfound]
        refine opensFirst_of_some (e := e) ?_ rfl ⟨harr.ptr, harr.nonnull, ?_, ?_, rfl, rfl⟩
        · exact firstOf_pos hfound es
        · exact (deref_congr ⟨rfl, rfl, rfl⟩ rfl dev).trans harr.record
        · show fs₁.base fs₁.depth + _ = _
          rw [harr.onPath.depth, harr.onPath.base e.path (List.suffix_refl e.path)]
          rfl
      · have hskip : found e.record = false := Bool.eq_false_iff.mpr hfound
        rw [if_neg hfound]
        refine OpensFirst.skip (OpensFirst.of_same ?_ harr.same) hskip
        refine ih fs₁ e.path e.record (hd.same harr.same) harr.onPath
          (harr.current ▸ harr.record) harr.pending ?_ ?_ k (Nat.lt_of_succ_lt_succ hn)
        · intro e' he' h
          refine hnull e' ?_ (harr.same.nullAt h)
          rw [upTo, if_neg hfound]
          exact List.mem_cons_of_mem e he'
        · exact fun e' he' => hdecl e' (List.mem_cons_of_mem e he')

/-- **An open function opens the first record that passes its test**, whatever state the
    library is in, unless a record it looks at is used in place at address 0. -/
theorem openScan_first (hd : Delivers host fs content) (ht : IsTable (content fs.entrypoint))
    (hdecl : AllDeclared (preorder content fs.entrypoint))
    (hnull : ∀ e ∈ upTo found (behindRoot content fs.entrypoint), ¬ NullAt fs e.pos) {n : Nat}
    (hn : (behindRoot content fs.entrypoint).length < n) :
    OpensFirst host fs (behindRoot content fs.entrypoint) found (openScan host found n fs) := by
  have hpre : preorder content fs.entrypoint =
      ⟨fs.entrypoint, [], content fs.entrypoint, true⟩ :: behindRoot content fs.entrypoint := by
    rw [behindRoot, preorder, table, if_pos ht, List.tail_cons]
  rw [hpre] at hdecl
  have hroot : 1 ≤ (sdbRecords (content fs.entrypoint)).toNat :=
    hdecl ⟨fs.entrypoint, [], content fs.entrypoint, true⟩ List.mem_cons_self rfl
  obtain ⟨fs₁, dev, hscan, hsame, hp, hcur, hpend⟩ := sdbfsScan_root hd ht hroot
  have hloop : openScan host found n fs = openLoop host found n fs₁ := by
    rw [openScan, hscan]
  have hnull₁ : ∀ e ∈ upTo found (behindRoot content fs.entrypoint), ¬ NullAt fs₁ e.pos :=
    fun e he h => hnull e he (hsame.nullAt h)
  have hdecl₁ : AllDeclared (behindRoot content fs.entrypoint) :=
    fun e he => hdecl e (List.mem_cons_of_mem _ he)
  rw [hloop]
  exact (openLoop_first found _ fs₁ [] _ (hd.same hsame) hp hcur hpend hnull₁ hdecl₁ n hn).of_same
    hsame

/-! ## Opening by name -/

/-- The name, padded with blanks to the 19 bytes of the field. -/
def paddedName (name : CString) : List Byte :=
  name.chars ++ List.replicate (19 - name.chars.length) 0x20

/-- The name field of the record is the name, padded with blanks. -/
def named (name : CString) (d : Record) : Bool := productName d == paddedName name

/-- A record of that name passes the test. -/
theorem nameMatches_of_named {name : CString} (hlen : name.chars.length ≤ 19) {d : Record}
    (h : named name d = true) : nameMatches name d = true := by
  have hname : productName d = paddedName name := beq_iff_eq.mp h
  rw [nameMatches, hname, paddedName]
  simp only [Bool.and_eq_true, Bool.or_eq_true, beq_iff_eq, decide_eq_true_eq,
    List.take_left' rfl, true_and]
  by_cases hfull : 19 ≤ name.chars.length
  · exact Or.inl hfull
  · refine Or.inr ?_
    rw [List.getD_eq_getElem?_getD, List.getElem?_append_right (Nat.le_refl _), Nat.sub_self,
      List.getElem?_replicate, if_pos (by omega), Option.getD_some]

section Tests

variable {wanted : Record → Bool} {es : List (Entry w)}

/-- A weaker test looks at no more entries. -/
theorem upTo_of_imp (h : ∀ d, wanted d = true → found d = true) :
    ∀ {es : List (Entry w)}, ∀ e ∈ upTo found es, e ∈ upTo wanted es := by
  intro es
  induction es with
  | nil => exact fun _ he => he
  | cons e es ih =>
      intro e' he'
      rw [upTo] at he' ⊢
      by_cases hf : found e.record = true
      · rw [if_pos hf] at he'
        rw [List.mem_singleton.mp he']
        split <;> exact List.mem_cons_self
      · rw [if_neg hf] at he'
        rw [if_neg fun hw => hf (h _ hw)]
        rcases List.mem_cons.mp he' with rfl | he'
        · exact List.mem_cons_self
        · exact List.mem_cons_of_mem e (ih e' he')

/-- Two tests find the same entry, if the weaker one takes none before it. -/
theorem firstOf_congr (h : ∀ d, wanted d = true → found d = true)
    (hbefore : ∀ e ∈ es.takeWhile (fun e => !wanted e.record), found e.record = false) :
    firstOf found es = firstOf wanted es := by
  induction es with
  | nil => rfl
  | cons e es ih =>
      by_cases hw : wanted e.record = true
      · rw [firstOf_pos hw, firstOf_pos (h _ hw)]
      · rw [List.takeWhile_cons_of_pos (by simpa using hw)] at hbefore
        have hf : found e.record = false := hbefore e List.mem_cons_self
        rw [firstOf_neg hw, firstOf_neg (by rw [hf]; decide)]
        exact ih fun e' he' => hbefore e' (List.mem_cons_of_mem e he')

/-- If the weaker test takes an entry before the first wanted one, the entry it finds is
    not wanted. -/
theorem firstOf_unwanted {e : Entry w} (he : e ∈ es.takeWhile fun e => !wanted e.record)
    (hf : found e.record = true) :
    ∃ e', firstOf found es = some e' ∧ wanted e'.record = false := by
  induction es with
  | nil => cases he
  | cons a es ih =>
      by_cases hw : wanted a.record = true
      · rw [List.takeWhile_cons_of_neg (by simpa using hw)] at he
        cases he
      · have hw' : wanted a.record = false := Bool.eq_false_iff.mpr hw
        rw [List.takeWhile_cons_of_pos (by simpa using hw)] at he
        by_cases ha : found a.record = true
        · exact ⟨a, firstOf_pos ha es, hw'⟩
        · rcases List.mem_cons.mp he with rfl | he
          · exact absurd hf ha
          · obtain ⟨e', he', hwe'⟩ := ih he
            exact ⟨e', (firstOf_neg ha es).trans he', hwe'⟩

end Tests

/-- Tests that find the same entry are as good as each other. -/
theorem OpensFirst.congr {wanted : Record → Bool} {es : List (Entry w)}
    {r : Outcome (Sdbfs w σ × Int)} (h : OpensFirst host fs es found r)
    (heq : firstOf found es = firstOf wanted es) : OpensFirst host fs es wanted r := by
  cases hw : firstOf wanted es with
  | none =>
      have hnone : ∀ e ∈ es, found e.record = false := fun e he =>
        Bool.eq_false_iff.mpr (List.find?_eq_none.mp (heq.trans hw) e he)
      obtain ⟨fs', hr⟩ := h.missing.mpr hnone
      exact opensFirst_of_none hw hr
  | some e =>
      obtain ⟨fs', hr, ho⟩ := h.first e (heq.trans hw)
      exact opensFirst_of_some hw hr ho

/-- What was opened is what the test found. -/
theorem OpensFirst.wanted {wanted : Record → Bool} {es : List (Entry w)} {e : Entry w}
    {r : Outcome (Sdbfs w σ × Int)} (h : OpensFirst host fs es found r)
    (hf : firstOf found es = some e) (hw : OpensFirst host fs es wanted r) :
    wanted e.record = true := by
  obtain ⟨fs', hr, ho⟩ := h.first e hf
  cases hfirst : firstOf wanted es with
  | none =>
      obtain ⟨fs'', hr'⟩ := hw.missing.mpr fun e he =>
        Bool.eq_false_iff.mpr (List.find?_eq_none.mp hfirst e he)
      rw [hr] at hr'
      cases hr'
  | some e' =>
      obtain ⟨fs'', hr', ho'⟩ := hw.first e' hfirst
      rw [hr] at hr'
      cases hr'
      have hrec : e.record = e'.record := Option.some.inj (ho.record.symm.trans ho'.record)
      rw [hrec]
      rw [firstOf] at hfirst
      simpa using List.find?_some hfirst

/-- `sdbfs_open_name` opens the first record that passes its own test. -/
theorem sdbfsOpenName_first {name : CString} (hlen : name.chars.length ≤ 19)
    (hd : Delivers host fs content) (ht : IsTable (content fs.entrypoint))
    (hdecl : AllDeclared (preorder content fs.entrypoint))
    (hnull : ∀ e ∈ upTo (named name) (behindRoot content fs.entrypoint), ¬ NullAt fs e.pos)
    {n : Nat} (hn : (behindRoot content fs.entrypoint).length < n) :
    OpensFirst host fs (behindRoot content fs.entrypoint) (nameMatches name)
      (sdbfsOpenName host n fs name) := by
  have himp : ∀ d, named name d = true → nameMatches name d = true := fun d =>
    nameMatches_of_named hlen
  rw [sdbfsOpenName, if_neg (Nat.not_lt.mpr hlen)]
  exact openScan_first hd ht hdecl (fun e he => hnull e (upTo_of_imp himp e he)) hn

/-- **`sdbfs_open_name` opens the first record of the name, unless one whose name goes on
    behind a blank comes before it.**  For every device, every image with a root table
    whose tables declare at least one record, and every name of 1 to 19 bytes: as long as
    no record up to the first of the name is used in place at address 0, the first record
    of the name is opened, and `-ENOENT` returned if and only if there is none, exactly if
    no record before it passes the test by its leading bytes alone. -/
theorem open_name_first (host : Host w) (content : BitVec w → Record) (fs : Sdbfs w σ)
    (hd : Delivers host fs content) (ht : IsTable (content fs.entrypoint))
    (hdecl : AllDeclared (preorder content fs.entrypoint)) (name : CString)
    (hname : 1 ≤ name.chars.length ∧ name.chars.length ≤ 19)
    (hnull : ∀ e ∈ upTo (named name) (behindRoot content fs.entrypoint), ¬ NullAt fs e.pos) :
    (∀ n, (behindRoot content fs.entrypoint).length < n →
      OpensFirst host fs (behindRoot content fs.entrypoint) (named name)
        (sdbfsOpenName host n fs name)) ↔
    ∀ e ∈ (behindRoot content fs.entrypoint).takeWhile (fun e => !named name e.record),
      nameMatches name e.record = false := by
  have himp : ∀ d, named name d = true → nameMatches name d = true := fun d =>
    nameMatches_of_named hname.2
  have hcode : ∀ n, (behindRoot content fs.entrypoint).length < n →
      OpensFirst host fs (behindRoot content fs.entrypoint) (nameMatches name)
        (sdbfsOpenName host n fs name) := fun n hn =>
    sdbfsOpenName_first hname.2 hd ht hdecl hnull hn
  constructor
  · intro h e he
    by_contra hmatch
    obtain ⟨e', hfirst, hunwanted⟩ :=
      firstOf_unwanted he ((Bool.not_eq_false _).mp hmatch)
    have hwanted := (hcode _ (Nat.lt_succ_self _)).wanted hfirst (h _ (Nat.lt_succ_self _))
    rw [hunwanted] at hwanted
    cases hwanted
  · intro hbefore n hn
    exact (hcode n hn).congr (firstOf_congr himp hbefore)

/-! ## A name that goes on behind a blank -/

/-- A device of one byte whose name is given with its padding. -/
def namedBytes (first : Byte) (name : List Byte) : List Byte :=
  List.replicate 15 0 ++ [first] ++ List.replicate 7 0 ++ [first] ++ List.replicate 20 0 ++
    name ++ [1]

/-- "8250-like". -/
def likeName : CString := ⟨[0x38, 0x32, 0x35, 0x30, 0x2d, 0x6c, 0x69, 0x6b, 0x65], by decide⟩

/-- "8250-like Serial". -/
def likeSerialName : CString :=
  ⟨likeName.chars ++ [0x20, 0x53, 0x65, 0x72, 0x69, 0x61, 0x6c], by decide⟩

/-- A directory with two serial ports. -/
def serialBytes : List Byte :=
  interconnectBytes 3 ++ namedBytes 192 (paddedName likeSerialName) ++
    namedBytes 193 (paddedName likeName)

/-- Two names of which one begins the other. -/
theorem open_name_first_serial :
    IsTable (mappedContent 0x1000 serialBytes 0) ∧
      ∀ n, (behindRoot (mappedContent 0x1000 serialBytes) 0).length < n →
        OpensFirst (mappedHost 0x1000 serialBytes) (mapped 0 0x1000)
          (behindRoot (mappedContent 0x1000 serialBytes) 0) (named likeSerialName)
          (sdbfsOpenName (mappedHost 0x1000 serialBytes) n (mapped 0 0x1000) likeSerialName) :=
  ⟨by decide +kernel, (open_name_first (mappedHost 0x1000 serialBytes) (mappedContent 0x1000 serialBytes)
    (mapped 0 0x1000) (by intro pos; rfl) (by decide +kernel) (by decide +kernel) likeSerialName
    (by decide) (by decide +kernel)).mpr (by decide +kernel)⟩

/-- "8250-like" opens the port that is called "8250-like Serial". -/
theorem open_name_first_blank :
    Delivers (mappedHost 0x1000 serialBytes) (mapped 0 0x1000) (mappedContent 0x1000 serialBytes) ∧
      IsTable (mappedContent 0x1000 serialBytes 0) ∧
      AllDeclared (preorder (mappedContent 0x1000 serialBytes) 0) ∧
      (1 ≤ likeName.chars.length ∧ likeName.chars.length ≤ 19) ∧
      (∀ e ∈ preorder (mappedContent 0x1000 serialBytes) 0, ¬ NullAt (mapped 0 0x1000) e.pos) ∧
      ¬ ∀ n, (behindRoot (mappedContent 0x1000 serialBytes) 0).length < n →
        OpensFirst (mappedHost 0x1000 serialBytes) (mapped 0 0x1000)
          (behindRoot (mappedContent 0x1000 serialBytes) 0) (named likeName)
          (sdbfsOpenName (mappedHost 0x1000 serialBytes) n (mapped 0 0x1000) likeName) := by
  have hd : Delivers (mappedHost 0x1000 serialBytes) (mapped 0 0x1000)
      (mappedContent 0x1000 serialBytes) := by
    intro pos
    rfl
  have ht : IsTable (mappedContent 0x1000 serialBytes (mapped 0 0x1000).entrypoint) := by
    decide +kernel
  have hdecl : AllDeclared (preorder (mappedContent 0x1000 serialBytes)
      (mapped 0 0x1000).entrypoint) := by decide +kernel
  refine ⟨hd, ht, hdecl, by decide, by decide +kernel, ?_⟩
  intro h
  have hunwanted : (firstOf (nameMatches likeName)
      (behindRoot (mappedContent 0x1000 serialBytes) (mapped 0 0x1000).entrypoint)).map
        (fun e => named likeName e.record) = some false := by decide +kernel
  obtain ⟨e, hfirst, hname⟩ := Option.map_eq_some_iff.mp hunwanted
  have hlen : likeName.chars.length ≤ 19 := by decide
  have hcode := sdbfsOpenName_first hlen hd ht hdecl (by decide +kernel) (Nat.lt_succ_self _)
  have hwanted := hcode.wanted hfirst (h _ (Nat.lt_succ_self _))
  rw [hname] at hwanted
  cases hwanted

end SdbfsSearch
