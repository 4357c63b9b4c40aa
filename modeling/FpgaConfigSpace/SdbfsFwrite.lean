import FpgaConfigSpace.SdbfsFread

/-! # Writing a file

    `sdbfs_fwrite` of `access.c` is a copy of `sdbfs_fread` that calls the `write`
    method where the other calls the `read` method.  Where the device is mapped the
    two are the same: `memcpy` goes from the storage to the buffer in both.

    The `write` method, which no other function uses, is passed beside the device. -/

namespace SdbfsFwrite

open BigEndian SdbRecord SdbfsDevice SdbfsScan SdbfsOpen SdbfsAccess SdbfsRuns SdbfsFread

variable {w : Nat} {σ : Type} {host : Host w} {fs : Sdbfs w σ} {offset count : BitVec 32}

/-- The `write` method: from the state of the driver, the `int` offset, the count and
    the buffer, the driver's new state, the returned `int`, and the buffer the call
    leaves. -/
abbrev WriteMethod (σ : Type) :=
  σ → Int → (count : Nat) → (Fin count → Byte) → σ × Int × (Fin count → Byte)

/-- `sdbfs_fwrite`: what it returns, and the caller's buffer afterwards. -/
def sdbfsFwrite (host : Host w) (fs : Sdbfs w σ) (write : Option (WriteMethod σ))
    (offset : BitVec 32) (buf : Nat → Byte) (count : BitVec 32) :
    Option (Sdbfs w σ × Int × (Nat → Byte)) :=
  if fs.currentp.isNull then some (fs, -ENOENT, buf)
  else
    (accessSpan fs offset count).bind fun span =>
      let n := span.2.toNat
      if span.2.msb then none
      else if fs.data ≠ 0#w then
        (advanceRead fs span.1 n).map fun fs => (fs, n, fill buf n fun i =>
          host.mem (fs.data + filePos fs span.1 + BitVec.ofNat w i.val))
      else
        match write with
        | none => none
        | some write =>
            let r := write fs.drvdata (intOffset (filePos fs span.1)) n fun i => buf i.val
            (advanceRead { fs with drvdata := r.1 } span.1 r.2.1).map fun fs =>
              (fs, r.2.1, fill buf n r.2.2)

/-- On a mapped device, writing is reading. -/
theorem sdbfsFwrite_mapped (hdata : fs.data ≠ 0#w) (write : Option (WriteMethod σ))
    (buf : Nat → Byte) :
    sdbfsFwrite host fs write offset buf count = sdbfsFread host fs offset buf count := by
  rw [sdbfsFwrite, sdbfsFread]
  by_cases hnull : fs.currentp.isNull = true
  · rw [if_pos hnull, if_pos hnull]
  · rw [if_neg hnull, if_neg hnull]
    cases accessSpan fs offset count with
    | none => rfl
    | some span =>
        show (if span.2.msb then none else if fs.data ≠ 0#w then _ else _) =
          (if span.2.msb then none else if fs.data ≠ 0#w then _ else _)
        rw [if_pos hdata, if_pos hdata]

/-- Without a way to write, `sdbfs_fwrite` calls a null pointer. -/
theorem sdbfsFwrite_unmapped (hopen : fs.currentp.isNull = false) (hdata : fs.data = 0#w)
    (buf : Nat → Byte) : sdbfsFwrite host fs none offset buf count = none := by
  rw [sdbfsFwrite, if_neg (by rw [hopen]; decide)]
  cases accessSpan fs offset count with
  | none => rfl
  | some span =>
      show (if span.2.msb then none else if fs.data ≠ 0#w then _ else _) = _
      rw [if_neg (not_not.mpr hdata)]
      by_cases hneg : span.2.msb = true
      · exact if_pos hneg
      · exact if_neg hneg

/-- Moving the position leaves the methods alone. -/
theorem advanceRead_keeps {fs' : Sdbfs w σ} {n : Int} (h : advanceRead fs offset n = some fs') :
    fs'.data = fs.data ∧ fs'.read = fs.read ∧ fs'.currentp = fs.currentp := by
  rw [advanceRead] at h
  split at h
  · split at h
    · cases h
    · cases h
      exact ⟨rfl, rfl, rfl⟩
  · cases h
    exact ⟨rfl, rfl, rfl⟩

/-- A write changes neither the way the device is accessed nor the open record. -/
theorem sdbfsFwrite_keeps (hopen : fs.currentp.isNull = false) (hdata : fs.data = 0#w)
    {write : WriteMethod σ} {fs' : Sdbfs w σ} {ret : Int} {buf buf' : Nat → Byte}
    (h : sdbfsFwrite host fs (some write) offset buf count = some (fs', ret, buf')) :
    fs'.data = fs.data ∧ fs'.read = fs.read ∧ fs'.currentp = fs.currentp := by
  rw [sdbfsFwrite, if_neg (by rw [hopen]; decide)] at h
  obtain ⟨span, _, h⟩ := Option.bind_eq_some_iff.mp h
  simp only at h
  split at h
  · cases h
  · rw [if_neg (not_not.mpr hdata)] at h
    obtain ⟨fs₁, hadv, heq⟩ := Option.map_eq_some_iff.mp h
    cases heq
    have hkeeps := advanceRead_keeps hadv
    exact hkeeps

/-! ## A storage that is read and written -/

/-- What is stored at every `int` offset, as far as the state of the driver tells. -/
abbrev View (σ : Type) := σ → Int → Byte

/-- The two methods work on one storage: a read delivers all it is asked for and
    changes nothing, a write stores all it is given and changes nothing else. -/
structure OneStorage (fs : Sdbfs w σ) (write : Option (WriteMethod σ)) (view : View σ) : Prop where
  read : ∀ read, fs.read = some read → ∀ s p n buf, (read s p n buf).2.1 = n ∧
    view (read s p n buf).1 = view s ∧ ∀ i : Fin n, (read s p n buf).2.2 i = view s (p + i.val)
  wrote : ∀ wr, write = some wr → ∀ s p n buf, (wr s p n buf).2.1 = n ∧
    (wr s p n buf).2.2 = buf ∧ (∀ i : Fin n, view (wr s p n buf).1 (p + i.val) = buf i) ∧
    ∀ q, q < p ∨ p + n ≤ q → view (wr s p n buf).1 q = view s q

/-- What a write and a read of the same bytes should do. -/
def RoundTrip (host : Host w) (fs : Sdbfs w σ) (write : Option (WriteMethod σ)) (view : View σ)
    (offset count : BitVec 32) (buf buf₂ : Nat → Byte) : Prop :=
  ∃ fs₁ ret, sdbfsFwrite host fs write offset buf count = some (fs₁, ret, buf) ∧
    (∀ q, q < intOffset (filePos fs offset) ∨ intOffset (filePos fs offset) + count.toNat ≤ q →
      view fs₁.drvdata q = view fs.drvdata q) ∧
    ∃ fs₂ buf', sdbfsFread host fs₁ offset buf₂ count = some (fs₂, (count.toNat : Int), buf') ∧
      ∀ i, i < count.toNat → buf' i = buf i

/-- The storage of a mapped device holds the bytes of the buffer already. -/
def AlreadyStored (host : Host w) (fs : Sdbfs w σ) (offset count : BitVec 32) (buf : Nat → Byte) :
    Prop :=
  ∀ i, i < count.toNat → buf i = host.mem (fs.data + filePos fs offset + BitVec.ofNat w i)

/-! ## One access of bytes that are there -/

/-- Nothing is cut off. -/
theorem accessSpan_whole (hw : 32 ≤ w) (ho : offset.msb = false) (hc : count.msb = false)
    (hsum : offset.toNat + count.toNat < 0x80000000)
    (hlen : offset.toNat + count.toNat ≤ fs.fLen.toNat) :
    accessSpan fs offset count = some (offset, count) := by
  have hend : offset.toNat ≤ fs.fLen.toNat := by omega
  obtain ⟨asked, hspan, _, hval⟩ := accessSpan_within hw ho hc hsum hend
  have hcount : asked = count := BitVec.eq_of_toNat_eq (by omega)
  rw [hspan, hcount]

/-- A read of a mapped device is a copy. -/
theorem sdbfsFread_mapped_eq (host : Host w) (fs : Sdbfs w σ)
    (hopen : fs.currentp.isNull = false) (hdata : fs.data ≠ 0#w)
    (hspan : accessSpan fs offset count = some (offset, count)) (ho : offset.msb = false)
    (hc : count.msb = false) (hsum : offset.toNat + count.toNat < 0x80000000) (buf : Nat → Byte) :
    ∃ pos, sdbfsFread host fs offset buf count =
      some ({ fs with readOffset := pos }, (count.toNat : Int), fill buf count.toNat fun i =>
        host.mem (fs.data + filePos fs offset + BitVec.ofNat w i.val)) := by
  obtain ⟨pos, hadv⟩ : ∃ pos, advanceRead fs offset count.toNat =
      some { fs with readOffset := pos } := advanceRead_some _ ho hsum
  refine ⟨pos, ?_⟩
  rw [sdbfsFread, if_neg (by rw [hopen]; decide), hspan, Option.bind_some]
  simp only [hc, Bool.false_eq_true, if_false]
  rw [if_pos hdata, hadv]
  rfl

/-- A read through the method, and a write. -/
theorem sdbfsFread_method_eq (host : Host w) (fs : Sdbfs w σ)
    (hopen : fs.currentp.isNull = false) (hdata : fs.data = 0#w)
    {read : ReadMethod σ} (hread : fs.read = some read)
    (hspan : accessSpan fs offset count = some (offset, count)) (ho : offset.msb = false)
    (hc : count.msb = false) (hsum : offset.toNat + count.toNat < 0x80000000) (buf : Nat → Byte)
    (hret : (read fs.drvdata (intOffset (filePos fs offset)) count.toNat fun i => buf i.val).2.1 =
      count.toNat) :
    ∃ fs', sdbfsFread host fs offset buf count = some (fs', (count.toNat : Int),
      fill buf count.toNat
        (read fs.drvdata (intOffset (filePos fs offset)) count.toNat fun i => buf i.val).2.2) := by
  generalize hr : read fs.drvdata (intOffset (filePos fs offset)) count.toNat (fun i => buf i.val)
    = r at hret
  obtain ⟨pos, hadv⟩ : ∃ pos, advanceRead { fs with drvdata := r.1 } offset count.toNat =
      some { fs with drvdata := r.1, readOffset := pos } := advanceRead_some _ ho hsum
  rw [sdbfsFread, if_neg (by rw [hopen]; decide), hspan, Option.bind_some]
  simp only [hc, Bool.false_eq_true, if_false]
  rw [if_neg (not_not.mpr hdata), hread]
  rw [hread] at hadv
  simp only [hr]
  rw [hret, hadv]
  exact ⟨_, rfl⟩

theorem sdbfsFwrite_method_eq (host : Host w) (fs : Sdbfs w σ)
    (hopen : fs.currentp.isNull = false) (hdata : fs.data = 0#w)
    (write : WriteMethod σ) (hspan : accessSpan fs offset count = some (offset, count))
    (ho : offset.msb = false) (hc : count.msb = false)
    (hsum : offset.toNat + count.toNat < 0x80000000) (buf : Nat → Byte)
    (hret : (write fs.drvdata (intOffset (filePos fs offset)) count.toNat fun i => buf i.val).2.1 =
      count.toNat) :
    ∃ pos, sdbfsFwrite host fs (some write) offset buf count = some ({ fs with
        drvdata := (write fs.drvdata (intOffset (filePos fs offset)) count.toNat
          fun i => buf i.val).1
        readOffset := pos }, (count.toNat : Int),
      fill buf count.toNat
        (write fs.drvdata (intOffset (filePos fs offset)) count.toNat fun i => buf i.val).2.2) := by
  generalize hr : write fs.drvdata (intOffset (filePos fs offset)) count.toNat (fun i => buf i.val)
    = r at hret
  obtain ⟨pos, hadv⟩ : ∃ pos, advanceRead { fs with drvdata := r.1 } offset count.toNat =
      some { fs with drvdata := r.1, readOffset := pos } := advanceRead_some _ ho hsum
  refine ⟨pos, ?_⟩
  rw [sdbfsFwrite, if_neg (by rw [hopen]; decide), hspan, Option.bind_some]
  simp only [hc, Bool.false_eq_true, if_false]
  rw [if_neg (not_not.mpr hdata)]
  show (advanceRead { fs with drvdata := (write fs.drvdata _ count.toNat fun i => buf i.val).1 }
    _ _).map _ = _
  rw [hr, hret, hadv]
  rfl

/-- A buffer that is overwritten with its own bytes is the same. -/
theorem fill_self {buf : Nat → Byte} {n : Nat} {bytes : Fin n → Byte} :
    fill buf n bytes = buf ↔ ∀ i : Fin n, bytes i = buf i.val := by
  constructor
  · intro h i
    have hi := congrFun h i.val
    rw [fill, dif_pos i.isLt] at hi
    exact hi
  · intro h
    funext i
    rw [fill]
    by_cases hi : i < n
    · rw [dif_pos hi]
      exact h ⟨i, hi⟩
    · exact dif_neg hi

/-! ## The round trip -/

/-- Through the methods, what was written is read back. -/
theorem roundTrip_methods (hopen : fs.currentp.isNull = false) (hdata : fs.data = 0#w)
    {read : ReadMethod σ} (hread : fs.read = some read) {write : WriteMethod σ} {view : View σ}
    (hstore : OneStorage fs (some write) view)
    (hspan : ∀ s : Sdbfs w σ, s.fLen = fs.fLen →
      accessSpan s offset count = some (offset, count))
    (ho : offset.msb = false) (hc : count.msb = false)
    (hsum : offset.toNat + count.toNat < 0x80000000) (buf buf₂ : Nat → Byte) :
    RoundTrip host fs (some write) view offset count buf buf₂ := by
  obtain ⟨hret, hbuf, hin, hout⟩ := hstore.wrote write rfl fs.drvdata
    (intOffset (filePos fs offset)) count.toNat fun i => buf i.val
  obtain ⟨pos, hwrite⟩ := sdbfsFwrite_method_eq host fs hopen hdata write (hspan fs rfl)
    ho hc hsum buf hret
  rw [fill_self.mpr fun i => congrFun hbuf i] at hwrite
  refine ⟨_, _, hwrite, hout, ?_⟩
  obtain ⟨hret₂, _, hbytes⟩ := hstore.read read hread
    (write fs.drvdata (intOffset (filePos fs offset)) count.toNat fun i => buf i.val).1
    (intOffset (filePos fs offset)) count.toNat fun i => buf₂ i.val
  obtain ⟨fs₂, hread₂⟩ := sdbfsFread_method_eq host { fs with
      drvdata := (write fs.drvdata (intOffset (filePos fs offset)) count.toNat
        fun i => buf i.val).1
      readOffset := pos } hopen hdata hread (hspan _ rfl) ho hc hsum buf₂ hret₂
  refine ⟨fs₂, _, hread₂, ?_⟩
  intro i hi
  rw [fill, dif_pos hi]
  exact (hbytes ⟨i, hi⟩).trans (hin ⟨i, hi⟩)

/-- **What is written is read back, where a `write` method does it.**  For every open
    file, every offset and count inside it, and all buffers: exactly if the `int` sum
    of the two does not overflow and the device is accessed through methods, the
    buffer is left alone, the written bytes are read back and nothing else changes.
    On a mapped device the storage would have to hold the bytes already, since
    `memcpy` goes the wrong way. -/
theorem fwrite_roundTrip (hw : 32 ≤ w) (host : Host w) (fs : Sdbfs w σ)
    (hopen : fs.currentp.isNull = false) (offset count : BitVec 32) (ho : offset.msb = false)
    (hc : count.msb = false) (hlen : offset.toNat + count.toNat ≤ fs.fLen.toNat)
    (write : Option (WriteMethod σ)) (view : View σ) (hstore : OneStorage fs write view)
    (buf buf₂ : Nat → Byte) :
    RoundTrip host fs write view offset count buf buf₂ ↔
      offset.toNat + count.toNat < 0x80000000 ∧
        if fs.data = 0#w then fs.read ≠ none ∧ write ≠ none
        else AlreadyStored host fs offset count buf := by
  constructor
  · rintro ⟨fs₁, ret, hwrite, _, fs₂, buf', hread, _⟩
    have hsum : offset.toNat + count.toNat < 0x80000000 := by
      by_contra hover
      rw [sdbfsFwrite, if_neg (by rw [hopen]; decide),
        accessSpan_overflow ho hc (Nat.le_of_not_lt hover)] at hwrite
      cases hwrite
    have hspan := accessSpan_whole hw ho hc hsum hlen
    refine ⟨hsum, ?_⟩
    by_cases hdata : fs.data = 0#w
    · rw [if_pos hdata]
      cases write with
      | none =>
          rw [sdbfsFwrite_unmapped hopen hdata] at hwrite
          cases hwrite
      | some wr =>
          refine ⟨?_, Option.some_ne_none wr⟩
          intro hnone
          obtain ⟨hdata₁, hread₁, hopen₁⟩ := sdbfsFwrite_keeps hopen hdata hwrite
          rw [sdbfsFread_unmapped (hopen₁ ▸ hopen) (hdata₁.trans hdata) (hread₁.trans hnone)]
            at hread
          cases hread
    · rw [if_neg hdata]
      rw [sdbfsFwrite_mapped hdata] at hwrite
      obtain ⟨pos, heq⟩ := sdbfsFread_mapped_eq host fs hopen hdata hspan ho hc hsum buf
      have hsame : fill buf count.toNat (fun i =>
          host.mem (fs.data + filePos fs offset + BitVec.ofNat w i.val)) = buf := by
        rw [heq] at hwrite
        exact congrArg (fun r => r.2.2) (Option.some.inj hwrite)
      intro i hi
      exact (fill_self.mp hsame ⟨i, hi⟩).symm
  · rintro ⟨hsum, hcond⟩
    have hspan : ∀ s : Sdbfs w σ, s.fLen = fs.fLen →
        accessSpan s offset count = some (offset, count) := by
      intro s hs
      exact accessSpan_whole hw ho hc hsum (by rw [hs]; exact hlen)
    by_cases hdata : fs.data = 0#w
    · rw [if_pos hdata] at hcond
      obtain ⟨read, hread⟩ := Option.ne_none_iff_exists'.mp hcond.1
      obtain ⟨wr, rfl⟩ := Option.ne_none_iff_exists'.mp hcond.2
      exact roundTrip_methods hopen hdata hread hstore hspan ho hc hsum buf buf₂
    · rw [if_neg hdata] at hcond
      obtain ⟨pos, hwrite⟩ := sdbfsFread_mapped_eq host fs hopen hdata (hspan fs rfl) ho hc hsum buf
      have hsame := fill_self.mpr fun i : Fin count.toNat => (hcond i.val i.isLt).symm
      rw [hsame, ← sdbfsFwrite_mapped hdata write buf] at hwrite
      obtain ⟨pos₂, hread⟩ := sdbfsFread_mapped_eq host { fs with readOffset := pos } hopen
        hdata (hspan { fs with readOffset := pos } rfl) ho hc hsum buf₂
      refine ⟨{ fs with readOffset := pos }, _, hwrite, fun q _ => rfl, _, _, hread, ?_⟩
      intro i hi
      rw [fill, dif_pos hi]
      exact (hcond i hi).symm

/-! ## Four bytes of a file -/

/-- A driver whose state is the storage itself. -/
def storageRead : ReadMethod (Int → Byte) := fun s p n _ =>
  (s, (n : Int), fun i => s (p + i.val))

/-- A method that stores all it is given. -/
def storageWrite : WriteMethod (Int → Byte) := fun s p n buf =>
  (fun q => if h : p ≤ q ∧ q < p + n then buf ⟨(q - p).toNat, by omega⟩ else s q, (n : Int), buf)

/-- A file of eight bytes at position 64 of a device that is accessed through these. -/
def methodFile : Sdbfs 32 (Int → Byte) :=
  { (Sdbfs.fresh (fun _ => 0) 0 0 0 (some storageRead) : Sdbfs 32 (Int → Byte)) with
    currentp := .currentRecord, fOffset := 64, fLen := 8 }

/-- Both methods have one storage. -/
theorem storage_oneStorage (fs : Sdbfs w (Int → Byte)) (hread : fs.read = some storageRead) :
    OneStorage fs (some storageWrite) fun s => s where
  read := by
    intro read hr s p n buf
    rw [hread] at hr
    cases hr
    exact ⟨rfl, rfl, fun i => rfl⟩
  wrote := by
    intro wr hw s p n buf
    cases hw
    refine ⟨rfl, rfl, ?_, ?_⟩
    · intro i
      have hin : p ≤ p + i.val ∧ p + (i.val : Int) < p + n := by omega
      show (if h : p ≤ p + i.val ∧ p + (i.val : Int) < p + n then _ else _) = _
      rw [dif_pos hin]
      have hsub : (p + (i.val : Int) - p).toNat = i.val := by omega
      exact congrArg buf (Fin.ext hsub)
    · intro q hq
      exact dif_neg (by omega)

/-- Four bytes are written and read back. -/
theorem fwrite_roundTrip_four :
    RoundTrip addressHost methodFile (some storageWrite) (fun s => s) 2 4
      (fun i => BitVec.ofNat 8 (i + 1)) fun _ => 0 :=
  (fwrite_roundTrip (by decide) addressHost methodFile rfl 2 4 (by decide) (by decide) (by decide)
    (some storageWrite) (fun s => s) (storage_oneStorage methodFile rfl)
    (fun i => BitVec.ofNat 8 (i + 1)) fun _ => 0).mpr
    ⟨by decide, by
      rw [if_pos (show methodFile.data = 0#32 by decide)]
      exact ⟨Option.some_ne_none _, Option.some_ne_none _⟩⟩

/-- One byte written to a mapped file: the buffer is overwritten instead. -/
theorem fwrite_mapped_overwrites :
    twoByteFile.currentp.isNull = false ∧
      OneStorage twoByteFile none (fun _ _ => 0) ∧
      ((sdbfsFwrite addressHost twoByteFile none 0 (fun _ => 7) 1).map fun r =>
        (r.2.1, r.2.2 0)) = some (1, 0x40) ∧
      ¬ RoundTrip addressHost twoByteFile none (fun _ _ => 0) 0 1 (fun _ => 7) fun _ => 0 := by
  have hbuf : ((sdbfsFwrite addressHost twoByteFile none 0 (fun _ => 7) 1).map fun r =>
      (r.2.1, r.2.2 0)) = some (1, 0x40) := by decide
  refine ⟨rfl, ⟨fun _ h => (Option.some_ne_none _ h.symm).elim,
    fun _ h => (Option.some_ne_none _ h.symm).elim⟩, hbuf, ?_⟩
  rintro ⟨fs₁, ret, hwrite, _⟩
  rw [hwrite] at hbuf
  revert hbuf
  show some (ret, (7 : Byte)) = some (1, 0x40) → False
  intro h
  cases h

end SdbfsFwrite
