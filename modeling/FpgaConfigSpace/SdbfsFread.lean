import FpgaConfigSpace.SdbfsAccess
import FpgaConfigSpace.SdbfsRuns

/-! # Reading within a file

    `sdbfs_fread` bounds the count of an access by what the file has left behind the
    offset.  The bound is computed with `int` and `unsigned long` together; it is the
    one intended as long as the `int` sum of offset and count does not overflow and
    the offset is not behind the end of the file. -/

namespace SdbfsFread

open BigEndian SdbRecord SdbfsDevice SdbfsScan SdbfsOpen SdbfsAccess SdbfsRuns

variable {w : Nat} {σ : Type} {host : Host w} {fs : Sdbfs w σ} {offset count : BitVec 32}

/-! ## The arithmetic of the bound -/

theorem toInt_of_nonneg {x : BitVec 32} (hx : x.msb = false) : x.toInt = x.toNat := by
  rw [BitVec.toInt_eq_msb_cond, hx]
  rfl

theorem lt_of_nonneg {x : BitVec 32} (hx : x.msb = false) : x.toNat < 0x80000000 := by
  rw [BitVec.msb_eq_decide] at hx
  exact Nat.lt_of_not_le (of_decide_eq_false hx)

theorem nonneg_of_lt {x : BitVec 32} (hx : x.toNat < 0x80000000) : x.msb = false := by
  rw [BitVec.msb_eq_decide]
  exact decide_eq_false (Nat.not_le.mpr hx)

/-- A number that is not negative stays when it is made longer. -/
theorem signExtend_toNat (hw : 32 ≤ w) {x : BitVec 32} (hx : x.msb = false) :
    (x.signExtend w).toNat = x.toNat := by
  rw [BitVec.signExtend_eq_setWidth_of_msb_false hx, BitVec.toNat_setWidth]
  exact Nat.mod_eq_of_lt (Nat.lt_of_lt_of_le x.isLt (Nat.pow_le_pow_right (by decide) hw))

/-- The `int` sum overflows from 2^31 on. -/
theorem saddOverflow_iff (ho : offset.msb = false) (hc : count.msb = false) :
    offset.saddOverflow count = true ↔ 0x80000000 ≤ offset.toNat + count.toNat := by
  rw [BitVec.saddOverflow, toInt_of_nonneg ho, toInt_of_nonneg hc]
  simp only [Bool.or_eq_true, decide_eq_true_eq]
  omega

/-- The sum of offset and count, if it does not overflow. -/
theorem sum_toNat (hw : 32 ≤ w) (h : offset.toNat + count.toNat < 0x80000000) :
    ((offset + count).signExtend w).toNat = offset.toNat + count.toNat := by
  have hsum : (offset + count).toNat = offset.toNat + count.toNat := by
    rw [BitVec.toNat_add]
    exact Nat.mod_eq_of_lt (by omega)
  rw [signExtend_toNat hw (nonneg_of_lt (by omega)), hsum]

/-- The offset is not behind the end: the bound is what the file has left. -/
theorem accessSpan_within (hw : 32 ≤ w) (ho : offset.msb = false) (hc : count.msb = false)
    (hsum : offset.toNat + count.toNat < 0x80000000) (hend : offset.toNat ≤ fs.fLen.toNat) :
    ∃ asked, accessSpan fs offset count = some (offset, asked) ∧ asked.msb = false ∧
      asked.toNat = min count.toNat (fs.fLen.toNat - offset.toNat) := by
  have hover : offset.saddOverflow count = false := by
    rw [Bool.eq_false_iff, Ne, saddOverflow_iff ho hc]
    omega
  rw [accessSpan]
  simp only [ho, Bool.false_eq_true, if_false, hover, BitVec.lt_def, sum_toNat hw hsum]
  by_cases hlen : fs.fLen.toNat < offset.toNat + count.toNat
  · rw [if_pos hlen]
    have hleft : ((fs.fLen - offset.signExtend w).setWidth 32).toNat =
        fs.fLen.toNat - offset.toNat := by
      have hle : offset.signExtend w ≤ fs.fLen := by
        rw [BitVec.le_def, signExtend_toNat hw ho]
        exact hend
      rw [BitVec.toNat_setWidth, BitVec.toNat_sub_of_le hle, signExtend_toNat hw ho]
      exact Nat.mod_eq_of_lt (by omega)
    refine ⟨_, rfl, nonneg_of_lt (by rw [hleft]; omega), ?_⟩
    rw [hleft]
    omega
  · rw [if_neg hlen]
    exact ⟨count, rfl, hc, by omega⟩

/-- The offset is behind the end: the bound is negative. -/
theorem accessSpan_behind (hw : 32 ≤ w) (ho : offset.msb = false)
    (hsum : offset.toNat + count.toNat < 0x80000000) (hc : count.msb = false)
    (hend : fs.fLen.toNat < offset.toNat) :
    ∃ asked, accessSpan fs offset count = some (offset, asked) ∧ asked.msb = true := by
  have hover : offset.saddOverflow count = false := by
    rw [Bool.eq_false_iff, Ne, saddOverflow_iff ho hc]
    omega
  have hlen : fs.fLen.toNat < offset.toNat + count.toNat := by omega
  rw [accessSpan]
  simp only [ho, Bool.false_eq_true, if_false, hover, BitVec.lt_def, sum_toNat hw hsum]
  rw [if_pos hlen]
  refine ⟨_, rfl, ?_⟩
  have hlt := lt_of_nonneg ho
  obtain ⟨k, rfl⟩ : ∃ k, w = 32 + k := ⟨w - 32, by omega⟩
  -- the difference wraps around, and its low half is negative
  have hwrap : (2 ^ (32 + k) - offset.toNat + fs.fLen.toNat) % 2 ^ (32 + k) % 2 ^ 32 =
      2 ^ 32 - (offset.toNat - fs.fLen.toNat) := by
    have hpow : 2 ^ (32 + k) = 2 ^ 32 * 2 ^ k := Nat.pow_add 2 32 k
    have hpos : 0 < 2 ^ k := Nat.two_pow_pos k
    obtain ⟨j, hj⟩ : ∃ j, 2 ^ k = j + 1 := ⟨2 ^ k - 1, by omega⟩
    rw [Nat.mod_mod_of_dvd _ ⟨2 ^ k, hpow⟩, hpow, hj]
    have hsplit : 2 ^ 32 * (j + 1) - offset.toNat + fs.fLen.toNat =
        (2 ^ 32 - (offset.toNat - fs.fLen.toNat)) + 2 ^ 32 * j := by omega
    rw [hsplit, Nat.add_mul_mod_self_left]
    exact Nat.mod_eq_of_lt (by omega)
  rw [BitVec.msb_eq_decide, BitVec.toNat_setWidth, BitVec.toNat_sub, signExtend_toNat hw ho, hwrap]
  exact decide_eq_true (by omega)

/-- The `int` sum overflows. -/
theorem accessSpan_overflow (ho : offset.msb = false) (hc : count.msb = false)
    (hsum : 0x80000000 ≤ offset.toNat + count.toNat) : accessSpan fs offset count = none := by
  rw [accessSpan]
  simp only [ho, Bool.false_eq_true, if_false]
  rw [if_pos ((saddOverflow_iff ho hc).mpr hsum)]

/-! ## What is read -/

/-- The storage behind the device, at a position: mapped, or handed out by a `read`
    method that returns an error, or how much of what it was asked for it delivered. -/
def Backed (host : Host w) (fs : Sdbfs w σ) (storage : BitVec w → Byte) (pos : BitVec w) : Prop :=
  if fs.data ≠ 0#w then
    ∀ i, host.mem (fs.data + pos + BitVec.ofNat w i) = storage (pos + BitVec.ofNat w i)
  else
    ∀ read, fs.read = some read → ∀ s n buf, 0 ≤ (read s (intOffset pos) n buf).2.1 →
      (read s (intOffset pos) n buf).2.1 ≤ n ∧ ∀ i : Fin n, (read s (intOffset pos) n buf).2.2 i =
        if (i.val : Int) < (read s (intOffset pos) n buf).2.1 then
          storage (pos + BitVec.ofNat w i.val)
        else buf i

/-- The device answers when it is asked for `n` bytes at an offset: it is mapped, or it
    has a `read` method, which does not return an error. -/
def Answers (fs : Sdbfs w σ) (offset : BitVec 32) (n : Nat) (buf : Nat → Byte) : Prop :=
  fs.data ≠ 0#w ∨ ∃ read, fs.read = some read ∧
    0 ≤ (read fs.drvdata (intOffset (filePos fs offset)) n fun i => buf i.val).2.1

/-- A number of bytes of the storage were copied to the front of a buffer. -/
def CopiedFrom (storage : BitVec w → Byte) (pos : BitVec w) (n : Nat) (buf buf' : Nat → Byte) :
    Prop :=
  ∀ i, buf' i = if i < n then storage (pos + BitVec.ofNat w i) else buf i

/-- The position is moved, unless it overflows. -/
theorem advanceRead_some (fs : Sdbfs w σ) (ho : offset.msb = false) {n : Nat}
    (hn : offset.toNat + n < 0x80000000) :
    ∃ pos, advanceRead fs offset n = some { fs with readOffset := pos } := by
  rw [advanceRead]
  by_cases hpos : (0 : Int) < n
  · have hover : ¬ (0x7fffffff : Int) < offset.toInt + n := by
      rw [toInt_of_nonneg ho]
      omega
    rw [if_pos hpos, if_neg hover]
    exact ⟨_, rfl⟩
  · rw [if_neg hpos]
    exact ⟨fs.readOffset, rfl⟩

/-- An access that is bounded to `asked` bytes delivers at most these. -/
theorem sdbfsFread_asked {storage : BitVec w → Byte} (hopen : fs.currentp.isNull = false)
    (hback : Backed host fs storage (filePos fs offset))
    {asked : BitVec 32} (hspan : accessSpan fs offset count = some (offset, asked))
    (ho : offset.msb = false) (hasked : asked.msb = false)
    (hsum : offset.toNat + asked.toNat < 0x80000000) {buf : Nat → Byte}
    (hway : Answers fs offset asked.toNat buf) :
    ∃ (fs' : Sdbfs w σ) (n : Nat) (buf' : Nat → Byte),
      sdbfsFread host fs offset buf count = some (fs', (n : Int), buf') ∧
      n ≤ asked.toNat ∧ CopiedFrom storage (filePos fs offset) n buf buf' := by
  rw [sdbfsFread, if_neg (by rw [hopen]; decide), hspan, Option.bind_some]
  simp only [hasked, Bool.false_eq_true, if_false]
  rw [Backed] at hback
  by_cases hdata : fs.data ≠ 0#w
  · rw [if_pos hdata] at hback ⊢
    obtain ⟨pos, hadv⟩ := advanceRead_some fs ho hsum
    rw [hadv]
    refine ⟨{ fs with readOffset := pos }, asked.toNat, _, rfl, Nat.le_refl _, ?_⟩
    intro i
    rw [fill]
    by_cases hi : i < asked.toNat
    · rw [dif_pos hi, if_pos hi]
      exact hback i
    · rw [dif_neg hi, if_neg hi]
  · rw [if_neg hdata] at hback ⊢
    obtain ⟨read, hread, hnonneg⟩ := hway.resolve_left hdata
    obtain ⟨hle, hbytes⟩ := hback read hread fs.drvdata asked.toNat (fun i => buf i.val) hnonneg
    rw [hread]
    simp only
    generalize read fs.drvdata (intOffset (filePos fs offset)) asked.toNat (fun i => buf i.val)
      = r at hnonneg hle hbytes ⊢
    obtain ⟨n, hn⟩ := Int.eq_ofNat_of_zero_le hnonneg
    rw [hn] at hle hbytes
    obtain ⟨pos, hadv⟩ := advanceRead_some { fs with drvdata := r.1 } ho
      (show offset.toNat + n < 0x80000000 by omega)
    rw [hread] at hadv
    rw [hn, hadv]
    refine ⟨_, n, _, rfl, by omega, ?_⟩
    intro i
    rw [fill]
    by_cases hi : i < asked.toNat
    · rw [dif_pos hi, hbytes ⟨i, hi⟩]
      by_cases hin : i < n
      · rw [if_pos hin, if_pos (Int.ofNat_lt.mpr hin)]
      · rw [if_neg hin, if_neg fun h => hin (Int.ofNat_lt.mp h)]
    · rw [dif_neg hi, if_neg (by omega)]

/-- An access that returns a number of bytes was answered. -/
theorem answers_of_sdbfsFread (hopen : fs.currentp.isNull = false) {asked : BitVec 32}
    (hspan : accessSpan fs offset count = some (offset, asked)) {buf buf' : Nat → Byte}
    {fs' : Sdbfs w σ} {n : Nat}
    (h : sdbfsFread host fs offset buf count = some (fs', (n : Int), buf')) :
    Answers fs offset asked.toNat buf := by
  by_cases hdata : fs.data ≠ 0#w
  · exact .inl hdata
  · rw [sdbfsFread, if_neg (by rw [hopen]; decide), hspan, Option.bind_some] at h
    by_cases hneg : asked.msb = true
    · rw [if_pos hneg] at h
      cases h
    · rw [if_neg hneg, if_neg hdata] at h
      cases hread : fs.read with
      | none =>
          rw [hread] at h
          cases h
      | some read =>
          rw [hread] at h
          obtain ⟨_, _, hret⟩ := Option.map_eq_some_iff.mp h
          have hn : (read fs.drvdata (intOffset (filePos fs offset)) asked.toNat fun i =>
              buf i.val).2.1 = n := congrArg (fun r => r.2.1) hret
          exact .inr ⟨read, hread, by rw [hn]; exact Int.natCast_nonneg n⟩

/-- What `sdbfs_fread` should do: ask for no more than the count and the file allow,
    and copy a number of bytes of the file that is no more than it asked for. -/
def ReadsWithin (host : Host w) (fs : Sdbfs w σ) (storage : BitVec w → Byte)
    (offset count : BitVec 32) (buf : Nat → Byte) : Prop :=
  ∃ (asked : BitVec 32) (fs' : Sdbfs w σ) (n : Nat) (buf' : Nat → Byte),
    accessSpan fs offset count = some (offset, asked) ∧ asked.msb = false ∧
    asked.toNat ≤ count.toNat ∧ offset.toNat + asked.toNat ≤ max offset.toNat fs.fLen.toNat ∧
    sdbfsFread host fs offset buf count = some (fs', (n : Int), buf') ∧ n ≤ asked.toNat ∧
    (fs.fLen.toNat ≤ offset.toNat → n = 0) ∧ CopiedFrom storage (filePos fs offset) n buf buf'

/-- **A read stays within the file, as long as the offset does.**  For every open
    file, every length, every offset and count that are not negative, and every
    storage: `sdbfs_fread` asks for, copies and returns a number of bytes that is at
    most the count and at most what the file has left, exactly if the `int` sum of
    offset and count does not overflow, the offset is not behind the end of the file,
    and the device answers when it is asked for these bytes. -/
theorem fread_within (hw : 32 ≤ w) (host : Host w) (fs : Sdbfs w σ)
    (hopen : fs.currentp.isNull = false) (offset count : BitVec 32) (ho : offset.msb = false)
    (hc : count.msb = false) (storage : BitVec w → Byte)
    (hback : Backed host fs storage (filePos fs offset)) (buf : Nat → Byte) :
    ReadsWithin host fs storage offset count buf ↔
      Answers fs offset (min count.toNat (fs.fLen.toNat - offset.toNat)) buf ∧
        offset.toNat + count.toNat < 0x80000000 ∧ offset.toNat ≤ fs.fLen.toNat := by
  constructor
  · rintro ⟨asked, fs', n, buf', hspan, hasked, _, _, hread, _⟩
    have hsum : offset.toNat + count.toNat < 0x80000000 := by
      by_contra hover
      rw [accessSpan_overflow ho hc (Nat.le_of_not_lt hover)] at hspan
      cases hspan
    have hend : offset.toNat ≤ fs.fLen.toNat := by
      by_contra hend
      obtain ⟨asked', hspan', hneg⟩ := accessSpan_behind hw ho hsum hc (Nat.lt_of_not_le hend)
      rw [hspan] at hspan'
      cases hspan'
      rw [hasked] at hneg
      cases hneg
    refine ⟨?_, hsum, hend⟩
    obtain ⟨asked', hspan', _, hval⟩ := accessSpan_within hw ho hc hsum hend
    rw [hspan] at hspan'
    cases hspan'
    rw [← hval]
    exact answers_of_sdbfsFread hopen hspan hread
  · rintro ⟨hway, hsum, hend⟩
    obtain ⟨asked, hspan, hasked, hval⟩ := accessSpan_within hw ho hc hsum hend
    rw [← hval] at hway
    obtain ⟨fs', n, buf', hread, hn, hcopied⟩ :=
      sdbfsFread_asked hopen hback hspan ho hasked (by omega) hway
    exact ⟨asked, fs', n, buf', hspan, hasked, by omega, by omega, hread, hn, fun h => by omega,
      hcopied⟩

/-! ## At the end of a file -/

/-- A file of two bytes at position 64 of a mapped device. -/
def twoByteFile : Sdbfs 32 Unit :=
  { mapped 0 0x1000 with currentp := .mapped 0x1040, fOffset := 64, fLen := 2 }

/-- A machine whose memory holds the address of every byte. -/
def addressHost : Host 32 where
  littleEndian := true
  mem := fun addr => addr.setWidth 8

/-- The storage that is mapped at 0x1000. -/
def addressStorage (pos : BitVec 32) : Byte := addressHost.mem (0x1000 + pos)

/-- The storage is what is mapped. -/
theorem twoByteFile_backed (pos : BitVec 32) : Backed addressHost twoByteFile addressStorage pos := by
  rw [Backed, if_pos (by decide)]
  intro i
  rw [addressStorage, BitVec.add_assoc]
  rfl

/-- Five bytes are asked for, and the last one is read. -/
theorem fread_within_end :
    ReadsWithin addressHost twoByteFile addressStorage 1 5 fun _ => 0 :=
  (fread_within (by decide) addressHost twoByteFile rfl 1 5 (by decide) (by decide) addressStorage
    (twoByteFile_backed _) fun _ => 0).mpr ⟨.inl (by decide), by decide, by decide⟩

/-- Three bytes behind the end: the count that is passed on is negative. -/
theorem fread_behind_end :
    twoByteFile.currentp.isNull = false ∧
      Backed addressHost twoByteFile addressStorage (filePos twoByteFile 5) ∧
      accessSpan twoByteFile 5 4 = some (5, BitVec.ofInt 32 (-3)) ∧
      ¬ ReadsWithin addressHost twoByteFile addressStorage 5 4 fun _ => 0 := by
  refine ⟨rfl, twoByteFile_backed _, by decide, ?_⟩
  rintro ⟨asked, _, _, _, hspan, hasked, _⟩
  have hneg : accessSpan twoByteFile 5 4 = some (5, BitVec.ofInt 32 (-3)) := by decide
  rw [hneg] at hspan
  cases hspan
  revert hasked
  decide

end SdbfsFread
