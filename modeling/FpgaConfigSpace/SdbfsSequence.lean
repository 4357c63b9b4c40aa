import FpgaConfigSpace.SdbfsFread
import FpgaConfigSpace.Lib.CyclicBuffer
import FpgaConfigSpace.Lib.FileCursor

/-! # Reading a file call by call

    After a file is opened, `sdbfs_fread` is called any number of times, with a
    position or with a negative offset, which goes on from where the last read ended.
    What a file with a position in it should do is told without the library, and every
    call of `sdbfs_fread` does that: on a mapped device, and on one with a `read` method
    that delivers what it is asked for.  `sdbfs_fread` itself does not know of devices
    that are mapped at address 0. -/

namespace SdbfsSequence

open BigEndian SdbRecord SdbfsDevice SdbfsScan SdbfsOpen SdbfsAccess SdbfsFread
open CyclicBuffer FileCursor

variable {w : Nat} {σ : Type} {host : Host w} {fs : Sdbfs w σ} {offset count : BitVec 32}

/-! ## Calls -/

/-- A call of `sdbfs_fread`, with what the buffer holds before it. -/
structure FreadCall where
  offset : BitVec 32
  buf : Nat → Byte
  count : BitVec 32

/-- What a call leaves: the device, the returned `int` and the buffer. -/
structure FreadReply (w : Nat) (σ : Type) where
  fs : Sdbfs w σ
  ret : Int
  buf : Nat → Byte

/-- One call after the other. -/
def freads (host : Host w) : Sdbfs w σ → List FreadCall → Option (Sdbfs w σ × List (FreadReply w σ))
  | fs, [] => some (fs, [])
  | fs, c :: calls =>
      (sdbfsFread host fs c.offset c.buf c.count).bind fun r =>
        (freads host r.1 calls).map fun rest => (rest.1, ⟨r.1, r.2.1, r.2.2⟩ :: rest.2)

/-- What a call asks for. -/
def FreadCall.request (c : FreadCall) : Request where
  place := if c.offset.msb then none else some c.offset.toNat
  count := c.count.toNat

/-- The call stays within `int`, and its place is not behind the end. -/
structure FreadCall.InRange (c : FreadCall) (len : Nat) : Prop where
  count : c.count.msb = false
  sum : len + c.count.toNat < 0x80000000
  offset : c.offset.msb = false → c.offset.toNat ≤ len

/-- The file: what the device holds for it. -/
def fileOf (byte : Nat → Byte) (fs : Sdbfs w σ) : List Byte := load byte 0 fs.fLen.toNat

@[simp] theorem fileOf_length (byte : Nat → Byte) (fs : Sdbfs w σ) :
    (fileOf byte fs).length = fs.fLen.toNat := load_length byte 0 _

/-- The bytes of the file, in every way the device offers to reach them: in memory where
    it is mapped, and through the `read` method where there is no data pointer. -/
structure Offers (host : Host w) (fs : Sdbfs w σ) (byte : Nat → Byte) : Prop where
  way : fs.isMapped = true ∨ fs.read ≠ none
  mapped : fs.isMapped = true → ∀ p < fs.fLen.toNat,
    host.mem (fs.data + (fs.fOffset + BitVec.ofNat w p)) = byte p
  read : fs.data = 0#w → ∀ read, fs.read = some read → ∀ s p n buf, p + n ≤ fs.fLen.toNat →
    (read s (intOffset (fs.fOffset + BitVec.ofNat w p)) n buf).2.1 = n ∧
      ∀ i : Fin n, (read s (intOffset (fs.fOffset + BitVec.ofNat w p)) n buf).2.2 i =
        byte (p + i.val)

/-- What a read does not change. -/
structure SameFile (fs fs' : Sdbfs w σ) : Prop where
  device : SameDevice fs fs'
  currentp : fs'.currentp = fs.currentp
  fOffset : fs'.fOffset = fs.fOffset
  fLen : fs'.fLen = fs.fLen

/-- Calls leave the bytes of the file alone. -/
theorem Offers.same {fs' : Sdbfs w σ} {byte : Nat → Byte} (h : Offers host fs byte)
    (hs : SameFile fs fs') : Offers host fs' byte := by
  constructor
  · rw [hs.device.isMapped, hs.device.2.2]
    exact h.way
  · rw [hs.device.isMapped, hs.device.1, hs.fOffset, hs.fLen]
    exact h.mapped
  · rw [hs.device.1, hs.device.2.2, hs.fOffset, hs.fLen]
    exact h.read

/-- So it is the same file. -/
theorem SameFile.fileOf {fs' : Sdbfs w σ} (h : SameFile fs fs') (byte : Nat → Byte) :
    fileOf byte fs' = fileOf byte fs := by
  rw [SdbfsSequence.fileOf, SdbfsSequence.fileOf, h.fLen]

/-! ## One call -/

/-- Where the call starts, as `sdbfs_fread` computes it. -/
def startOffset (fs : Sdbfs w σ) (offset : BitVec 32) : BitVec 32 :=
  if offset.msb then fs.readOffset.setWidth 32 else offset

/-- A call is one at the place where it starts. -/
theorem sdbfsFread_start (hpos : (startOffset fs offset).msb = false) (buf : Nat → Byte) :
    sdbfsFread host fs offset buf count = sdbfsFread host fs (startOffset fs offset) buf count := by
  have hspan : accessSpan fs offset count = accessSpan fs (startOffset fs offset) count := by
    rw [accessSpan, accessSpan, if_neg (Bool.eq_false_iff.mp hpos)]
    rfl
  rw [sdbfsFread, sdbfsFread, hspan]

/-- The `int` a small position is passed as. -/
theorem setWidth_int {pos : BitVec w} (hlt : pos.toNat < 0x80000000) :
    (pos.setWidth 32).toNat = pos.toNat ∧ (pos.setWidth 32).msb = false := by
  have hval : (pos.setWidth 32).toNat = pos.toNat := by
    rw [BitVec.toNat_setWidth]
    exact Nat.mod_eq_of_lt (by omega)
  exact ⟨hval, nonneg_of_lt (by rw [hval]; exact hlt)⟩

/-- The start of a call in range is the one asked for. -/
theorem startOffset_eq {c : FreadCall} (hc : c.InRange fs.fLen.toNat)
    (hpos : fs.readOffset.toNat ≤ fs.fLen.toNat) :
    (startOffset fs c.offset).msb = false ∧
      (startOffset fs c.offset).toNat = c.request.start fs.readOffset.toNat ∧
      (startOffset fs c.offset).toNat ≤ fs.fLen.toNat := by
  have hsum := hc.sum
  rw [startOffset, Request.start, FreadCall.request]
  by_cases hneg : c.offset.msb = true
  · obtain ⟨hval, hmsb⟩ := setWidth_int (show fs.readOffset.toNat < 0x80000000 by omega)
    simp only [if_pos hneg, Option.getD_none]
    exact ⟨hmsb, hval, by omega⟩
  · simp only [if_neg hneg, Option.getD_some]
    have hoff := Bool.eq_false_iff.mpr hneg
    exact ⟨hoff, trivial, hc.offset hoff⟩

/-- The address of the start of a call. -/
theorem filePos_eq (hw : 32 ≤ w) (ho : offset.msb = false) :
    filePos fs offset = fs.fOffset + BitVec.ofNat w offset.toNat := by
  have hpos : offset.signExtend w = BitVec.ofNat w offset.toNat := by
    refine BitVec.eq_of_toNat_eq ?_
    rw [BitVec.toNat_ofNat, ← signExtend_toNat hw ho]
    exact (Nat.mod_eq_of_lt (offset.signExtend w).isLt).symm
  rw [filePos, hpos]

/-- The position moves behind what was read, if anything was. -/
theorem advanceRead_eq (hw : 32 ≤ w) (fs : Sdbfs w σ) (ho : offset.msb = false) {n : Nat}
    (hn : offset.toNat + n < 0x80000000) :
    ∃ pos, advanceRead fs offset n = some { fs with readOffset := pos } ∧
      pos.toNat = if n = 0 then fs.readOffset.toNat else offset.toNat + n := by
  rw [advanceRead]
  by_cases hzero : n = 0
  · subst hzero
    exact ⟨fs.readOffset, rfl, rfl⟩
  · have hover : ¬ (0x7fffffff : Int) < offset.toInt + n := by
      rw [toInt_of_nonneg ho]
      omega
    rw [if_pos (by omega), if_neg hover, if_neg hzero]
    refine ⟨_, rfl, ?_⟩
    rw [toInt_of_nonneg ho, ← Int.natCast_add, BitVec.ofInt_natCast, BitVec.toNat_ofNat]
    refine Nat.mod_eq_of_lt (Nat.lt_of_lt_of_le hn ?_)
    exact Nat.le_trans (by decide) (Nat.pow_le_pow_right (n := 2) (by decide) hw)

/-- The bytes were delivered: counted, at the front of the buffer, and nowhere else. -/
structure Returned (buf : Nat → Byte) (ret : Int) (buf' : Nat → Byte) (bytes : List Byte) : Prop where
  ret : ret = bytes.length
  front : load buf' 0 bytes.length = bytes
  rest : ∀ i, bytes.length ≤ i → buf' i = buf i

/-- What a method delivers is in front of the buffer. -/
theorem returned_fill {buf : Nat → Byte} {byte : Nat → Byte} {p n : Nat} {got : Fin n → Byte}
    (h : ∀ i : Fin n, got i = byte (p + i.val)) :
    Returned buf n (fill buf n got) (load byte p n) := by
  constructor
  · rw [load_length]
  · rw [load_length]
    refine List.map_congr_left fun k hk => ?_
    have hk := List.mem_range.mp hk
    rw [Nat.zero_add, fill, dif_pos hk]
    exact h ⟨k, hk⟩
  · intro i hi
    rw [load_length] at hi
    exact dif_neg (Nat.not_lt.mpr hi)

/-- What a file of the device delivers. -/
theorem delivered_fileOf (fs : Sdbfs w σ) (byte : Nat → Byte) {p : Nat} (r : Request) {cursor : Nat}
    (hp : r.start cursor = p) :
    delivered (fileOf byte fs) cursor r = load byte p (min r.count (fs.fLen.toNat - p)) := by
  rw [delivered, hp, fileOf]
  refine List.ext_getElem (by simp [load]) fun k hk _ => ?_
  simp [load]

/-- **One call** delivers what the file holds from where it starts, up to the count and to
    the end of the file, and leaves the position behind it. -/
theorem sdbfsFread_delivers (hw : 32 ≤ w) {byte : Nat → Byte} (hopen : fs.currentp.isNull = false)
    (hoff : Offers host fs byte) (hway : fs.data ≠ 0#w ∨ fs.read ≠ none) {c : FreadCall}
    (hc : c.InRange fs.fLen.toNat) (hpos : fs.readOffset.toNat ≤ fs.fLen.toNat) :
    ∃ fs' ret buf', sdbfsFread host fs c.offset c.buf c.count = some (fs', ret, buf') ∧
      SameFile fs fs' ∧
      fs'.readOffset.toNat = next (fileOf byte fs) fs.readOffset.toNat c.request ∧
      Returned c.buf ret buf' (delivered (fileOf byte fs) fs.readOffset.toNat c.request) := by
  obtain ⟨hmsb, hval, hle⟩ := startOffset_eq hc hpos
  have hsum := hc.sum
  obtain ⟨asked, hspan, hneg, hasked⟩ := accessSpan_within hw hmsb hc.count (by omega) hle
  have hgot := delivered_fileOf fs byte c.request hval.symm
  have hcount : min c.request.count (fs.fLen.toNat - (startOffset fs c.offset).toNat) =
      asked.toNat := hasked.symm
  rw [hcount] at hgot
  have hnext : next (fileOf byte fs) fs.readOffset.toNat c.request =
      if asked.toNat = 0 then fs.readOffset.toNat
      else (startOffset fs c.offset).toNat + asked.toNat := by
    rw [next, ← hval, hgot, load_length]
    exact if_congr (by rw [← List.length_eq_zero_iff, load_length]) rfl rfl
  have hin : (startOffset fs c.offset).toNat + asked.toNat ≤ fs.fLen.toNat := by omega
  rw [sdbfsFread_start hmsb, sdbfsFread, if_neg (by rw [hopen]; decide), hspan, Option.bind_some,
    hgot, hnext]
  simp only [hneg, Bool.false_eq_true, if_false]
  by_cases hdata : fs.data ≠ 0#w
  · have hmapped : fs.isMapped = true := by simp [Sdbfs.isMapped, hdata]
    obtain ⟨pos, hadv, hposval⟩ := advanceRead_eq hw fs hmsb
      (show (startOffset fs c.offset).toNat + asked.toNat < 0x80000000 by omega)
    rw [if_pos hdata, hadv]
    refine ⟨_, _, _, rfl, ⟨⟨rfl, rfl, rfl⟩, rfl, rfl, rfl⟩, hposval, returned_fill fun i => ?_⟩
    have hbyte := hoff.mapped hmapped ((startOffset fs c.offset).toNat + i.val) (by omega)
    show host.mem (fs.data + filePos fs (startOffset fs c.offset) + BitVec.ofNat w i.val) = _
    rw [← hbyte, filePos_eq hw hmsb, BitVec.ofNat_add, BitVec.add_assoc, BitVec.add_assoc]
  · rw [if_neg hdata, filePos_eq hw hmsb]
    cases hread : fs.read with
    | none => exact absurd hread (hway.resolve_left hdata)
    | some read =>
        have hr := hoff.read (not_not.mp hdata) read hread fs.drvdata _ asked.toNat
          (fun i => c.buf i.val) hin
        simp only
        generalize read fs.drvdata (intOffset (fs.fOffset + BitVec.ofNat w
          (startOffset fs c.offset).toNat)) asked.toNat (fun i => c.buf i.val) = r at hr ⊢
        obtain ⟨pos, hadv, hposval⟩ := advanceRead_eq hw { fs with drvdata := r.1 } hmsb
          (show (startOffset fs c.offset).toNat + asked.toNat < 0x80000000 by omega)
        rw [hread] at hadv
        rw [hr.1, hadv]
        exact ⟨_, _, _, rfl, ⟨⟨rfl, rfl, hread.symm⟩, rfl, rfl, rfl⟩, hposval, returned_fill hr.2⟩

/-! ## A run of calls -/

/-- A file that is open, read up to a place in it. -/
structure Opened (fs : Sdbfs w σ) : Prop where
  opened : fs.currentp.isNull = false
  readOffset_le : fs.readOffset.toNat ≤ fs.fLen.toNat

/-- Every call of a run returned what the file with its position delivers, and left the
    position inside the file. -/
structure Replies (file : List Byte) (calls : List FreadCall) (cursor : Nat)
    (replies : List (FreadReply w σ)) : Prop where
  returned : List.Forall₂ (fun (x : FreadCall × FreadReply w σ) bytes =>
    Returned x.1.buf x.2.ret x.2.buf bytes) (calls.zip replies)
      (run file cursor (calls.map FreadCall.request)).2
  count : replies.length = calls.length
  inside : ∀ r ∈ replies, r.fs.readOffset.toNat ≤ file.length

/-- The run lemma: the calls do what the file with its position does. -/
theorem freads_delivers (hw : 32 ≤ w) {byte : Nat → Byte} {calls : List FreadCall} :
    ∀ {fs : Sdbfs w σ}, Opened fs → Offers host fs byte → (fs.data ≠ 0#w ∨ fs.read ≠ none) →
    (∀ c ∈ calls, c.InRange fs.fLen.toNat) →
    ∃ fs' replies, freads host fs calls = some (fs', replies) ∧ SameFile fs fs' ∧ Opened fs' ∧
      fs'.readOffset.toNat =
        (run (fileOf byte fs) fs.readOffset.toNat (calls.map FreadCall.request)).1 ∧
      Replies (fileOf byte fs) calls fs.readOffset.toNat replies := by
  induction calls with
  | nil =>
      intro fs ho _ _ _
      refine ⟨fs, [], rfl, ⟨SameDevice.refl fs, rfl, rfl, rfl⟩, ho, rfl, ⟨.nil, rfl, ?_⟩⟩
      intro r hr
      cases hr
  | cons c calls ih =>
      intro fs ho hoff hway hin
      have hc : c.InRange fs.fLen.toNat := hin c List.mem_cons_self
      obtain ⟨fs₁, ret, buf, hread, hsame, hcursor, hret⟩ :=
        sdbfsFread_delivers hw ho.opened hoff hway hc ho.readOffset_le
      have hle : fs₁.readOffset.toNat ≤ (fileOf byte fs).length := by
        rw [hcursor]
        refine next_le ?_ ?_
        · rw [fileOf_length]
          exact ho.readOffset_le
        · intro p hp
          rw [fileOf_length]
          rw [FreadCall.request] at hp
          by_cases hneg : c.offset.msb = true
          · rw [if_pos hneg] at hp
            cases hp
          · rw [if_neg hneg] at hp
            cases hp
            exact hc.offset (Bool.eq_false_iff.mpr hneg)
      have ho₁ : Opened fs₁ := by
        refine ⟨by rw [hsame.currentp]; exact ho.opened, ?_⟩
        rw [hsame.fLen, ← fileOf_length byte fs]
        exact hle
      obtain ⟨fs', replies, hrun, hsame', ho', hcur, hrep⟩ := ih ho₁ (hoff.same hsame)
        (by rw [hsame.device.1, hsame.device.2.2]; exact hway)
        (fun d hd => by rw [hsame.fLen]; exact hin d (List.mem_cons_of_mem c hd))
      rw [hsame.fileOf, hcursor] at hcur hrep
      refine ⟨fs', ⟨fs₁, ret, buf⟩ :: replies, ?_, ?_, ho', hcur, ?_⟩
      · rw [freads, hread, Option.bind_some, hrun]
        rfl
      · exact ⟨hsame.device.trans hsame'.device, hsame'.currentp.trans hsame.currentp,
          hsame'.fOffset.trans hsame.fOffset, hsame'.fLen.trans hsame.fLen⟩
      · refine ⟨.cons hret hrep.returned, congrArg (· + 1) hrep.count, ?_⟩
        intro r hr
        rcases List.mem_cons.mp hr with rfl | hr
        · exact hle
        · exact hrep.inside r hr

/-- The bytes that were returned. -/
def FreadReply.bytes (r : FreadReply w σ) : List Byte := load r.buf 0 r.ret.toNat

/-- The replies hold what was delivered, and count it. -/
theorem Replies.outs {file : List Byte} {calls : List FreadCall} {cursor : Nat}
    {replies : List (FreadReply w σ)} (h : Replies file calls cursor replies) :
    replies.map (fun r => (r.ret, r.bytes)) =
      (run file cursor (calls.map FreadCall.request)).2.map fun bytes =>
        ((bytes.length : Int), bytes) := by
  obtain ⟨hret, hlen, -⟩ := h
  generalize (run file cursor (calls.map FreadCall.request)).2 = outs at hret
  induction calls generalizing replies outs with
  | nil =>
      have hnil : replies = [] := List.eq_nil_of_length_eq_zero hlen
      subst hnil
      cases hret
      rfl
  | cons c calls ih =>
      cases replies with
      | nil => cases hlen
      | cons r replies =>
          rw [List.zip_cons_cons] at hret
          cases hret with
          | @cons _ bytes _ outs hr hrest =>
              have hbytes : r.bytes = bytes := by
                rw [FreadReply.bytes, hr.ret, Int.toNat_natCast]
                exact hr.front
              rw [List.map_cons, List.map_cons, hbytes, hr.ret, ih (Nat.succ.inj hlen) _ hrest]

/-- **What the calls deliver is what a cursor does.** -/
theorem Replies.bytes {file : List Byte} {calls : List FreadCall} {cursor : Nat}
    {replies : List (FreadReply w σ)} (h : Replies file calls cursor replies) :
    replies.map FreadReply.bytes = (run file cursor (calls.map FreadCall.request)).2 := by
  have houts := congrArg (List.map Prod.snd) h.outs
  rw [List.map_map, List.map_map] at houts
  exact houts.trans (List.map_id _)

/-- Each of them returns how much that is. -/
theorem Replies.ret {file : List Byte} {calls : List FreadCall} {cursor : Nat}
    {replies : List (FreadReply w σ)} (h : Replies file calls cursor replies)
    {r : FreadReply w σ} (hr : r ∈ replies) : r.ret = r.bytes.length := by
  have hmem : (r.ret, r.bytes) ∈ replies.map fun r => (r.ret, r.bytes) := List.mem_map_of_mem hr
  rw [h.outs] at hmem
  obtain ⟨bytes, -, heq⟩ := List.mem_map.mp hmem
  obtain ⟨hret, hbytes⟩ := Prod.mk.inj heq
  rw [← hret, ← hbytes]

/-! ## The sequences of calls after an open -/

/-- The call goes on and asks for something. -/
def FreadCall.Sequential (c : FreadCall) : Prop := c.offset.msb = true ∧ 0 < c.count.toNat

/-- A call with a negative offset goes on from the position. -/
theorem FreadCall.Sequential.goesOn {c : FreadCall} (h : c.Sequential) : c.request.GoesOn :=
  ⟨if_pos h.1, h.2⟩

/-- What the calls after an open should do.  Every call returns the bytes of the file from
    its place, or from the end of the last read that returned data, up to the count and the
    end of the file.  Calls that go on return, from where the calls before them left off,
    every byte once; and after as many as there are bytes left, they return 0. -/
def ReadsFile (host : Host w) (byte : Nat → Byte) (fs : Sdbfs w σ) : Prop :=
  ∀ calls, (∀ c ∈ calls, c.InRange fs.fLen.toNat) →
    ∃ fs₁ replies, freads host fs calls = some (fs₁, replies) ∧
      Replies (fileOf byte fs) calls 0 replies ∧
      fs₁.readOffset.toNat = (run (fileOf byte fs) 0 (calls.map FreadCall.request)).1 ∧
      ∀ more, (∀ c ∈ more, c.InRange fs.fLen.toNat ∧ c.Sequential) →
        ∃ fs₂ got, freads host fs₁ more = some (fs₂, got) ∧
          (got.map FreadReply.bytes).flatten ++ (fileOf byte fs).drop fs₂.readOffset.toNat =
            (fileOf byte fs).drop fs₁.readOffset.toNat ∧
          (fs.fLen.toNat - fs₁.readOffset.toNat < more.length →
            (got.map FreadReply.bytes).flatten = (fileOf byte fs).drop fs₁.readOffset.toNat ∧
              ∃ last, got.getLast? = some last ∧ last.ret = 0)

/-- Not even a read of no bytes has a meaning where nothing is mapped behind `data` and
    there is no `read` method. -/
theorem not_readsFile (hopen : fs.currentp.isNull = false) (hlen : fs.fLen.toNat < 0x80000000)
    (hdata : fs.data = 0#w) (hread : fs.read = none) (byte : Nat → Byte) :
    ¬ ReadsFile host byte fs := by
  intro h
  obtain ⟨fs₁, replies, hrun, -⟩ := h [⟨0, fun _ => 0, 0⟩] (by
    intro c hc
    rw [List.mem_singleton.mp hc]
    exact ⟨rfl, hlen, fun _ => Nat.zero_le _⟩)
  rw [freads, sdbfsFread_unmapped hopen hdata hread] at hrun
  cases hrun

/-- **Every sequence of reads.**  For every file that was just opened on a device that is
    mapped or has a `read` method that delivers what it is asked for: all calls whose sum of
    length and count does not overflow and whose places are inside the file return the
    bytes they should, exactly if the data pointer is not 0 or there is a `read` method. -/
theorem fread_sequences (hw : 32 ≤ w) (host : Host w) (fs : Sdbfs w σ)
    (hopen : fs.currentp.isNull = false) (hstart : fs.readOffset = 0)
    (hlen : fs.fLen.toNat < 0x80000000) (byte : Nat → Byte) (hoff : Offers host fs byte) :
    ReadsFile host byte fs ↔ fs.data ≠ 0#w ∨ fs.read ≠ none := by
  have hzero : fs.readOffset.toNat = 0 := by
    rw [hstart]
    exact BitVec.toNat_zero
  constructor
  · intro h
    by_contra hway
    rw [not_or, not_not, not_not] at hway
    exact not_readsFile hopen hlen hway.1 hway.2 byte h
  · intro hway calls hcalls
    obtain ⟨fs₁, replies, hrun, hsame, ho₁, hcur, hrep⟩ := freads_delivers hw
      (show Opened fs from ⟨hopen, by omega⟩) hoff hway hcalls
    rw [hzero] at hcur hrep
    refine ⟨fs₁, replies, hrun, hrep, hcur, ?_⟩
    intro more hmore
    have hway₁ : fs₁.data ≠ 0#w ∨ fs₁.read ≠ none := by
      rw [hsame.device.1, hsame.device.2.2]
      exact hway
    have hin : ∀ c ∈ more, c.InRange fs₁.fLen.toNat := by
      intro c hc
      rw [hsame.fLen]
      exact (hmore c hc).1
    obtain ⟨fs₂, got, hrun₂, -, -, hcur₂, hrep₂⟩ := freads_delivers hw ho₁ (hoff.same hsame) hway₁ hin
    rw [hsame.fileOf] at hcur₂ hrep₂
    have hgo : ∀ r ∈ more.map FreadCall.request, r.GoesOn := by
      intro r hr
      obtain ⟨c, hc, rfl⟩ := List.mem_map.mp hr
      exact (hmore c hc).2.goesOn
    have hle : fs₁.readOffset.toNat ≤ (fileOf byte fs).length := by
      rw [fileOf_length, ← hsame.fLen]
      exact ho₁.readOffset_le
    have hall : (got.map FreadReply.bytes).flatten ++ (fileOf byte fs).drop fs₂.readOffset.toNat =
        (fileOf byte fs).drop fs₁.readOffset.toNat := by
      rw [hrep₂.bytes, hcur₂]
      exact run_append fun r hr => (hgo r hr).1
    refine ⟨fs₂, got, hrun₂, hall, ?_⟩
    intro henough
    have hmany : (fileOf byte fs).length - fs₁.readOffset.toNat <
        (more.map FreadCall.request).length := by
      rw [fileOf_length, List.length_map]
      exact henough
    have hend := run_end hle hgo (Nat.le_of_lt hmany)
    have hlast := run_last hle hgo hmany
    rw [← hcur₂] at hend
    rw [← hrep₂.bytes, List.getLast?_map] at hlast
    refine ⟨?_, ?_⟩
    · rw [hend, List.drop_length, List.append_nil] at hall
      exact hall
    · obtain ⟨last, hgot, hbytes⟩ := Option.map_eq_some_iff.mp hlast
      refine ⟨last, hgot, ?_⟩
      rw [hrep₂.ret (List.mem_of_getLast? hgot), hbytes]
      rfl

/-! ## Two bytes, mapped and mapped at address 0 -/

/-- The bytes of the sample file. -/
def twoBytes (p : Nat) : Byte := addressHost.mem (0x1040 + BitVec.ofNat 32 p)

/-- The mapped file has its two bytes. -/
theorem twoByteFile_offers : Offers addressHost twoByteFile twoBytes := by
  refine ⟨.inl rfl, ?_, ?_⟩
  · intro _ p _
    rw [twoBytes]
    refine congrArg addressHost.mem ?_
    show (0x1000 : BitVec 32) + (64 + BitVec.ofNat 32 p) = 0x1040 + BitVec.ofNat 32 p
    rw [← BitVec.add_assoc]
    rfl
  · intro hdata
    exact absurd hdata (by decide)

theorem fread_sequences_mapped : ReadsFile addressHost twoBytes twoByteFile :=
  (fread_sequences (by decide) addressHost twoByteFile rfl rfl (by decide) twoBytes
    twoByteFile_offers).mpr (.inl (by decide))

/-- The same file on a device that is mapped at address 0. -/
def zeroBasedFile : Sdbfs 32 Unit :=
  { Sdbfs.fresh () 0x1000 (SDBFS_F_ZEROBASED 32) 0 none with
    currentp := .mapped 0x1080, fOffset := 0x1040, fLen := 2 }

theorem fread_sequences_zeroBased :
    zeroBasedFile.currentp.isNull = false ∧ zeroBasedFile.readOffset = 0 ∧
      zeroBasedFile.isMapped = true ∧ Offers addressHost zeroBasedFile twoBytes ∧
      sdbfsFread addressHost zeroBasedFile (-1) (fun _ => 0) 2 = none ∧
      ¬ ReadsFile addressHost twoBytes zeroBasedFile := by
  refine ⟨rfl, rfl, by decide, ⟨.inl (by decide), ?_, ?_⟩,
    sdbfsFread_unmapped rfl rfl rfl addressHost _ _ _, not_readsFile rfl (by decide) rfl rfl _⟩
  · intro _ p _
    rw [twoBytes]
    refine congrArg addressHost.mem ?_
    exact BitVec.zero_add _
  · intro _ read hread
    cases hread

end SdbfsSequence
