import FpgaConfigSpace.MasterTransducer

/-! # One record in the ring

    `etherbone_master_process` executes a record where it lies: every word of the
    request is replaced by a word of the response, with an index that steps
    through the ring and may wrap between any two words.  As records start at
    word boundaries, the ring is a cyclic buffer of 2048 words here.

    `Advanced` says what each phase of a record does to the ring: it moves the
    index over some words, replaces exactly those, and touches no other.  The
    phases compose to `processRecord_spec`: the bus calls and the response are
    those of the transducer. -/

namespace WbMasterRecord

open BigEndian WbIovec WbWishbone WbMaster WbTransducer CyclicBuffer

theorem ringIndex_eq (x : Nat) : ringIndex x = x % 8192 :=
  Nat.and_two_pow_sub_one_eq_mod x 13

theorem ringPos_eq (x : Nat) : ringPos x = x % 16384 :=
  Nat.and_two_pow_sub_one_eq_mod x 14

/-- Words of the ring. -/
def RING_WORDS : Nat := 2048

/-- The ring as a memory of words. -/
def wordMem (buf : Nat → Byte) : Nat → Word := fun c => ebToCpu buf (4 * c)

/-- The index of the next word. -/
theorem ringIndex_word (q : Nat) :
    ringIndex (4 * (q % RING_WORDS) + 4) = 4 * ((q + 1) % RING_WORDS) := by
  rw [ringIndex_eq]
  unfold RING_WORDS
  omega

/-- Storing four bytes at a word boundary stores one word. -/
theorem wordMem_storeFour (buf : Nat → Byte) (c : Nat) (b0 b1 b2 b3 : Byte) :
    wordMem (storeFour buf (4 * c) b0 b1 b2 b3) = store (wordMem buf) c [wordOf b0 b1 b2 b3] := by
  funext d
  unfold wordMem
  by_cases hd : d = c
  · subst hd
    rw [ebToCpu_storeFour_self]
    exact (store_inside _ d 0 [wordOf b0 b1 b2 b3] (by simp)).symm
  · rw [ebToCpu_storeFour_ne _ _ _ _ _ (by omega) (by omega) (by omega),
      store_outside _ (by simp only [List.length_singleton]; omega)]

/-- Storing a word, in the memory of words. -/
theorem wordMem_ebFromCpu (buf : Nat → Byte) (c : Nat) (dat : Word) :
    wordMem (ebFromCpu buf (4 * c) dat) = store (wordMem buf) c [dat] := by
  rw [ebFromCpu, wordMem_storeFour, wordOf_byteOf]

/-- The bytes of a word-aligned window are the bytes of its words. -/
theorem window_eq_flatMap (buf : Nat → Byte) (q n : Nat) :
    window RING_SIZE buf (4 * q) (4 * n) =
      (window RING_WORDS (wordMem buf) q n).flatMap bytesOf := by
  induction n generalizing q with
  | zero => rfl
  | succ n ih =>
      rw [window_succ, List.flatMap_cons, ← ih (q + 1)]
      rw [show 4 * (n + 1) = 4 * n + 1 + 1 + 1 + 1 by omega,
        window_succ, window_succ, window_succ, window_succ]
      have hcell : 4 * q % RING_SIZE = 4 * (q % RING_WORDS) := by
        unfold RING_SIZE RING_WORDS
        omega
      have hcell' : ∀ k, k < 4 → (4 * q + k) % RING_SIZE = 4 * (q % RING_WORDS) + k := by
        intro k hk
        unfold RING_SIZE RING_WORDS
        omega
      rw [wordMem, bytesOf_ebToCpu, hcell, hcell' 1 (by omega), Nat.add_assoc (4 * q) 1 1,
        hcell' 2 (by omega), Nat.add_assoc (4 * q) 2 1, hcell' 3 (by omega)]
      rfl

/-- A change confined to some words is confined to their bytes. -/
theorem sameOutside_bytes {buf buf' : Nat → Byte} {q n : Nat}
    (h : SameOutside RING_WORDS (wordMem buf) (wordMem buf') q n) :
    SameOutside RING_SIZE buf buf' (4 * q) (4 * n) := by
  intro x hx hout
  have hword : wordMem buf' (x / 4) = wordMem buf (x / 4) := by
    refine h (x / 4) ?_ ?_
    · unfold RING_SIZE at hx
      unfold RING_WORDS
      omega
    · intro k hk heq
      refine hout (4 * k + x % 4) (by omega) ?_
      unfold RING_SIZE
      unfold RING_WORDS at heq
      omega
  have hbytes : bytesOf (ebToCpu buf' (4 * (x / 4))) = bytesOf (ebToCpu buf (4 * (x / 4))) :=
    congrArg bytesOf hword
  rw [bytesOf_ebToCpu, bytesOf_ebToCpu] at hbytes
  simp only [List.cons.injEq, and_true] at hbytes
  obtain ⟨h0, h1, h2, h3⟩ := hbytes
  obtain hr | hr | hr | hr : x = 4 * (x / 4) ∨ x = 4 * (x / 4) + 1 ∨ x = 4 * (x / 4) + 2 ∨
      x = 4 * (x / 4) + 3 := by omega
  · rw [hr]; exact h0
  · rw [hr]; exact h1
  · rw [hr]; exact h2
  · rw [hr]; exact h3

/-! ## The phases of a record -/

variable {σ : Type} (wops : WishboneOperations σ)

/-- From `m` to `m'` the index moved over the `n` words from word position `q`;
    they hold `out` now and no other word changed. -/
structure Advanced (m m' : RecordCursor σ) (q n : Nat) (out : List Word) : Prop where
  i : m'.i = 4 * ((q + n) % RING_WORDS)
  out : window RING_WORDS (wordMem m'.buf) q n = out
  frame : SameOutside RING_WORDS (wordMem m.buf) (wordMem m'.buf) q n

/-- No words. -/
theorem Advanced.nil {m m' : RecordCursor σ} {q : Nat} (hi : m'.i = 4 * (q % RING_WORDS))
    (hbuf : m'.buf = m.buf) : Advanced m m' q 0 [] :=
  ⟨hi, rfl, by rw [hbuf]; exact SameOutside.refl _ _ _ _⟩

/-- Phases one behind the other. -/
theorem Advanced.trans {m m' m'' : RecordCursor σ} {q a b : Nat} {xs ys : List Word}
    (h1 : Advanced m m' q a xs) (h2 : Advanced m' m'' (q + a) b ys) (hab : a + b ≤ RING_WORDS) :
    Advanced m m'' q (a + b) (xs ++ ys) where
  i := by rw [h2.i, Nat.add_assoc]
  out := by
    rw [window_add, h2.out, h2.frame.window_before (Nat.le_refl _) (by omega), h1.out]
  frame := h1.frame.trans h2.frame

/-- One word. -/
theorem Advanced.single {m m' : RecordCursor σ} {q : Nat} {w : Word}
    (hi : m'.i = 4 * ((q + 1) % RING_WORDS))
    (hbuf : wordMem m'.buf = store (wordMem m.buf) (q % RING_WORDS) [w]) :
    Advanced m m' q 1 [w] where
  i := hi
  out := by
    have hfit : q % RING_WORDS + [w].length ≤ RING_WORDS :=
      Nat.mod_lt q (by unfold RING_WORDS; omega)
    rw [hbuf]
    exact window_store RING_WORDS (wordMem m.buf) q [w] hfit
  frame := by
    have hfit : q % RING_WORDS + [w].length ≤ RING_WORDS :=
      Nat.mod_lt q (by unfold RING_WORDS; omega)
    rw [hbuf]
    exact sameOutside_store RING_WORDS (wordMem m.buf) q [w] hfit

/-- Words behind the phase still hold what they held. -/
theorem Advanced.ahead {m m' : RecordCursor σ} {q n : Nat} {out : List Word}
    (h : Advanced m m' q n out) {l : Nat} (hl : n + l ≤ RING_WORDS) :
    window RING_WORDS (wordMem m'.buf) (q + n) l = window RING_WORDS (wordMem m.buf) (q + n) l :=
  h.frame.window_after (Nat.le_refl _) (by omega)

/-- The write loop erases as many words as it writes; the words written are the
    ones behind the index. -/
theorem writeWords_spec (wca : Bool) (inc : Word) (j : Nat) :
    ∀ (q : Nat) (base : Word) (m : RecordCursor σ), m.i = 4 * (q % RING_WORDS) →
      j < RING_WORDS →
      (writeWords wops wca inc j base m).state = m.state ∧
      (writeWords wops wca inc j base m).bus =
        (if wca then m.bus
         else busWrites wops inc base (window RING_WORDS (wordMem m.buf) (q + 1) j) m.bus) ∧
      Advanced m (writeWords wops wca inc j base m) q j (List.replicate j 0) := by
  induction j with
  | zero =>
      intro q base m hi _
      refine ⟨rfl, ?_, Advanced.nil hi rfl⟩
      cases wca <;> rfl
  | succ j ih =>
      intro q base m hi hj
      have hnext : ringIndex (m.i + 4) = 4 * ((q + 1) % RING_WORDS) := by
        rw [hi, ringIndex_word]
      have hbuf : wordMem (ebFromCpu m.buf m.i 0) = store (wordMem m.buf) (q % RING_WORDS) [0] := by
        rw [hi, wordMem_ebFromCpu]
      cases wca with
      | true =>
          -- configuration space: the words are erased and nothing is written
          let m1 : RecordCursor σ :=
            { m with buf := ebFromCpu m.buf m.i 0, i := ringIndex (m.i + 4) }
          have h1 : Advanced m m1 q 1 [0] := Advanced.single hnext hbuf
          obtain ⟨hs, hb, ha⟩ := ih (q + 1) base m1 hnext (by omega)
          have hrun : writeWords wops true inc (j + 1) base m = writeWords wops true inc j base m1 :=
            rfl
          rw [hrun]
          refine ⟨hs, hb, ?_⟩
          have := h1.trans ha (by omega)
          rwa [Nat.add_comm 1 j] at this
      | false =>
          let buf1 := ebFromCpu m.buf m.i 0
          let i1 := ringIndex (m.i + 4)
          let m1 : RecordCursor σ :=
            { m with buf := buf1, i := i1, bus := m.bus.write wops base (ebToCpu buf1 i1) }
          have h1 : Advanced m m1 q 1 [0] := Advanced.single hnext hbuf
          obtain ⟨hs, hb, ha⟩ := ih (q + 1) (base + inc) m1 hnext (by omega)
          have hrun : writeWords wops false inc (j + 1) base m =
              writeWords wops false inc j (base + inc) m1 := rfl
          rw [hrun]
          refine ⟨hs, ?_, ?_⟩
          · -- the word written and the ones behind it are as they were
            have hall := h1.ahead (l := j + 1) (by omega)
            rw [window_succ, window_succ] at hall
            injection hall with hword hrest
            have hread : ebToCpu buf1 i1 = wordMem m.buf ((q + 1) % RING_WORDS) := by
              rw [← hword]
              show ebToCpu buf1 i1 = ebToCpu buf1 _
              exact congrArg _ hnext
            rw [hb, window_succ]
            simp only [Bool.false_eq_true, if_false]
            rw [hrest]
            show busWrites wops inc (base + inc) _ (m.bus.write wops base (ebToCpu buf1 i1)) = _
            rw [hread]
            rfl
          · have := h1.trans ha (by omega)
            rwa [Nat.add_comm 1 j] at this

/-- The read loop replaces every address by the value read there. -/
theorem readWords_spec (rca : Bool) (j : Nat) :
    ∀ (q : Nat) (m : RecordCursor σ), m.i = 4 * (q % RING_WORDS) → j ≤ RING_WORDS →
      (readWords wops rca j m).state = m.state ∧
      (readWords wops rca j m).bus =
        (busReads wops rca (window RING_WORDS (wordMem m.buf) q j) m.bus).2 ∧
      Advanced m (readWords wops rca j m) q j
        (busReads wops rca (window RING_WORDS (wordMem m.buf) q j) m.bus).1 := by
  induction j with
  | zero =>
      intro q m hi _
      exact ⟨rfl, rfl, Advanced.nil hi rfl⟩
  | succ j ih =>
      intro q m hi hj
      have hnext : ringIndex (m.i + 4) = 4 * ((q + 1) % RING_WORDS) := by
        rw [hi, ringIndex_word]
      have hword : ebToCpu m.buf m.i = wordMem m.buf (q % RING_WORDS) := by
        rw [hi]
        rfl
      let r := if rca then m.bus.readCfg wops (wordMem m.buf (q % RING_WORDS))
               else m.bus.read wops (wordMem m.buf (q % RING_WORDS))
      let m1 : RecordCursor σ :=
        { m with buf := ebFromCpu m.buf m.i r.1, i := ringIndex (m.i + 4), bus := r.2 }
      have hbuf : wordMem m1.buf = store (wordMem m.buf) (q % RING_WORDS) [r.1] := by
        show wordMem (ebFromCpu m.buf m.i r.1) = _
        rw [hi, wordMem_ebFromCpu]
      have h1 : Advanced m m1 q 1 [r.1] := Advanced.single hnext hbuf
      obtain ⟨hs, hb, ha⟩ := ih (q + 1) m1 hnext (by omega)
      have hrun : readWords wops rca (j + 1) m = readWords wops rca j m1 := by
        rw [readWords, hword]
      have hrest := h1.ahead (l := j) (by omega)
      rw [hrest] at hb ha
      rw [hrun, window_succ, busReads]
      refine ⟨hs, hb, ?_⟩
      have := h1.trans ha (by omega)
      rwa [Nat.add_comm 1 j] at this

/-- The increment of the source is the transducer's. -/
theorem increment_eq (flags : Byte) :
    BitVec.ofNat 32 (4 * (1 - (flags &&& ETHERBONE_WFF).toNat / ETHERBONE_WFF.toNat)) =
      if flags &&& ETHERBONE_WFF ≠ 0 then (0 : Word) else 4 := by
  revert flags
  decide

/-- Opening the cycle does not touch the ring. -/
theorem raiseCycle_spec (be : Byte) (m : RecordCursor σ) :
    (raiseCycle wops be m).buf = m.buf ∧ (raiseCycle wops be m).i = m.i ∧
    (raiseCycle wops be m).state = (if m.state = .idle then .cycle else m.state) ∧
    (raiseCycle wops be m).bus =
      (if m.state = .idle then m.bus.cycle wops true else m.bus).byteenable wops be := by
  unfold raiseCycle
  by_cases h : m.state = .idle
  · simp only [if_pos h]
    exact ⟨trivial, trivial, trivial, trivial⟩
  · simp only [if_neg h]
    exact ⟨trivial, trivial, trivial, trivial⟩

/-- The write phase, for any number of writes. -/
theorem processWrites_spec (flags wcount : Byte) (q : Nat) (m : RecordCursor σ)
    (hi : m.i = 4 * (q % RING_WORDS)) :
    (processWrites wops flags wcount m).state = m.state ∧
    (processWrites wops flags wcount m).bus =
      (if flags &&& ETHERBONE_WCA ≠ 0 then m.bus
       else busWrites wops (if flags &&& ETHERBONE_WFF ≠ 0 then 0 else 4)
        (wordMem m.buf ((q + 1) % RING_WORDS))
        (window RING_WORDS (wordMem m.buf) (q + 2) wcount.toNat) m.bus) ∧
    Advanced m (processWrites wops flags wcount m) q (writeSpan wcount.toNat)
      (List.replicate (writeSpan wcount.toNat) 0) := by
  have hw := wcount.isLt
  unfold processWrites writeSpan
  by_cases h0 : wcount.toNat > 0
  · simp only [if_pos h0]
    -- the header is erased, then the loop runs behind it
    let m1 : RecordCursor σ :=
      { m with buf := ebFromCpu m.buf m.i 0, i := ringIndex (m.i + 4) }
    have hnext : m1.i = 4 * ((q + 1) % RING_WORDS) := by
      show ringIndex (m.i + 4) = _
      rw [hi, ringIndex_word]
    have hbuf : wordMem m1.buf = store (wordMem m.buf) (q % RING_WORDS) [0] := by
      show wordMem (ebFromCpu m.buf m.i 0) = _
      rw [hi, wordMem_ebFromCpu]
    have h1 : Advanced m m1 q 1 [0] := Advanced.single hnext hbuf
    have hroom : wcount.toNat < RING_WORDS - 2 := by
      unfold RING_WORDS
      omega
    have hall := h1.ahead (l := wcount.toNat + 1) (by omega)
    rw [window_succ, window_succ] at hall
    injection hall with hbase hdata
    have hread : ebToCpu m1.buf m1.i = wordMem m.buf ((q + 1) % RING_WORDS) := by
      rw [← hbase, hnext]
      rfl
    obtain ⟨hs, hb, ha⟩ := writeWords_spec wops (flags &&& ETHERBONE_WCA ≠ 0)
      (BitVec.ofNat 32 (4 * (1 - (flags &&& ETHERBONE_WFF).toNat / ETHERBONE_WFF.toNat)))
      wcount.toNat (q + 1) (ebToCpu m1.buf m1.i) m1 hnext (by omega)
    refine ⟨hs, ?_, ?_⟩
    · refine hb.trans ?_
      rw [hread, increment_eq, hdata]
      by_cases hwca : flags &&& ETHERBONE_WCA ≠ 0
      · rw [if_pos hwca, if_pos (decide_eq_true hwca)]
      · rw [if_neg hwca, if_neg (by rw [decide_eq_true_eq]; exact hwca)]
    · have := h1.trans ha (by omega)
      rw [Nat.add_comm 1 wcount.toNat] at this
      exact this
  · obtain h0' : wcount.toNat = 0 := by omega
    simp only [if_neg h0]
    refine ⟨trivial, ?_, Advanced.nil hi rfl⟩
    rw [h0']
    split
    · rfl
    · rfl

/-- The response header and the read phase, for any number of reads. -/
theorem processReads_spec (flags be rcount : Byte) (q : Nat) (m : RecordCursor σ)
    (hi : m.i = 4 * (q % RING_WORDS)) :
    (processReads wops flags be rcount m).state = m.state ∧
    (processReads wops flags be rcount m).bus =
      (busReads wops (flags &&& ETHERBONE_RCA ≠ 0)
        (window RING_WORDS (wordMem m.buf) (q + 2) rcount.toNat) m.bus).2 ∧
    Advanced m (processReads wops flags be rcount m) q (1 + writeSpan rcount.toNat)
      (wordOf (responseFlags flags) be rcount 0 ::
        if rcount.toNat > 0 then
          wordMem m.buf ((q + 1) % RING_WORDS) ::
            (busReads wops (flags &&& ETHERBONE_RCA ≠ 0)
              (window RING_WORDS (wordMem m.buf) (q + 2) rcount.toNat) m.bus).1
        else []) := by
  have hr := rcount.isLt
  have hnext : ringIndex (m.i + 4) = 4 * ((q + 1) % RING_WORDS) := by
    rw [hi, ringIndex_word]
  have hbuf : wordMem (storeFour m.buf m.i (responseFlags flags) be rcount 0) =
      store (wordMem m.buf) (q % RING_WORDS) [wordOf (responseFlags flags) be rcount 0] := by
    rw [hi, wordMem_storeFour]
  unfold processReads writeSpan
  by_cases h0 : rcount.toNat > 0
  · simp only [if_pos h0]
    let m1 : RecordCursor σ :=
      { m with
        buf := storeFour m.buf m.i (responseFlags flags) be rcount 0
        i := ringIndex (m.i + 4) }
    -- stepping over BaseRetAddr leaves it intact
    let m2 : RecordCursor σ := { m1 with i := ringIndex (m.i + 4 + 4) }
    have h1 : Advanced m m1 q 1 [wordOf (responseFlags flags) be rcount 0] :=
      Advanced.single hnext hbuf
    have hroom : rcount.toNat < RING_WORDS - 2 := by
      unfold RING_WORDS
      omega
    have hi2 : m2.i = 4 * ((q + 1 + 1) % RING_WORDS) := by
      show ringIndex (m.i + 4 + 4) = _
      rw [hi, ringIndex_eq]
      unfold RING_WORDS
      omega
    have hall := h1.ahead (l := rcount.toNat + 1) (by omega)
    rw [window_succ, window_succ] at hall
    injection hall with hret hlist
    have h2 : Advanced m1 m2 (q + 1) 1 [wordMem m.buf ((q + 1) % RING_WORDS)] := by
      refine ⟨hi2, ?_, SameOutside.refl _ _ _ _⟩
      rw [← hret]
      rfl
    obtain ⟨hs, hb, ha⟩ := readWords_spec wops (flags &&& ETHERBONE_RCA ≠ 0) rcount.toNat
      (q + 1 + 1) m2 hi2 (by omega)
    have hlist' : window RING_WORDS (wordMem m2.buf) (q + 1 + 1) rcount.toNat =
        window RING_WORDS (wordMem m.buf) (q + 2) rcount.toNat := hlist
    rw [hlist'] at hb ha
    refine ⟨hs, hb, ?_⟩
    have := (h1.trans h2 (by omega)).trans ha (by omega)
    rw [show 1 + 1 + rcount.toNat = 1 + (rcount.toNat + 1) by omega] at this
    exact this
  · simp only [if_neg h0]
    obtain h0' : rcount.toNat = 0 := by omega
    refine ⟨trivial, ?_, Advanced.single hnext hbuf⟩
    rw [h0']
    rfl

/-- Words of a record with these counts. -/
def recordWords (wcount rcount : Byte) : Nat :=
  1 + writeSpan wcount.toNat + writeSpan rcount.toNat

/-- The length of a record is whole words, at most 513 of them. -/
theorem recordLen_eq (wcount rcount : Byte) :
    recordLen wcount rcount = 4 * recordWords wcount rcount := by
  unfold recordLen recordWords writeSpan
  split <;> split <;> omega

/-! ## The record as a whole -/

theorem recordWords_le (wcount rcount : Byte) : recordWords wcount rcount ≤ 513 := by
  have := recordLen_le wcount rcount
  rw [recordLen_eq] at this
  omega

/-- Byte `k` of the header of the record at word position `q`. -/
def headerByte (buf : Nat → Byte) (q k : Nat) : Byte := buf (4 * (q % RING_WORDS) + k)

/-- The record whose words lie in the ring from word position `q` on. -/
def recordAt (buf : Nat → Byte) (q : Nat) : EbRecord :=
  EbRecord.ofWords (headerByte buf q 0) (headerByte buf q 1) (headerByte buf q 2)
    (headerByte buf q 3)
    (window RING_WORDS (wordMem buf) (q + 1)
      (writeSpan (headerByte buf q 2).toNat + writeSpan (headerByte buf q 3).toNat))

/-- `recordAt` is the record read off the bytes of the window. -/
theorem recordAt_eq (buf : Nat → Byte) (q : Nat) :
    recordAt buf q = EbRecord.ofBytes (window RING_SIZE buf (4 * q)
      (recordLen (headerByte buf q 2) (headerByte buf q 3))) := by
  rw [recordLen_eq, window_eq_flatMap, recordWords, Nat.add_assoc, Nat.add_comm 1, window_succ,
    List.flatMap_cons, wordMem, bytesOf_ebToCpu]
  show _ = EbRecord.ofWords _ _ _ _ (wordsOf (List.flatMap bytesOf _))
  rw [wordsOf_flatMap]
  rfl

/-- The words written are the ones behind the base address. -/
theorem recordAt_writes (buf : Nat → Byte) (q : Nat) :
    (recordAt buf q).writes =
      window RING_WORDS (wordMem buf) (q + 2) (headerByte buf q 2).toNat := by
  show ((window _ _ _ _).drop 1).take _ = _
  by_cases h0 : (headerByte buf q 2).toNat > 0
  · rw [show writeSpan (headerByte buf q 2).toNat = _ from if_pos h0,
      window_drop _ _ _ (by omega), window_take _ _ _ (by omega)]
  · rw [show (headerByte buf q 2).toNat = 0 by omega]
    rfl

/-- The base address of the writes, in the ring. -/
theorem recordAt_base (buf : Nat → Byte) (q : Nat) (h0 : (headerByte buf q 2).toNat > 0) :
    (recordAt buf q).base = wordMem buf ((q + 1) % RING_WORDS) := by
  show (window _ _ _ _).headD 0 = _
  rw [show writeSpan (headerByte buf q 2).toNat = _ from if_pos h0, Nat.add_right_comm, window_succ]
  rfl

/-- The addresses read are the ones behind the return address. -/
theorem recordAt_reads (buf : Nat → Byte) (q : Nat) :
    (recordAt buf q).reads = window RING_WORDS (wordMem buf)
      (q + writeSpan (headerByte buf q 2).toNat + 2) (headerByte buf q 3).toNat := by
  show ((window _ _ _ _).drop _).take _ = _
  by_cases h0 : (headerByte buf q 3).toNat > 0
  · rw [show writeSpan (headerByte buf q 3).toNat = _ from if_pos h0,
      window_drop _ _ _ (by omega), window_take _ _ _ (by omega),
      show q + 1 + (writeSpan (headerByte buf q 2).toNat + 1)
        = q + writeSpan (headerByte buf q 2).toNat + 2 by omega]
  · rw [show (headerByte buf q 3).toNat = 0 by omega]
    rfl

/-- The return address of the reads, in the ring. -/
theorem recordAt_retAddr (buf : Nat → Byte) (q : Nat) (h0 : (headerByte buf q 3).toNat > 0) :
    (recordAt buf q).retAddr =
      wordMem buf ((q + writeSpan (headerByte buf q 2).toNat + 1) % RING_WORDS) := by
  show ((window _ _ _ _).drop _).headD 0 = _
  rw [show writeSpan (headerByte buf q 3).toNat = _ from if_pos h0, window_drop _ _ _ (by omega),
    Nat.add_sub_cancel_left, window_succ,
    show q + 1 + writeSpan (headerByte buf q 2).toNat
      = q + writeSpan (headerByte buf q 2).toNat + 1 by omega]
  rfl

/-- What the write phase does to the bus is what the record says. -/
theorem written_eq (buf : Nat → Byte) (q : Nat) (s : MasterState × Bus σ) :
    (recordAt buf q).written wops s =
      if headerByte buf q 0 &&& ETHERBONE_WCA ≠ 0 then (recordAt buf q).opened wops s
      else busWrites wops (if headerByte buf q 0 &&& ETHERBONE_WFF ≠ 0 then 0 else 4)
        (wordMem buf ((q + 1) % RING_WORDS))
        (window RING_WORDS (wordMem buf) (q + 2) (headerByte buf q 2).toNat)
        ((recordAt buf q).opened wops s) := by
  rw [← recordAt_writes]
  by_cases h0 : (headerByte buf q 2).toNat > 0
  · rw [← recordAt_base buf q h0]
    rfl
  · -- no writes: the base address plays no role
    have hnil : (recordAt buf q).writes = [] := by
      rw [recordAt_writes, show (headerByte buf q 2).toNat = 0 by omega]
      rfl
    rw [EbRecord.written, hnil]
    rfl

/-- The response of the record, word by word. -/
theorem response_eq (buf : Nat → Byte) (q : Nat) (values : List Word) :
    (recordAt buf q).response values =
      List.replicate (writeSpan (headerByte buf q 2).toNat) 0 ++
        (wordOf (responseFlags (headerByte buf q 0)) (headerByte buf q 1) (headerByte buf q 3) 0 ::
          if (headerByte buf q 3).toNat > 0 then
            wordMem buf ((q + writeSpan (headerByte buf q 2).toNat + 1) % RING_WORDS) :: values
          else []) := by
  have hreads : (recordAt buf q).reads = [] ↔ ¬ (headerByte buf q 3).toNat > 0 := by
    rw [recordAt_reads, ← List.length_eq_zero_iff, window_length]
    omega
  rw [EbRecord.response, recordAt_writes, window_length]
  by_cases h0 : (headerByte buf q 3).toNat > 0
  · rw [if_pos h0, if_neg (fun h => hreads.mp h h0), recordAt_retAddr buf q h0]
    rfl
  · rw [if_neg h0, if_pos (hreads.mpr h0)]
    rfl

/-- Dropping the cycle line leaves the ring alone. -/
theorem dropCycle_ring (flags : Byte) (m : RecordCursor σ) :
    (dropCycle wops flags m).i = m.i ∧ (dropCycle wops flags m).buf = m.buf := by
  unfold dropCycle
  split
  · exact ⟨rfl, rfl⟩
  · exact ⟨rfl, rfl⟩

/-- **A record executed in the ring is the record the transducer executes**: the
    same bus calls, the same response in the same place, and no other word of the
    ring changed. -/
theorem processRecord_spec (q : Nat) (m : RecordCursor σ) (hi : m.i = 4 * (q % RING_WORDS))
    (hs : m.state ≠ .header) :
    ((processRecord wops m).state, (processRecord wops m).bus) =
      ((recordAt m.buf q).exec wops (m.state, m.bus)).1 ∧
    Advanced m (processRecord wops m) q
      (recordWords (headerByte m.buf q 2) (headerByte m.buf q 3))
      ((recordAt m.buf q).exec wops (m.state, m.bus)).2 := by
  -- names for the header bytes, as in the source
  obtain ⟨flags, hflags⟩ : ∃ b, headerByte m.buf q 0 = b := ⟨_, rfl⟩
  obtain ⟨be, hbe⟩ : ∃ b, headerByte m.buf q 1 = b := ⟨_, rfl⟩
  obtain ⟨wcount, hwcount⟩ : ∃ b, headerByte m.buf q 2 = b := ⟨_, rfl⟩
  obtain ⟨rcount, hrcount⟩ : ∃ b, headerByte m.buf q 3 = b := ⟨_, rfl⟩
  have hw := wcount.isLt
  have hr := rcount.isLt
  have hspan : ∀ b : Byte, writeSpan b.toNat ≤ 256 := by
    intro b
    have := b.isLt
    unfold writeSpan
    split <;> omega
  have hspanw := hspan wcount
  have hspanr := hspan rcount
  -- the cycle is opened
  let m1 := raiseCycle wops be m
  obtain ⟨hbuf1, hi1, hst1, hbus1⟩ := raiseCycle_spec wops be m
  have hst1' : m1.state = .cycle := by
    rw [hst1]
    cases hm : m.state with
    | header => exact absurd hm hs
    | idle => rfl
    | cycle => rfl
  have hopen : m1.bus = (recordAt m.buf q).opened wops (m.state, m.bus) := by
    rw [EbRecord.opened, show (recordAt m.buf q).be = be from hbe]
    exact hbus1
  -- the writes
  let m2 := processWrites wops flags wcount m1
  obtain ⟨hst2, hbus2, ha2⟩ := processWrites_spec wops flags wcount q m1 (hi1.trans hi)
  have hwritten : m2.bus = (recordAt m.buf q).written wops (m.state, m.bus) := by
    rw [written_eq, hflags, hwcount, ← hopen, ← hbuf1]
    exact hbus2
  -- the reads, of words the writes did not touch
  let m3 := processReads wops flags be rcount m2
  obtain ⟨hst3, hbus3, ha3⟩ := processReads_spec wops flags be rcount
    (q + writeSpan wcount.toNat) m2 ha2.i
  have hahead := ha2.ahead (l := rcount.toNat + 2) (by unfold RING_WORDS; omega)
  rw [hbuf1, window_succ, window_succ, window_succ, window_succ] at hahead
  injection hahead with _ hahead
  injection hahead with hret hlist
  have hread : (recordAt m.buf q).readBack wops (m.state, m.bus) =
      busReads wops (flags &&& ETHERBONE_RCA ≠ 0)
        (window RING_WORDS (wordMem m2.buf) (q + writeSpan wcount.toNat + 2) rcount.toNat)
        m2.bus := by
    rw [EbRecord.readBack, recordAt_reads, hwcount, hrcount, ← hwritten, ← hflags]
    exact congrArg (fun l => busReads wops _ l m2.bus) hlist.symm
  have hrun : processRecord wops m = dropCycle wops flags m3 := by
    unfold processRecord
    simp only [hi]
    show dropCycle wops (headerByte m.buf q 0)
      (processReads wops (headerByte m.buf q 0) (headerByte m.buf q 1) (headerByte m.buf q 3)
        (processWrites wops (headerByte m.buf q 0) (headerByte m.buf q 2)
          (raiseCycle wops (headerByte m.buf q 1) m))) = _
    rw [hflags, hbe, hwcount, hrcount]
  have hst3' : m3.state = .cycle := hst3.trans (hst2.trans hst1')
  have hbus3' : m3.bus = ((recordAt m.buf q).readBack wops (m.state, m.bus)).2 := by
    rw [hread]
    exact hbus3
  constructor
  · -- state and bus
    show _ = (if headerByte m.buf q 0 &&& ETHERBONE_CYC ≠ 0 then _ else _)
    rw [hrun, dropCycle, hflags]
    by_cases hcyc : flags &&& ETHERBONE_CYC ≠ 0
    · rw [if_pos hcyc, if_pos hcyc, ← hbus3']
    · rw [if_neg hcyc, if_neg hcyc, ← hbus3', ← hst3']
  · -- the ring
    have hall := ha2.trans ha3 (by unfold RING_WORDS; omega)
    show Advanced m _ q _ ((recordAt m.buf q).response _)
    rw [hrun, response_eq, hflags, hbe, hwcount, hrcount, hread]
    obtain ⟨hdi, hdbuf⟩ := dropCycle_ring wops flags m3
    have hword : wordMem m2.buf ((q + writeSpan wcount.toNat + 1) % RING_WORDS) =
        wordMem m.buf ((q + writeSpan wcount.toNat + 1) % RING_WORDS) := hret
    refine ⟨?_, ?_, ?_⟩
    · rw [hdi, hall.i]
      congr 2
      unfold recordWords
      omega
    · rw [hdbuf, ← hword, recordWords, Nat.add_comm 1, Nat.add_assoc]
      exact hall.out
    · rw [hdbuf, recordWords, Nat.add_comm 1, Nat.add_assoc, ← hbuf1]
      exact hall.frame

end WbMasterRecord
