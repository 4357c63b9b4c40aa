import Mathlib.Data.List.Forall2
import FpgaConfigSpace.UserFaults

/-! # Copies that fault inside a record

    A copy of the slave's write loop that faults leaves bytes in `wbuf` that the user
    did not supply.  Where the copy completes a record, the record is executed with
    them.  This does no harm exactly if the supplied bytes decide that the record is
    refused: whatever the other bytes are, the same writes are made and an error ends
    the call. -/

namespace WbSlaveFaults

open BigEndian WbIovec WbWishbone WbMaster WbSlave WbTransducer WbSlaveParser WbSlaveWrite
open WbSlaveMemory WbSlaveDevice WbUserFaults CyclicBuffer

/-! ## Writes that are decided -/

/-- An error is met within `k` writes, or at the address behind them. -/
def RefusedWithin (increment : Word) : (k : Nat) → (base : Word) → (pendingErr : Nat) → Prop
  | 0, base, pendingErr => base ≠ WBA_DATA ∧ ¬ (base = WBA_ERR ∧ pendingErr ≠ 0)
  | k + 1, base, pendingErr =>
      if base = WBA_DATA then RefusedWithin increment k (base + increment) pendingErr
      else if base = WBA_ERR ∧ pendingErr ≠ 0 then
        RefusedWithin increment k (base + increment) (pendingErr - 1)
      else True

/-- An address that takes no write. -/
theorem cfgWrites_stop (increment : Word) {base : Word} (w : Word) (ws : List Word)
    {s : ParserState} (hdata : base ≠ WBA_DATA) (herr : ¬ (base = WBA_ERR ∧ s.pendingErr ≠ 0)) :
    cfgWrites increment base (w :: ws) s = ({ s with failed := true }, []) := by
  rw [cfgWrites, if_neg hdata, if_neg herr]

/-- **Refused writes do not depend on the values behind the first ones.** -/
theorem cfgWrites_refused {increment : Word} : ∀ {k : Nat} {base : Word} {s : ParserState}
    {ws ws' : List Word}, RefusedWithin increment k base s.pendingErr → k < ws.length →
    k < ws'.length → ws'.take k = ws.take k →
    (cfgWrites increment base ws s).1.failed = true ∧
      cfgWrites increment base ws' s = cfgWrites increment base ws s := by
  intro k
  induction k with
  | zero =>
      rintro base s ws ws' ⟨hdata, herr⟩ hk hk' _
      obtain ⟨w, xs, rfl⟩ := List.exists_cons_of_ne_nil (List.length_pos_iff.mp hk)
      obtain ⟨w', xs', rfl⟩ := List.exists_cons_of_ne_nil (List.length_pos_iff.mp hk')
      rw [cfgWrites_stop increment w xs hdata herr, cfgWrites_stop increment w' xs' hdata herr]
      exact ⟨rfl, rfl⟩
  | succ k ih =>
      intro base s ws ws' h hk hk' htake
      obtain ⟨w, xs, rfl⟩ :=
        List.exists_cons_of_ne_nil (List.length_pos_iff.mp (Nat.zero_lt_of_lt hk))
      obtain ⟨w', xs', rfl⟩ :=
        List.exists_cons_of_ne_nil (List.length_pos_iff.mp (Nat.zero_lt_of_lt hk'))
      rw [List.take_succ_cons, List.take_succ_cons] at htake
      obtain ⟨rfl, hrest⟩ := List.cons.inj htake
      rw [List.length_cons] at hk hk'
      by_cases hdata : base = WBA_DATA
      · rw [RefusedWithin, if_pos hdata] at h
        rw [cfgWrites, cfgWrites, if_pos hdata, if_pos hdata]
        exact ih (s := { s with data := w' }) h (by omega) (by omega) hrest
      by_cases herr : base = WBA_ERR ∧ s.pendingErr ≠ 0
      · rw [RefusedWithin, if_neg hdata, if_pos herr] at h
        rw [cfgWrites, cfgWrites, if_neg hdata, if_neg hdata, if_pos herr, if_pos herr]
        obtain ⟨hfail, hsame⟩ :=
          ih (s := { s with pendingErr := s.pendingErr - 1 }) h (by omega) (by omega) hrest
        dsimp only
        rw [hsame]
        exact ⟨hfail, rfl⟩
      · rw [cfgWrites_stop increment w' xs hdata herr, cfgWrites_stop increment w' xs' hdata herr]
        exact ⟨rfl, rfl⟩

/-- Two outcomes that tell the hardware, or keep for it, something else. -/
def Differ (t t' : ParserState × List Reply) : Prop := t'.2 ≠ t.2 ∨ t'.1.data ≠ t.1.data

/-- Words that do not agree in the lowest bit. -/
def Apart (w w' : Word) : Prop := w' &&& 1 ≠ w &&& 1

theorem Apart.ne {w w' : Word} (h : Apart w w') : w' ≠ w := fun heq => h (by rw [heq])

/-- An answer that differs. -/
theorem differ_cons {a b : ParserState} {r r' : Reply} (rs rs' : List Reply) (h : r' ≠ r) :
    Differ (a, r :: rs) (b, r' :: rs') := .inl fun heq => h (List.cons.inj heq).1

/-- Once the values held differ, the outcomes do. -/
theorem cfgWrites_held_apart (increment : Word) {ws ws' : List Word} (h : List.Forall₂ Apart ws ws') :
    ∀ (base : Word) (s : ParserState) (d' : Word), d' ≠ s.data →
    Differ (cfgWrites increment base ws s) (cfgWrites increment base ws' { s with data := d' }) := by
  induction h with
  | nil => intro base s d' hd; exact .inr hd
  | @cons w w' xs xs' hw _ ih =>
      intro base s d' hd
      by_cases hdata : base = WBA_DATA
      · rw [cfgWrites, cfgWrites, if_pos hdata, if_pos hdata]
        exact ih (base + increment) { s with data := w } w' hw.ne
      by_cases herr : base = WBA_ERR ∧ s.pendingErr ≠ 0
      · rw [cfgWrites, cfgWrites, if_neg hdata, if_neg hdata, if_pos herr,
          if_pos (show base = WBA_ERR ∧ ({ s with data := d' } : ParserState).pendingErr ≠ 0 from herr)]
        exact differ_cons _ _ fun heq => hd (congrArg Reply.data heq)
      · rw [cfgWrites_stop increment w xs hdata herr,
          cfgWrites_stop increment w' xs' hdata
            (show ¬ (base = WBA_ERR ∧ ({ s with data := d' } : ParserState).pendingErr ≠ 0) from herr)]
        exact .inr hd

/-- **Other writes depend on them.** -/
theorem cfgWrites_differ {increment : Word} : ∀ {k : Nat} {base : Word} {s : ParserState}
    {ws ws' : List Word}, ¬ RefusedWithin increment k base s.pendingErr → k < ws.length →
    ws'.take k = ws.take k → List.Forall₂ Apart (ws.drop k) (ws'.drop k) →
    Differ (cfgWrites increment base ws s) (cfgWrites increment base ws' s) := by
  intro k
  induction k with
  | zero =>
      intro base s ws ws' h hk _ hapart
      rw [List.drop_zero, List.drop_zero] at hapart
      cases hapart with
      | nil => exact absurd hk (Nat.lt_irrefl 0)
      | @cons w w' xs xs' hw hrest =>
          by_cases hdata : base = WBA_DATA
          · rw [cfgWrites, cfgWrites, if_pos hdata, if_pos hdata]
            exact cfgWrites_held_apart increment hrest (base + increment) { s with data := w } w' hw.ne
          · have herr : base = WBA_ERR ∧ s.pendingErr ≠ 0 :=
              Classical.not_not.mp fun herr => h ⟨hdata, herr⟩
            rw [cfgWrites, cfgWrites, if_neg hdata, if_neg hdata, if_pos herr, if_pos herr]
            exact differ_cons _ _ fun heq => hw (congrArg Reply.err heq)
  | succ k ih =>
      intro base s ws ws' h hk htake hapart
      obtain ⟨w, xs, rfl⟩ :=
        List.exists_cons_of_ne_nil (List.length_pos_iff.mp (Nat.zero_lt_of_lt hk))
      have hk' : k + 1 < ws'.length := by
        have hlen := hapart.length_eq
        rw [List.length_drop, List.length_drop] at hlen
        omega
      obtain ⟨w', xs', rfl⟩ :=
        List.exists_cons_of_ne_nil (List.length_pos_iff.mp (Nat.zero_lt_of_lt hk'))
      rw [List.take_succ_cons, List.take_succ_cons] at htake
      obtain ⟨rfl, hrest⟩ := List.cons.inj htake
      rw [List.drop_succ_cons, List.drop_succ_cons] at hapart
      rw [List.length_cons] at hk
      rw [RefusedWithin] at h
      by_cases hdata : base = WBA_DATA
      · rw [if_pos hdata] at h
        rw [cfgWrites, cfgWrites, if_pos hdata, if_pos hdata]
        exact ih (s := { s with data := w' }) h (by omega) hrest hapart
      rw [if_neg hdata] at h
      by_cases herr : base = WBA_ERR ∧ s.pendingErr ≠ 0
      · rw [if_pos herr] at h
        rw [cfgWrites, cfgWrites, if_neg hdata, if_neg hdata, if_pos herr, if_pos herr]
        rcases ih (s := { s with pendingErr := s.pendingErr - 1 }) h (by omega) hrest hapart with
          hout | hheld
        · exact .inl fun heq => hout (List.cons.inj heq).2
        · exact .inr hheld
      · rw [if_neg herr] at h
        exact absurd trivial h

/-! ## Records that are decided -/

/-- A buffer of which the first `n` bytes are known, with other bytes behind them. -/
def completed (wbuf : Nat → Byte) (n : Nat) (other : Nat → Byte) : Nat → Byte :=
  fun i => if i < n then wbuf i else other i

/-- The bytes that are there stay, and the others come from elsewhere. -/
theorem completed_known (wbuf other : Nat → Byte) {n i : Nat} (h : i < n) :
    completed wbuf n other i = wbuf i := if_pos h

theorem completed_other (wbuf other : Nat → Byte) {n i : Nat} (h : ¬ i < n) :
    completed wbuf n other i = other i := if_neg h

/-- What the address of a record grows by. -/
def incrementOf (wbuf : Nat → Byte) : Word := if wbuf 0 &&& ETHERBONE_WFF ≠ 0 then 0 else 4

/-- The first `n` bytes of a record decide that it is refused: by its header, by a base
    address that is that of neither register, or by an error that is met before a word
    that is not known. -/
def Decided (wbuf : Nat → Byte) (n pendingErr : Nat) : Prop :=
  wbuf 3 ≠ 0 ∨ wbuf 1 ≠ 0xf ∨ wbuf 0 &&& ETHERBONE_WCA = 0 ∨
    (n < 8 ∧ ∃ i, 4 + i < n ∧ wbuf (4 + i) ≠ byteOf WBA_DATA i) ∨
    8 ≤ n ∧ RefusedWithin (incrementOf wbuf) ((n - 8) / 4) (ebToCpu wbuf 4) pendingErr

/-- A record of whole words. -/
theorem recordIn_ofWords {wbuf : Nat → Byte} {m : Nat} (h : slaveRecordLen wbuf = 4 + 4 * m) :
    recordIn wbuf = .ofWords (wbuf 0) (wbuf 1) (wbuf 2) (wbuf 3) (loadWords wbuf 4 m) := by
  rw [recordIn, h, ofBytes_load]

/-- Records have whole words. -/
theorem slaveRecordLen_words (wbuf : Nat → Byte) : ∃ m, slaveRecordLen wbuf = 4 + 4 * m := by
  refine ⟨slaveRecordLen wbuf / 4 - 1, ?_⟩
  rw [slaveRecordLen]
  omega

/-- A record without reads that has a body has writes. -/
theorem slaveRecordLen_write {wbuf : Nat → Byte} (hlong : 4 < slaveRecordLen wbuf)
    (hr : wbuf 3 = 0) :
    0 < (wbuf 2).toNat ∧ slaveRecordLen wbuf = 4 + 4 * ((wbuf 2).toNat + 1) := by
  have hr0 : (wbuf 3).toNat = 0 := by rw [hr]; rfl
  rw [slaveRecordLen, hr0, if_neg (Nat.lt_irrefl 0)] at hlong ⊢
  by_cases hw : (wbuf 2).toNat > 0
  · rw [if_pos hw]
    exact ⟨hw, by omega⟩
  · rw [if_neg hw] at hlong
    omega

/-- A header that refuses the record. -/
theorem cfgExec_header {wbuf : Nat → Byte} (hlong : 4 < slaveRecordLen wbuf)
    (h : wbuf 3 ≠ 0 ∨ wbuf 1 ≠ 0xf ∨ wbuf 0 &&& ETHERBONE_WCA = 0) (s : ParserState) :
    cfgExec (recordIn wbuf) s = ({ s with failed := true }, []) := by
  obtain ⟨m, hm⟩ := slaveRecordLen_words wbuf
  rw [recordIn_ofWords hm, cfgExec_ofWords]
  by_cases hr : wbuf 3 = 0
  · rw [if_neg fun h => h hr]
    obtain ⟨hw, hlen⟩ := slaveRecordLen_write hlong hr
    have hne : ((loadWords wbuf 4 m).drop 1).take (wbuf 2).toNat ≠ [] := by
      rw [← List.length_pos_iff, List.length_take, List.length_drop, loadWords_length]
      omega
    rw [if_neg hne, if_pos (h.resolve_left fun h => h hr)]
  · rw [if_pos hr]

/-- Any other header: the writes are looked at. -/
theorem cfgExec_writes {wbuf : Nat → Byte} (hlong : 4 < slaveRecordLen wbuf)
    (hr : wbuf 3 = 0) (hbe : wbuf 1 = 0xf) (hwca : wbuf 0 &&& ETHERBONE_WCA ≠ 0) (s : ParserState) :
    (0 < (wbuf 2).toNat ∧ slaveRecordLen wbuf = 8 + 4 * (wbuf 2).toNat) ∧
      cfgExec (recordIn wbuf) s =
        cfgWrites (incrementOf wbuf) (ebToCpu wbuf 4) (loadWords wbuf 8 (wbuf 2).toNat) s := by
  obtain ⟨hw, hm⟩ := slaveRecordLen_write hlong hr
  refine ⟨⟨hw, by omega⟩, ?_⟩
  rw [recordIn_ofWords hm, cfgExec_ofWords, if_neg fun h => h hr]
  have hwords : ((loadWords wbuf 4 ((wbuf 2).toNat + 1)).drop 1).take (wbuf 2).toNat =
      loadWords wbuf 8 (wbuf 2).toNat :=
    List.take_of_length_le (Nat.le_of_eq (loadWords_length wbuf 8 _))
  have hne : loadWords wbuf 8 (wbuf 2).toNat ≠ [] := by
    rw [← List.length_pos_iff, loadWords_length]
    exact hw
  have hok : ¬ (wbuf 1 ≠ 0xf ∨ wbuf 0 &&& ETHERBONE_WCA = 0) := by
    rintro (h | h)
    · exact h hbe
    · exact hwca h
  rw [hwords, if_neg hne, if_neg hok]
  rfl

/-- Words that lie in known bytes. -/
theorem loadWords_take {buf buf' : Nat → Byte} : ∀ (k m i : Nat),
    (∀ j, i ≤ j → j < i + 4 * k → buf' j = buf j) →
    (loadWords buf' i m).take k = (loadWords buf i m).take k := by
  intro k
  induction k with
  | zero => intro m i _; rfl
  | succ k ih =>
      intro m i h
      cases m with
      | zero => rfl
      | succ m =>
          rw [loadWords, loadWords, List.take_succ_cons, List.take_succ_cons, ebToCpu, ebToCpu,
            h i (by omega) (by omega), h (i + 1) (by omega) (by omega),
            h (i + 2) (by omega) (by omega), h (i + 3) (by omega) (by omega),
            ih m (i + 4) fun j hj hj' => h j (by omega) (by omega)]

/-- The words from one of them on. -/
theorem loadWords_drop (buf : Nat → Byte) : ∀ (k m i : Nat),
    (loadWords buf i m).drop k = loadWords buf (i + 4 * k) (m - k) := by
  intro k
  induction k with
  | zero => intro m i; rfl
  | succ k ih =>
      intro m i
      cases m with
      | zero =>
          rw [Nat.zero_sub]
          rfl
      | succ m =>
          rw [loadWords, List.drop_succ_cons, ih, Nat.add_sub_add_right,
            show i + 4 + 4 * k = i + 4 * (k + 1) by omega]

/-- The last byte of a word decides its lowest bit. -/
theorem apart_wordOf (a b c a' b' c' : Byte) : Apart (wordOf a b c 0) (wordOf a' b' c' 1) := by
  intro h
  have hbit := congrArg (fun w => BitVec.getLsbD w 0) h
  simp only [wordOf, BitVec.getLsbD_and, BitVec.getLsbD_append, if_pos (show 0 < 8 by decide)] at hbit
  cases hbit

/-- Words of which the last byte is not known. -/
theorem loadWords_apart {buf buf' : Nat → Byte} : ∀ (m i : Nat),
    (∀ j, i + 3 ≤ j → buf j = 0 ∧ buf' j = 1) →
    List.Forall₂ Apart (loadWords buf i m) (loadWords buf' i m) := by
  intro m
  induction m with
  | zero => intro i _; exact .nil
  | succ m ih =>
      intro i h
      refine .cons ?_ (ih (i + 4) fun j hj => h j (by omega))
      obtain ⟨hzero, hone⟩ := h (i + 3) (Nat.le_refl _)
      rw [ebToCpu, ebToCpu, hzero, hone]
      exact apart_wordOf _ _ _ _ _ _

/-- The header of a record with four known bytes. -/
structure SameHeader (wbuf wbuf' : Nat → Byte) : Prop where
  flags : wbuf' 0 = wbuf 0
  be : wbuf' 1 = wbuf 1
  wcount : wbuf' 2 = wbuf 2
  rcount : wbuf' 3 = wbuf 3

/-- A header that is there stays. -/
theorem completed_header (wbuf other : Nat → Byte) {n : Nat} (h : 4 ≤ n) :
    SameHeader wbuf (completed wbuf n other) :=
  ⟨completed_known wbuf other (by omega), completed_known wbuf other (by omega),
    completed_known wbuf other (by omega), completed_known wbuf other (by omega)⟩

/-- The same header has the same length. -/
theorem SameHeader.recordLen {wbuf wbuf' : Nat → Byte} (h : SameHeader wbuf wbuf') :
    slaveRecordLen wbuf' = slaveRecordLen wbuf := by
  rw [slaveRecordLen, slaveRecordLen, h.wcount, h.rcount]

/-- A record is refused by its header. -/
theorem SameHeader.refused {wbuf wbuf' : Nat → Byte} (h : SameHeader wbuf wbuf')
    (hlong : 4 < slaveRecordLen wbuf)
    (hhead : wbuf 3 ≠ 0 ∨ wbuf 1 ≠ 0xf ∨ wbuf 0 &&& ETHERBONE_WCA = 0) (s : ParserState) :
    cfgExec (recordIn wbuf') s = ({ s with failed := true }, []) := by
  refine cfgExec_header (by rw [h.recordLen]; exact hlong) ?_ s
  rw [h.rcount, h.be, h.flags]
  exact hhead

/-- A record that is not has writes. -/
theorem SameHeader.writes {wbuf wbuf' : Nat → Byte} (h : SameHeader wbuf wbuf')
    (hlong : 4 < slaveRecordLen wbuf)
    (hhead : ¬ (wbuf 3 ≠ 0 ∨ wbuf 1 ≠ 0xf ∨ wbuf 0 &&& ETHERBONE_WCA = 0)) (s : ParserState) :
    (0 < (wbuf 2).toNat ∧ slaveRecordLen wbuf = 8 + 4 * (wbuf 2).toNat) ∧
      cfgExec (recordIn wbuf') s =
        cfgWrites (incrementOf wbuf) (ebToCpu wbuf' 4) (loadWords wbuf' 8 (wbuf 2).toNat) s := by
  rw [not_or, not_or, not_not, not_not] at hhead
  obtain ⟨hr, hbe, hwca⟩ := hhead
  have hexec := cfgExec_writes (by rw [h.recordLen]; exact hlong) (h.rcount.trans hr)
    (h.be.trans hbe) (by rw [h.flags]; exact hwca) s
  rw [h.recordLen, h.wcount, incrementOf, h.flags] at hexec
  exact hexec

theorem byteOf_ebToCpu (buf : Nat → Byte) {i k : Nat} (h : k < 3) :
    byteOf (ebToCpu buf i) k = buf (i + k) := by
  rw [ebToCpu]
  rcases (show k = 0 ∨ k = 1 ∨ k = 2 by omega) with rfl | rfl | rfl
  · exact byteOf_wordOf_zero _ _ _ _
  · exact byteOf_wordOf_one _ _ _ _
  · exact byteOf_wordOf_two _ _ _ _

/-- The registers differ in their last byte only. -/
theorem byteOf_registers {k : Nat} (h : k < 3) : byteOf WBA_ERR k = byteOf WBA_DATA k := by
  rcases (show k = 0 ∨ k = 1 ∨ k = 2 by omega) with rfl | rfl | rfl
  · rfl
  · rfl
  · rfl

/-- **What is decided does not depend on the other bytes.** -/
theorem decided_outcome {wbuf : Nat → Byte} {n : Nat} (h4 : 4 ≤ n) (hn : n < slaveRecordLen wbuf)
    {s : ParserState} (h : Decided wbuf n s.pendingErr) (other other' : Nat → Byte) :
    (cfgExec (recordIn (completed wbuf n other)) s).1.failed = true ∧
      cfgExec (recordIn (completed wbuf n other')) s =
        cfgExec (recordIn (completed wbuf n other)) s := by
  have hsame := completed_header wbuf other h4
  have hsame' := completed_header wbuf other' h4
  have hlong : 4 < slaveRecordLen wbuf := Nat.lt_of_le_of_lt h4 hn
  by_cases hhead : wbuf 3 ≠ 0 ∨ wbuf 1 ≠ 0xf ∨ wbuf 0 &&& ETHERBONE_WCA = 0
  · rw [hsame.refused hlong hhead, hsame'.refused hlong hhead]
    exact ⟨rfl, rfl⟩
  obtain ⟨⟨hw, hlen⟩, hexec⟩ := hsame.writes hlong hhead s
  obtain ⟨_, hexec'⟩ := hsame'.writes hlong hhead s
  rw [hexec, hexec']
  rw [not_or, not_or] at hhead
  rcases ((h.resolve_left hhead.1).resolve_left hhead.2.1).resolve_left hhead.2.2 with
    ⟨hshort, i, hi, hne⟩ | ⟨h8, hrefused⟩
  · -- the base address is that of no register
    have hbase : ∀ o : Nat → Byte, ebToCpu (completed wbuf n o) 4 ≠ WBA_DATA ∧
        ¬ (ebToCpu (completed wbuf n o) 4 = WBA_ERR ∧ s.pendingErr ≠ 0) := by
      intro o
      have hbyte : byteOf (ebToCpu (completed wbuf n o) 4) i ≠ byteOf WBA_DATA i := by
        rw [byteOf_ebToCpu _ (by omega), completed_known wbuf o hi]
        exact hne
      refine ⟨fun heq => hbyte (by rw [heq]), fun heq => hbyte ?_⟩
      rw [heq.1, byteOf_registers (by omega)]
    obtain ⟨m, hm⟩ : ∃ m, (wbuf 2).toNat = m + 1 := ⟨(wbuf 2).toNat - 1, by omega⟩
    rw [hm, loadWords, loadWords, cfgWrites_stop _ _ _ (hbase other).1 (hbase other).2,
      cfgWrites_stop _ _ _ (hbase other').1 (hbase other').2]
    exact ⟨rfl, rfl⟩
  · -- the error is met in time
    have hword : ∀ o : Nat → Byte, ebToCpu (completed wbuf n o) 4 = ebToCpu wbuf 4 := by
      intro o
      rw [ebToCpu, ebToCpu, completed_known wbuf o (by omega), completed_known wbuf o (by omega),
        completed_known wbuf o (by omega), completed_known wbuf o (by omega)]
    rw [hword, hword]
    refine cfgWrites_refused hrefused ?_ ?_ ?_
    · rw [loadWords_length]
      omega
    · rw [loadWords_length]
      omega
    · refine loadWords_take _ _ _ fun j _ hj => ?_
      rw [completed_known wbuf other (by omega), completed_known wbuf other' (by omega)]

/-- **What is not decided depends on them.** -/
theorem undecided_outcome {wbuf : Nat → Byte} {n : Nat} (h4 : 4 ≤ n)
    (hn : n < slaveRecordLen wbuf) {s : ParserState} (h : ¬ Decided wbuf n s.pendingErr) :
    ∃ other other', Differ (cfgExec (recordIn (completed wbuf n other)) s)
      (cfgExec (recordIn (completed wbuf n other')) s) := by
  have hlong : 4 < slaveRecordLen wbuf := Nat.lt_of_le_of_lt h4 hn
  have hhead : ¬ (wbuf 3 ≠ 0 ∨ wbuf 1 ≠ 0xf ∨ wbuf 0 &&& ETHERBONE_WCA = 0) := by
    rintro (hr | hbe | hwca)
    · exact h (.inl hr)
    · exact h (.inr (.inl hbe))
    · exact h (.inr (.inr (.inl hwca)))
  have hbase := fun hb => h (.inr (.inr (.inr (.inl hb))))
  have hrefused := fun hb => h (.inr (.inr (.inr (.inr hb))))
  by_cases h8 : 8 ≤ n
  · -- the first word that is not known is used
    refine ⟨fun _ => 0, fun _ => 1, ?_⟩
    have hsame := completed_header wbuf (fun _ => 0) h4
    have hsame' := completed_header wbuf (fun _ => 1) h4
    obtain ⟨⟨hw, hlen⟩, hexec⟩ := hsame.writes hlong hhead s
    obtain ⟨_, hexec'⟩ := hsame'.writes hlong hhead s
    have hword : ∀ o : Nat → Byte, ebToCpu (completed wbuf n o) 4 = ebToCpu wbuf 4 := by
      intro o
      rw [ebToCpu, ebToCpu, completed_known wbuf o (by omega), completed_known wbuf o (by omega),
        completed_known wbuf o (by omega), completed_known wbuf o (by omega)]
    rw [hexec, hexec', hword, hword]
    refine cfgWrites_differ (fun h => hrefused ⟨h8, h⟩) ?_ ?_ ?_
    · rw [loadWords_length]
      omega
    · refine loadWords_take _ _ _ fun j _ hj => ?_
      rw [completed_known wbuf (fun _ => 0) (by omega), completed_known wbuf (fun _ => 1) (by omega)]
    · rw [loadWords_drop, loadWords_drop]
      refine loadWords_apart _ _ fun j hj => ?_
      exact ⟨completed_other wbuf _ (by omega), completed_other wbuf _ (by omega)⟩
  · -- the base address can become that of the value
    let other : Byte → Nat → Byte := fun c i => if i < 8 then byteOf WBA_DATA (i - 4) else c
    have hword : ∀ c, ebToCpu (completed wbuf n (other c)) 4 = WBA_DATA := by
      intro c
      have hcell : ∀ k, k < 4 → completed wbuf n (other c) (4 + k) = byteOf WBA_DATA k := by
        intro k hk
        by_cases hknown : 4 + k < n
        · rw [completed_known wbuf (other c) hknown]
          exact Classical.not_not.mp fun hne => hbase ⟨by omega, k, hknown, hne⟩
        · rw [completed_other wbuf (other c) hknown]
          show (if 4 + k < 8 then byteOf WBA_DATA (4 + k - 4) else c) = _
          rw [if_pos (by omega), Nat.add_sub_cancel_left]
      have h0 := hcell 0 (by decide)
      have h1 := hcell 1 (by decide)
      have h2 := hcell 2 (by decide)
      have h3 := hcell 3 (by decide)
      rw [ebToCpu]
      rw [Nat.add_zero] at h0
      rw [h0, h1, h2, h3, wordOf_byteOf]
    have hfar : ∀ c j, 11 ≤ j → completed wbuf n (other c) j = c := by
      intro c j hj
      rw [completed_other wbuf (other c) (by omega)]
      exact if_neg (by omega)
    refine ⟨other 0, other 1, ?_⟩
    have hsame := completed_header wbuf (other 0) h4
    have hsame' := completed_header wbuf (other 1) h4
    obtain ⟨⟨hw, hlen⟩, hexec⟩ := hsame.writes hlong hhead s
    obtain ⟨_, hexec'⟩ := hsame'.writes hlong hhead s
    rw [hexec, hexec', hword, hword]
    refine cfgWrites_differ (k := 0) (fun h => h.1 rfl) ?_ rfl ?_
    · rw [loadWords_length]
      omega
    · exact loadWords_apart _ _ fun j hj => ⟨hfar 0 j hj, hfar 1 j hj⟩

/-! ## The turns of the write loop -/

/-- The start of an iteration, at a segment. -/
structure Turn (σ : Type) where
  place : Nat
  iov : Iovec
  iovOff : Nat
  iovLen : Nat
  ctx : EtherboneSlaveContext
  bus : Bus σ

variable {σ : Type} (wops : WishboneOperations σ)

namespace Turn

variable (t : Turn σ) (user : UserMemory)

/-- The iteration. -/
def run : WriteIteration σ :=
  WbUserFaults.slaveWriteBody wops user t.place t.iov t.iovOff t.iovLen t.ctx t.bus

/-- The bytes it copies. -/
def copied : Nat :=
  if t.ctx.wbufFill < 4 then
    if 4 - t.ctx.wbufFill > t.iovLen then t.iovLen else 4 - t.ctx.wbufFill
  else if t.ctx.negotiated = false then 0
  else if subU32 (slaveRecordLen t.ctx.wbuf) t.ctx.wbufFill > t.iovLen then t.iovLen
  else subU32 (slaveRecordLen t.ctx.wbuf) t.ctx.wbufFill

/-- Those of them that get through. -/
def passed : Nat := user.through t.place t.copied

/-- The copy completes a record. -/
def Completes : Prop :=
  4 ≤ t.ctx.wbufFill ∧ t.ctx.negotiated = true ∧
    slaveRecordLen t.ctx.wbuf ≤ t.ctx.wbufFill + t.iovLen

/-- `wbuf` with the bytes that get through. -/
def supplied : Nat → Byte :=
  store t.ctx.wbuf t.ctx.wbufFill (WbIovec.memcpyFromiovecend t.iov t.iovOff (t.passed user))

/-- `wbuf` after the copy. -/
def filled : Nat → Byte :=
  store t.ctx.wbuf t.ctx.wbufFill (user.memcpyFromiovecend t.place t.iov t.iovOff t.copied)

/-- The copy completes a record that the supplied bytes refuse. -/
def Refused : Prop :=
  t.Completes ∧ Decided (t.supplied user) (t.ctx.wbufFill + t.passed user) t.ctx.pendingErr

/-- What a copy that faults must not do: move `wbuf_fill` past its last good byte, or
    let the other bytes decide what the hardware is told and what is kept for it. -/
def Keeps : Prop :=
  t.passed user < t.copied →
    (t.run wops user).ctx.wbufFill ≤ t.ctx.wbufFill + t.passed user ∧
    ∀ leftover, (t.run wops { user with leftover := leftover }).bus = (t.run wops user).bus ∧
      parserOf (t.run wops { user with leftover := leftover }).ctx =
        parserOf (t.run wops user).ctx

/-- What holds at the start of an iteration. -/
structure Sound : Prop where
  waiting : Waiting t.ctx
  pos : 0 < t.iovLen
  iovLen_le : t.iovLen ≤ (t.iov.flatten.drop t.iovOff).length

/-- What holds after it. -/
structure Next (r : WriteIteration σ) : Prop where
  waiting : Waiting r.ctx
  len_le : r.len ≤ t.iovLen
  budget_lt : r.broke = false → budget r.ctx (t.iovLen - r.len) < budget t.ctx t.iovLen

/-- No record is longer than its item. -/
theorem Sound.recordLen_ge {t : Turn σ} (h : t.Sound) (h4 : 4 ≤ t.ctx.wbufFill) :
    t.ctx.wbufFill ≤ slaveRecordLen t.ctx.wbuf ∧ slaveRecordLen t.ctx.wbuf ≤ 2052 := by
  have h1 := recordLen_pos (t.ctx.wbuf 2) (t.ctx.wbuf 3)
  have h2 := recordLen_le (t.ctx.wbuf 2) (t.ctx.wbuf 3)
  have hwait := waiting_iff.mp h.waiting
  rw [slaveRecordLen_eq] at hwait ⊢
  rcases hwait with h | ⟨_, h⟩
  · exact ⟨by omega, h2⟩
  · exact ⟨by omega, h2⟩

/-- **An iteration that completes no record.** -/
theorem run_incomplete {t : Turn σ} (hs : t.Sound) (h : ¬ t.Completes) (user : UserMemory) :
    (t.copied = 0 ∨ (t.run wops user).ctx.wbufFill = t.ctx.wbufFill + t.copied) ∧
      t.Next (t.run wops user) := by
  have hpos := hs.pos
  rw [run, WbUserFaults.slaveWriteBody, slaveWriteBodyWith, copied]
  dsimp only
  by_cases hfill : t.ctx.wbufFill < 4
  · -- header bytes
    rw [if_pos hfill, if_pos hfill]
    obtain ⟨len, hlen⟩ : ∃ len, (if 4 - t.ctx.wbufFill > t.iovLen then t.iovLen
        else 4 - t.ctx.wbufFill) = len := ⟨_, rfl⟩
    have hbound : 0 < len ∧ len ≤ t.iovLen ∧ t.ctx.wbufFill + len ≤ 4 := by
      rw [← hlen]
      split <;> omega
    rw [hlen]
    refine ⟨.inr rfl, waiting_iff.mpr (.inl hbound.2.2), hbound.2.1, fun _ => ?_⟩
    rw [budget, budget, if_neg (show ¬ 4 ≤ t.ctx.wbufFill by omega)]
    dsimp only
    split <;> omega
  rw [if_neg hfill, if_neg hfill]
  have h4 : 4 ≤ t.ctx.wbufFill := by omega
  cases hneg : t.ctx.negotiated with
  | false =>
      rw [if_pos rfl, if_pos rfl]
      cases probeAccepted t.ctx.wbuf with
      | true =>
          rw [if_pos rfl]
          refine ⟨.inl rfl, waiting_iff.mpr (.inl (Nat.zero_le 4)), Nat.zero_le _, fun _ => ?_⟩
          rw [budget, budget, if_pos h4, if_neg (show ¬ 4 ≤ 0 by decide)]
          exact Nat.lt_succ_self _
      | false =>
          rw [if_neg Bool.false_ne_true]
          exact ⟨.inl rfl, hs.waiting, Nat.zero_le _, fun hb => by cases hb⟩
  | true =>
      obtain ⟨hle, hmax⟩ := hs.recordLen_ge h4
      rw [if_neg (show ¬ true = false by decide), if_neg (show ¬ true = false by decide),
        subU32_of_le hle (by omega)]
      have hmore : slaveRecordLen t.ctx.wbuf - t.ctx.wbufFill > t.iovLen := by
        have hlong : ¬ slaveRecordLen t.ctx.wbuf ≤ t.ctx.wbufFill + t.iovLen :=
          fun hc => h ⟨h4, hneg, hc⟩
        omega
      rw [if_pos hmore, if_pos hmore]
      refine ⟨.inr rfl, waiting_iff.mpr (.inr ⟨rfl, ?_⟩), Nat.le_refl _, fun _ => ?_⟩
      · -- the header is not touched
        have hhead : ∀ block : List Byte,
            slaveRecordLen (store t.ctx.wbuf t.ctx.wbufFill block) = slaveRecordLen t.ctx.wbuf := by
          intro block
          rw [slaveRecordLen, slaveRecordLen, store_outside _ (by omega),
            store_outside _ (by omega)]
        rw [hhead]
        show t.ctx.wbufFill + t.iovLen < _
        omega
      · rw [budget, budget, if_pos h4]
        dsimp only
        split <;> omega

/-- A copy that completes a record ends with it. -/
theorem copied_complete {t : Turn σ} (hs : t.Sound) (h : t.Completes) :
    t.copied ≤ t.iovLen ∧ t.ctx.wbufFill + t.copied = slaveRecordLen t.ctx.wbuf := by
  obtain ⟨h4, hneg, hfits⟩ := h
  obtain ⟨hle, hmax⟩ := hs.recordLen_ge h4
  rw [copied, if_neg (by omega), hneg, if_neg (show ¬ true = false by decide),
    subU32_of_le hle (by omega), if_neg (by omega)]
  omega

/-- What the parser makes of the record that is completed. -/
def outcome (t : Turn σ) (user : UserMemory) : ParserState × List Reply :=
  cfgExec (recordIn (t.filled user)) (parserOf t.ctx)

/-- **An iteration that completes a record** executes it. -/
theorem run_complete {t : Turn σ} (hs : t.Sound) (h : t.Completes) (user : UserMemory) :
    t.run wops user =
      ⟨t.copied, (t.outcome user).1.failed,
        (executed wops { t.ctx with wbuf := t.filled user, wbufFill := 0 } t.bus
          (t.outcome user)).2.1,
        replyAll wops (t.outcome user).2 t.bus⟩ := by
  obtain ⟨hfits, hlen⟩ := copied_complete hs h
  obtain ⟨h4, hneg, _⟩ := h
  obtain ⟨hle, hmax⟩ := hs.recordLen_ge h4
  have hcopied : t.copied = slaveRecordLen t.ctx.wbuf - t.ctx.wbufFill := by omega
  have hparser : parserOf { t.ctx with wbuf := t.filled user, wbufFill := 0 } = parserOf t.ctx := rfl
  have hin := inProcess_eq wops { t.ctx with wbuf := t.filled user, wbufFill := 0 } t.bus
  rw [hparser] at hin
  dsimp only at hin
  rw [run, WbUserFaults.slaveWriteBody, slaveWriteBodyWith]
  dsimp only
  rw [if_neg (show ¬ t.ctx.wbufFill < 4 by omega), if_neg (by rw [hneg]; decide),
    subU32_of_le hle (by omega), if_neg (show ¬ _ > t.iovLen by omega), ← hcopied]
  have hfilled : store t.ctx.wbuf t.ctx.wbufFill
      (user.memcpyFromiovecend t.place t.iov t.iovOff t.copied) = t.filled user := rfl
  rw [hfilled, hin, outcome]
  obtain ⟨⟨⟨negotiated, pendingErr, data, failed⟩, out⟩, ht⟩ :
    ∃ x, cfgExec (recordIn (t.filled user)) (parserOf t.ctx) = x := ⟨_, rfl⟩
  rw [ht]
  cases failed with
  | true => rfl
  | false => rfl

/-- The bytes that get through are those of the user. -/
theorem supplied_length {t : Turn σ} (hs : t.Sound) (h : t.copied ≤ t.iovLen)
    (user : UserMemory) :
    (WbIovec.memcpyFromiovecend t.iov t.iovOff (t.passed user)).length = t.passed user := by
  have hle := user.through_le t.place t.copied
  have hrest := hs.iovLen_le
  rw [memcpyFromiovecend_eq, List.length_take, passed]
  omega

/-- Up to the fault the buffer is filled with what was supplied. -/
theorem filled_supplied {t : Turn σ} (hs : t.Sound) (h : t.copied ≤ t.iovLen)
    (user : UserMemory) {i : Nat} (hi : i < t.ctx.wbufFill + t.passed user) :
    t.filled user i = t.supplied user i := by
  have hlen := supplied_length hs h user
  rw [filled, supplied]
  by_cases hlow : i < t.ctx.wbufFill
  · rw [store_outside _ (.inl hlow), store_outside _ (.inl hlow)]
  · obtain ⟨k, rfl⟩ : ∃ k, i = t.ctx.wbufFill + k := ⟨i - t.ctx.wbufFill, by omega⟩
    have hk : k < (WbIovec.memcpyFromiovecend t.iov t.iovOff (t.passed user)).length := by omega
    have hk' : k < (user.memcpyFromiovecend t.place t.iov t.iovOff t.copied).length := by
      rw [UserMemory.memcpyFromiovecend, List.length_append]
      exact Nat.lt_of_lt_of_le hk (Nat.le_add_right _ _)
    rw [store_inside _ _ _ _ hk, store_inside _ _ _ _ hk']
    exact List.getElem_append_left hk

/-- The header of the record was there before. -/
theorem supplied_recordLen {t : Turn σ} (h : t.Completes) (user : UserMemory) :
    slaveRecordLen (t.supplied user) = slaveRecordLen t.ctx.wbuf := by
  have h4 := h.1
  rw [supplied, slaveRecordLen, slaveRecordLen, store_outside _ (.inl (by omega)),
    store_outside _ (.inl (by omega))]

/-- So the buffer is one of those that complete it. -/
theorem filled_completed {t : Turn σ} (hs : t.Sound) (h : t.copied ≤ t.iovLen)
    (user : UserMemory) :
    t.filled user =
      completed (t.supplied user) (t.ctx.wbufFill + t.passed user) (t.filled user) := by
  funext i
  by_cases hi : i < t.ctx.wbufFill + t.passed user
  · rw [completed_known _ _ hi, filled_supplied hs h user hi]
  · rw [completed_other _ _ hi]

/-- Behind the fault the copy can leave anything. -/
theorem filled_leftover {t : Turn σ} (hs : t.Sound) (h : t.copied ≤ t.iovLen)
    (user : UserMemory) (other : Nat → Byte) : ∃ leftover, ∀ i, i < t.ctx.wbufFill + t.copied →
    t.filled { user with leftover := leftover } i =
      completed (t.supplied user) (t.ctx.wbufFill + t.passed user) other i := by
  let leftover : (offset len : Nat) → List Byte := fun _ _ =>
    load other (t.ctx.wbufFill + t.passed user) (t.copied - t.passed user)
  refine ⟨leftover, fun i hi => ?_⟩
  have hle := user.through_le t.place t.copied
  have hlen := supplied_length hs h user
  by_cases hknown : i < t.ctx.wbufFill + t.passed user
  · rw [completed_known _ _ hknown]
    exact filled_supplied hs h { user with leftover := leftover } hknown
  · rw [completed_other _ _ hknown]
    obtain ⟨k, rfl⟩ : ∃ k, i = t.ctx.wbufFill + t.passed user + k :=
      ⟨i - (t.ctx.wbufFill + t.passed user), by omega⟩
    have hblock : ({ user with leftover := leftover } : UserMemory).memcpyFromiovecend
        t.place t.iov t.iovOff t.copied =
        WbIovec.memcpyFromiovecend t.iov t.iovOff (t.passed user) ++
          load other (t.ctx.wbufFill + t.passed user) (t.copied - t.passed user) := by
      have htake : (load other (t.ctx.wbufFill + t.passed user)
          (t.copied - t.passed user)).take (t.copied - t.passed user) = _ :=
        List.take_of_length_le (Nat.le_of_eq (load_length _ _ _))
      rw [← htake]
      rfl
    have hk : t.passed user + k < (WbIovec.memcpyFromiovecend t.iov t.iovOff (t.passed user) ++
        load other (t.ctx.wbufFill + t.passed user) (t.copied - t.passed user)).length := by
      rw [List.length_append, hlen, load_length]
      omega
    rw [filled, hblock, Nat.add_assoc, store_inside _ _ _ _ hk,
      List.getElem_append_right (by rw [hlen]; exact Nat.le_add_right _ _)]
    simp only [load, List.getElem_map, List.getElem_range, hlen, Nat.add_sub_cancel_left,
      Nat.add_assoc]

/-- A record that the hardware or the parser sees nothing else of. -/
theorem replyAll_inj {bus : Bus σ} {out out' : List Reply}
    (h : replyAll wops out' bus = replyAll wops out bus) : out' = out := by
  have htrace := congrArg Bus.trace h
  rw [replyAll_trace, replyAll_trace] at htrace
  refine List.map_injective_iff.mpr ?_ (List.append_cancel_left htrace)
  intro r r' heq
  injection heq with herr hdata
  cases r
  cases r'
  dsimp only at herr hdata
  rw [herr, hdata]

/-- What is to be seen of an iteration that completes a record. -/
theorem run_outcome {t : Turn σ} (hs : t.Sound) (h : t.Completes) (user : UserMemory) :
    (t.run wops user).broke = (t.outcome user).1.failed ∧
      (t.run wops user).ctx.wbufFill = 0 ∧
      (t.run wops user).bus = replyAll wops (t.outcome user).2 t.bus ∧
      parserOf (t.run wops user).ctx =
        ⟨t.ctx.negotiated, (t.outcome user).1.pendingErr, (t.outcome user).1.data, false⟩ := by
  rw [run_complete wops hs h user]
  exact ⟨rfl, rfl, rfl, rfl⟩

/-- Any completion of the record is met. -/
theorem outcome_met {t : Turn σ} (hs : t.Sound) (h : t.Completes) (user : UserMemory)
    (other : Nat → Byte) : ∃ leftover, t.outcome { user with leftover := leftover } =
      cfgExec (recordIn (completed (t.supplied user) (t.ctx.wbufFill + t.passed user) other))
        (parserOf t.ctx) := by
  obtain ⟨hfits, hlen⟩ := copied_complete hs h
  obtain ⟨leftover, hcells⟩ := filled_leftover hs hfits user other
  have h4 : 4 ≤ t.ctx.wbufFill + t.passed user := Nat.le_trans h.1 (Nat.le_add_right _ _)
  have hle : slaveRecordLen (completed (t.supplied user) (t.ctx.wbufFill + t.passed user) other) ≤
      t.ctx.wbufFill + t.copied := by
    refine Nat.le_of_eq ?_
    rw [(completed_header _ other h4).recordLen, supplied_recordLen h user, hlen]
  refine ⟨leftover, ?_⟩
  rw [outcome, recordIn_alike (Nat.le_trans h.1 (Nat.le_add_right _ _)) hle hcells]

/-- What is decided comes out. -/
theorem outcome_decided {t : Turn σ} (hs : t.Sound) (h : t.Completes) (user : UserMemory)
    (hfault : t.passed user < t.copied)
    (hdecided : Decided (t.supplied user) (t.ctx.wbufFill + t.passed user) t.ctx.pendingErr)
    (leftover : (offset len : Nat) → List Byte) :
    (t.outcome user).1.failed = true ∧
      t.outcome { user with leftover := leftover } = t.outcome user := by
  obtain ⟨hfits, hlen⟩ := copied_complete hs h
  have h4 : 4 ≤ t.ctx.wbufFill + t.passed user := Nat.le_trans h.1 (Nat.le_add_right _ _)
  have hn : t.ctx.wbufFill + t.passed user < slaveRecordLen (t.supplied user) := by
    rw [supplied_recordLen h user]
    omega
  rw [outcome, outcome, filled_completed hs hfits user,
    filled_completed hs hfits { user with leftover := leftover }]
  exact decided_outcome h4 hn (s := parserOf t.ctx) hdecided _ _

/-- **A copy that completes a record and faults does no harm** exactly if the bytes
    before the fault refuse the record. -/
theorem keeps_complete {t : Turn σ} (hs : t.Sound) (h : t.Completes) (user : UserMemory)
    (hfault : t.passed user < t.copied) :
    t.Keeps wops user ↔
      Decided (t.supplied user) (t.ctx.wbufFill + t.passed user) t.ctx.pendingErr := by
  obtain ⟨_, hfill, hbus, hparser⟩ := run_outcome wops hs h user
  constructor
  · intro hkeeps
    obtain ⟨_, hsame⟩ := hkeeps hfault
    obtain ⟨hfits, hlen⟩ := copied_complete hs h
    have h4 : 4 ≤ t.ctx.wbufFill + t.passed user := Nat.le_trans h.1 (Nat.le_add_right _ _)
    have hn : t.ctx.wbufFill + t.passed user < slaveRecordLen (t.supplied user) := by
      rw [supplied_recordLen h user]
      omega
    -- any completion has the outcome at hand
    have hall : ∀ leftover, (t.outcome { user with leftover := leftover }).2 = (t.outcome user).2 ∧
        (t.outcome { user with leftover := leftover }).1.data = (t.outcome user).1.data := by
      intro leftover
      obtain ⟨_, _, hbus', hparser'⟩ := run_outcome wops hs h { user with leftover := leftover }
      obtain ⟨hb, hp⟩ := hsame leftover
      rw [hbus, hbus'] at hb
      rw [hparser, hparser'] at hp
      injection hp with _ _ hdata
      exact ⟨replyAll_inj wops hb, hdata⟩
    by_contra hopen
    obtain ⟨other, other', hdiffer⟩ := undecided_outcome h4 hn (s := parserOf t.ctx) hopen
    obtain ⟨leftover, hmet⟩ := outcome_met hs h user other
    obtain ⟨leftover', hmet'⟩ := outcome_met hs h user other'
    rw [← hmet, ← hmet'] at hdiffer
    rcases hdiffer with hout | hdata
    · exact hout ((hall leftover').1.trans (hall leftover).1.symm)
    · exact hdata ((hall leftover').2.trans (hall leftover).2.symm)
  · intro hdecided _
    refine ⟨by rw [hfill]; exact Nat.zero_le _, fun leftover => ?_⟩
    obtain ⟨_, _, hbus', hparser'⟩ := run_outcome wops hs h { user with leftover := leftover }
    rw [hbus, hbus', hparser, hparser',
      (outcome_decided hs h user hfault hdecided leftover).2]
    exact ⟨rfl, rfl⟩

/-- **A copy of the write loop does no harm** exactly if it does not fault, or completes
    a record that the bytes before the fault refuse. -/
theorem keeps_iff {t : Turn σ} (hs : t.Sound) (user : UserMemory) :
    t.Keeps wops user ↔ t.passed user = t.copied ∨ t.Refused user := by
  have hle : t.passed user ≤ t.copied := user.through_le t.place t.copied
  by_cases hfault : t.passed user < t.copied
  · by_cases hcomplete : t.Completes
    · rw [keeps_complete wops hs hcomplete user hfault]
      refine ⟨fun h => .inr ⟨hcomplete, h⟩, ?_⟩
      rintro (hall | hrefused)
      · omega
      · exact hrefused.2
    · obtain ⟨hfill, _⟩ := run_incomplete wops hs hcomplete user
      constructor
      · intro hkeeps
        obtain ⟨hmove, _⟩ := hkeeps hfault
        omega
      · rintro (hall | hrefused)
        · omega
        · exact absurd hrefused.1 hcomplete
  · exact ⟨fun _ => .inl (by omega), fun _ h => absurd h hfault⟩

/-- The loop goes on behind an iteration. -/
theorem run_next {t : Turn σ} (hs : t.Sound) (user : UserMemory) : t.Next (t.run wops user) := by
  by_cases hcomplete : t.Completes
  · obtain ⟨hfits, hlen⟩ := copied_complete hs hcomplete
    obtain ⟨_, hfill, _⟩ := run_outcome wops hs hcomplete user
    have hcount : (t.run wops user).len = t.copied := by rw [run_complete wops hs hcomplete user]
    refine ⟨waiting_iff.mpr (.inl (by rw [hfill]; exact Nat.zero_le 4)), ?_, fun _ => ?_⟩
    · rw [hcount]
      exact hfits
    · rw [budget, budget, hfill, hcount, if_pos hcomplete.1, if_neg (by decide)]
      omega
  · exact (run_incomplete wops hs hcomplete user).2

/-- The turn behind this one. -/
def after (r : WriteIteration σ) : Turn σ :=
  ⟨t.place + r.len, t.iov, t.iovOff + r.len, t.iovLen - r.len, r.ctx, r.bus⟩

/-- The turn at its segment. -/
def seek : Turn σ :=
  { t with iov := (skipSegments t.iov t.iovOff).1, iovOff := (skipSegments t.iov t.iovOff).2 }

/-- What a loop starts with. -/
structure Ready : Prop where
  waiting : Waiting t.ctx
  iovLen_le : t.iovLen ≤ (t.iov.flatten.drop t.iovOff).length

/-- A turn that is ready is sound. -/
theorem Ready.sound {t : Turn σ} (h : t.Ready) (hpos : 0 < t.iovLen) : t.seek.Sound := by
  refine ⟨h.waiting, hpos, ?_⟩
  show t.iovLen ≤ ((skipSegments t.iov t.iovOff).1.flatten.drop
    (skipSegments t.iov t.iovOff).2).length
  rw [skipSegments_drop]
  exact h.iovLen_le

/-- A sound turn leaves the loop ready. -/
theorem Sound.ready {t : Turn σ} (hs : t.Sound) {r : WriteIteration σ} (h : t.Next r) :
    (t.after r).Ready := by
  refine ⟨h.waiting, ?_⟩
  have hle := hs.iovLen_le
  have hlen := h.len_le
  show t.iovLen - r.len ≤ (t.iov.flatten.drop (t.iovOff + r.len)).length
  rw [List.length_drop] at hle ⊢
  omega

end Turn

/-- The turns of the write loop. -/
def slaveTurns (user : UserMemory) : Nat → Turn σ → List (Turn σ)
  | 0, _ => []
  | fuel + 1, t =>
      if t.iovLen > 0 then
        let r := t.seek.run wops user
        t.seek :: if r.broke then [] else slaveTurns user fuel (t.seek.after r)
      else []

/-- The write loop from a turn on. -/
def loopFrom (user : UserMemory) (fuel : Nat) (t : Turn σ) :
    Nat × EtherboneSlaveContext × Bus σ :=
  WbUserFaults.slaveWriteLoop wops user fuel t.place t.iov t.iovOff t.iovLen t.ctx t.bus

/-- One turn of the loop. -/
theorem loopFrom_succ (user : UserMemory) (fuel : Nat) (t : Turn σ) :
    loopFrom wops user (fuel + 1) t =
      if t.iovLen > 0 then
        if (t.seek.run wops user).broke then
          (t.iovLen, (t.seek.run wops user).ctx, (t.seek.run wops user).bus)
        else loopFrom wops user fuel (t.seek.after (t.seek.run wops user))
      else (t.iovLen, t.ctx, t.bus) := rfl

/-- Every turn is a sound one. -/
theorem slaveTurns_sound (user : UserMemory) : ∀ (fuel : Nat) (t : Turn σ), t.Ready →
    ∀ t' ∈ slaveTurns wops user fuel t, t'.Sound := by
  intro fuel
  induction fuel with
  | zero => intro t _ t' h; cases h
  | succ fuel ih =>
      intro t hready t' h
      rw [slaveTurns] at h
      by_cases hpos : t.iovLen > 0
      · have hsound := hready.sound hpos
        rw [if_pos hpos] at h
        rcases List.mem_cons.mp h with rfl | hmem
        · exact hsound
        · split at hmem
          · cases hmem
          · exact ih _ (hsound.ready (Turn.run_next wops hsound user)) t' hmem
      · rw [if_neg hpos] at h
        cases h

/-- A turn that breaks leaves bytes over. -/
theorem slaveTurns_broke (user : UserMemory) : ∀ (fuel : Nat) (t : Turn σ),
    (∃ t' ∈ slaveTurns wops user fuel t, (t'.run wops user).broke = true) →
    0 < (loopFrom wops user fuel t).1 := by
  intro fuel
  induction fuel with
  | zero => rintro t ⟨t', h, _⟩; cases h
  | succ fuel ih =>
      rintro t ⟨t', h, hbroke⟩
      rw [slaveTurns] at h
      rw [loopFrom_succ]
      by_cases hpos : t.iovLen > 0
      · rw [if_pos hpos] at h ⊢
        dsimp only at h
        cases hfirst : (t.seek.run wops user).broke with
        | true => exact hpos
        | false =>
            rw [hfirst] at h
            rcases List.mem_cons.mp h with rfl | hmem
            · rw [hbroke] at hfirst
              cases hfirst
            · exact ih _ ⟨t', hmem, hbroke⟩
      · rw [if_neg hpos] at h
        cases h

/-- The loop ends in a state that waits for more, within the iterations allowed. -/
theorem loopFrom_done (user : UserMemory) : ∀ (fuel : Nat) (t : Turn σ), t.Ready →
    budget t.ctx t.iovLen ≤ fuel →
    Waiting (loopFrom wops user fuel t).2.1 ∧
      loopFrom wops user (fuel + 1) t = loopFrom wops user fuel t := by
  intro fuel
  induction fuel with
  | zero =>
      intro t hready hfuel
      have hzero : t.iovLen = 0 := by
        rw [budget] at hfuel
        omega
      refine ⟨hready.waiting, ?_⟩
      rw [loopFrom_succ, if_neg (by omega)]
      rfl
  | succ fuel ih =>
      intro t hready hfuel
      rw [loopFrom_succ wops user (fuel + 1), loopFrom_succ wops user fuel]
      by_cases hpos : t.iovLen > 0
      · have hsound := hready.sound hpos
        have hnext := Turn.run_next wops hsound user
        rw [if_pos hpos, if_pos hpos]
        cases hbroke : (t.seek.run wops user).broke with
        | true => exact ⟨hnext.waiting, rfl⟩
        | false =>
            have hlt := hnext.budget_lt hbroke
            have hseek : budget t.seek.ctx t.seek.iovLen = budget t.ctx t.iovLen := rfl
            exact ih _ (hsound.ready hnext) (by
              show budget (t.seek.run wops user).ctx _ ≤ fuel
              rw [hseek] at hlt
              exact Nat.le_of_lt_succ (Nat.lt_of_lt_of_le hlt hfuel))
      · rw [if_neg hpos, if_neg hpos]
        exact ⟨hready.waiting, rfl⟩

/-! ## The write of the slave device -/

/-- The start of a call. -/
def firstTurn (iov : Iovec) (ctx : EtherboneSlaveContext) (bus : Bus σ) : Turn σ :=
  ⟨0, iov, 0, u32 (iovLength iov), ctx, bus⟩

/-- The first turn is ready. -/
theorem firstTurn_ready {ctx : EtherboneSlaveContext} (h : Waiting ctx) (iov : Iovec)
    (bus : Bus σ) : (firstTurn iov ctx bus).Ready := by
  refine ⟨h, ?_⟩
  show u32 (iovLength iov) ≤ (iov.flatten.drop 0).length
  rw [List.drop_zero, ← iovLength_eq]
  exact u32_le _

/-- The turns of a call. -/
def slaveWriteTurns (user : UserMemory) (signal : Bool) (iov : Iovec)
    (ctx : EtherboneSlaveContext) (bus : Bus σ) : List (Turn σ) :=
  if signal then []
  else slaveTurns wops user (2 * u32 (iovLength iov) + 1) (firstTurn iov ctx bus)

/-- A write to the slave device does no harm with a copy that faults, and does not
    report its bytes as accepted. -/
def SlaveWriteKeeps (user : UserMemory) (signal : Bool) (iov : Iovec)
    (ctx : EtherboneSlaveContext) (bus : Bus σ) : Prop :=
  let turns := slaveWriteTurns wops user signal iov ctx bus
  (∀ t ∈ turns, t.Keeps wops user) ∧
    ((∃ t ∈ turns, t.passed user < t.copied) →
      (WbUserFaults.charSlaveAioWrite wops user signal iov ctx bus).1 = .error .eio)

/-- No call takes a context out of the states it can be in. -/
theorem charSlaveAioWrite_waiting {ctx : EtherboneSlaveContext} (h : Waiting ctx)
    (user : UserMemory) (signal : Bool) (iov : Iovec) (bus : Bus σ) :
    Waiting (WbUserFaults.charSlaveAioWrite wops user signal iov ctx bus).2.1 := by
  rw [WbUserFaults.charSlaveAioWrite, slaveAioWriteWith]
  dsimp only
  cases signal with
  | true => exact h
  | false =>
      refine (loopFrom_done wops user _ (firstTurn iov ctx bus) (firstTurn_ready h iov bus) ?_).1
      show budget ctx (u32 (iovLength iov)) ≤ 2 * u32 (iovLength iov) + 1
      rw [budget]
      split
      · exact Nat.le_refl _
      · exact Nat.le_succ _

/-- **A write to the slave device takes nothing that was not supplied** exactly if every
    copy that faults completes a record that the bytes before the fault refuse. -/
theorem slaveWrite_keeps {ctx : EtherboneSlaveContext} (h : Waiting ctx) (user : UserMemory)
    (signal : Bool) (iov : Iovec) (bus : Bus σ) :
    SlaveWriteKeeps wops user signal iov ctx bus ↔
      ∀ t ∈ slaveWriteTurns wops user signal iov ctx bus,
        t.passed user = t.copied ∨ t.Refused user := by
  have hsound : ∀ t ∈ slaveWriteTurns wops user signal iov ctx bus, t.Sound := by
    intro t ht
    rw [slaveWriteTurns] at ht
    split at ht
    · cases ht
    · exact slaveTurns_sound wops user _ _ (firstTurn_ready h iov bus) t ht
  constructor
  · rintro ⟨hkeeps, _⟩ t ht
    exact (Turn.keeps_iff wops (hsound t ht) user).mp (hkeeps t ht)
  · intro hall
    refine ⟨fun t ht => (Turn.keeps_iff wops (hsound t ht) user).mpr (hall t ht), ?_⟩
    rintro ⟨t, ht, hfault⟩
    have hrefused : t.Refused user := (hall t ht).resolve_left (Nat.ne_of_lt hfault)
    have hbroke : (t.run wops user).broke = true := by
      rw [(Turn.run_outcome wops (hsound t ht) hrefused.1 user).1]
      exact (Turn.outcome_decided (hsound t ht) hrefused.1 user hfault hrefused.2 user.leftover).1
    cases signal with
    | true => cases ht
    | false =>
        have hleft := slaveTurns_broke wops user _ _ ⟨t, ht, hbroke⟩
        rw [WbUserFaults.charSlaveAioWrite, slaveAioWriteWith]
        exact if_pos hleft

/-- **Copies that fault are not noticed.**  No entry point loses or invents a byte in a
    call exactly if no copy of the call faults, or, in a write to the slave device, the
    copy that faults completes a record that the bytes before the fault refuse. -/
theorem faults_unnoticed (user : UserMemory) (signal nonblock : Bool) (iov : Iovec)
    (bus : Bus σ) :
    (∀ ctx, MasterReadKeeps user signal nonblock iov ctx ↔
      user.Faultless (masterReadCopies signal iov ctx)) ∧
    (∀ ctx, MasterWriteKeeps wops user signal nonblock iov ctx bus ↔
      user.Faultless (masterWriteCopies signal iov ctx)) ∧
    (∀ ctx, SlaveReadKeeps wops user signal nonblock iov ctx bus ↔
      user.Faultless (slaveReadCopies wops signal iov ctx bus)) ∧
    ∀ ctx, Waiting ctx → (SlaveWriteKeeps wops user signal iov ctx bus ↔
      ∀ t ∈ slaveWriteTurns wops user signal iov ctx bus,
        t.passed user = t.copied ∨ t.Refused user) :=
  ⟨fun ctx => masterRead_keeps user signal nonblock iov ctx,
    fun ctx => masterWrite_keeps wops user signal nonblock iov ctx bus,
    fun ctx => slaveRead_keeps wops user signal nonblock iov ctx bus,
    fun _ h => slaveWrite_keeps wops h user signal iov bus⟩

/-- User memory of which `n` bytes can be copied, and zeros are left for the others. -/
def firstBytes (n : Nat) : UserMemory := ⟨fun _ _ => n, fun _ len => List.replicate len 0⟩

/-- A context that waits for the body of a record, with one access to answer. -/
def headerHeld (flags be wcount rcount : Byte) : EtherboneSlaveContext :=
  ⟨1, true, 0x1234, 0, 0, fun _ => 0, 4, storeFour (fun _ => 0) 0 flags be wcount rcount⟩

theorem headerHeld_waiting (flags be wcount rcount : Byte) :
    Waiting (headerHeld flags be wcount rcount) := waiting_iff.mpr (.inl (Nat.le_refl 4))

/-- The body of a record with a read, which faults behind two bytes: the record is
    refused by its header, and nothing is lost. -/
theorem faults_unnoticed_refused :
    SlaveWriteKeeps oneRequest (firstBytes 2) false [[0, 0, 0x80, 0x04, 0, 0, 0, 1]]
      (headerHeld 0 0xf 0 1) ⟨true, []⟩ := by
  refine ((faults_unnoticed oneRequest (firstBytes 2) false false
    [[0, 0, 0x80, 0x04, 0, 0, 0, 1]] ⟨true, []⟩).2.2.2 _
    (headerHeld_waiting 0 0xf 0 1)).mpr ?_
  intro t ht
  have hturns : slaveWriteTurns oneRequest (firstBytes 2) false [[0, 0, 0x80, 0x04, 0, 0, 0, 1]]
      (headerHeld 0 0xf 0 1) ⟨true, []⟩ =
        [firstTurn [[0, 0, 0x80, 0x04, 0, 0, 0, 1]] (headerHeld 0 0xf 0 1) ⟨true, []⟩] := rfl
  rw [hturns] at ht
  obtain rfl := List.mem_singleton.mp ht
  exact .inr ⟨⟨by decide, rfl, by decide⟩, .inl (by decide)⟩

/-- Every entry point takes what was not supplied.  A read throws four bytes away, and an
    answer that user space gives as an error becomes one without. -/
theorem faults_hidden :
    ¬ MasterReadKeeps (firstBytes 0) false false [[0, 0, 0, 0]]
        ⟨.idle, 0, 4, 4, fun _ => 1⟩ ∧
      (WbUserFaults.charSlaveAioWrite oneRequest (firstBytes 4) false
        [[0, 0, 0x80, 0x04, 0, 0, 0, 1]] (headerHeld 0x04 0xf 1 0) ⟨true, []⟩).1 = .ok 8 ∧
      (WbUserFaults.charSlaveAioWrite oneRequest (firstBytes 4) false
        [[0, 0, 0x80, 0x04, 0, 0, 0, 1]] (headerHeld 0x04 0xf 1 0) ⟨true, []⟩).2.2.trace =
          [.reply 0 0x1234] ∧
      ¬ SlaveWriteKeeps oneRequest (firstBytes 4) false [[0, 0, 0x80, 0x04, 0, 0, 0, 1]]
        (headerHeld 0x04 0xf 1 0) ⟨true, []⟩ := by
  have haccepted : (WbUserFaults.charSlaveAioWrite oneRequest (firstBytes 4) false
      [[0, 0, 0x80, 0x04, 0, 0, 0, 1]] (headerHeld 0x04 0xf 1 0) ⟨true, []⟩).1 = .ok 8 := by decide
  refine ⟨?_, haccepted, by decide, ?_⟩
  · rw [masterRead_keeps]
    intro h
    have hnone := h (0, 4) (by decide)
    revert hnone
    decide
  · rintro ⟨_, hreport⟩
    have hfault := hreport
      ⟨firstTurn [[0, 0, 0x80, 0x04, 0, 0, 0, 1]] (headerHeld 0x04 0xf 1 0) ⟨true, []⟩,
        List.mem_cons_self .., by decide⟩
    rw [haccepted] at hfault
    cases hfault

end WbSlaveFaults
