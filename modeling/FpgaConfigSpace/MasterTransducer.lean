import FpgaConfigSpace.MasterContext
import FpgaConfigSpace.Lib.Frames
import Mathlib.Data.List.GetD

/-! # The master device as a transducer of byte streams

    What the master device is for, without the ring: the first eight bytes are a
    probe and become the probe response; then every complete Etherbone record is
    executed on the bus and becomes a response of its own length.  This is a
    `Framer` over the accepted byte stream. -/

namespace WbTransducer

open BigEndian WbIovec WbWishbone WbMaster Frames

/-- An Etherbone record: writes of `writes` from `base` on, then reads of the
    listed addresses, to be returned to `retAddr`. -/
structure EbRecord where
  flags : Byte
  be : Byte
  rcount : Byte
  base : Word
  writes : List Word
  retAddr : Word
  reads : List Word

/-- Words taken by `n` writes and their base address. -/
def writeSpan (n : Nat) : Nat := if n > 0 then n + 1 else 0

/-- Read a record off its header bytes and the words behind them. -/
def EbRecord.ofWords (flags be wcount rcount : Byte) (ws : List Word) : EbRecord where
  flags := flags
  be := be
  rcount := rcount
  base := ws.headD 0
  writes := (ws.drop 1).take wcount.toNat
  retAddr := (ws.drop (writeSpan wcount.toNat)).headD 0
  reads := (ws.drop (writeSpan wcount.toNat + 1)).take rcount.toNat

/-- Read a record off its bytes. -/
def EbRecord.ofBytes : List Byte → EbRecord
  | flags :: be :: wcount :: rcount :: body => .ofWords flags be wcount rcount (wordsOf body)
  | _ => .ofWords 0 0 0 0 []

variable {σ : Type} (wops : WishboneOperations σ)

/-- Write the words one after another, `increment` bytes apart. -/
def busWrites (increment : Word) : Word → List Word → Bus σ → Bus σ
  | _, [], bus => bus
  | base, d :: ds, bus => busWrites increment (base + increment) ds (bus.write wops base d)

/-- Read the addresses in order, from the bus or from its configuration space. -/
def busReads (cfg : Bool) : List Word → Bus σ → List Word × Bus σ
  | [], bus => ([], bus)
  | a :: as, bus =>
      let r := if cfg then bus.readCfg wops a else bus.read wops a
      let t := busReads cfg as r.2
      (r.1 :: t.1, t.2)

/-- Address increment between writes: none for a FIFO. -/
def EbRecord.increment (r : EbRecord) : Word :=
  if r.flags &&& ETHERBONE_WFF ≠ 0 then 0 else 4

/-- The bus after the record's cycle is open and its byte enable is set. -/
def EbRecord.opened (r : EbRecord) (s : MasterState × Bus σ) : Bus σ :=
  (if s.1 = .idle then s.2.cycle wops true else s.2).byteenable wops r.be

/-- The bus after the record's writes; configuration-space writes are dropped. -/
def EbRecord.written (r : EbRecord) (s : MasterState × Bus σ) : Bus σ :=
  if r.flags &&& ETHERBONE_WCA ≠ 0 then r.opened wops s
  else busWrites wops r.increment r.base r.writes (r.opened wops s)

/-- The values read and the bus after the reads. -/
def EbRecord.readBack (r : EbRecord) (s : MasterState × Bus σ) : List Word × Bus σ :=
  busReads wops (r.flags &&& ETHERBONE_RCA ≠ 0) r.reads (r.written wops s)

/-- The response: erased words in place of the writes, then a record that writes
    the values read to the return address. -/
def EbRecord.response (r : EbRecord) (values : List Word) : List Word :=
  List.replicate (writeSpan r.writes.length) 0 ++
    wordOf (responseFlags r.flags) r.be r.rcount 0 ::
      (if r.reads = [] then [] else r.retAddr :: values)

/-- Execute a record: the cycle stays open unless the record closes it. -/
def EbRecord.exec (r : EbRecord) (s : MasterState × Bus σ) :
    (MasterState × Bus σ) × List Word :=
  let v := r.readBack wops s
  (if r.flags &&& ETHERBONE_CYC ≠ 0 then (.idle, v.2.cycle wops false) else (.cycle, v.2),
   r.response v.1)

/-- The response to a probe: its last four bytes identify it and are echoed. -/
def probeResponse (probe : List Byte) : List Byte :=
  [0x4E, 0x6F, 0x12, 0x44] ++ probe.drop 4

/-- Length of the complete item at the head of the stream. -/
def masterFrame : MasterState → List Byte → Option Nat
  | .header, xs => if xs.length < 8 then none else some 8
  | _, _ :: _ :: wcount :: rcount :: rest =>
      if rest.length + 4 < recordLen wcount rcount then none else some (recordLen wcount rcount)
  | _, _ => none

/-- Turn one complete item into its response. -/
def masterStep (s : MasterState × Bus σ) (xs : List Byte) : (MasterState × Bus σ) × List Byte :=
  if s.1 = .header then ((.idle, s.2), probeResponse xs)
  else
    let r := (EbRecord.ofBytes xs).exec wops s
    (r.1, r.2.flatMap bytesOf)

theorem recordLen_pos (wcount rcount : Byte) : 4 ≤ recordLen wcount rcount := by
  unfold recordLen
  omega

/-- The longest record is 513 words. -/
theorem recordLen_le (wcount rcount : Byte) : recordLen wcount rcount ≤ 2052 := by
  have hw := wcount.isLt
  have hr := rcount.isLt
  unfold recordLen
  split <;> split <;> omega

/-- A record frame needs its header and its declared length. -/
theorem masterFrame_record {s : MasterState} (hs : s ≠ .header) (xs : List Byte) :
    masterFrame s xs =
      if xs.length < 4 then none
      else if xs.length < recordLen (xs.getD 2 0) (xs.getD 3 0) then none
      else some (recordLen (xs.getD 2 0) (xs.getD 3 0)) := by
  rcases xs with _ | ⟨a, _ | ⟨b, _ | ⟨c, _ | ⟨d, rest⟩⟩⟩⟩
  · cases s <;> rfl
  · cases s <;> rfl
  · cases s <;> rfl
  · cases s <;> rfl
  · have h4 : ¬ (a :: b :: c :: d :: rest).length < 4 := by simp only [List.length_cons]; omega
    rw [if_neg h4]
    cases s with
    | header => exact absurd rfl hs
    | idle => rfl
    | cycle => rfl

/-- A complete item has at least a word and lies inside the stream. -/
theorem masterFrame_bounds {s : MasterState} {xs : List Byte} {n : Nat}
    (h : masterFrame s xs = some n) : 4 ≤ n ∧ n ≤ xs.length := by
  by_cases hs : s = .header
  · rw [hs, masterFrame] at h
    split at h
    · cases h
    · injection h with h
      omega
  · rw [masterFrame_record hs] at h
    have := recordLen_pos (xs.getD 2 0) (xs.getD 3 0)
    split at h
    · cases h
    · split at h
      · cases h
      · injection h with h
        omega

/-- Later bytes do not change a complete item. -/
theorem masterFrame_append {s : MasterState} {xs : List Byte} {n : Nat} (ys : List Byte)
    (h : masterFrame s xs = some n) : masterFrame s (xs ++ ys) = some n := by
  by_cases hs : s = .header
  · rw [hs, masterFrame] at h ⊢
    split at h
    · cases h
    · rw [if_neg (by rw [List.length_append]; omega)]
      exact h
  · rw [masterFrame_record hs] at h ⊢
    split at h
    · cases h
    · rw [if_neg (by rw [List.length_append]; omega)]
      rw [List.getD_append _ _ _ _ (by omega), List.getD_append _ _ _ _ (by omega)]
      split at h
      · cases h
      · rw [if_neg (by rw [List.length_append]; omega)]
        exact h

/-- **The transducer `T`.** -/
def masterFramer : Framer Byte (MasterState × Bus σ) Byte where
  frame s xs := masterFrame s.1 xs
  step := masterStep wops
  frame_pos h := Nat.lt_of_lt_of_le (by decide) (masterFrame_bounds h).1
  frame_le h := (masterFrame_bounds h).2
  frame_append ys h := masterFrame_append ys h

end WbTransducer
