import FpgaConfigSpace.SdbfsOpen

/-! # The tree a scan walks

    What the scanner is for: the preorder traversal of the tree of tables, as a
    recursion over the directory levels that are left.  An entry of the traversal
    knows the bridges that enclose it, innermost first; its base address is the
    sum of their `addr_first`.

    `sdbfs_scan` keeps this recursion in its arrays.  `pending` reads back from a
    state between two calls what is still to come, and one call takes the head of
    that list: either it enters the bridge it returned last, or it goes on with the
    entries left on the innermost level that has any. -/

namespace SdbfsTree

open BigEndian SdbRecord SdbfsDevice SdbfsScan SdbfsOpen

variable {w : Nat} {σ : Type}

/-! ## The traversal -/

/-- A record of the traversal: where it is read, the enclosing bridges, and
    whether it was reached as the head of a table. -/
structure Entry (w : Nat) where
  pos : BitVec w
  path : List Record
  record : Record
  head : Bool

/-- The base address below a path of bridges. -/
def baseOf : List Record → BitVec w
  | [] => 0
  | bridge :: path => baseOf path + (addrFirst bridge).setWidth w

/-- Where the data of a record are: behind the base of its directory. -/
def Entry.fOffset (e : Entry w) : BitVec w := baseOf e.path + (addrFirst e.record).setWidth w

/-- Where the child table of a bridge is. -/
def childPos (path : List Record) (bridge : Record) : BitVec w :=
  baseOf path + (sdbChild bridge).setWidth w

section Traversal

variable (content : BitVec w → Record)

/-- `n` entries of a table, each followed by what is below it. -/
def entries (below : List Record → Record → List (Entry w)) (path : List Record) :
    BitVec w → Nat → List (Entry w)
  | _, 0 => []
  | pos, n + 1 =>
      ⟨pos, path, content pos, false⟩ ::
        (below path (content pos) ++ entries below path (pos + 64) n)

/-- A table: its interconnect, then its entries; nothing if there is no table. -/
def table (below : List Record → Record → List (Entry w)) (path : List Record)
    (pos : BitVec w) : List (Entry w) :=
  if IsTable (content pos) then
    ⟨pos, path, content pos, true⟩ ::
      entries content below path (pos + 64) ((sdbRecords (content pos)).toNat - 1)
  else []

/-- What is below a record, with `room` levels left: the child table of a bridge. -/
def below : Nat → List Record → Record → List (Entry w)
  | 0, _, _ => []
  | room + 1, path, rec =>
      if IsBridge rec then
        table content (below room) (rec :: path) (childPos path rec)
      else []

/-- The levels left below a path. -/
def room (path : List Record) : Nat := SDBFS_DEPTH - 1 - path.length

/-- The traversal of the tree at an entry point. -/
def preorder (entrypoint : BitVec w) : List (Entry w) :=
  table content (below content (room [])) [] entrypoint

end Traversal

/-- Every table the traversal reaches declares at least one record. -/
def AllDeclared (es : List (Entry w)) : Prop :=
  ∀ e ∈ es, e.head = true → 1 ≤ (sdbRecords e.record).toNat

instance (es : List (Entry w)) : Decidable (AllDeclared es) :=
  inferInstanceAs (Decidable (∀ e ∈ es, e.head = true → 1 ≤ (sdbRecords e.record).toNat))

/-! ## What the device delivers -/

/-- The record at every position, as the library sees it, is that of `content`:
    the mapped bytes, or what the `read` method delivers, converted or not. -/
def Delivers (host : Host w) (fs : Sdbfs w σ) (content : BitVec w → Record) : Prop :=
  if fs.isMapped then
    ∀ pos, content pos = if fs.converts then host.ntohlWords (host.recordAt (fs.data + pos))
      else host.recordAt (fs.data + pos)
  else
    ∃ read, fs.read = some read ∧ ∀ s pos buf,
      content pos = if fs.converts then host.ntohlWords (read s (intOffset pos) 64 buf).2.2
        else (read s (intOffset pos) 64 buf).2.2

/-- Calls leave the storage alone. -/
theorem Delivers.same {host : Host w} {fs fs' : Sdbfs w σ} {content : BitVec w → Record}
    (hd : Delivers host fs content) (h : SameDevice fs fs') : Delivers host fs' content := by
  rw [Delivers, h.isMapped, h.converts, h.1, h.2.2]
  exact hd

/-- A device that delivers `content` hands out the record asked for. -/
theorem sdbfsReadentry_delivers {host : Host w} {fs : Sdbfs w σ} {content : BitVec w → Record}
    (hd : Delivers host fs content) (pos : BitVec w) :
    (sdbfsReadentry host fs pos).1.deref host (sdbfsReadentry host fs pos).2
      = some (content pos) := by
  by_cases hm : fs.isMapped = true
  · rw [Delivers, if_pos hm] at hd
    rw [sdbfsReadentry, if_pos hm, hd pos]
    by_cases hc : fs.converts = true
    · rw [if_pos hc]
      exact congrArg some (convertCurrent_currentRecord host _)
    · rw [if_neg hc, if_neg hc]
      exact if_pos hm
  · rw [Delivers, if_neg hm] at hd
    obtain ⟨read, hread, hd⟩ := hd
    rw [sdbfsReadentry, if_neg hm, hd fs.drvdata pos fs.currentRecord, hread]
    exact congrArg some (convertCurrent_currentRecord host _)

/-- A record is returned where it is stored, or in the buffer. -/
theorem sdbfsReadentry_ptr {host : Host w} {fs : Sdbfs w σ} {content : BitVec w → Record}
    (hd : Delivers host fs content) (pos : BitVec w) :
    (sdbfsReadentry host fs pos).2 = recordPtr fs pos := by
  by_cases hm : fs.isMapped = true
  · by_cases hc : fs.converts = true
    · rw [sdbfsReadentry, if_pos hm, if_pos hc, recordPtr, if_neg]
      rintro ⟨_, h⟩
      exact Bool.false_ne_true (h.symm.trans hc)
    · rw [sdbfsReadentry, if_pos hm, if_neg hc, recordPtr, if_pos ⟨hm, Bool.eq_false_iff.mpr hc⟩]
  · rw [Delivers, if_neg hm] at hd
    obtain ⟨read, hread, _⟩ := hd
    rw [sdbfsReadentry, if_neg hm, hread, recordPtr, if_neg fun h => hm h.1]

end SdbfsTree
