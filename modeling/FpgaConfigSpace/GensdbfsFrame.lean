import Mathlib.Data.List.Induction
import FpgaConfigSpace.GensdbfsText
import FpgaConfigSpace.GensdbfsConfig

/-! # What a configuration file changes

    A directive names one field of one entry.  `parse_config_line` writes through the view
    of a device, though, and `fgets` cuts a line that is longer than its buffer in two: the
    interconnect has `sdb_bus_type` where a device has its flags, and the second half of a
    line may be taken for the name of another file. -/

namespace GensdbfsFrame

open BigEndian SdbRecord SdbFields SdbfsOpen Gensdbfs GensdbfsConfig GensdbfsText

/-! ## The fields -/

/-- What a directive can name. -/
inductive Field where
  | vendorId
  | deviceId
  | dataWrite
  | size
  | position
deriving DecidableEq

/-- The field that a directive sets, if it is one. -/
def fieldOf : Directive → Option Field
  | .vendor _ => some .vendorId
  | .device _ => some .deviceId
  | .write _ => some .dataWrite
  | .maxsize _ => some .size
  | .position _ => some .position
  | .unknown => none

/-- `SDB_DATA_WRITE`, in the last byte of `bus_specific`. -/
def writeBit (r : Record) : Bool := (byteAt r 7).getLsbD 1

/-- An entry has the same field as another one. -/
def Agree (f g : Sdbf) : Field → Prop
  | .vendorId => ∀ n, 0x18 ≤ n → n < 0x20 → byteAt g.record n = byteAt f.record n
  | .deviceId => ∀ n, 0x20 ≤ n → n < 0x24 → byteAt g.record n = byteAt f.record n
  | .dataWrite => writeBit g.record = writeBit f.record
  | .size => g.size = f.size
  | .position => g.userpos = f.userpos ∧ g.ustart = f.ustart

/-- An entry has everything else as another one has it. -/
structure Unnamed (f g : Sdbf) : Prop where
  basename : g.basename = f.basename
  rstart : g.rstart = f.rstart
  base : g.base = f.base
  level : g.level = f.level
  bytes : ∀ n, n < 0x18 ∨ 0x24 ≤ n → n ≠ 7 → byteAt g.record n = byteAt f.record n
  flags : ∀ i, i ≠ 1 → (byteAt g.record 7).getLsbD i = (byteAt f.record 7).getLsbD i

theorem Unnamed.refl (f : Sdbf) : Unnamed f f :=
  ⟨rfl, rfl, rfl, rfl, fun _ _ _ => rfl, fun _ _ => rfl⟩

theorem Unnamed.trans {f g h : Sdbf} (hfg : Unnamed f g) (hgh : Unnamed g h) : Unnamed f h where
  basename := hgh.basename.trans hfg.basename
  rstart := hgh.rstart.trans hfg.rstart
  base := hgh.base.trans hfg.base
  level := hgh.level.trans hfg.level
  bytes := fun n hn hne => (hgh.bytes n hn hne).trans (hfg.bytes n hn hne)
  flags := fun i hi => (hgh.flags i hi).trans (hfg.flags i hi)

theorem Agree.refl (f : Sdbf) (φ : Field) : Agree f f φ := by
  cases φ with
  | vendorId => exact fun _ _ _ => rfl
  | deviceId => exact fun _ _ _ => rfl
  | dataWrite => rfl
  | size => rfl
  | position => exact ⟨rfl, rfl⟩

theorem Agree.trans {f g h : Sdbf} {φ : Field} (hfg : Agree f g φ) (hgh : Agree g h φ) :
    Agree f h φ := by
  cases φ with
  | vendorId => exact fun n hlo hhi => (hgh n hlo hhi).trans (hfg n hlo hhi)
  | deviceId => exact fun n hlo hhi => (hgh n hlo hhi).trans (hfg n hlo hhi)
  | dataWrite => exact Eq.trans hgh hfg
  | size => exact Eq.trans hgh hfg
  | position => exact ⟨hgh.1.trans hfg.1, hgh.2.trans hfg.2⟩

theorem Agree.symm {f g : Sdbf} {φ : Field} (h : Agree f g φ) : Agree g f φ := by
  cases φ with
  | vendorId => exact fun n hlo hhi => (h n hlo hhi).symm
  | deviceId => exact fun n hlo hhi => (h n hlo hhi).symm
  | dataWrite => exact Eq.symm h
  | size => exact Eq.symm h
  | position => exact ⟨h.1.symm, h.2.symm⟩

/-- There is nothing but the fields and the rest. -/
theorem eq_of_agree {f g : Sdbf} (hrest : Unnamed f g) (h : ∀ φ, Agree f g φ) : g = f := by
  have hbyte : ∀ n, byteAt g.record n = byteAt f.record n := by
    intro n
    by_cases hseven : n = 7
    · subst hseven
      refine BitVec.eq_of_getLsbD_eq fun i _ => ?_
      by_cases hi : i = 1
      · subst hi
        exact h .dataWrite
      · exact hrest.flags i hi
    · by_cases hvendor : 0x18 ≤ n ∧ n < 0x20
      · exact h .vendorId n hvendor.1 hvendor.2
      · by_cases hdevice : 0x20 ≤ n ∧ n < 0x24
        · exact h .deviceId n hdevice.1 hdevice.2
        · exact hrest.bytes n (by omega) hseven
  have hrecord : g.record = f.record := by
    funext i
    rw [apply_eq_byteAt g.record rfl, apply_eq_byteAt f.record rfl, hbyte]
  obtain ⟨_, _, _, _, _, _, _, _⟩ := f
  obtain ⟨_, _, _, _, _, _, _, _⟩ := g
  obtain ⟨rfl, rfl, rfl, rfl, -, -⟩ := hrest
  obtain ⟨rfl, rfl⟩ := h .position
  have hsize := h .size
  cases hrecord
  cases hsize
  rfl

/-! ## One directive -/

/-- The byte with the flag. -/
theorem byteAt_writeFlag_seven (r : Record) (on : Bool) :
    byteAt (setBusSpecific r
        (if on then busSpecific r ||| 0x02 else busSpecific r &&& ~~~0x02)) 7 =
      if on then byteAt r 7 ||| 0x02 else byteAt r 7 &&& ~~~0x02 := by
  refine (byteAt_setBytes_add r (k := 4) (i := 3) (by decide) rfl).trans ?_
  have hseven : byteOf (busSpecific r) 3 = byteAt r 7 := by rw [busSpecific_eq, byteOf_wordOf_three]
  cases on with
  | true =>
      refine (BitVec.extractLsb'_or ..).trans ?_
      exact congrArg₂ (· ||| ·) hseven rfl
  | false =>
      refine (BitVec.extractLsb'_and ..).trans ?_
      exact congrArg₂ (· &&& ·) hseven rfl

/-- The flag is what the directive says. -/
theorem writeBit_writeFlag (r : Record) (on : Bool) :
    writeBit (setBusSpecific r
      (if on then busSpecific r ||| 0x02 else busSpecific r &&& ~~~0x02)) = on := by
  rw [writeBit, byteAt_writeFlag_seven]
  cases on <;> simp

section

variable (level : Nat) (f : Sdbf) (d : Directive)

/-- What no directive can name stays. -/
theorem applyDirective_unnamed : Unnamed f (applyDirective level f d) := by
  cases d with
  | vendor id =>
      refine ⟨rfl, rfl, rfl, rfl, fun n hn _ => ?_, fun _ _ => ?_⟩
      · exact byteAt_setBytes_of_outside f.record (by simp; omega)
      · exact congrArg (BitVec.getLsbD · _) (byteAt_setBytes_of_outside f.record (Or.inl (by decide)))
  | device id =>
      refine ⟨rfl, rfl, rfl, rfl, fun n hn _ => ?_, fun _ _ => ?_⟩
      · exact byteAt_setBytes_of_outside f.record (by simp; omega)
      · exact congrArg (BitVec.getLsbD · _) (byteAt_setBytes_of_outside f.record (Or.inl (by decide)))
  | write on =>
      refine ⟨rfl, rfl, rfl, rfl, fun n _ hne => byteAt_writeFlag f.record on hne, fun i hi => ?_⟩
      refine (congrArg (BitVec.getLsbD · i) (byteAt_writeFlag_seven f.record on)).trans ?_
      have hmask : BitVec.getLsbD (0x02 : Byte) i = false := by
        by_cases hlt : i < 8
        · rcases (show i = 0 ∨ i = 2 ∨ i = 3 ∨ i = 4 ∨ i = 5 ∨ i = 6 ∨ i = 7 by omega) with
            rfl | rfl | rfl | rfl | rfl | rfl | rfl <;> rfl
        · exact BitVec.getLsbD_of_ge _ _ (by omega)
      cases on with
      | true =>
          simp only [if_true, BitVec.getLsbD_or, hmask, Bool.or_false]
      | false =>
          by_cases hlt : i < 8
          · simp only [Bool.false_eq_true, if_false, BitVec.getLsbD_and, BitVec.getLsbD_not, hmask,
              hlt, decide_true, Bool.not_false, Bool.and_self, Bool.and_true]
          · rw [BitVec.getLsbD_of_ge _ _ (by omega), BitVec.getLsbD_of_ge _ _ (by omega)]
  | maxsize size => exact ⟨rfl, rfl, rfl, rfl, fun _ _ _ => rfl, fun _ _ => rfl⟩
  | position start =>
      rw [applyDirective]
      split
      · exact Unnamed.refl f
      · exact ⟨rfl, rfl, rfl, rfl, fun _ _ _ => rfl, fun _ _ => rfl⟩
  | unknown => exact Unnamed.refl f

/-- A directive leaves the fields alone that it does not name. -/
theorem applyDirective_agree {φ : Field} (h : fieldOf d ≠ some φ) :
    Agree f (applyDirective level f d) φ := by
  have hset : ∀ {k : Nat} {bytes : List Byte} {n : Nat}, n < k ∨ k + bytes.length ≤ n →
      byteAt (setBytes f.record k bytes) n = byteAt f.record n :=
    fun hn => byteAt_setBytes_of_outside f.record hn
  cases d with
  | vendor id =>
      cases φ with
      | vendorId => exact absurd rfl h
      | deviceId => exact fun n hlo _ => hset (Or.inr hlo)
      | dataWrite => exact congrArg (BitVec.getLsbD · 1) (hset (Or.inl (by decide)))
      | size => rfl
      | position => exact ⟨rfl, rfl⟩
  | device id =>
      cases φ with
      | vendorId => exact fun n _ hhi => hset (Or.inl hhi)
      | deviceId => exact absurd rfl h
      | dataWrite => exact congrArg (BitVec.getLsbD · 1) (hset (Or.inl (by decide)))
      | size => rfl
      | position => exact ⟨rfl, rfl⟩
  | write on =>
      cases φ with
      | vendorId => exact fun n hlo _ => byteAt_writeFlag f.record on (by omega)
      | deviceId => exact fun n hlo _ => byteAt_writeFlag f.record on (by omega)
      | dataWrite => exact absurd rfl h
      | size => rfl
      | position => exact ⟨rfl, rfl⟩
  | maxsize size =>
      cases φ with
      | vendorId | deviceId => exact fun _ _ _ => rfl
      | dataWrite => rfl
      | size => exact absurd rfl h
      | position => exact ⟨rfl, rfl⟩
  | position start =>
      rw [applyDirective]
      split
      · exact Agree.refl f φ
      · cases φ with
        | vendorId | deviceId => exact fun _ _ _ => rfl
        | dataWrite | size => rfl
        | position => exact absurd rfl h
  | unknown => exact Agree.refl f φ

/-- What it writes does not depend on what was there before; a position in a subdirectory
    is the one that was there. -/
theorem applyDirective_same_field {g : Sdbf} {φ : Field} (hd : fieldOf d = some φ)
    (hpos : level ≠ 0 → Agree f g .position) :
    Agree (applyDirective level f d) (applyDirective level g d) φ := by
  have hset : ∀ {k n : Nat} {bytes : List Byte}, k ≤ n → n < k + bytes.length → n < 0x40 →
      byteAt (setBytes g.record k bytes) n = byteAt (setBytes f.record k bytes) n := by
    intro k n bytes hlo hhi hn
    obtain ⟨i, rfl⟩ := Nat.exists_eq_add_of_le hlo
    obtain ⟨b, hb⟩ : ∃ b, bytes[i]? = some b := ⟨_, List.getElem?_eq_getElem (by omega)⟩
    rw [byteAt_setBytes_add _ hn hb, byteAt_setBytes_add _ hn hb]
  cases d with
  | vendor id =>
      cases hd
      exact fun n hlo hhi => hset hlo hhi (by omega)
  | device id =>
      cases hd
      exact fun n hlo hhi => hset hlo hhi (by omega)
  | write on =>
      cases hd
      exact (writeBit_writeFlag g.record on).trans (writeBit_writeFlag f.record on).symm
  | maxsize size =>
      cases hd
      rfl
  | position start =>
      cases hd
      rw [applyDirective, applyDirective]
      by_cases hlevel : level ≠ 0
      · rw [if_pos hlevel, if_pos hlevel]
        exact hpos hlevel
      · rw [if_neg hlevel, if_neg hlevel]
        exact ⟨rfl, rfl⟩
  | unknown => exact absurd hd (Option.some_ne_none φ).symm

end

/-! ## The directives below a name -/

/-- The last of the directives that names a field. -/
def lastNaming (φ : Field) (ds : List Directive) : Option Directive :=
  ds.reverse.find? fun d => fieldOf d == some φ

/-- A directive that names the field is the last one to do so. -/
theorem lastNaming_concat (φ : Field) (ds : List Directive) (d : Directive) :
    lastNaming φ (ds ++ [d]) = if fieldOf d = some φ then some d else lastNaming φ ds := by
  rw [lastNaming, List.reverse_append, List.reverse_singleton, List.singleton_append,
    List.find?_cons]
  by_cases h : fieldOf d = some φ
  · rw [if_pos h, beq_iff_eq.mpr h]
  · rw [if_neg h, beq_eq_false_iff_ne.mpr h]
    rfl

/-- The last directive of a field is one of them, and names it. -/
theorem lastNaming_mem {φ : Field} {ds : List Directive} {d : Directive}
    (h : lastNaming φ ds = some d) : d ∈ ds ∧ fieldOf d = some φ :=
  ⟨List.mem_reverse.mp (List.mem_of_find?_eq_some h),
    beq_iff_eq.mp (List.find?_some (p := fun d => fieldOf d == some φ) h)⟩

section

variable (level : Nat) (f : Sdbf) (ds : List Directive)

/-- Several directives leave it alone as well. -/
theorem foldl_unnamed : Unnamed f (ds.foldl (applyDirective level) f) := by
  refine List.foldlRecOn ds (applyDirective level) (motive := Unnamed f) (Unnamed.refl f) ?_
  intro g hg d _
  exact hg.trans (applyDirective_unnamed level g d)

/-- The last directive of a field decides. -/
theorem foldl_agree (φ : Field) :
    Agree (match lastNaming φ ds with
      | none => f
      | some d => applyDirective level f d) (ds.foldl (applyDirective level) f) φ := by
  induction ds using List.reverseRecOn with
  | nil => exact Agree.refl f φ
  | append_singleton ds d ih =>
      rw [List.foldl_append, lastNaming_concat]
      by_cases hd : fieldOf d = some φ
      · simp only [if_pos hd]
        refine applyDirective_same_field level f d hd fun hlevel => ?_
        exact foldl_unmoved (Or.inl hlevel)
      · simp only [if_neg hd]
        exact ih.trans (applyDirective_agree level _ d hd)

end

/-! ## What is listed below an entry -/

/-- The lines of a text, with their newlines. -/
def textLines : List Byte → List (List Byte)
  | [] => []
  | c :: text =>
      if c = 0x0a then [c] :: textLines text
      else
        match textLines text with
        | [] => [[c]]
        | line :: lines => (c :: line) :: lines

/-- The directives behind the names that stand for an entry. -/
def listedUnder (find : CString → Option Nat) (i : Nat) :
    (current : Option Nat) → List ConfigLine → List Directive
  | _, [] => []
  | current, .skipped :: lines => listedUnder find i current lines
  | _, .name name :: lines => listedUnder find i (find name) lines
  | current, .directive t :: lines =>
      if current = some i then parseConfigLine t :: listedUnder find i current lines
      else listedUnder find i current lines

/-- The file of a name. -/
def indexOf (tree : Tree) (s : CString) : Option Nat :=
  (treeSdbfs tree).findIdx? fun f => s.chars == f.basename.chars

/-- The directives that the file lists under an entry. -/
def listed (text : List Byte) (tree : Tree) (i : Nat) : List Directive :=
  listedUnder (indexOf tree) i none ((textLines text).map configLine)

/-- The directives that the program puts under an entry: it reads 255 bytes at most at a
    time, and looks for the name among the records that are counted. -/
def applied (text : List Byte) (tree : Tree) (i : Nat) : List Directive :=
  listedUnder (findFilename tree) i none (configLines text)

/-! ## The frame -/

/-- A field that is named for an entry; only a device has a write flag. -/
def Named (ds : List Directive) (f : Sdbf) (φ : Field) : Prop :=
  (∃ d ∈ ds, fieldOf d = some φ) ∧ (φ = .dataWrite → recordType f.record = sdbTypeDevice)

/-- An entry, and what it was before: it has changed in the fields that are named. -/
structure EntryFrame (ds : List Directive) (f g : Sdbf) : Prop where
  unnamed : Unnamed f g
  fields : ∀ φ, ¬ Named ds f φ → Agree f g φ

/-- What is behind the entries of a directory: the files, and the directories below. -/
def behind : Entries → List (RegularFile ⊕ Tree)
  | .nil => []
  | .file _ file rest => .inl file :: behind rest
  | .subdir _ dot sub rest => .inr ⟨dot, sub⟩ :: behind rest

/-- A tree, and what it was before its configuration was read. -/
structure ScanConfigFrame (text : List Byte) (tree tree' : Tree) : Prop where
  behind_eq : behind tree'.entries = behind tree.entries
  /-- A directive changes the record of the file that it is listed under, in its field. -/
  entry : ∀ (i : Nat) (f g : Sdbf), (treeSdbfs tree)[i]? = some f → (treeSdbfs tree')[i]? = some g →
    EntryFrame (listed text tree i) f g
  interconnect : ∀ (i : Nat) (f g : Sdbf), (treeSdbfs tree)[i]? = some f →
    (treeSdbfs tree')[i]? = some g →
    recordType f.record = sdbTypeInterconnect →
    sdbMagic g.record = sdbMagic f.record ∧ sdbRecords g.record = sdbRecords f.record ∧
      sdbVersion g.record = sdbVersion f.record ∧ sdbBusType g.record = sdbBusType f.record
  product : ∀ (i : Nat) (f g : Sdbf), (treeSdbfs tree)[i]? = some f →
    (treeSdbfs tree')[i]? = some g →
    productName g.record = productName f.record ∧ recordType g.record = recordType f.record

/-- What is put under an entry without being named there gives the field the value that it
    has. -/
def ConfigHarmless (level : Nat) (text : List Byte) (tree : Tree) : Prop :=
  ∀ i f, (treeSdbfs tree)[i]? = some f → ∀ φ, ¬ Named (listed text tree i) f φ →
    ∀ d, lastNaming φ (applied text tree i) = some d → applyDirective level f d = f

/-! ## The loop -/

/-- The entry at an index is changed, and no other. -/
theorem sdbfs_changeAt (change : Sdbf → Sdbf) (e : Entries) : ∀ k : Nat,
    sdbfs (changeAt change k e) = (sdbfs e).modify k change := by
  induction e with
  | nil => exact fun k => by cases k <;> rfl
  | file f file rest ih =>
      intro k
      cases k with
      | zero => rfl
      | succ k => exact congrArg (List.cons f) (ih k)
  | subdir f dot sub rest _ ih =>
      intro k
      cases k with
      | zero => rfl
      | succ k => exact congrArg (List.cons f) (ih k)

/-- So it is in `tree[]`. -/
theorem treeSdbfs_changeTree (change : Sdbf → Sdbf) (tree : Tree) (k : Nat) :
    treeSdbfs (changeTree change tree k) = (treeSdbfs tree).modify k change := by
  cases k with
  | zero => rfl
  | succ k => exact congrArg (List.cons tree.dot) (sdbfs_changeAt change tree.entries k)

/-- The files and the subdirectories behind the entries stay. -/
theorem behind_changeAt (change : Sdbf → Sdbf) (e : Entries) : ∀ k : Nat,
    behind (changeAt change k e) = behind e := by
  induction e with
  | nil => exact fun k => by cases k <;> rfl
  | file f file rest ih =>
      intro k
      cases k with
      | zero => rfl
      | succ k => exact congrArg (List.cons _) (ih k)
  | subdir f dot sub rest _ ih =>
      intro k
      cases k with
      | zero => rfl
      | succ k => exact congrArg (List.cons _) (ih k)

theorem behind_changeTree (change : Sdbf → Sdbf) (tree : Tree) (k : Nat) :
    behind (changeTree change tree k).entries = behind tree.entries := by
  cases k with
  | zero => rfl
  | succ k => exact behind_changeAt change tree.entries k

section

variable {change : Sdbf → Sdbf} (hsame : ∀ f, SameEntry f (change f))
include hsame

theorem records_changeTree (tree : Tree) (k : Nat) :
    records (changeTree change tree k).dot = records tree.dot := by
  cases k with
  | zero => exact (hsame tree.dot).records
  | succ k => rfl

/-- The names are what they were, so a name is found where it was found. -/
theorem findFilename_changeTree (tree : Tree) (k : Nat) :
    findFilename (changeTree change tree k) = findFilename tree := by
  refine findFilename_same (records_changeTree hsame tree k) (List.ext_getElem? fun i => ?_)
  rw [treeSdbfs_changeTree, List.getElem?_map, List.getElem?_map, List.getElem?_modify]
  cases (treeSdbfs tree)[i]? with
  | none => rfl
  | some f =>
      by_cases hi : k = i
      · simp [hi, (hsame f).name_eq]
      · simp [hi]

end

/-- **The loop applies to every entry what is put under it.** -/
theorem scanLines_entry (level i : Nat) (lines : List ConfigLine) :
    ∀ (tree : Tree) (current : Option Nat),
      (treeSdbfs (lines.foldl (scanLine level) (tree, current)).1)[i]? =
        (treeSdbfs tree)[i]?.map fun f =>
          (listedUnder (findFilename tree) i current lines).foldl (applyDirective level) f := by
  induction lines with
  | nil =>
      intro tree current
      exact Option.map_id'.symm
  | cons line lines ih =>
      intro tree current
      rw [List.foldl_cons]
      cases line with
      | skipped => exact ih tree current
      | name name => exact ih tree (findFilename tree name)
      | directive t =>
          cases current with
          | none => exact ih tree none
          | some k =>
              refine (ih (changeTree _ tree k) (some k)).trans ?_
              rw [findFilename_changeTree fun f => applyDirective_same level f _,
                treeSdbfs_changeTree, List.getElem?_modify, listedUnder]
              by_cases hk : k = i
              · subst hk
                cases (treeSdbfs tree)[k]? with
                | none => rfl
                | some f => simp
              · have hne : ¬ some k = some i := fun h => hk (Option.some.inj h)
                cases (treeSdbfs tree)[i]? with
                | none => simp [hk]
                | some f => simp [hk]

/-- **Every entry is changed by the directives that are put under it**, in their order. -/
theorem scanConfigText_entry (level i : Nat) (text : List Byte) (tree : Tree) :
    (treeSdbfs (scanConfigText level text tree))[i]? =
      (treeSdbfs tree)[i]?.map fun f => (applied text tree i).foldl (applyDirective level) f :=
  scanLines_entry level i (configLines text) tree none

/-- The files and the subdirectories behind the entries stay. -/
theorem scanConfigText_behind (level : Nat) (text : List Byte) (tree : Tree) :
    behind (scanConfigText level text tree).entries = behind tree.entries := by
  have hstart : behind (tree, (none : Option Nat)).1.entries = behind tree.entries := rfl
  refine List.foldlRecOn (configLines text) (scanLine level)
    (motive := fun s => behind s.1.entries = behind tree.entries) hstart ?_
  rintro ⟨tree', current⟩ h line _
  cases line with
  | skipped => exact h
  | name name => exact h
  | directive t =>
      cases current with
      | none => exact h
      | some k => exact (behind_changeTree _ tree' k).trans h

/-! ## The exact condition -/

/-- An entry keeps its frame if the last directive of a field that is not named writes what
    is there. -/
theorem entryFrame_iff (level : Nat) (named ds : List Directive) (f : Sdbf) :
    EntryFrame named f (ds.foldl (applyDirective level) f) ↔
      ∀ φ, ¬ Named named f φ → ∀ d, lastNaming φ ds = some d → applyDirective level f d = f := by
  constructor
  · rintro ⟨-, hfields⟩ φ hφ d hd
    have hlast := foldl_agree level f ds φ
    rw [hd] at hlast
    refine eq_of_agree (applyDirective_unnamed level f d) fun ψ => ?_
    by_cases hψ : fieldOf d = some ψ
    · cases (lastNaming_mem hd).2.symm.trans hψ
      exact (hfields φ hφ).trans hlast.symm
    · exact applyDirective_agree level f d hψ
  · intro h
    refine ⟨foldl_unnamed level f ds, fun φ hφ => ?_⟩
    have hlast := foldl_agree level f ds φ
    cases hd : lastNaming φ ds with
    | none =>
        rw [hd] at hlast
        exact hlast
    | some d =>
        rw [hd] at hlast
        simp only [h φ hφ d hd] at hlast
        exact hlast

/-- The head of a table that keeps its frame keeps what only an interconnect has. -/
theorem EntryFrame.interconnect {ds : List Directive} {f g : Sdbf} (h : EntryFrame ds f g)
    (ht : recordType f.record = sdbTypeInterconnect) :
    sdbMagic g.record = sdbMagic f.record ∧ sdbRecords g.record = sdbRecords f.record ∧
      sdbVersion g.record = sdbVersion f.record ∧ sdbBusType g.record = sdbBusType f.record := by
  have hflag : Agree f g .dataWrite := by
    refine h.fields .dataWrite fun hnamed => ?_
    exact absurd (ht.symm.trans (hnamed.2 rfl)) (by decide)
  have hbyte : ∀ i : Fin 64, i.val < 7 → g.record i = f.record i := by
    intro i hi
    rw [apply_eq_byteAt g.record rfl, apply_eq_byteAt f.record rfl]
    exact h.unnamed.bytes i.val (by omega) (by omega)
  refine ⟨?_, ?_, hbyte 6 (by decide), ?_⟩
  · rw [sdbMagic, sdbMagic, be32, be32, hbyte 0 (by decide), hbyte (0 + 1) (by decide),
      hbyte (0 + 2) (by decide), hbyte (0 + 3) (by decide)]
  · rw [sdbRecords, sdbRecords, hbyte 4 (by decide), hbyte 5 (by decide)]
  · refine BitVec.eq_of_getLsbD_eq fun i _ => ?_
    by_cases hi : i = 1
    · subst hi
      exact hflag
    · exact h.unnamed.flags i hi

/-- The name and the type of a record stay. -/
theorem Unnamed.product {f g : Sdbf} (h : Unnamed f g) :
    productName g.record = productName f.record ∧ recordType g.record = recordType f.record := by
  have hbyte : ∀ i : Fin 64, 0x24 ≤ i.val → g.record i = f.record i := by
    intro i hi
    rw [apply_eq_byteAt g.record rfl, apply_eq_byteAt f.record rfl]
    exact h.bytes i.val (Or.inr hi) (by omega)
  refine ⟨congrArg List.ofFn (funext fun i => hbyte _ ?_), hbyte 0x3f (by decide)⟩
  have hi := i.isLt
  rw [val_add (by show 0x2c + i.val < 64; omega)]
  exact Nat.le_trans (by decide : 0x24 ≤ 0x2c) (Nat.le_add_right _ _)

/-- **A configuration changes what it names, of the files that it names, exactly if what is
    put under an entry without being named there changes nothing.** -/
theorem scanConfigText_frame (level : Nat) (text : List Byte) (tree : Tree) :
    ScanConfigFrame text tree (scanConfigText level text tree) ↔
      ConfigHarmless level text tree := by
  have hentry := fun i => scanConfigText_entry level i text tree
  constructor
  · intro h i f hf
    refine (entryFrame_iff level (listed text tree i) (applied text tree i) f).mp ?_
    refine h.entry i f _ hf ?_
    rw [hentry, hf]
    rfl
  · intro h
    have hframe : ∀ i f g, (treeSdbfs tree)[i]? = some f →
        (treeSdbfs (scanConfigText level text tree))[i]? = some g →
        EntryFrame (listed text tree i) f g := by
      intro i f g hf hg
      rw [hentry, hf] at hg
      cases hg
      exact (entryFrame_iff level _ _ f).mpr (h i f hf)
    refine ⟨scanConfigText_behind level text tree, hframe, ?_, ?_⟩
    · exact fun i f g hf hg ht => (hframe i f g hf hg).interconnect ht
    · exact fun i f g hf hg => (hframe i f g hf hg).unnamed.product

/-- A directory with nothing in it, and "write = 1" below its ".": the bus type is changed. -/
theorem scanConfigText_frame_dot :
    scanEntries 64 0 .nil = some .nil ∧
      ¬ ScanConfigFrame ([0x2e, 0x0a, 0x09] ++ [0x77, 0x72, 0x69, 0x74, 0x65, 0x3d, 0x31, 0x0a])
        ⟨fillDot 0 1, .nil⟩
        (scanConfigText 0
          ([0x2e, 0x0a, 0x09] ++ [0x77, 0x72, 0x69, 0x74, 0x65, 0x3d, 0x31, 0x0a])
          ⟨fillDot 0 1, .nil⟩) := by
  refine ⟨rfl, fun h => ?_⟩
  have hbus := (h.interconnect 0 (fillDot 0 1) _ rfl rfl rfl).2.2.2
  exact absurd hbus (by decide)

/-! ## Lines that fit -/

/-- A line that fits into the buffer is read at once. -/
theorem fgets_textLines (text : List Byte) : ∀ (room : Nat) (line : List Byte)
    (lines : List (List Byte)), textLines text = line :: lines → line.length ≤ room →
    (fgets room text).1 = line ∧ textLines (fgets room text).2 = lines ∧
      (fgets room text).2.length < text.length := by
  induction text with
  | nil => exact fun _ _ _ h _ => absurd h (List.cons_ne_nil _ _).symm
  | cons c text ih =>
      intro room line lines h hroom
      rw [textLines] at h
      by_cases hc : c = 0x0a
      · rw [if_pos hc] at h
        cases h
        obtain _ | room := room
        · exact absurd hroom (Nat.not_succ_le_zero 0)
        · rw [fgets, if_pos hc]
          exact ⟨rfl, rfl, Nat.lt_succ_self _⟩
      · rw [if_neg hc] at h
        obtain _ | room := room
        · refine absurd hroom ?_
          split at h <;> cases h <;> simp
        · rw [fgets, if_neg hc]
          cases htext : textLines text with
          | nil =>
              rw [htext] at h
              cases h
              cases text with
              | nil => cases room <;> exact ⟨rfl, rfl, Nat.zero_lt_one⟩
              | cons d text =>
                  rw [textLines] at htext
                  split at htext
                  · exact absurd htext (List.cons_ne_nil _ _)
                  · split at htext <;> exact absurd htext (List.cons_ne_nil _ _)
          | cons line' lines' =>
              rw [htext] at h
              cases h
              obtain ⟨hline, hlines, hlen⟩ := ih room line' lines htext (Nat.le_of_succ_le_succ hroom)
              exact ⟨congrArg (List.cons c) hline, hlines, Nat.lt_succ_of_lt hlen⟩

/-- A buffer that no line is too long for returns the lines. -/
theorem fgetsLines_eq {room : Nat} : ∀ (fuel : Nat) (text : List Byte), text.length ≤ fuel →
    (∀ line ∈ textLines text, line.length ≤ room) →
    fgetsLines room fuel text = textLines text := by
  intro fuel
  induction fuel with
  | zero =>
      intro text hfuel _
      rw [List.length_eq_zero_iff.mp (Nat.le_zero.mp hfuel)]
      rfl
  | succ fuel ih =>
      intro text hfuel hroom
      cases text with
      | nil => rfl
      | cons c text =>
          obtain ⟨line, lines, hlines⟩ : ∃ line lines, textLines (c :: text) = line :: lines := by
            rw [textLines]
            split
            · exact ⟨_, _, rfl⟩
            · split <;> exact ⟨_, _, rfl⟩
          rw [hlines] at hroom
          obtain ⟨hline, hrest, hlen⟩ :=
            fgets_textLines (c :: text) room line lines hlines (hroom line List.mem_cons_self)
          rw [fgetsLines, ih _ (by simp only [List.length_cons] at hfuel hlen; omega), hline, hrest,
            hlines]
          rw [hrest]
          exact fun l hl => hroom l (List.mem_cons_of_mem line hl)

/-- If all lines fit, they are those of the text. -/
theorem configLines_eq {text : List Byte} (h : ∀ line ∈ textLines text, line.length ≤ 255) :
    configLines text = (textLines text).map configLine := by
  rw [configLines, fgetsLines_eq text.length text (Nat.le_refl _) h]

/-- A name that is found among the records that are counted is found. -/
theorem indexOf_of_findFilename {tree : Tree} {s : CString} {i : Nat}
    (h : findFilename tree s = some i) : indexOf tree s = some i := by
  have happend := List.take_append_drop (records tree.dot) (treeSdbfs tree)
  rw [indexOf, ← happend, List.findIdx?_append]
  exact congrArg (Option.or · _) h

/-- If more names are found, more is listed below them. -/
theorem listedUnder_subset {find find' : CString → Option Nat} {i : Nat}
    (hfind : ∀ s, find s = some i → find' s = some i) {lines : List ConfigLine} {d : Directive} :
    ∀ {current current' : Option Nat}, (current = some i → current' = some i) →
      d ∈ listedUnder find i current lines → d ∈ listedUnder find' i current' lines := by
  induction lines with
  | nil => exact fun _ h => absurd h List.not_mem_nil
  | cons line lines ih =>
      intro current current' hcurrent h
      cases line with
      | skipped => exact ih hcurrent h
      | name name => exact ih (hfind name) h
      | directive t =>
          rw [listedUnder] at h ⊢
          by_cases hi : current = some i
          · rw [if_pos hi, List.mem_cons] at h
            rw [if_pos (hcurrent hi), List.mem_cons]
            exact h.imp_right (ih hcurrent)
          · rw [if_neg hi] at h
            split
            · exact List.mem_cons_of_mem _ (ih hcurrent h)
            · exact ih hcurrent h

/-- The write flag of what `scan_inputdir` fills in: a file has it, or it is clear. -/
theorem writeBit_scanEntries {blocksize : BitVec 32} {dirents : Dirents} :
    ∀ {level : Nat} {e : Entries}, scanEntries blocksize level dirents = some e →
      ∀ f ∈ sdbfs e, recordType f.record = sdbTypeDevice ∨ writeBit f.record = false := by
  induction dirents with
  | nil =>
      intro level e h
      cases h
      exact fun f hf => absurd hf List.not_mem_nil
  | file name file rest ih =>
      intro level e h
      obtain ⟨e, he, rfl⟩ := Option.map_eq_some_iff.mp h
      exact List.forall_mem_cons.mpr ⟨Or.inl (recordType_fillProduct _ _ _), ih he⟩
  | other name rest ih => exact fun h => ih h
  | lost name rest => exact fun h => absurd h (Option.some_ne_none _).symm
  | dir name config sub rest _ ih =>
      intro level e h
      obtain ⟨s, -, h⟩ := Option.bind_eq_some_iff.mp h
      obtain ⟨e, he, rfl⟩ := Option.map_eq_some_iff.mp h
      refine List.forall_mem_cons.mpr ⟨Or.inr ?_, ih he⟩
      exact congrArg (BitVec.getLsbD · 1) (byteAt_fillProduct emptyRecord name _ (by decide))

/-- An interconnect has no write flag. -/
theorem writeBit_fillDot (level n : Nat) : writeBit (fillDot level n).record = false := by
  have hseven : byteAt (fillDot level n).record 7 = 1 := by
    refine (byteAt_setBytes_of_outside _ (Or.inr (Nat.le_succ 6))).trans ?_
    refine (byteAt_fillProduct _ dotName _ (by decide)).trans ?_
    exact byteAt_setBytes_add _ (k := 7) (i := 0) (by decide) rfl
  rw [writeBit, hseven]
  rfl

/-- **With lines that fit in the buffer, and the tree as it was scanned**, a configuration is
    harmless exactly if no "." and no subdirectory is made writable. -/
theorem configHarmless_of_short {blocksize : BitVec 32} {level : Nat} {text : List Byte}
    {dirents : Dirents} {e : Entries} (hscan : scanEntries blocksize level dirents = some e)
    (hshort : ∀ line ∈ textLines text, line.length ≤ 255) {tree : Tree}
    (htree : tree = ⟨fillDot level (e.count + 1), e⟩) :
    ConfigHarmless level text tree ↔
      ∀ i f, (treeSdbfs tree)[i]? = some f → recordType f.record ≠ sdbTypeDevice →
        lastNaming .dataWrite (applied text tree i) ≠ some (.write true) := by
  have hwrite : ∀ (f : Sdbf) (on : Bool), writeBit f.record = false →
      (applyDirective level f (.write on) = f ↔ on = false) := by
    intro f on hclear
    have hon := writeBit_writeFlag f.record on
    constructor
    · intro heq
      rw [← hon, ← hclear]
      exact congrArg (fun g => writeBit g.record) heq
    · intro hoff
      refine eq_of_agree (applyDirective_unnamed level f _) fun φ => ?_
      by_cases hφ : φ = .dataWrite
      · subst hφ
        exact (hon.trans hoff).trans hclear.symm
      · exact applyDirective_agree level f _ (fun h => hφ (Option.some.inj h).symm)
  have hclear : ∀ f ∈ treeSdbfs tree, recordType f.record ≠ sdbTypeDevice →
      writeBit f.record = false := by
    subst htree
    intro f hf hne
    rcases List.mem_cons.mp hf with rfl | hf
    · exact writeBit_fillDot level _
    · exact (writeBit_scanEntries hscan f hf).resolve_left hne
  have hlisted : ∀ i d, d ∈ applied text tree i → d ∈ listed text tree i := by
    intro i d hd
    rw [applied, configLines_eq hshort] at hd
    exact listedUnder_subset (fun s => indexOf_of_findFilename) (fun h => h) hd
  constructor
  · intro h i f hf hne hlast
    have hsame := h i f hf .dataWrite (fun hnamed => hne (hnamed.2 rfl)) _ hlast
    have hoff := (hwrite f true (hclear f (List.mem_of_getElem? hf) hne)).mp hsame
    exact absurd hoff (by decide)
  · intro h i f hf φ hnamed d hlast
    obtain ⟨hmem, hfield⟩ := lastNaming_mem hlast
    have hfact : φ = .dataWrite ∧ recordType f.record ≠ sdbTypeDevice := by
      by_contra hnot
      exact hnamed ⟨⟨d, hlisted i d hmem, hfield⟩, fun hφ => by_contra fun hne => hnot ⟨hφ, hne⟩⟩
    obtain ⟨rfl, hne⟩ := hfact
    cases d with
    | write on =>
        refine (hwrite f on (hclear f (List.mem_of_getElem? hf) hne)).mpr ?_
        refine Bool.eq_false_iff.mpr fun hon => ?_
        exact h i f hf hne (hon ▸ hlast)
    | _ => cases hfield

end GensdbfsFrame
