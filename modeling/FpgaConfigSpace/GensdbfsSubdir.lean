import FpgaConfigSpace.GensdbfsBelow
import FpgaConfigSpace.GensdbfsMain

/-! # A subdirectory in the image

    A subdirectory is written as a table and what is below it.  If the records and the places
    agree, and nothing is written over the tables, the traversal below the bridge that leads to
    the subdirectory is its preorder, as deep as the library goes. -/

namespace GensdbfsSubdir

open BigEndian SdbRecord SdbFields SdbfsDevice SdbfsScan SdbfsOpen SdbfsTree SdbfsRuns FileWrites
open Gensdbfs GensdbfsLayout GensdbfsTables GensdbfsScan GensdbfsMain GensdbfsBelow

/-! ## What is read, and what is written -/

/-- The records of a subdirectory, behind its bridge, in preorder. -/
def dirVisits (dot : Sdbf) (sub : Entries) : List Visit :=
  ⟨dot.base + dot.ustart, dot.record, none⟩ :: visits dot.base (dot.base + dot.ustart + 64) sub

/-- A library whose device holds the records of an image, none of them at address 0, and whose
    `unsigned long` holds the places of the files. -/
structure Reader {w : Nat} {σ : Type} (host : Host w) (fs : Sdbfs w σ)
    (content : BitVec w → Record) (ws : List (Write Byte)) (vs : List Visit) : Prop where
  narrow : w ≤ 64
  delivers : Delivers host fs content
  presents : ∀ v ∈ vs, v.pos.toNat + 64 ≤ fileSize ws →
    content (v.pos.setWidth w) = imageRecord ws v.pos.toNat
  nonnull : ∀ v ∈ vs, ¬ NullAt fs (v.pos.setWidth w)
  reaches : ∀ v ∈ vs, ∀ start size, v.region = some (start, size) →
    (start.setWidth w).toNat = start.toNat ∧ (size.setWidth w).toNat = size.toNat

/-- The scan has returned a bridge of the top directory. -/
structure AtBridge {w : Nat} {σ : Type} (host : Host w) (fs : Sdbfs w σ) (bridge : Record) :
    Prop where
  onPath : OnPath fs []
  current : fs.deref host fs.currentp = some bridge
  next : ¬ NullAt fs (fs.thisPos 0)

/-- All entries of the directories are counted by their interconnects. -/
def Counted : Entries → Prop
  | .nil => True
  | .file _ _ rest => Counted rest
  | .subdir _ dot sub rest => records dot = sub.count + 1 ∧ Counted sub ∧ Counted rest

/-- The places of the tables below a directory. -/
def tablePlaces : Entries → List ULong
  | .nil => []
  | .file _ _ rest => tablePlaces rest
  | .subdir _ dot sub rest => (dot.base + dot.ustart) :: (tablePlaces sub ++ tablePlaces rest)

/-- Nothing that is written later touches a table. -/
def TablesKept : List Part → (later : List Part) → Prop
  | [], _ => True
  | part :: parts, later =>
      (part.isTable = true →
        ∀ p, Covers part.writes p → ¬ Covers ((parts ++ later).flatMap Part.writes) p) ∧
      TablesKept parts later

variable (blocksize : BitVec 32)

/-- What is written for a subdirectory. -/
def dirParts (dot : Sdbf) (sub : Entries) : List Part :=
  let part : Part := ⟨true, (dot.base + dot.ustart).toNat, (tableOf dot sub).map recordBytes⟩
  part :: entryParts blocksize dot.base (records dot - 1) sub part.behind

/-! ## The records and the places agree -/

/-- An interconnect of an allocated directory. -/
structure DotAt (start : ULong) (dot : Sdbf) (n : Nat) : Prop where
  base_eq : dot.base = start
  ustart_eq : dot.ustart = 0
  table : IsTable dot.record
  records_eq : records dot = n + 1

/-- A file's record says where its bytes are, and a bridge where its subdirectory is. -/
def Coherent (base : ULong) : Entries → Prop
  | .nil => True
  | .file f _ rest =>
      (recordType f.record = sdbTypeDevice ∧ addrFirst f.record = f.rstart ∧
        addrLast f.record + 1 - addrFirst f.record = f.size) ∧ Coherent base rest
  | .subdir f dot sub rest =>
      (IsBridge f.record ∧ sdbChild f.record = addrFirst f.record) ∧
        DotAt (base + addrFirst f.record) dot sub.count ∧
        Coherent (base + addrFirst f.record) sub ∧ Coherent base rest

/-! ## As deep as the library goes -/

/-- The records of a directory, with `k` levels below it. -/
def reached : (k : Nat) → (base slot : ULong) → Entries → List Visit
  | _, _, _, .nil => []
  | k, base, slot, .file f _ rest =>
      ⟨slot, f.record, some (base + f.rstart, f.size)⟩ :: reached k base (slot + 64) rest
  | 0, base, slot, .subdir f _ _ rest =>
      ⟨slot, f.record, none⟩ :: reached 0 base (slot + 64) rest
  | k + 1, base, slot, .subdir f dot sub rest =>
      ⟨slot, f.record, none⟩ :: ⟨dot.base + dot.ustart, dot.record, none⟩ ::
        (reached k dot.base (dot.base + dot.ustart + 64) sub ++ reached (k + 1) base (slot + 64) rest)

/-- All of them, if there are no more levels. -/
theorem reached_eq {e : Entries} : ∀ {k : Nat} {base slot : ULong}, levelsBelow e ≤ k →
    reached k base slot e = visits base slot e := by
  induction e with
  | nil => exact fun {k _ _} _ => by cases k <;> rfl
  | file f file rest ih =>
      intro k base slot h
      rw [reached, visits, ih h]
  | subdir f dot sub rest ihsub ih =>
      intro k base slot h
      obtain ⟨hsub, hrest⟩ := Nat.max_le.mp h
      obtain ⟨k, rfl⟩ : ∃ j, k = j + 1 := ⟨k - 1, by omega⟩
      rw [reached, visits, ihsub (Nat.le_of_succ_le_succ hsub), ih hrest]

/-- The library reaches no more records than there are. -/
theorem reached_length_le {e : Entries} : ∀ {k : Nat} {base slot : ULong},
    (reached k base slot e).length ≤ (visits base slot e).length := by
  induction e with
  | nil => exact fun {k _ _} => by cases k <;> exact Nat.le_refl _
  | file f file rest ih =>
      intro k base slot
      rw [reached, visits]
      exact Nat.succ_le_succ ih
  | subdir f dot sub rest ihsub ih =>
      intro k base slot
      cases k with
      | zero =>
          have hrest := @ih 0 base (slot + 64)
          simp only [reached, visits, List.length_cons, List.length_append]
          omega
      | succ k =>
          have hsub := @ihsub k dot.base (dot.base + dot.ustart + 64)
          have hrest := @ih (k + 1) base (slot + 64)
          simp only [reached, visits, List.length_cons, List.length_append]
          omega

/-- Some are missing if there are. -/
theorem reached_length_lt {e : Entries} : ∀ {k : Nat} {base slot : ULong}, k < levelsBelow e →
    (reached k base slot e).length < (visits base slot e).length := by
  induction e with
  | nil => exact fun h => absurd h (Nat.not_lt_zero _)
  | file f file rest ih =>
      intro k base slot h
      rw [reached, visits]
      exact Nat.succ_lt_succ (ih h)
  | subdir f dot sub rest ihsub ih =>
      intro k base slot h
      have hrest := @reached_length_le rest k base (slot + 64)
      cases k with
      | zero =>
          simp only [reached, visits, List.length_cons, List.length_append]
          omega
      | succ k =>
          have hsub := @reached_length_le sub k dot.base (dot.base + dot.ustart + 64)
          simp only [reached, visits, List.length_cons, List.length_append]
          rcases lt_max_iff.mp h with hdeep | hdeep
          · have hless := @ihsub k dot.base (dot.base + dot.ustart + 64)
              (Nat.lt_of_succ_lt_succ hdeep)
            omega
          · have hless := @ih (k + 1) base (slot + 64) hdeep
            omega

/-- What it reaches is in the directory. -/
theorem reached_subset {e : Entries} : ∀ {k : Nat} {base slot : ULong},
    ∀ v ∈ reached k base slot e, v ∈ visits base slot e := by
  induction e with
  | nil => exact fun {k _ _} v hv => by cases k <;> exact hv
  | file f file rest ih =>
      intro k base slot v hv
      rw [reached] at hv
      rcases List.mem_cons.mp hv with rfl | hv
      · exact List.mem_cons_self
      · exact List.mem_cons_of_mem _ (ih v hv)
  | subdir f dot sub rest ihsub ih =>
      intro k base slot v hv
      cases k with
      | zero =>
          rcases List.mem_cons.mp hv with rfl | hv
          · exact List.mem_cons_self
          · exact List.mem_cons_of_mem _ (List.mem_cons_of_mem _ (List.mem_append_right _ (ih v hv)))
      | succ k =>
          rcases List.mem_cons.mp hv with rfl | hv
          · exact List.mem_cons_self
          · refine List.mem_cons_of_mem _ ?_
            rcases List.mem_cons.mp hv with rfl | hv
            · exact List.mem_cons_self
            · refine List.mem_cons_of_mem _ ?_
              rcases List.mem_append.mp hv with hv | hv
              · exact List.mem_append_left _ (ihsub v hv)
              · exact List.mem_append_right _ (ih v hv)

/-! ## The traversal below a bridge -/

section

variable {w : Nat} {content : BitVec w → Record}

/-- A record of the traversal is the one that was written. -/
structure Leads (v : Visit) (e : Entry w) : Prop where
  pos_eq : e.pos = v.pos.setWidth w
  record_eq : e.record = v.record
  declared : e.head = true → 1 ≤ (sdbRecords e.record).toNat
  region : ∀ start size, v.region = some (start, size) →
    e.fOffset = start.setWidth w ∧ addrLast e.record + 1 - addrFirst e.record = size

/-- A record that is not the head of a table, and has no bytes of its own. -/
theorem leads_plain {pos : ULong} {r : Record} (path : List Record) {head : Bool}
    (hdecl : head = true → 1 ≤ (sdbRecords r).toNat) :
    Leads ⟨pos, r, none⟩ (⟨pos.setWidth w, path, r, head⟩ : Entry w) where
  pos_eq := rfl
  record_eq := rfl
  declared := hdecl
  region := fun _ _ h => by cases h

theorem setWidth_slot (hw : w ≤ 64) (slot : ULong) :
    slot.setWidth w + 64 = (slot + 64).setWidth w := by
  rw [BitVec.setWidth_add _ _ hw]
  refine congrArg _ ?_
  apply BitVec.eq_of_toNat_eq
  rw [BitVec.toNat_setWidth]
  rfl

/-- A table that the device holds is entered. -/
theorem table_leads (hw : w ≤ 64) {start : ULong} {dot : Sdbf} {n k : Nat} {path : List Record}
    {vs : List Visit} (hdot : DotAt start dot n)
    (hhead : content (start.setWidth w) = dot.record)
    (hentries : List.Forall₂ Leads vs
      (entries content (below content k) path ((start + 64).setWidth w) n)) :
    List.Forall₂ Leads (⟨start, dot.record, none⟩ :: vs)
      (table content (below content k) path (start.setWidth w)) := by
  have hrecords : (sdbRecords dot.record).toNat = n + 1 := hdot.records_eq
  rw [table, hhead, if_pos hdot.table, hrecords, Nat.add_sub_cancel, setWidth_slot hw]
  refine List.Forall₂.cons (leads_plain path fun _ => ?_) hentries
  rw [hrecords]
  exact Nat.succ_pos n

/-- The traversal of a directory, if the device holds its records. -/
theorem entries_leads (hw : w ≤ 64) {e : Entries} : ∀ {k : Nat} {base slot : ULong}
    {path : List Record}, Coherent base e → baseOf path = base.setWidth w →
    (∀ v ∈ visits base slot e, content (v.pos.setWidth w) = v.record) →
    List.Forall₂ Leads (reached k base slot e)
      (entries content (below content k) path (slot.setWidth w) e.count) := by
  induction e with
  | nil => exact fun {k _ _ _} _ _ _ => by cases k <;> exact List.Forall₂.nil
  | file f file rest ih =>
      intro k base slot path hcoh hbase hshown
      obtain ⟨⟨htype, hfirst, hsize⟩, hcoh⟩ := hcoh
      have hrecord : content (slot.setWidth w) = f.record := hshown _ List.mem_cons_self
      have hdevice : ¬ IsBridge f.record := by
        rw [IsBridge, htype]
        decide
      rw [Entries.count, entries, hrecord, below_of_not_isBridge hdevice, List.nil_append,
        setWidth_slot hw, reached]
      refine List.Forall₂.cons ⟨rfl, rfl, fun h => absurd h Bool.false_ne_true, ?_⟩
        (ih hcoh hbase fun v hv => hshown v (List.mem_cons_of_mem _ hv))
      intro start size h
      obtain ⟨rfl, rfl⟩ := Prod.mk.inj (Option.some.inj h)
      refine ⟨?_, hsize⟩
      rw [Entry.fOffset, hbase, hfirst, BitVec.setWidth_add _ _ hw]
  | subdir f dot sub rest ihsub ih =>
      intro k base slot path hcoh hbase hshown
      obtain ⟨⟨hbridge, hchild⟩, hdot, hcohSub, hcoh⟩ := hcoh
      have hrecord : content (slot.setWidth w) = f.record := hshown _ List.mem_cons_self
      have hstart : dot.base + dot.ustart = base + addrFirst f.record := by
        rw [hdot.base_eq, hdot.ustart_eq]
        exact BitVec.add_zero _
      have hinside : baseOf (f.record :: path) = (base + addrFirst f.record).setWidth w := by
        rw [baseOf, hbase, BitVec.setWidth_add _ _ hw]
      have hpos : childPos path f.record = (base + addrFirst f.record).setWidth w := by
        rw [childPos, hbase, hchild, BitVec.setWidth_add _ _ hw]
      rw [visits, hstart, hdot.base_eq] at hshown
      have hrest := fun k => @ih k base (slot + 64) path hcoh hbase fun v hv =>
        hshown v (List.mem_cons_of_mem _ (List.mem_cons_of_mem _ (List.mem_append_right _ hv)))
      rw [Entries.count, entries, hrecord, setWidth_slot hw]
      cases k with
      | zero =>
          rw [reached]
          exact List.Forall₂.cons (leads_plain path fun h => absurd h Bool.false_ne_true) (hrest 0)
      | succ k =>
          rw [reached, below, if_pos hbridge, hpos, hstart, hdot.base_eq]
          refine List.Forall₂.cons (leads_plain path fun h => absurd h Bool.false_ne_true) ?_
          refine List.rel_append (table_leads hw hdot ?_ ?_) (hrest (k + 1))
          · exact hshown _ (List.mem_cons_of_mem _ List.mem_cons_self)
          · exact ihsub hcohSub hinside fun v hv =>
              hshown v (List.mem_cons_of_mem _ (List.mem_cons_of_mem _ (List.mem_append_left _ hv)))

end

/-! ## The tables in the image -/

theorem seek_place {place : ULong} (h : place.msb = false) (pos : Nat) :
    seek pos place = place.toNat := by
  rw [seek, if_neg (by rw [h]; exact Bool.false_ne_true)]

section

variable {ws : List (Write Byte)}

/-- A table is in the image where it was written. -/
def Held (ws : List (Write Byte)) (part : Part) : Prop :=
  part.isTable = true → ∀ rs, part.pieces = rs.map recordBytes → Holds ws (part.pos, rs)

/-- Tables that are not overwritten are in the image. -/
theorem held_of_kept {later : List Part} (own : List Part) : ∀ (before : List (Write Byte)),
    TablesKept own later → ∀ part ∈ own,
      Held (before ++ (own ++ later).flatMap Part.writes) part := by
  induction own with
  | nil => exact fun _ _ _ h => absurd h List.not_mem_nil
  | cons part parts ih =>
      intro before hkept part' hpart
      obtain ⟨hclear, hkept⟩ := hkept
      rw [List.cons_append, List.flatMap_cons]
      rcases List.mem_cons.mp hpart with rfl | hpart
      · intro htable rs hrs
        refine Holds.later fun k v hv => ?_
        have hcov : Covers part'.writes (part'.pos + k) := by
          rw [Part.writes, covers_consecutive, hrs]
          exact ⟨Nat.le_add_right _ _,
            Nat.add_lt_add_left (List.getElem?_eq_some_iff.mp hv).1 _⟩
        rw [lastAt_append_left (hclear htable _ hcov), Part.writes, hrs]
        exact holds_consecutive part'.pos rs k v hv
      · rw [← List.append_assoc]
        exact ih _ hkept part' hpart

/-- A record is in the image at a position that 64 bits can hold. -/
structure ShownAt (ws : List (Write Byte)) (p : Nat) (r : Record) : Prop where
  record : imageRecord ws p = r
  inside : p + 64 ≤ fileSize ws
  bounded : p + 64 ≤ 0x10000000000000000

/-- A place that `fseek` accepts is in the lower half. -/
theorem toNat_lt_of_msb {place : ULong} (h : place.msb = false) :
    place.toNat < 0x8000000000000000 := by
  rw [BitVec.msb_eq_decide, decide_eq_false_iff_not] at h
  omega

/-- The position of the next record. -/
theorem toNat_slot (slot : ULong) (h : slot.toNat + 64 < 0x10000000000000000) :
    (slot + 64).toNat = slot.toNat + 64 := by
  rw [BitVec.toNat_add]
  exact Nat.mod_eq_of_lt h

/-- The records of a table that is there. -/
theorem table_shown {start : ULong} {dot : Sdbf} {sub : Entries} {n : Nat}
    (h : Holds ws (start.toNat, tableOf dot sub)) (hrecords : records dot = n + 1)
    (hstart : start.msb = false) :
    ShownAt ws start.toNat dot.record ∧ ∀ j r, (tableRecords n sub)[j]? = some r →
      ShownAt ws ((start + 64).toNat + 64 * j) r := by
  rw [tableOf_eq hrecords] at h
  have hlow := toNat_lt_of_msb hstart
  have hmany := records_le dot
  refine ⟨⟨h.record (j := 0) rfl, h.lt_fileSize (j := 0) rfl, by omega⟩, fun j r hr => ?_⟩
  have hrecord := h.record (j := j + 1) hr
  have hend := h.lt_fileSize (j := j + 1) hr
  have hcount := tableRecords_length sub n
  have hj := (List.getElem?_eq_some_iff.mp hr).1
  rw [toNat_slot start (by omega), show start.toNat + 64 + 64 * j = start.toNat + 64 * (j + 1) by omega]
  exact ⟨hrecord, hend, by omega⟩

/-- The records of a directory are in the image if its table and those below it are. -/
theorem visits_shown {e : Entries} : ∀ {base slot : ULong} {pos : Nat}, Counted e →
    (∀ place ∈ tablePlaces e, place.msb = false) →
    (∀ part ∈ entryParts blocksize base e.count e pos, Held ws part) →
    (∀ j r, (tableRecords e.count e)[j]? = some r → ShownAt ws (slot.toNat + 64 * j) r) →
    slot.toNat + 64 * e.count < 0x10000000000000000 →
    ∀ v ∈ visits base slot e, ShownAt ws v.pos.toNat v.record := by
  have htail : ∀ {slot : ULong} {rec : Record} {rs : List Record},
      (slot + 64).toNat = slot.toNat + 64 →
      (∀ j r, (rec :: rs)[j]? = some r → ShownAt ws (slot.toNat + 64 * j) r) →
      ∀ j r, rs[j]? = some r → ShownAt ws ((slot + 64).toNat + 64 * j) r := by
    intro slot rec rs hnext h j r hr
    have hrec := h (j + 1) r hr
    rwa [show slot.toNat + 64 * (j + 1) = slot.toNat + 64 + 64 * j by omega, ← hnext] at hrec
  induction e with
  | nil => exact fun _ _ _ _ _ _ h => absurd h List.not_mem_nil
  | file f file rest ih =>
      intro base slot pos hcounted hoffsets hheld hshown hend v hv
      have hend : slot.toNat + 64 * (rest.count + 1) < 0x10000000000000000 := hend
      have hnext := toNat_slot slot (by omega)
      have hrest : ∀ {pos' : Nat},
          (∀ part ∈ entryParts blocksize base rest.count rest pos', Held ws part) →
          ∀ v ∈ visits base (slot + 64) rest, ShownAt ws v.pos.toNat v.record := fun hparts =>
        ih hcounted hoffsets hparts (htail hnext hshown) (by omega)
      rcases List.mem_cons.mp hv with rfl | hv
      · exact hshown 0 _ rfl
      · rw [Entries.count, entryParts_file] at hheld
        cases hcontents : file.contents with
        | none =>
            rw [hcontents] at hheld
            exact hrest hheld v hv
        | some bytes =>
            rw [hcontents] at hheld
            exact hrest (fun part hpart => hheld part (List.mem_cons_of_mem _ hpart)) v hv
  | subdir f dot sub rest ihsub ih =>
      intro base slot pos hcounted hoffsets hheld hshown hend v hv
      obtain ⟨hrecords, hcountedSub, hcounted⟩ := hcounted
      have hend : slot.toNat + 64 * (rest.count + 1) < 0x10000000000000000 := hend
      have hnext := toNat_slot slot (by omega)
      have hstart : (dot.base + dot.ustart).msb = false := hoffsets _ List.mem_cons_self
      have hsub := fun place h => hoffsets place (List.mem_cons_of_mem _ (List.mem_append_left _ h))
      have hrest := fun place h => hoffsets place (List.mem_cons_of_mem _ (List.mem_append_right _ h))
      rw [Entries.count, entryParts_subdir, seek_place hstart, subdirParts, hrecords, Nat.add_sub_cancel]
        at hheld
      have htable := hheld _ (List.mem_append_left _ List.mem_cons_self) rfl _ rfl
      obtain ⟨hhead, hrecs⟩ := table_shown htable hrecords hstart
      have hmany := records_le dot
      have hlow := toNat_lt_of_msb hstart
      have hbehind := toNat_slot (dot.base + dot.ustart) (by omega)
      rcases List.mem_cons.mp hv with rfl | hv
      · exact hshown 0 _ rfl
      · rcases List.mem_cons.mp hv with rfl | hv
        · exact hhead
        · rcases List.mem_append.mp hv with hv | hv
          · refine ihsub hcountedSub hsub (fun part hpart => hheld part (List.mem_append_left _
              (List.mem_cons_of_mem _ hpart))) hrecs (by omega) v hv
          · refine ih hcounted hrest (fun part hpart => hheld part (List.mem_append_right _ hpart))
              (htail hnext hshown) (by omega) v hv

/-- So are those of a subdirectory. -/
theorem dirVisits_shown {dot : Sdbf} {sub : Entries} (hrecords : records dot = sub.count + 1)
    (hcounted : Counted sub)
    (hoffsets : ∀ place ∈ (dot.base + dot.ustart) :: tablePlaces sub, place.msb = false)
    (hheld : ∀ part ∈ dirParts blocksize dot sub, Held ws part) :
    ∀ v ∈ dirVisits dot sub, ShownAt ws v.pos.toNat v.record := by
  have hstart := hoffsets _ List.mem_cons_self
  have htable := hheld _ List.mem_cons_self rfl _ rfl
  obtain ⟨hhead, hrecs⟩ := table_shown htable hrecords hstart
  have hmany := records_le dot
  have hlow := toNat_lt_of_msb hstart
  have hbehind := toNat_slot (dot.base + dot.ustart) (by omega)
  intro v hv
  rcases List.mem_cons.mp hv with rfl | hv
  · exact hhead
  · rw [dirParts, hrecords, Nat.add_sub_cancel] at hheld
    exact visits_shown blocksize hcounted (fun place h => hoffsets place (List.mem_cons_of_mem _ h))
      (fun part hpart => hheld part (List.mem_cons_of_mem _ hpart)) hrecs (by omega) v hv

end

/-! ## The scan below the bridge -/

/-- The records of a subdirectory, with `k` levels below it. -/
def reachedDir (k : Nat) (dot : Sdbf) (sub : Entries) : List Visit :=
  ⟨dot.base + dot.ustart, dot.record, none⟩ :: reached k dot.base (dot.base + dot.ustart + 64) sub

/-- The same, with the interconnect. -/
theorem reachedDir_subset {k : Nat} {dot : Sdbf} {sub : Entries} :
    ∀ v ∈ reachedDir k dot sub, v ∈ dirVisits dot sub := by
  intro v hv
  rcases List.mem_cons.mp hv with rfl | hv
  · exact List.mem_cons_self
  · exact List.mem_cons_of_mem _ (reached_subset v hv)

/-- A bridge and its subdirectory. -/
structure BridgeTo (bridge : Record) (dot : Sdbf) (sub : Entries) : Prop where
  isBridge : IsBridge bridge
  child_eq : sdbChild bridge = addrFirst bridge
  dot_at : DotAt (addrFirst bridge) dot sub.count
  coherent : Coherent (addrFirst bridge) sub

section

variable {w : Nat} {σ : Type} {host : Host w} {fs : Sdbfs w σ} {content : BitVec w → Record}
  {bridge : Record} {dot : Sdbf} {sub : Entries}

/-- What is below a bridge leads where the directory says. -/
theorem below_leads (hw : w ≤ 64) (h : BridgeTo bridge dot sub)
    (hshown : ∀ v ∈ dirVisits dot sub, content (v.pos.setWidth w) = v.record) :
    List.Forall₂ Leads (reachedDir (SDBFS_DEPTH - 2) dot sub)
      (below content (room []) [] bridge) := by
  have hstart : dot.base + dot.ustart = addrFirst bridge := by
    rw [h.dot_at.base_eq, h.dot_at.ustart_eq]
    exact BitVec.add_zero _
  have hinside : baseOf [bridge] = (addrFirst bridge).setWidth w := BitVec.zero_add _
  have hpos : childPos [] bridge = (addrFirst bridge).setWidth w := by
    rw [childPos, h.child_eq]
    exact BitVec.zero_add _
  rw [dirVisits, hstart, h.dot_at.base_eq] at hshown
  rw [reachedDir, hstart, h.dot_at.base_eq]
  show List.Forall₂ Leads _ (below content (SDBFS_DEPTH - 2 + 1) [] bridge)
  rw [below, if_pos h.isBridge, hpos]
  refine table_leads hw h.dot_at (hshown _ List.mem_cons_self) ?_
  exact entries_leads hw h.coherent hinside fun v hv => hshown v (List.mem_cons_of_mem _ hv)

/-- The scan returns the records that the library is deep enough for. -/
theorem scanBelow_reached {ws : List (Write Byte)} (h : BridgeTo bridge dot sub)
    (hshown : ∀ v ∈ dirVisits dot sub, ShownAt ws v.pos.toNat v.record)
    (hreader : Reader host fs content ws (dirVisits dot sub)) (hat : AtBridge host fs bridge)
    {n : Nat} (hn : (reachedDir (SDBFS_DEPTH - 2) dot sub).length < n) :
    ∃ rs, scanBelow host n fs = .done rs ∧
      List.Forall₂ (Found fs) (reachedDir (SDBFS_DEPTH - 2) dot sub) rs := by
  have hleads : List.Forall₂ Leads (reachedDir (SDBFS_DEPTH - 2) dot sub)
      (below content (room []) [] bridge) := below_leads hreader.narrow h fun v hv =>
    (hreader.presents v hv (hshown v hv).inside).trans (hshown v hv).record
  have hback := Paired.exists_left hleads
  refine ⟨_, scanBelow_bridge hreader.delivers hat.onPath hat.current hat.next ?_
    (hleads.length_eq ▸ hn), List.forall₂_map_right_iff.mpr ?_⟩
  · intro e he
    obtain ⟨v, hv, hlead⟩ := hback e he
    exact ⟨hlead.pos_eq ▸ hreader.nonnull v (reachedDir_subset v hv), hlead.declared⟩
  · refine ((List.forall₂_and_left _ _).mpr ⟨reachedDir_subset, hleads⟩).imp ?_
    rintro v e ⟨hv, hlead⟩
    refine ⟨congrArg (recordPtr fs) hlead.pos_eq, hlead.record_eq, fun start size hregion => ?_⟩
    obtain ⟨hoffset, hlen⟩ := hlead.region start size hregion
    obtain ⟨hstart, hsize⟩ := hreader.reaches v hv start size hregion
    refine ⟨(congrArg BitVec.toNat hoffset).trans hstart, ?_⟩
    rw [opened, hlen]
    exact hsize

end

/-! ## A reader -/

/-- A machine that has an image in its memory. -/
def imageHost (ws : List (Write Byte)) : Host 64 := ⟨false, fun addr => imageByte ws addr.toNat⟩

/-- A device at address 0, after its scan has returned a bridge. -/
def bridgeDevice (bridge : Record) : Sdbfs 64 Unit :=
  { Sdbfs.fresh () 0 (SDBFS_F_CONVERT32 64 ||| SDBFS_F_ZEROBASED 64) 0 none with
    currentp := .currentRecord
    currentRecord := bridge }

theorem bridgeDevice_converts (bridge : Record) : (bridgeDevice bridge).converts = true := by
  show ((SDBFS_F_CONVERT32 64 ||| SDBFS_F_ZEROBASED 64) &&& SDBFS_F_CONVERT32 64 != 0#64) = true
  decide

/-- What it converts is in its buffer, not at an address. -/
theorem bridgeDevice_nonnull (bridge : Record) (pos : BitVec 64) :
    ¬ NullAt (bridgeDevice bridge) pos := by
  rintro ⟨-, h, -⟩
  rw [bridgeDevice_converts] at h
  cases h

/-- The device shows what the image has. -/
theorem bridgeDevice_reads {ws : List (Write Byte)} (bridge : Record) {vs : List Visit}
    (hshown : ∀ v ∈ vs, ShownAt ws v.pos.toNat v.record) :
    Reader (imageHost ws) (bridgeDevice bridge) (fun pos => (imageHost ws).recordAt (0#64 + pos)) ws
      vs where
  narrow := Nat.le_refl 64
  delivers := by
    have hmapped : (bridgeDevice bridge).isMapped = true := by
      show (0#64 != 0#64 || (SDBFS_F_CONVERT32 64 ||| SDBFS_F_ZEROBASED 64) &&&
        SDBFS_F_ZEROBASED 64 != 0#64) = true
      decide
    rw [Delivers, if_pos hmapped]
    intro pos
    rw [if_pos (bridgeDevice_converts bridge)]
    rfl
  presents := by
    intro v hv _
    have hroom := (hshown v hv).bounded
    ext1 i
    have hi := i.isLt
    refine congrArg (imageByte ws) ?_
    rw [BitVec.zero_add, BitVec.setWidth_eq, BitVec.toNat_add, BitVec.toNat_ofNat,
      Nat.mod_eq_of_lt (show i.val < 2 ^ 64 by omega)]
    exact Nat.mod_eq_of_lt (by omega)
  nonnull := fun v _ => bridgeDevice_nonnull bridge _
  reaches := by
    intro v _ start size _
    rw [BitVec.setWidth_eq, BitVec.setWidth_eq]
    exact ⟨rfl, rfl⟩

/-- It stands at the bridge. -/
theorem bridgeDevice_at (ws : List (Write Byte)) (bridge : Record) :
    AtBridge (imageHost ws) (bridgeDevice bridge) bridge where
  onPath := by
    refine ⟨rfl, fun p hp => ?_, fun _ _ => Int.le_refl 0⟩
    rw [List.suffix_nil.mp hp]
    rfl
  current := rfl
  next := bridgeDevice_nonnull bridge _

end GensdbfsSubdir
