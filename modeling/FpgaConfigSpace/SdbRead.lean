import FpgaConfigSpace.SdbfsRuns
import FpgaConfigSpace.SdbfsVisits

/-! # The listing of `sdb-read`

    `do_list` scans the tree and lists what it gets.  `list_device` is given the base of the
    directory as an `int`, and adds the addresses of the record to it in 64 bits. -/

namespace SdbRead

open BigEndian SdbRecord SdbfsDevice SdbfsScan SdbfsTree SdbfsRuns
open SdbfsOpen (Outcome)

variable {σ : Type}

/-! ## `list_device` -/

/-- What `printf` is called with, for a line. -/
inductive Line where
  | name (name : List Byte)
  | component (vendorId : BitVec 64) (deviceId : Word) (first last : BitVec 64) (depth : Nat)
      (name : List Byte)
  | product (vendorId : BitVec 64) (deviceId : Word) (depth : Nat) (name : List Byte)
  | repoUrl (url : List Byte)
  | synthesisName (name : List Byte)
  | commitId (bytes : List Byte)
  | toolName (name : List Byte)
  | toolVersion (version : Word)
  | buildDate (date : Word)
  | buildUser (name : List Byte)
  /-- All the bytes of it, in a long listing. -/
  | unknownRecord (data : List Byte)

/-- A field of a record. -/
def field (r : Record) (start size : Nat) : List Byte := ((List.ofFn r).drop start).take size

/-- "%.*s" of a field. -/
def fieldText (r : Record) (start size : Nat) : List Byte :=
  (field r start size).takeWhile (· != 0)

/-- `ntohl` of a field. -/
def fieldWord (r : Record) (start : Nat) : Word :=
  wordOf ((field r start 4).getD 0 0) ((field r start 4).getD 1 0) ((field r start 4).getD 2 0)
    ((field r start 4).getD 3 0)

/-- `product.vendor_id`, as it is printed. -/
def vendorId (r : Record) : BitVec 64 := be64 r vendorOffset

/-- `product.device_id`, as it is printed. -/
def deviceId (r : Record) : Word := be32 r deviceOffset

/-- `product.name`, as far as it is printed. -/
def nameOf (r : Record) : List Byte := (productName r).takeWhile (· != 0)

/-- "Some metadata". -/
def synthesisLines (d : Record) : List Line :=
  let first := fun start => (field d start 1).getD 0 0
  [.synthesisName (fieldText d 0x00 16), .commitId (field d 0x10 16)] ++
    -- Some of the following fields are sometimes empty
    (if first 0x20 ≠ 0 ∧ first 0x20 ≠ 0x20 then [.toolName (fieldText d 0x20 8)] else []) ++
    (if fieldWord d 0x28 ≠ 0 then [.toolVersion (fieldWord d 0x28)] else []) ++
    (if fieldWord d 0x2c ≠ 0 then [.buildDate (fieldWord d 0x2c)] else []) ++
    -- it is the tool's name that is looked at
    (if first 0x30 ≠ 0 ∧ first 0x20 ≠ 0x20 then [.buildUser (fieldText d 0x30 15)] else [])

/-- The records that are listed with their addresses. -/
def IsComponent (d : Record) : Prop :=
  recordType d = sdbTypeInterconnect ∨ recordType d = sdbTypeDevice ∨ recordType d = sdbTypeBridge

instance (d : Record) : Decidable (IsComponent d) :=
  inferInstanceAs (Decidable (recordType d = sdbTypeInterconnect ∨ recordType d = sdbTypeDevice ∨
    recordType d = sdbTypeBridge))

/-- `list_device`, of which `optLong` is the option "-l": what it returns, and what it prints. -/
def listDevice (optLong : Bool) (d : Record) (depth : Nat) (base : BitVec 32) : Int × List Line :=
  if IsComponent d then
    if optLong then
      -- `(long long)base + ...`, in an `unsigned long long`
      (0, [.component (vendorId d) (deviceId d) (base.signExtend 64 + addrFirst d)
        (base.signExtend 64 + addrLast d) depth (nameOf d)])
    else (0, [.name (nameOf d)])
  else if recordType d = sdbTypeIntegration then
    (0, [if optLong then .product (vendorId d) (deviceId d) depth (nameOf d) else .name (nameOf d)])
  else if recordType d = sdbTypeRepoUrl then
    (0, if optLong then [.repoUrl (fieldText d 0x00 63)] else [])
  else if recordType d = sdbTypeSynthesis then
    (0, if optLong then synthesisLines d else [])
  else if recordType d = sdbTypeEmpty then (0, [])
  else
    (if recordType d &&& 0x80 != 0 then 0 else -1,
      [.unknownRecord (if optLong then List.ofFn d else [])])

/-! ## `do_list` -/

/-- A record that is listed, with the state that the scan left. -/
structure Listed (σ : Type) where
  fs : Sdbfs 64 σ
  record : Record
  lines : List Line

/-- `do_list`, from the value of `new` and the errors counted so far: what is listed, and how it
    ends. -/
def doList (host : Host 64) (optLong : Bool) : Nat → Sdbfs 64 σ → Bool → Int →
    List (Listed σ) × Outcome (Sdbfs 64 σ × Int)
  | 0, _, _, _ => ([], .running)
  | n + 1, fs, new, err =>
      match sdbfsScan host fs new with
      | none => ([], .undefined)
      | some (fs, d) =>
          if d.isNull then ([], .done (fs, err))
          else
            match fs.deref host d with
            | none => ([], .undefined)
            | some dev =>
                let r := listDevice optLong dev fs.depth ((fs.base fs.depth).setWidth 32)
                let rest := doList host optLong n fs false (err + r.1)
                (⟨fs, dev, r.2⟩ :: rest.1, rest.2)

/-- The range of a component is listed where the record is: from `f_offset` on, as far as it goes. -/
def ListedRight (l : Listed σ) : Prop :=
  IsComponent l.record → l.lines = [.component (vendorId l.record) (deviceId l.record) l.fs.fOffset
    (l.fs.fOffset + (addrLast l.record - addrFirst l.record)) l.fs.depth (nameOf l.record)]

/-- A base below 2^31, or one of the last 2^31. -/
def FitsInt (base : BitVec 64) : Prop :=
  base.toNat < 0x80000000 ∨ 0xffffffff80000000 ≤ base.toNat

/-! ## One record -/

/-- What `list_device` returns does not depend on what it prints. -/
theorem listDevice_fst (optLong : Bool) (d : Record) (depth : Nat) (base : BitVec 32) :
    (listDevice optLong d depth base).1 = SdbfsOpen.listDevice d := by
  -- both are a chain of tests of the record type
  rw [listDevice]
  split_ifs with h1 h2 h3 h4 h5 h6 <;> simp_all [SdbfsOpen.listDevice, IsComponent]
  all_goals exact fun n1 n2 n3 => (h1.elim n1 fun h => h.elim n2 n3).elim

/-- The conversion to `int` and back. -/
theorem signExtend_setWidth_iff (base : BitVec 64) :
    (base.setWidth 32).signExtend 64 = base ↔ FitsInt base := by
  have hlt := base.isLt
  have hnat : ((base.setWidth 32).signExtend 64).toNat =
      base.toNat % 0x100000000 + (if 0x80000000 ≤ base.toNat % 0x100000000 then
        0xffffffff00000000 else 0) := by
    rw [BitVec.toNat_signExtend, BitVec.msb_eq_decide, BitVec.toNat_setWidth_of_le (by decide),
      BitVec.toNat_setWidth]
    simp only [decide_eq_true_eq]
  rw [FitsInt]
  constructor
  · intro h
    rw [h] at hnat
    split at hnat <;> omega
  · intro h
    apply BitVec.eq_of_toNat_eq
    rw [hnat]
    split <;> omega

/-- Both ends of the range are right, or none is. -/
theorem listDevice_right {fs : Sdbfs 64 σ} {d : Record}
    (hoffset : fs.fOffset = fs.base fs.depth + addrFirst d) :
    ListedRight ⟨fs, d, (listDevice true d fs.depth ((fs.base fs.depth).setWidth 32)).2⟩ ↔
      (IsComponent d → FitsInt (fs.base fs.depth)) := by
  refine forall_congr' fun hcomponent => ?_
  rw [← signExtend_setWidth_iff, listDevice, if_pos hcomponent, if_pos rfl]
  simp only [List.cons.injEq, and_true, Line.component.injEq, true_and, hoffset]
  constructor
  · rintro ⟨hfirst, -⟩
    exact (BitVec.add_left_inj _).mp hfirst
  · intro h
    rw [h]
    refine ⟨rfl, ?_⟩
    rw [BitVec.add_assoc, BitVec.add_comm (addrFirst d), BitVec.sub_add_cancel]

/-! ## The whole listing -/

/-- The offset of the record that is returned, the next one of a table or of a table above. -/
theorem scanOut_fOffset {w : Nat} {host : Host w} {fs fs' : Sdbfs w σ} {dev dev' : RecordPtr w}
    (hcurrent : fs.currentp = dev) (h : scanOut host fs dev = some (fs', dev')) {d : Record}
    (hd : fs'.deref host dev' = some d) :
    fs'.fOffset = fs'.base fs'.depth + (addrFirst d).setWidth w := by
  obtain ⟨rec, hrec, heq⟩ := Option.map_eq_some_iff.mp h
  obtain ⟨rfl, rfl⟩ := Prod.mk.inj heq
  rw [hcurrent] at hrec
  have hsame : fs.deref host dev = some d := (deref_congr ⟨rfl, rfl, rfl⟩ rfl dev).symm.trans hd
  rw [Option.some.inj (hrec.symm.trans hsame)]

theorem scanEntry_fOffset {w : Nat} {host : Host w} {fs fs' : Sdbfs w σ} {depth : Nat}
    {dev : RecordPtr w} (h : scanEntry host fs depth = some (fs', dev)) {d : Record}
    (hd : fs'.deref host dev = some d) :
    fs'.fOffset = fs'.base fs'.depth + (addrFirst d).setWidth w := by
  rw [scanEntry] at h
  simp only at h
  split at h
  · cases h
  · exact scanOut_fOffset rfl h hd

theorem scanNext_fOffset {w : Nat} {host : Host w} {depth : Nat} : ∀ {fs fs' : Sdbfs w σ}
    {dev : RecordPtr w}, scanNext host fs depth = some (fs', dev) → dev.isNull = false →
    ∀ {d : Record}, fs'.deref host dev = some d →
      fs'.fOffset = fs'.base fs'.depth + (addrFirst d).setWidth w := by
  induction depth with
  | zero =>
      intro fs fs' dev h hnull d hd
      rw [scanNext] at h
      split at h
      · cases h
        rw [RecordPtr.isNull_NULL] at hnull
        cases hnull
      · exact scanEntry_fOffset h hd
  | succ depth ih =>
      intro fs fs' dev h hnull d hd
      rw [scanNext] at h
      split at h
      · exact ih h hnull hd
      · exact scanEntry_fOffset h hd

/-- **A record that the scan returns is at `f_offset`, in the directory it returns it from.** -/
theorem sdbfsScan_fOffset {w : Nat} {host : Host w} {fs fs' : Sdbfs w σ} {new : Bool}
    {dev : RecordPtr w} (h : sdbfsScan host fs new = some (fs', dev)) (hnull : dev.isNull = false)
    {d : Record} (hd : fs'.deref host dev = some d) :
    fs'.fOffset = fs'.base fs'.depth + (addrFirst d).setWidth w := by
  obtain ⟨⟨s, depth, enter⟩, -, h⟩ := Option.bind_eq_some_iff.mp h
  cases enter with
  | false => exact scanNext_fOffset h hnull hd
  | true =>
      obtain ⟨⟨s', p⟩, hnew, h⟩ := Option.bind_eq_some_iff.mp h
      simp only at h
      split at h
      · split at h
        · cases h
          rw [RecordPtr.isNull_NULL] at hnull
          cases hnull
        · exact scanNext_fOffset h hnull hd
      · next hp =>
        refine scanOut_fOffset ?_ h hd
        obtain ⟨rec, -, heq⟩ := Option.map_eq_some_iff.mp hnew
        split at heq
        · obtain ⟨rfl, rfl⟩ := Prod.mk.inj heq
          rfl
        · obtain ⟨-, rfl⟩ := Prod.mk.inj heq
          exact absurd (RecordPtr.isNull_NULL w) hp

/-- What is listed of a record. -/
structure Reported (l : Listed σ) : Prop where
  offset : l.fs.fOffset = l.fs.base l.fs.depth + addrFirst l.record
  lines : l.lines =
    (listDevice true l.record l.fs.depth ((l.fs.base l.fs.depth).setWidth 32)).2

/-- A line is right exactly if the base fits into an `int`. -/
theorem Reported.right_iff {l : Listed σ} (h : Reported l) :
    ListedRight l ↔ (IsComponent l.record → FitsInt (l.fs.base l.fs.depth)) := by
  obtain ⟨fs, d, lines⟩ := l
  obtain ⟨hoffset, hlines⟩ := h
  rw [show lines = _ from hlines]
  exact listDevice_right hoffset

/-- The step lemma, by induction on the calls: every line is a report. -/
theorem doList_reported {host : Host 64} (n : Nat) : ∀ {fs : Sdbfs 64 σ} {new : Bool} {err : Int},
    ∀ l ∈ (doList host true n fs new err).1, Reported l := by
  induction n with
  | zero => exact fun l hl => absurd hl List.not_mem_nil
  | succ n ih =>
      intro fs new err l hl
      rw [doList] at hl
      cases hscan : sdbfsScan host fs new with
      | none =>
          rw [hscan] at hl
          exact absurd hl List.not_mem_nil
      | some r =>
          obtain ⟨fs', dev⟩ := r
          rw [hscan] at hl
          simp only at hl
          cases hnull : dev.isNull with
          | true =>
              rw [hnull, if_pos rfl] at hl
              exact absurd hl List.not_mem_nil
          | false =>
              rw [hnull, if_neg Bool.false_ne_true] at hl
              cases hd : fs'.deref host dev with
              | none =>
                  rw [hd] at hl
                  exact absurd hl List.not_mem_nil
              | some d =>
                  rw [hd] at hl
                  rcases List.mem_cons.mp hl with rfl | hl
                  · have hoffset := sdbfsScan_fOffset hscan hnull hd
                    rw [BitVec.setWidth_eq] at hoffset
                    exact ⟨hoffset, rfl⟩
                  · exact ih l hl

/-- It ends as the loop does that only counts the errors. -/
theorem doList_outcome {host : Host 64} (optLong : Bool) (n : Nat) :
    ∀ (fs : Sdbfs 64 σ) (new : Bool) (err : Int),
      (doList host optLong n fs new err).2 = SdbfsOpen.doList host n fs new err := by
  induction n with
  | zero => exact fun _ _ _ => rfl
  | succ n ih =>
      intro fs new err
      rw [doList, SdbfsOpen.doList]
      cases hscan : sdbfsScan host fs new with
      | none => rfl
      | some r =>
          obtain ⟨fs', dev⟩ := r
          simp only
          split
          · rfl
          · cases hd : fs'.deref host dev with
            | none => rfl
            | some d =>
                simp only
                rw [ih, listDevice_fst]

/-- The listing of a bounded scan ends. -/
theorem doList_ends {host : Host 64} {fs : Sdbfs 64 σ} (h : SdbfsVisits.ScanBounded host fs)
    (optLong : Bool) : ∃ n r, (doList host optLong n fs true 0).2 = .done r := by
  obtain ⟨n, r, hr⟩ := h.doList
  exact ⟨n, r, (doList_outcome optLong n fs true 0).trans hr⟩

/-- What is listed is what the scan returns. -/
theorem doList_scanAll {host : Host 64} (n : Nat) : ∀ {fs fs' : Sdbfs 64 σ} {new : Bool} {err : Int}
    {rs : List (Returned 64)}, scanAll host n fs new = .done (fs', rs) →
    (doList host true n fs new err).1.map (fun l => (l.record, l.fs.fOffset)) =
      rs.map fun r => (r.record, r.fOffset) := by
  induction n with
  | zero => exact fun h => by cases h
  | succ n ih =>
      intro fs fs' new err rs h
      rw [scanAll] at h
      rw [doList]
      cases hscan : sdbfsScan host fs new with
      | none =>
          rw [hscan] at h
          cases h
      | some r =>
          obtain ⟨g, dev⟩ := r
          rw [hscan] at h
          simp only at h ⊢
          cases hnull : dev.isNull with
          | true =>
              rw [hnull, if_pos rfl] at h
              cases h
              rfl
          | false =>
              rw [hnull, if_neg Bool.false_ne_true] at h
              rw [if_neg Bool.false_ne_true]
              cases hd : g.deref host dev with
              | none =>
                  rw [hd] at h
                  cases h
              | some d =>
                  rw [hd] at h
                  cases hmore : scanAll host n g false with
                  | undefined =>
                      rw [hmore] at h
                      cases h
                  | running =>
                      rw [hmore] at h
                      cases h
                  | done r =>
                      obtain ⟨fs'', more⟩ := r
                      rw [hmore] at h
                      cases h
                      exact congrArg (List.cons _) (ih hmore)

/-- Where a component is, and whether the base of its directory gets through the `int`. -/
def PlaceFits (p : Record × BitVec 64) : Prop := IsComponent p.1 → FitsInt (p.2 - addrFirst p.1)

/-- The same, by the place of the record. -/
theorem Reported.placeFits {l : Listed σ} (h : Reported l) :
    ListedRight l ↔ PlaceFits (l.record, l.fs.fOffset) := by
  rw [h.right_iff, PlaceFits, h.offset, BitVec.add_sub_cancel]

/-- And by the path to it. -/
theorem entry_placeFits (e : Entry 64) :
    PlaceFits (e.record, e.fOffset) ↔ (IsComponent e.record → FitsInt (baseOf e.path)) := by
  rw [PlaceFits, Entry.fOffset, BitVec.setWidth_eq, BitVec.add_sub_cancel]

/-- **In every run of the listing the ranges are right exactly where the bases fit in an `int`; and if
    the tables of an image declare at least one record each, these are the sums of the bridges'
    addresses above the records.** -/
theorem listing_right (host : Host 64) (fs : Sdbfs 64 σ) (n : Nat) :
    ((∀ l ∈ (doList host true n fs true 0).1, ListedRight l) ↔
      ∀ l ∈ (doList host true n fs true 0).1, IsComponent l.record →
        FitsInt (l.fs.base l.fs.depth)) ∧
    ∀ content : BitVec 64 → Record, Delivers host fs content →
      (∀ e ∈ preorder content fs.entrypoint, ¬ NullAt fs e.pos) →
      AllDeclared (preorder content fs.entrypoint) →
      (preorder content fs.entrypoint).length < n →
      ((∀ l ∈ (doList host true n fs true 0).1, ListedRight l) ↔
        ∀ e ∈ preorder content fs.entrypoint, IsComponent e.record → FitsInt (baseOf e.path)) := by
  have hreported := fun l hl => @doList_reported _ host n fs true 0 l hl
  refine ⟨forall₂_congr fun l hl => (hreported l hl).right_iff, ?_⟩
  intro content hd hnull hdecl hn
  obtain ⟨fs', hscan⟩ := scanAll_preorder hd hnull hdecl hn
  have hsame := @doList_scanAll _ host n fs fs' true 0 _ hscan
  rw [List.map_map] at hsame
  calc (∀ l ∈ (doList host true n fs true 0).1, ListedRight l)
      ↔ ∀ l ∈ (doList host true n fs true 0).1, PlaceFits (l.record, l.fs.fOffset) :=
        forall₂_congr fun l hl => (hreported l hl).placeFits
    _ ↔ ∀ p ∈ (doList host true n fs true 0).1.map (fun l => (l.record, l.fs.fOffset)),
          PlaceFits p := List.forall_mem_map.symm
    _ ↔ ∀ e ∈ preorder content fs.entrypoint, PlaceFits (e.record, e.fOffset) := by
        rw [hsame, List.forall_mem_map]
        rfl
    _ ↔ ∀ e ∈ preorder content fs.entrypoint, IsComponent e.record → FitsInt (baseOf e.path) :=
        forall₂_congr fun e _ => entry_placeFits e

/-! ## A bridge at 2^31 -/

/-- A table with a bridge at 0x80000000, and behind it the table below the bridge, with a device at
    0x10. -/
def highBytes : List Byte :=
  interconnectBytes 2 ++
    (List.replicate 7 0 ++ [0x80] ++ List.replicate 4 0 ++ [0x80] ++ List.replicate 50 0 ++ [2]) ++
    interconnectBytes 2 ++ (List.replicate 15 0 ++ [0x10] ++ List.replicate 47 0 ++ [1])

/-- It is mapped, in the memory of a machine. -/
def highHost : Host 64 := ⟨true, fun addr => highBytes.getD (addr - 0x1000).toNat 0⟩

/-- The device that `sdb-read` makes of it. -/
def highDevice : Sdbfs 64 Unit := Sdbfs.fresh () 0 0 0x1000 none

/-- The device is at 0x80000010, and listed at 0xffffffff80000010. -/
theorem listing_wrong : ∃ l ∈ (doList highHost true 8 highDevice true 0).1,
    l.fs.fOffset = 0x80000010 ∧ ¬ ListedRight l := by
  have hany : (doList highHost true 8 highDevice true 0).1.any (fun l =>
      decide (l.fs.fOffset = 0x80000010 ∧ IsComponent l.record ∧
        l.fs.base l.fs.depth = 0x80000000)) = true := by decide +kernel
  obtain ⟨l, hl, hfacts⟩ := List.any_eq_true.mp hany
  obtain ⟨hoffset, hcomponent, hbase⟩ := of_decide_eq_true hfacts
  refine ⟨l, hl, hoffset, fun h => ?_⟩
  have hfits := (doList_reported 8 l hl).right_iff.mp h hcomponent
  rw [hbase] at hfits
  exact hfits.elim (by decide) (by decide)

end SdbRead
