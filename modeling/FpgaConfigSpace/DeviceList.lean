import FpgaConfigSpace.Lib.GapSearch

/-! # The list of Wishbone devices

    `wishbone_register`, `wishbone_unregister` and `wishbone_init` of
    `wishbone.c`: every bridge gets one minor number in the region of the master
    devices and the same one in the region of the slave devices, and the list of
    the registered bridges is kept in ascending order of these numbers.

    `ω` names a `struct wishbone`.  The functions run under `wishbone_mutex`, so a
    call is one step. -/

namespace WbDeviceList

open GapSearch

/-! ## Device numbers -/

/-- `dev_t`: twelve bits of major, twenty bits of minor number. -/
abbrev Dev := BitVec 32

/-- A device number, of a major and a minor one. -/
def MKDEV (ma mi : BitVec 32) : Dev := (ma <<< 20) ||| mi

/-- The major number: the bits above the 20 lowest. -/
def MAJOR (dev : Dev) : BitVec 32 := dev >>> 20

/-- The minor number: the 20 lowest bits. -/
def MINOR (dev : Dev) : BitVec 32 := dev &&& 0xfffff

/-- A minor number that fits into its bits comes back. -/
theorem minor_mkdev (ma mi : BitVec 32) (h : mi.toNat < 1048576) : MINOR (MKDEV ma mi) = mi := by
  apply BitVec.eq_of_toNat_eq
  have hmask : (0xfffff : BitVec 32).toNat = 2 ^ 20 - 1 := by decide
  rw [MINOR, MKDEV, BitVec.toNat_and, hmask, Nat.and_two_pow_sub_one_eq_mod, BitVec.toNat_or,
    Nat.or_mod_two_pow, BitVec.toNat_shiftLeft, Nat.mod_eq_of_lt h, Nat.shiftLeft_eq]
  have hshift : ma.toNat * 2 ^ 20 % 2 ^ 32 % 2 ^ 20 = 0 := by omega
  rw [hshift, Nat.zero_or]

/-! ## The module -/

/-- "Out of memory", as the kernel numbers it. -/
def ENOMEM : Int := 12

/-- "Invalid argument". -/
def EINVAL : Int := 22

/-- "I/O error". -/
def EIO : Int := 5

/-- The variables `wishbone_init` sets: the parameter and the two regions. -/
structure Globals where
  maxDevices : BitVec 32
  masterDevFirst : Dev
  slaveDevFirst : Dev

/-- What the kernel answers while the module is loaded: an error of `class_create`,
    and the major number of a region, whose first minor number is zero. -/
structure InitCalls where
  masterClass : Except Int Unit
  slaveClass : Except Int Unit
  masterRegion : Option (BitVec 12)
  slaveRegion : Option (BitVec 12)

/-- `wishbone_init`. -/
def wishboneInit (maxDevices : BitVec 32) (calls : InitCalls) : Except Int Globals :=
  if MINOR (MKDEV 0 (maxDevices - 1)) ≠ maxDevices - 1 then .error (-ENOMEM)
  else
    match calls.masterClass, calls.slaveClass with
    | .error err, _ => .error err
    | _, .error err => .error err
    | .ok _, .ok _ =>
        match calls.masterRegion, calls.slaveRegion with
        | none, _ => .error (- EIO)
        | _, none => .error (- EIO)
        | some master, some slave =>
            .ok ⟨maxDevices, MKDEV (master.setWidth 32) 0, MKDEV (slave.setWidth 32) 0⟩

/-- One member of `wishbone_list`. -/
structure Entry (ω : Type) where
  wb : ω
  masterDev : Dev
  slaveDev : Dev

/-- The state of the module: the list, and the character devices and the sysfs
    nodes that exist. -/
structure Registry (ω : Type) where
  list : List (Entry ω)
  cdevs : List Dev
  nodes : List Dev

/-- Which of the kernel calls of a registration succeed. -/
structure RegisterCalls where
  masterCdev : Bool
  slaveCdev : Bool
  masterNode : Bool
  slaveNode : Bool

/-- All four calls of the kernel succeed. -/
def RegisterCalls.succeed (calls : RegisterCalls) : Prop :=
  calls.masterCdev = true ∧ calls.slaveCdev = true ∧
    calls.masterNode = true ∧ calls.slaveNode = true

instance (calls : RegisterCalls) : Decidable calls.succeed :=
  inferInstanceAs (Decidable (_ ∧ _ ∧ _ ∧ _))

variable {ω : Type}

/-- The master's device number at an offset from the first. -/
def masterDevAt (g : Globals) (devoff : BitVec 32) : Dev :=
  MKDEV (MAJOR g.masterDevFirst) (MINOR g.masterDevFirst + devoff)

/-- The slave's device number at an offset from the first. -/
def slaveDevAt (g : Globals) (devoff : BitVec 32) : Dev :=
  MKDEV (MAJOR g.slaveDevFirst) (MINOR g.slaveDevFirst + devoff)

/-- The loop of `wishbone_register`: the offset, and how many entries lie before
    the place it belongs to; `none` is the jump to `fail_out`. -/
def searchGap (g : Globals) : List (Entry ω) → BitVec 32 → Option (BitVec 32 × Nat)
  | [], devoff => some (devoff, 0)
  | entry :: rest, devoff =>
      if entry.masterDev ≠ masterDevAt g devoff then some (devoff, 0)
      -- run out of minors
      else if devoff = g.maxDevices - 1 then none
      else (searchGap g rest (devoff + 1)).map fun found => (found.1, found.2 + 1)

/-- `cdev_add`, which succeeded. -/
def cdevAdd (dev : Dev) (r : Registry ω) : Registry ω := { r with cdevs := dev :: r.cdevs }

/-- `cdev_del`. -/
def cdevDel (dev : Dev) (r : Registry ω) : Registry ω := { r with cdevs := r.cdevs.erase dev }

/-- `device_create`, which succeeded. -/
def deviceCreate (dev : Dev) (r : Registry ω) : Registry ω := { r with nodes := dev :: r.nodes }

/-- `device_destroy`. -/
def deviceDestroy (dev : Dev) (r : Registry ω) : Registry ω := { r with nodes := r.nodes.erase dev }

/-- `list_add_tail` in front of the entry at a position. -/
def listAddTail (entry : Entry ω) (pos : Nat) (r : Registry ω) : Registry ω :=
  { r with list := r.list.take pos ++ entry :: r.list.drop pos }

/-- `wishbone_register`. -/
def wishboneRegister (g : Globals) (calls : RegisterCalls) (wb : ω) (r : Registry ω) :
    Registry ω × Int :=
  match searchGap g r.list 0 with
  | none => (r, -ENOMEM)
  | some (devoff, pos) =>
      let master := masterDevAt g devoff
      let slave := slaveDevAt g devoff
      if !calls.masterCdev then (r, -ENOMEM)
      else
        let r := cdevAdd master r
        if !calls.slaveCdev then (cdevDel master r, -ENOMEM)
        else
          let r := cdevAdd slave r
          if !calls.masterNode then (cdevDel master (cdevDel slave r), -ENOMEM)
          else
            let r := deviceCreate master r
            if !calls.slaveNode then
              (cdevDel master (cdevDel slave (deviceDestroy master r)), -ENOMEM)
            else (listAddTail ⟨wb, master, slave⟩ pos (deviceCreate slave r), 0)

variable [DecidableEq ω]

/-- `wishbone_unregister`; a device whose list head is empty is on no list. -/
def wishboneUnregister (wb : ω) (r : Registry ω) : Registry ω × Int :=
  match r.list.find? fun entry => entry.wb = wb with
  | none => (r, -EINVAL)
  | some entry =>
      let r := { r with list := r.list.eraseP fun entry => entry.wb = wb }
      (cdevDel entry.masterDev (cdevDel entry.slaveDev
        (deviceDestroy entry.masterDev (deviceDestroy entry.slaveDev r))), 0)

/-! ## Runs -/

/-- The device is on the list. -/
def Registered (r : Registry ω) (wb : ω) : Prop := ∃ entry ∈ r.list, entry.wb = wb

instance (r : Registry ω) (wb : ω) : Decidable (Registered r wb) :=
  inferInstanceAs (Decidable (∃ entry ∈ r.list, _))

/-- The states after any sequence of calls: devices that are on no list are
    registered, with any outcome, and devices on the list are unregistered. -/
inductive Reachable (g : Globals) : Registry ω → Prop where
  | start : Reachable g ⟨[], [], []⟩
  | register {r : Registry ω} (calls : RegisterCalls) (wb : ω) (h : Reachable g r)
      (hwb : ¬ Registered r wb) : Reachable g (wishboneRegister g calls wb r).1
  | unregister {r : Registry ω} (wb : ω) (h : Reachable g r) (hwb : Registered r wb) :
      Reachable g (wishboneUnregister wb r).1

/-- The minor number of a bridge. -/
def Entry.minor (entry : Entry ω) : Nat := (MINOR entry.masterDev).toNat

/-- The order of the list, the range of the minor numbers, and the agreement of
    the two regions. -/
structure Ordered (g : Globals) (r : Registry ω) : Prop where
  ascending : (r.list.map Entry.minor).Pairwise (· < ·)
  range : ∀ entry ∈ r.list, entry.minor < g.maxDevices.toNat
  offsets : ∀ entry ∈ r.list, ∃ devoff : BitVec 32,
    entry.masterDev = masterDevAt g devoff ∧ entry.slaveDev = slaveDevAt g devoff ∧
    MINOR entry.masterDev - MINOR g.masterDevFirst = devoff ∧
    MINOR entry.slaveDev - MINOR g.slaveDevFirst = devoff

/-- The module is loaded. -/
def Loaded (g : Globals) : Prop := ∃ maxDevices calls, wishboneInit maxDevices calls = .ok g

section Loaded

omit [DecidableEq ω]

theorem minor_region (major : BitVec 12) : MINOR (MKDEV (major.setWidth 32) 0) = 0#32 :=
  minor_mkdev _ 0 (by decide)

/-- A minor number has twenty bits. -/
theorem minor_lt (dev : Dev) : (MINOR dev).toNat < 1048576 := by
  rw [MINOR, BitVec.toNat_and]
  exact Nat.lt_of_le_of_lt Nat.and_le_right (by decide)

/-- What the loaded module has checked and been given. -/
theorem Loaded.spec {g : Globals} (h : Loaded g) :
    MINOR g.masterDevFirst = 0#32 ∧ MINOR g.slaveDevFirst = 0#32 ∧
      0 < g.maxDevices.toNat ∧ g.maxDevices.toNat ≤ 1048576 := by
  obtain ⟨maxDevices, calls, h⟩ := h
  rw [wishboneInit] at h
  split at h
  · cases h
  · next hmax =>
    have hlt := minor_lt (MKDEV 0 (maxDevices - 1))
    rw [not_not.mp hmax] at hlt
    have hbound : 0 < maxDevices.toNat ∧ maxDevices.toNat ≤ 1048576 := by
      rw [BitVec.toNat_sub] at hlt
      have h1 : (1 : BitVec 32).toNat = 1 := rfl
      have := maxDevices.isLt
      omega
    split at h
    · cases h
    · cases h
    · split at h
      · cases h
      · cases h
      · cases h
        exact ⟨minor_region _, minor_region _, hbound⟩

/-- The minor number of a master is its offset. -/
theorem Loaded.master_minor {g : Globals} (h : Loaded g) {devoff : BitVec 32}
    (hlt : devoff.toNat < 1048576) : MINOR (masterDevAt g devoff) = devoff := by
  rw [masterDevAt, h.spec.1, BitVec.zero_add]
  exact minor_mkdev _ _ hlt

/-- So is that of a slave. -/
theorem Loaded.slave_minor {g : Globals} (h : Loaded g) {devoff : BitVec 32}
    (hlt : devoff.toNat < 1048576) : MINOR (slaveDevAt g devoff) = devoff := by
  rw [slaveDevAt, h.spec.2.1, BitVec.zero_add]
  exact minor_mkdev _ _ hlt

/-- An entry stands at an offset exactly when its minor number says so. -/
theorem Loaded.master_eq_iff {g : Globals} (h : Loaded g) {entry : Entry ω}
    (hentry : ∃ devoff, entry.masterDev = masterDevAt g devoff ∧
      MINOR entry.masterDev - MINOR g.masterDevFirst = devoff)
    {devoff : BitVec 32} (hlt : devoff.toNat < 1048576) :
    entry.masterDev = masterDevAt g devoff ↔ entry.minor = devoff.toNat := by
  constructor
  · intro heq
    rw [Entry.minor, heq, h.master_minor hlt]
  · intro heq
    obtain ⟨d, hd, hminor⟩ := hentry
    rw [h.spec.1, BitVec.sub_zero] at hminor
    have : d = devoff := BitVec.eq_of_toNat_eq (by rw [← hminor, ← heq, Entry.minor])
    rw [hd, this]

/-- The loop of `wishbone_register` finds the first gap, unless the minor numbers
    run out before it. -/
theorem searchGap_eq {g : Globals} (h : Loaded g) {entries : List (Entry ω)}
    (hentries : ∀ entry ∈ entries, ∃ devoff, entry.masterDev = masterDevAt g devoff ∧
      MINOR entry.masterDev - MINOR g.masterDevFirst = devoff) :
    ∀ devoff : BitVec 32, devoff.toNat < g.maxDevices.toNat →
      searchGap g entries devoff =
        if g.maxDevices.toNat ≤ devoff.toNat + filled (entries.map Entry.minor) devoff.toNat
        then none
        else some (devoff + BitVec.ofNat 32 (filled (entries.map Entry.minor) devoff.toNat),
          filled (entries.map Entry.minor) devoff.toNat) := by
  obtain ⟨-, -, hpos, hmax⟩ := h.spec
  induction entries with
  | nil =>
      intro devoff hlt
      rw [searchGap, List.map_nil, filled, Nat.add_zero, if_neg (Nat.not_le.mpr hlt),
        BitVec.add_zero]
  | cons entry rest ih =>
      intro devoff hlt
      have hiff := h.master_eq_iff (hentries entry List.mem_cons_self)
        (Nat.lt_of_lt_of_le hlt hmax)
      rw [searchGap, List.map_cons, filled]
      by_cases heq : entry.minor = devoff.toNat
      · have hnot : ¬ entry.masterDev ≠ masterDevAt g devoff := not_not.mpr (hiff.mpr heq)
        rw [if_neg hnot, if_pos heq]
        by_cases hlast : devoff = g.maxDevices - 1
        · have hlast' : g.maxDevices.toNat ≤ devoff.toNat + 1 := by
            rw [hlast, BitVec.toNat_sub]
            have h1 : (1 : BitVec 32).toNat = 1 := rfl
            omega
          rw [if_pos hlast, if_pos (by omega)]
        · have hnext : (devoff + 1).toNat = devoff.toNat + 1 := by
            rw [BitVec.toNat_add]
            have h1 : (1 : BitVec 32).toNat = 1 := rfl
            omega
          have hlt' : (devoff + 1).toNat < g.maxDevices.toNat := by
            refine Nat.lt_of_le_of_ne (hnext ▸ hlt) ?_
            intro hend
            apply hlast
            rw [← BitVec.eq_of_toNat_eq hend, BitVec.add_sub_cancel]
          rw [if_neg hlast, ih (fun e he => hentries e (List.mem_cons_of_mem _ he)) _ hlt', hnext]
          by_cases hfull : g.maxDevices.toNat ≤
              devoff.toNat + 1 + filled (rest.map Entry.minor) (devoff.toNat + 1)
          · rw [if_pos hfull, if_pos (by omega)]
            rfl
          · rw [if_neg hfull, if_neg (by omega)]
            refine congrArg some (Prod.ext ?_ rfl)
            apply BitVec.eq_of_toNat_eq
            rw [BitVec.toNat_add, hnext, BitVec.toNat_add, BitVec.toNat_ofNat, BitVec.toNat_ofNat]
            omega
      · have hne : entry.masterDev ≠ masterDevAt g devoff := fun hd => heq (hiff.mp hd)
        rw [if_pos hne, if_neg heq, Nat.add_zero, if_neg (Nat.not_le.mpr hlt), BitVec.add_zero]

end Loaded

/-! ## One call -/

section Register

omit [DecidableEq ω]

/-- What was added is taken back. -/
@[simp] theorem cdevDel_cdevAdd (dev : Dev) (r : Registry ω) : cdevDel dev (cdevAdd dev r) = r := by
  rw [cdevDel, cdevAdd, List.erase_cons_head]

/-- What was created is taken back. -/
@[simp] theorem deviceDestroy_deviceCreate (dev : Dev) (r : Registry ω) :
    deviceDestroy dev (deviceCreate dev r) = r := by
  rw [deviceDestroy, deviceCreate, List.erase_cons_head]

/-- A registration that runs to its end. -/
def enlist (g : Globals) (wb : ω) (devoff : BitVec 32) (pos : Nat) (r : Registry ω) : Registry ω :=
  listAddTail ⟨wb, masterDevAt g devoff, slaveDevAt g devoff⟩ pos
    (deviceCreate (slaveDevAt g devoff) (deviceCreate (masterDevAt g devoff)
      (cdevAdd (slaveDevAt g devoff) (cdevAdd (masterDevAt g devoff) r))))

/-- What a registration can do: every error path undoes what was done. -/
theorem wishboneRegister_cases (g : Globals) (calls : RegisterCalls) (wb : ω) (r : Registry ω) :
    (wishboneRegister g calls wb r = (r, -ENOMEM) ∧
      (searchGap g r.list 0 = none ∨ ¬ calls.succeed)) ∨
    (∃ devoff pos, searchGap g r.list 0 = some (devoff, pos) ∧ calls.succeed ∧
      wishboneRegister g calls wb r = (enlist g wb devoff pos r, 0)) := by
  rw [wishboneRegister]
  cases hgap : searchGap g r.list 0 with
  | none => exact Or.inl ⟨rfl, Or.inl rfl⟩
  | some found =>
      obtain ⟨devoff, pos⟩ := found
      rcases calls with ⟨masterCdev, slaveCdev, masterNode, slaveNode⟩
      cases masterCdev with
      | false => exact Or.inl ⟨rfl, Or.inr fun h => absurd h.1 Bool.false_ne_true⟩
      | true =>
          cases slaveCdev with
          | false =>
              refine Or.inl ⟨?_, Or.inr fun h => absurd h.2.1 Bool.false_ne_true⟩
              simp
          | true =>
              cases masterNode with
              | false =>
                  refine Or.inl ⟨?_, Or.inr fun h => absurd h.2.2.1 Bool.false_ne_true⟩
                  simp
              | true =>
                  cases slaveNode with
                  | false =>
                      refine Or.inl ⟨?_, Or.inr fun h => absurd h.2.2.2 Bool.false_ne_true⟩
                      simp
                  | true => exact Or.inr ⟨devoff, pos, rfl, ⟨rfl, rfl, rfl, rfl⟩, rfl⟩

variable {g : Globals} {r : Registry ω}

/-- The least minor number of no bridge on the list. -/
def Registry.firstFree (r : Registry ω) : Nat := filled (r.list.map Entry.minor) 0

/-- The search finds the first offset that is free, if there is one below the limit. -/
theorem Ordered.searchGap (hg : Loaded g) (hr : Ordered g r) :
    WbDeviceList.searchGap g r.list 0 =
      if g.maxDevices.toNat ≤ r.firstFree then none
      else some (BitVec.ofNat 32 r.firstFree, r.firstFree) := by
  have hentries : ∀ entry ∈ r.list, ∃ devoff, entry.masterDev = masterDevAt g devoff ∧
      MINOR entry.masterDev - MINOR g.masterDevFirst = devoff := by
    intro entry he
    obtain ⟨devoff, hmaster, -, hoff, -⟩ := hr.offsets entry he
    exact ⟨devoff, hmaster, hoff⟩
  refine (searchGap_eq hg hentries 0#32 hg.spec.2.2.1).trans ?_
  rw [BitVec.toNat_zero, Nat.zero_add, BitVec.zero_add]
  rfl

/-- The bridge that is put on the list at an offset. -/
def entryAt (g : Globals) (wb : ω) (n : Nat) : Entry ω :=
  ⟨wb, masterDevAt g (BitVec.ofNat 32 n), slaveDevAt g (BitVec.ofNat 32 n)⟩

/-- An offset below the limit fits into a minor number. -/
theorem Loaded.toNat_offset (hg : Loaded g) {n : Nat} (hn : n < g.maxDevices.toNat) :
    (BitVec.ofNat 32 n).toNat = n ∧ (BitVec.ofNat 32 n).toNat < 1048576 := by
  obtain ⟨-, -, -, hmax⟩ := hg.spec
  rw [BitVec.toNat_ofNat]
  omega

theorem Loaded.entryAt_minor (hg : Loaded g) (wb : ω) {n : Nat} (hn : n < g.maxDevices.toNat) :
    (entryAt g wb n).minor = n := by
  obtain ⟨htoNat, hlt⟩ := hg.toNat_offset hn
  rw [Entry.minor, entryAt, hg.master_minor hlt, htoNat]

theorem enlist_list (g : Globals) (wb : ω) (n pos : Nat) (r : Registry ω) :
    (enlist g wb (BitVec.ofNat 32 n) pos r).list =
      r.list.take pos ++ entryAt g wb n :: r.list.drop pos := rfl

/-- The list stays ordered if the offset found is put at the place found. -/
theorem Ordered.enlist (hg : Loaded g) (hr : Ordered g r) (wb : ω)
    (hlt : r.firstFree < g.maxDevices.toNat) :
    Ordered g (enlist g wb (BitVec.ofNat 32 r.firstFree) r.firstFree r) := by
  obtain ⟨hmaster₀, hslave₀, -, -⟩ := hg.spec
  obtain ⟨-, hsmall⟩ := hg.toNat_offset hlt
  have hmem : ∀ entry, entry ∈ r.list.take r.firstFree ++
      entryAt g wb r.firstFree :: r.list.drop r.firstFree →
      entry = entryAt g wb r.firstFree ∨ entry ∈ r.list := by
    intro entry he
    rcases List.mem_append.mp he with he | he
    · exact Or.inr (List.mem_of_mem_take he)
    · rcases List.mem_cons.mp he with he | he
      · exact Or.inl he
      · exact Or.inr (List.mem_of_mem_drop he)
  constructor
  · rw [enlist_list, List.map_append, List.map_cons, List.map_take, List.map_drop,
      hg.entryAt_minor wb hlt]
    exact pairwise_insert_filled hr.ascending
  · rw [enlist_list]
    intro entry he
    rcases hmem entry he with rfl | he
    · rw [hg.entryAt_minor wb hlt]
      exact hlt
    · exact hr.range entry he
  · rw [enlist_list]
    intro entry he
    rcases hmem entry he with rfl | he
    · refine ⟨_, rfl, rfl, ?_, ?_⟩
      · rw [entryAt, hg.master_minor hsmall, hmaster₀, BitVec.sub_zero]
      · rw [entryAt, hg.slave_minor hsmall, hslave₀, BitVec.sub_zero]
    · exact hr.offsets entry he

end Register

variable {g : Globals} {r : Registry ω}

/-- What a removal can do. -/
theorem wishboneUnregister_list (wb : ω) (r : Registry ω) :
    (wishboneUnregister wb r).1.list = r.list.eraseP fun entry => entry.wb = wb := by
  rw [wishboneUnregister]
  cases hfind : r.list.find? fun entry => entry.wb = wb with
  | some entry => rfl
  | none =>
      symm
      apply List.eraseP_of_forall_not
      intro entry he
      exact List.find?_eq_none.mp hfind entry he

/-- Removing a device keeps the list in order. -/
theorem Ordered.unregister (hr : Ordered g r) (wb : ω) :
    Ordered g (wishboneUnregister wb r).1 := by
  have hsub : (wishboneUnregister wb r).1.list.Sublist r.list := by
    rw [wishboneUnregister_list]
    exact List.eraseP_sublist
  constructor
  · exact hr.ascending.sublist (hsub.map _)
  · intro entry he
    exact hr.range entry (hsub.subset he)
  · intro entry he
    exact hr.offsets entry (hsub.subset he)

omit [DecidableEq ω] in
/-- So does registering one. -/
theorem Ordered.register (hg : Loaded g) (hr : Ordered g r) (calls : RegisterCalls) (wb : ω) :
    Ordered g (wishboneRegister g calls wb r).1 := by
  rcases wishboneRegister_cases g calls wb r with ⟨h, -⟩ | ⟨devoff, pos, hgap, -, h⟩
  · rw [h]
    exact hr
  · rw [h]
    rw [hr.searchGap hg] at hgap
    split at hgap
    · cases hgap
    · next hlt =>
      cases hgap
      exact hr.enlist hg wb (Nat.not_le.mp hlt)

/-- **The list is in order**, after any run of calls. -/
theorem Reachable.ordered (hg : Loaded g) (h : Reachable g r) : Ordered g r := by
  induction h with
  | start =>
      constructor
      · exact List.Pairwise.nil
      · intro entry he
        cases he
      · intro entry he
        cases he
  | register calls wb _ _ ih => exact ih.register hg calls wb
  | unregister wb _ _ ih => exact ih.unregister wb

/-! ## Every registration -/

/-- What the caller of `wishbone_register` sees: a bridge that is registered gets
    the least free minor number and its place in the list; otherwise the numbers
    are used up or a kernel call failed, and nothing has changed. -/
structure Registers (g : Globals) (r : Registry ω) (calls : RegisterCalls) (wb : ω) : Prop where
  result : (wishboneRegister g calls wb r).2 = 0 ∨ (wishboneRegister g calls wb r).2 = -ENOMEM
  succeeds : (wishboneRegister g calls wb r).2 = 0 →
    ∃ entry before behind, r.list = before ++ behind ∧
      (wishboneRegister g calls wb r).1.list = before ++ entry :: behind ∧ entry.wb = wb ∧
      LeastFree (r.list.map Entry.minor) entry.minor ∧
      (∀ e ∈ before, e.minor < entry.minor) ∧ ∀ e ∈ behind, entry.minor < e.minor
  fails_iff : (wishboneRegister g calls wb r).2 ≠ 0 ↔
    (∀ n, n < g.maxDevices.toNat → n ∈ r.list.map Entry.minor) ∨ ¬ calls.succeed
  unchanged : (wishboneRegister g calls wb r).2 ≠ 0 → (wishboneRegister g calls wb r).1 = r

omit [DecidableEq ω] in
/-- Everything the bridge needs to know of its neighbours. -/
theorem Ordered.enlisted (hg : Loaded g) (hr : Ordered g r) (wb : ω)
    (hlt : r.firstFree < g.maxDevices.toNat) :
    LeastFree (r.list.map Entry.minor) (entryAt g wb r.firstFree).minor ∧
      (∀ e ∈ r.list.take r.firstFree, e.minor < (entryAt g wb r.firstFree).minor) ∧
      ∀ e ∈ r.list.drop r.firstFree, (entryAt g wb r.firstFree).minor < e.minor := by
  have hordered := (hr.enlist hg wb hlt).ascending
  rw [enlist_list, List.map_append, List.map_cons] at hordered
  obtain ⟨-, hbehind, hbefore⟩ := List.pairwise_append.mp hordered
  refine ⟨?_, ?_, ?_⟩
  · rw [hg.entryAt_minor wb hlt]
    exact leastFree_filled hr.ascending
  · intro e he
    exact hbefore _ (List.mem_map_of_mem he) _ List.mem_cons_self
  · intro e he
    exact (List.pairwise_cons.mp hbehind).1 _ (List.mem_map_of_mem he)

omit [DecidableEq ω] in
/-- What a registration does to an ordered list. -/
theorem Ordered.registers (hg : Loaded g) (hr : Ordered g r) (calls : RegisterCalls) (wb : ω) :
    Registers g r calls wb := by
  have hfull : g.maxDevices.toNat ≤ r.firstFree ↔ _ :=
    filled_ge_iff hr.ascending g.maxDevices.toNat
  have hgap := hr.searchGap hg
  rcases wishboneRegister_cases g calls wb r with ⟨h, hwhy⟩ | ⟨devoff, pos, hsome, hcalls, h⟩
  · have hne : (wishboneRegister g calls wb r).2 ≠ 0 := by
      rw [h]
      exact (by decide : -ENOMEM ≠ 0)
    refine ⟨Or.inr (by rw [h]), fun h0 => absurd h0 hne, ⟨fun _ => ?_, fun _ => hne⟩,
      fun _ => by rw [h]⟩
    rcases hwhy with hnone | hcalls
    · left
      rw [hnone] at hgap
      split at hgap
      · next hle => exact hfull.mp hle
      · cases hgap
    · exact Or.inr hcalls
  · have hzero : (wishboneRegister g calls wb r).2 = 0 := by rw [h]
    rw [hsome] at hgap
    split at hgap
    · cases hgap
    · next hlt =>
      cases hgap
      refine ⟨Or.inl hzero, fun _ => ?_, ?_, fun hne => absurd hzero hne⟩
      · obtain ⟨hleast, hbefore, hbehind⟩ := hr.enlisted hg wb (Nat.not_le.mp hlt)
        refine ⟨entryAt g wb r.firstFree, r.list.take r.firstFree, r.list.drop r.firstFree,
          (List.take_append_drop _ _).symm, ?_, rfl, hleast, hbefore, hbehind⟩
        rw [h]
        rfl
      · constructor
        · intro hne
          exact absurd hzero hne
        · intro hor
          rcases hor with hall | hnot
          · exact absurd (hfull.mpr hall) hlt
          · exact absurd hcalls hnot

/-! ## Who is on the list -/

omit [DecidableEq ω] in
/-- Some minor number below `max_devices` is free. -/
def FreeOffset (g : Globals) (r : Registry ω) : Prop :=
  ∃ n, n < g.maxDevices.toNat ∧ n ∉ r.list.map Entry.minor

omit [DecidableEq ω] in
instance (g : Globals) (r : Registry ω) : Decidable (FreeOffset g r) :=
  inferInstanceAs (Decidable (∃ n, n < _ ∧ _))

omit [DecidableEq ω] in
/-- It succeeds exactly if an offset is free and the kernel's calls succeed. -/
theorem Ordered.register_eq_zero_iff (hg : Loaded g) (hr : Ordered g r) (calls : RegisterCalls)
    (wb : ω) :
    (wishboneRegister g calls wb r).2 = 0 ↔ FreeOffset g r ∧ calls.succeed := by
  have hiff := (hr.registers hg calls wb).fails_iff
  constructor
  · intro hzero
    constructor
    · by_contra hfree
      refine hiff.mpr (Or.inl ?_) hzero
      intro n hn
      by_contra hmem
      exact hfree ⟨n, hn, hmem⟩
    · by_contra hcalls
      exact hiff.mpr (Or.inr hcalls) hzero
  · rintro ⟨⟨n, hn, hfree⟩, hcalls⟩
    by_contra hne
    rcases hiff.mp hne with hall | hnot
    · exact hfree (hall n hn)
    · exact hnot hcalls

omit [DecidableEq ω] in
/-- If it does, the device is registered, and nothing else has changed. -/
theorem Ordered.registered_register (hg : Loaded g) (hr : Ordered g r) {calls : RegisterCalls}
    {wb : ω} (h : (wishboneRegister g calls wb r).2 = 0) (x : ω) :
    Registered (wishboneRegister g calls wb r).1 x ↔ x = wb ∨ Registered r x := by
  obtain ⟨entry, before, behind, hlist, hlist', rfl, -⟩ := (hr.registers hg calls wb).succeeds h
  rw [Registered, Registered, hlist, hlist']
  constructor
  · rintro ⟨e, he, rfl⟩
    rcases List.mem_append.mp he with he | he
    · exact Or.inr ⟨e, List.mem_append_left _ he, rfl⟩
    · rcases List.mem_cons.mp he with rfl | he
      · exact Or.inl rfl
      · exact Or.inr ⟨e, List.mem_append_right _ he, rfl⟩
  · rintro (rfl | ⟨e, he, rfl⟩)
    · exact ⟨entry, List.mem_append_right _ List.mem_cons_self, rfl⟩
    · rcases List.mem_append.mp he with he | he
      · exact ⟨e, List.mem_append_left _ he, rfl⟩
      · exact ⟨e, List.mem_append_right _ (List.mem_cons_of_mem _ he), rfl⟩

/-- No bridge is on the list twice. -/
theorem Reachable.nodup (h : Reachable g r) : (r.list.map Entry.wb).Nodup := by
  induction h with
  | start => exact List.nodup_nil
  | @register r calls wb _ hwb ih =>
      rcases wishboneRegister_cases g calls wb r with ⟨h, -⟩ | ⟨devoff, pos, -, -, h⟩
      · rw [h]
        exact ih
      · rw [h]
        show ((r.list.take pos ++ _ :: r.list.drop pos).map Entry.wb).Nodup
        rw [List.map_append, List.map_cons]
        refine List.perm_middle.nodup_iff.mpr (List.nodup_cons.mpr ⟨?_, ?_⟩)
        · rw [← List.map_append, List.take_append_drop]
          intro hmem
          obtain ⟨e, he, heq⟩ := List.mem_map.mp hmem
          exact hwb ⟨e, he, heq⟩
        · rw [← List.map_append, List.take_append_drop]
          exact ih
  | unregister wb _ _ ih =>
      rw [wishboneUnregister_list]
      exact ih.sublist (List.eraseP_sublist.map _)

/-- Removing a device removes that one only. -/
theorem Reachable.registered_unregister (h : Reachable g r) (wb x : ω) :
    Registered (wishboneUnregister wb r).1 x ↔ x ≠ wb ∧ Registered r x := by
  have hnodup := h.nodup
  rw [Registered, Registered, wishboneUnregister_list]
  clear h
  revert hnodup
  generalize r.list = entries
  intro hnodup
  induction entries with
  | nil =>
      constructor
      · rintro ⟨e, he, -⟩
        cases he
      · rintro ⟨-, e, he, -⟩
        cases he
  | cons entry rest ih =>
      rw [List.map_cons] at hnodup
      obtain ⟨hnot, hnodup⟩ := List.nodup_cons.mp hnodup
      by_cases hwb : entry.wb = wb
      · rw [List.eraseP_cons, decide_eq_true hwb]
        constructor
        · rintro ⟨e, he, rfl⟩
          refine ⟨?_, e, List.mem_cons_of_mem _ he, rfl⟩
          rintro rfl
          exact hnot (hwb ▸ List.mem_map_of_mem he)
        · rintro ⟨hne, e, he, rfl⟩
          rcases List.mem_cons.mp he with rfl | he
          · exact absurd hwb hne
          · exact ⟨e, he, rfl⟩
      · rw [List.eraseP_cons, decide_eq_false hwb]
        constructor
        · rintro ⟨e, he, rfl⟩
          rcases List.mem_cons.mp he with rfl | he
          · exact ⟨hwb, e, List.mem_cons_self, rfl⟩
          · obtain ⟨hne, e', he', heq⟩ := (ih hnodup).mp ⟨e, he, rfl⟩
            exact ⟨hne, e', List.mem_cons_of_mem _ he', heq⟩
        · rintro ⟨hne, e, he, rfl⟩
          rcases List.mem_cons.mp he with rfl | he
          · exact ⟨e, List.mem_cons_self, rfl⟩
          · obtain ⟨e', he', heq⟩ := (ih hnodup).mpr ⟨hne, e, he, rfl⟩
            exact ⟨e', List.mem_cons_of_mem _ he', heq⟩

/-! ## Every run -/

/-- **The list of devices is ordered after any sequence of calls.**  The minor
    numbers are distinct, ascending and below `max_devices`, master and slave
    device of a bridge have the same offset, and a further registration takes the
    least free number, unless all are taken or a kernel call fails. -/
theorem wishbone_list_ordered (g : Globals) (hg : Loaded g) (r : Registry ω) (hr : Reachable g r) :
    Ordered g r ∧ ∀ calls wb, Registers g r calls wb :=
  ⟨hr.ordered hg, (hr.ordered hg).registers hg⟩

/-- A module for two devices. -/
def twoDevices : Globals := ⟨2, MKDEV 240 0, MKDEV 241 0⟩

/-- The first of two bridges has gone. -/
theorem wishbone_list_ordered_gap :
    Registers twoDevices
      (wishboneUnregister (0 : Nat) (wishboneRegister twoDevices ⟨true, true, true, true⟩ 1
        (wishboneRegister twoDevices ⟨true, true, true, true⟩ 0 ⟨[], [], []⟩).1).1).1
      ⟨true, true, true, true⟩ 2 :=
  (wishbone_list_ordered twoDevices
    ⟨2, ⟨.ok (), .ok (), some 240, some 241⟩, by rfl⟩ _
    (Reachable.unregister 0 (Reachable.register _ 1 (Reachable.register _ 0 Reachable.start
      (by rintro ⟨entry, he, -⟩; cases he)) (by decide)) (by decide))).2 _ _

end WbDeviceList
