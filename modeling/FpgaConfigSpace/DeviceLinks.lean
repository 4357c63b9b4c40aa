import FpgaConfigSpace.Lib.ListHead
import FpgaConfigSpace.DeviceList

/-! # The links of the Wishbone devices

    `wishbone_register` and `wishbone_unregister` of `wishbone.c` once more, with the
    `list` field of every `struct wishbone` as the pair of pointers that it is.
    `wishbone_list` is threaded through these fields, and `wishbone_unregister` asks
    the field of its argument whether the device is on the list.

    `none` is a call that does not return: it went through an address where no list
    head is. -/

namespace WbDeviceLinks

open ListHead WbDeviceList

variable {ω : Type}

/-! ## The functions -/

/-- The list heads and device numbers of all devices, and the character devices and
    the sysfs nodes that exist. -/
structure Kernel (ω : Type) where
  links : Links ω
  masterDev : ω → Dev
  slaveDev : ω → Dev
  cdevs : List Dev
  nodes : List Dev

/-- How the loop of `wishbone_register` ends: at a gap, with `list_pos`, or without
    minor numbers, at `fail_out`. -/
inductive Search (ω : Type) where
  | found (devoff : BitVec 32) (listPos : Option ω)
  | failOut
  | oops

/-- The loop of `wishbone_register`, from a list head on. -/
def searchGap (g : Globals) (k : Kernel ω) (listPos : Ptr ω) (devoff : BitVec 32) : Search ω :=
  match listPos with
  | .invalid _ => .oops
  | .node none => .found devoff none
  | .node (some entry) =>
      if k.masterDev entry ≠ masterDevAt g devoff then .found devoff (some entry)
      -- run out of minors
      else if h : devoff = g.maxDevices - 1 then .failOut
      else
        searchGap g k (k.links.next (some entry)) (devoff + 1)
termination_by (g.maxDevices - 1 - devoff).toNat
decreasing_by bv_omega

section functions

variable [DecidableEq ω]

/-- `wishbone_register`. -/
def wishboneRegister (g : Globals) (calls : RegisterCalls) (wb : ω) (k : Kernel ω) :
    Option (Kernel ω × Int) :=
  let k := { k with links := initListHead k.links wb }
  match searchGap g k (k.links.next none) 0 with
  | .oops => none
  | .failOut => some (k, -ENOMEM)
  | .found devoff listPos =>
      let master := masterDevAt g devoff
      let slave := slaveDevAt g devoff
      let k := { k with
        masterDev := Function.update k.masterDev wb master
        slaveDev := Function.update k.slaveDev wb slave }
      if !calls.masterCdev then some (k, -ENOMEM)
      else
        let k := { k with cdevs := master :: k.cdevs }
        if !calls.slaveCdev then some ({ k with cdevs := k.cdevs.erase master }, -ENOMEM)
        else
          let k := { k with cdevs := slave :: k.cdevs }
          if !calls.masterNode then
            some ({ k with cdevs := (k.cdevs.erase slave).erase master }, -ENOMEM)
          else
            let k := { k with nodes := master :: k.nodes }
            if !calls.slaveNode then
              some ({ k with
                nodes := k.nodes.erase master
                cdevs := (k.cdevs.erase slave).erase master }, -ENOMEM)
            else
              let k := { k with nodes := slave :: k.nodes }
              (listAddTail k.links wb listPos).map fun links => ({ k with links := links }, 0)

/-- `wishbone_unregister`. -/
def wishboneUnregister (wb : ω) (k : Kernel ω) : Option (Kernel ω × Int) :=
  if listEmpty k.links wb then some (k, -EINVAL)
  else
    (listDel k.links wb).map fun links =>
      ({ k with
        links := links
        nodes := (k.nodes.erase (k.slaveDev wb)).erase (k.masterDev wb)
        cdevs := (k.cdevs.erase (k.slaveDev wb)).erase (k.masterDev wb) }, 0)

/-! ## Runs -/

/-- A call, and for a registration what the kernel answers in it. -/
inductive Call (ω : Type) where
  | register (wb : ω) (calls : RegisterCalls)
  | unregister (wb : ω)

/-- The device that a call is about. -/
def Call.device : Call ω → ω
  | .register wb _ => wb
  | .unregister wb => wb

/-- What a call does to the kernel, and what it returns; `none` is a bad access to memory. -/
def call (g : Globals) : Call ω → Kernel ω → Option (Kernel ω × Int)
  | .register wb calls, k => wishboneRegister g calls wb k
  | .unregister wb, k => wishboneUnregister wb k

/-- The calls that returned, with their results, the latest first. -/
abbrev History (ω : Type) := List (Call ω × Int)

/-- The device has been passed to `wishbone_register`. -/
def Seen (past : History ω) (wb : ω) : Prop :=
  ∃ c ∈ past, ∃ calls, c.1 = .register wb calls

/-- The last call on the device is a removal that succeeded. -/
def Removed : History ω → ω → Prop
  | [], _ => False
  | (c, ret) :: past, wb =>
      if c.device = wb then c = .unregister wb ∧ ret = 0 else Removed past wb

/-- What the callers see to: a device that is registered is not on the list, and one
    that is unregistered has been registered. -/
def Proper (past : History ω) (k : Kernel ω) : Call ω → Prop
  | .register wb _ => ¬ Listed k.links wb
  | .unregister wb => Seen past wb

/-- The states after any sequence of such calls, from the moment the module is loaded:
    `wishbone_list` is empty, and the memory of the devices has any contents. -/
inductive Run (g : Globals) : History ω → Kernel ω → Prop where
  | load {k : Kernel ω} (hnext : k.links.next none = .node none)
      (hprev : k.links.prev none = .node none) (hcdevs : k.cdevs = []) (hnodes : k.nodes = []) :
      Run g [] k
  | step {past : History ω} {k k' : Kernel ω} {c : Call ω} {ret : Int} (h : Run g past k)
      (hproper : Proper past k c) (hcall : call g c k = some (k', ret)) :
      Run g ((c, ret) :: past) k'

end functions

/-! ## The list behind the links -/

/-- The device as an entry of the list. -/
def Kernel.entry (k : Kernel ω) (wb : ω) : Entry ω := ⟨wb, k.masterDev wb, k.slaveDev wb⟩

/-- The state of the module that the links stand for, when they go through these
    devices. -/
def Kernel.registry (k : Kernel ω) (wbs : List ω) : Registry ω :=
  ⟨wbs.map k.entry, k.cdevs, k.nodes⟩

/-- The outcome of the search through the links, from that of the search through the
    list: the place is that of the device found there. -/
def Search.ofPos (wbs : List ω) : Option (BitVec 32 × Nat) → Search ω
  | none => .failOut
  | some (devoff, pos) => .found devoff (wbs.drop pos).head?

/-- The loop goes through the devices in the order of the list. -/
theorem searchGap_eq (g : Globals) {k : Kernel ω} {bs : List ω} : ∀ {as : List ω}
    {devoff : BitVec 32}, Ring k.links (as ++ bs) →
    searchGap g k (.node bs.head?) devoff =
      .ofPos bs (WbDeviceList.searchGap g (bs.map k.entry) devoff) := by
  induction bs with
  | nil =>
      intro as devoff _
      rw [List.head?_nil, searchGap]
      rfl
  | cons wb bs ih =>
      intro as devoff h
      have hentry : (k.entry wb).masterDev = k.masterDev wb := rfl
      rw [List.head?_cons, searchGap, List.map_cons, WbDeviceList.searchGap, hentry]
      by_cases hgap : k.masterDev wb ≠ masterDevAt g devoff
      · rw [if_pos hgap, if_pos hgap]
        rfl
      · rw [if_neg hgap, if_neg hgap]
        by_cases hlast : devoff = g.maxDevices - 1
        · rw [dif_pos hlast, if_pos hlast]
          rfl
        · have hrest : Ring k.links ((as ++ [wb]) ++ bs) := by
            rwa [List.append_assoc]
          rw [dif_neg hlast, if_neg hlast, h.next_entry, ih hrest]
          cases WbDeviceList.searchGap g (bs.map k.entry) (devoff + 1) with
          | none => rfl
          | some found => rfl

/-- After `INIT_LIST_HEAD`. -/
def Kernel.initList [DecidableEq ω] (k : Kernel ω) (wb : ω) : Kernel ω :=
  { k with links := initListHead k.links wb }

/-- The device has been given its numbers. -/
def Kernel.numbered [DecidableEq ω] (k : Kernel ω) (g : Globals) (wb : ω) (devoff : BitVec 32) :
    Kernel ω :=
  { k with
    masterDev := Function.update k.masterDev wb (masterDevAt g devoff)
    slaveDev := Function.update k.slaveDev wb (slaveDevAt g devoff) }

section spec

variable [DecidableEq ω] {g : Globals} {k : Kernel ω} {wb : ω} {wbs : List ω}

theorem entry_numbered_self (devoff : BitVec 32) :
    ((k.initList wb).numbered g wb devoff).entry wb =
      ⟨wb, masterDevAt g devoff, slaveDevAt g devoff⟩ := by
  simp [Kernel.entry, Kernel.numbered]

/-- Numbering a device leaves the numbers of the others alone. -/
theorem entry_numbered_of_ne (devoff : BitVec 32) {x : ω} (hx : x ≠ wb) :
    ((k.initList wb).numbered g wb devoff).entry x = k.entry x := by
  simp [Kernel.entry, Kernel.numbered, Kernel.initList, hx]

/-- The entries of the other devices do not depend on the numbers of this one. -/
theorem map_entry_numbered (hwb : wb ∉ wbs) (devoff : BitVec 32) :
    wbs.map ((k.initList wb).numbered g wb devoff).entry = wbs.map k.entry := by
  refine List.map_congr_left ?_
  intro x hx
  refine entry_numbered_of_ne devoff ?_
  rintro rfl
  exact hwb hx

/-- Behind the search, every error path undoes what was done but the numbers. -/
theorem wishboneRegister_found {calls : RegisterCalls} {devoff : BitVec 32} {listPos : Option ω}
    (h : searchGap g (k.initList wb) ((k.initList wb).links.next none) 0 = .found devoff listPos) :
    wishboneRegister g calls wb k =
      if calls.succeed then
        (listAddTail (initListHead k.links wb) wb listPos).map fun links =>
          ({ (k.initList wb).numbered g wb devoff with
            links := links
            cdevs := slaveDevAt g devoff :: masterDevAt g devoff :: k.cdevs
            nodes := slaveDevAt g devoff :: masterDevAt g devoff :: k.nodes }, 0)
      else some ((k.initList wb).numbered g wb devoff, -ENOMEM) := by
  rw [Kernel.initList] at h
  rw [wishboneRegister, h]
  rcases calls with ⟨masterCdev, slaveCdev, masterNode, slaveNode⟩
  cases masterCdev with
  | false => rfl
  | true =>
      cases slaveCdev with
      | false => simp [RegisterCalls.succeed, Kernel.numbered, Kernel.initList]
      | true =>
          cases masterNode with
          | false => simp [RegisterCalls.succeed, Kernel.numbered, Kernel.initList]
          | true =>
              cases slaveNode with
              | false => simp [RegisterCalls.succeed, Kernel.numbered, Kernel.initList]
              | true => rfl

/-- What a registration does to the links: the list stays intact, the device is on it
    or its own links are those of an empty list, and no other device's are written. -/
structure LinkedIn (k : Kernel ω) (wbs : List ω) (wb : ω) (k' : Kernel ω) (ret : Int)
    (wbs' : List ω) : Prop where
  ring : Ring k'.links wbs'
  mem : ∀ x, x ∈ wbs' ↔ x ∈ wbs ∨ (x = wb ∧ ret = 0)
  failed : ret ≠ 0 → listEmpty k'.links wb = true
  others : ∀ x, x ≠ wb → x ∉ wbs → k'.links.next (some x) = k.links.next (some x)

/-- `INIT_LIST_HEAD` changes no other entry. -/
theorem next_initListHead {m : Links ω} {x : ω} (hx : x ≠ wb) :
    (initListHead m wb).next (some x) = m.next (some x) :=
  Function.update_of_ne (fun h => hx (Option.some.inj h)) _ _

/-- A registration that fails leaves the device out of the ring. -/
theorem LinkedIn.fail {k' : Kernel ω} (h : Ring k.links wbs) (hwb : wb ∉ wbs)
    (hlinks : k'.links = initListHead k.links wb) : LinkedIn k wbs wb k' (-ENOMEM) wbs := by
  refine ⟨?_, ?_, ?_, ?_⟩
  · rw [hlinks]
    exact h.initListHead hwb
  · intro x
    constructor
    · exact Or.inl
    · rintro (hx | ⟨-, hret⟩)
      · exact hx
      · exact absurd hret (by decide)
  · intro _
    rw [hlinks]
    exact listEmpty_initListHead k.links wb
  · intro x hx _
    rw [hlinks]
    exact next_initListHead hx

/-- A registration returns, and does to the links what it does to the list. -/
theorem wishboneRegister_spec (g : Globals) (calls : RegisterCalls) (h : Ring k.links wbs)
    (hwb : wb ∉ wbs) : ∃ k' ret wbs', wishboneRegister g calls wb k = some (k', ret) ∧
      WbDeviceList.wishboneRegister g calls wb (k.registry wbs) = (k'.registry wbs', ret) ∧
      LinkedIn k wbs wb k' ret wbs' := by
  have hinit : Ring (k.initList wb).links ([] ++ wbs) := h.initListHead hwb
  have hsearch : searchGap g (k.initList wb) ((k.initList wb).links.next none) 0 =
      .ofPos wbs (WbDeviceList.searchGap g (k.registry wbs).list 0) := by
    rw [hinit.next_head]
    exact searchGap_eq g hinit
  rcases wishboneRegister_cases g calls wb (k.registry wbs) with
    ⟨hlist, hwhy⟩ | ⟨devoff, pos, hgap, hcalls, hlist⟩
  · cases hgap : WbDeviceList.searchGap g (k.registry wbs).list 0 with
    | none =>
        -- the minor numbers are used up
        rw [hgap] at hsearch
        refine ⟨k.initList wb, -ENOMEM, wbs, ?_, hlist, .fail h hwb rfl⟩
        rw [Kernel.initList] at hsearch
        rw [wishboneRegister, hsearch]
        rfl
    | some found =>
        obtain ⟨devoff, pos⟩ := found
        have hcalls : ¬ calls.succeed := by
          rcases hwhy with hnone | hcalls
          · rw [hgap] at hnone
            cases hnone
          · exact hcalls
        rw [hgap] at hsearch
        refine ⟨(k.initList wb).numbered g wb devoff, -ENOMEM, wbs, ?_, ?_, .fail h hwb rfl⟩
        · rw [wishboneRegister_found hsearch, if_neg hcalls]
        · rw [hlist, Kernel.registry, Kernel.registry, map_entry_numbered hwb]
          rfl
  · rw [hgap] at hsearch
    -- the place found is the one between what lies before it and behind it
    have hplace : Ring (initListHead k.links wb) (wbs.take pos ++ wbs.drop pos) := by
      rw [List.take_append_drop]
      exact hinit
    have hwb' : wb ∉ wbs.take pos ++ wbs.drop pos := by
      rwa [List.take_append_drop]
    obtain ⟨links, hadd, hring, hothers⟩ := hplace.listAddTail hwb'
    refine ⟨{ (k.initList wb).numbered g wb devoff with
        links := links
        cdevs := slaveDevAt g devoff :: masterDevAt g devoff :: k.cdevs
        nodes := slaveDevAt g devoff :: masterDevAt g devoff :: k.nodes }, 0, _, ?_, ?_,
      ⟨hring, ?_, fun h0 => absurd rfl h0, ?_⟩⟩
    · rw [wishboneRegister_found hsearch, if_pos hcalls, hadd]
      rfl
    · have hmembers : (wbs.take pos ++ wb :: wbs.drop pos).map
          ((k.initList wb).numbered g wb devoff).entry =
          (enlist g wb devoff pos (k.registry wbs)).list := by
        rw [List.map_append, List.map_cons, List.map_take, List.map_drop,
          map_entry_numbered hwb, entry_numbered_self]
        rfl
      rw [hlist]
      exact Prod.ext (congrArg (Registry.mk · _ _) hmembers.symm) rfl
    · intro x
      rw [List.mem_append, List.mem_cons, or_left_comm, ← List.mem_append,
        List.take_append_drop, or_comm]
      simp
    · intro x hx hmem
      rw [List.take_append_drop] at hothers
      exact (hothers x hx hmem).trans (next_initListHead hx)

/-- What a removal does: a device whose own links are those of an empty list is
    refused; one on the list leaves it; one that has left it cannot leave it again. -/
theorem wishboneUnregister_of_listEmpty (h : listEmpty k.links wb = true) :
    wishboneUnregister wb k = some (k, -EINVAL) := by
  rw [wishboneUnregister, if_pos h]

/-- An entry that was removed already is an invalid address. -/
theorem wishboneUnregister_of_poisoned (h : k.links.next (some wb) = LIST_POISON1) :
    wishboneUnregister wb k = none := by
  have hempty : listEmpty k.links wb = false := by
    rw [listEmpty, h]
    rfl
  rw [wishboneUnregister, hempty, listDel_poisoned h]
  rfl

/-- The second step lemma: a device of the ring is taken out of it, as the list model says, and
    its own pointers are poisoned. -/
theorem wishboneUnregister_spec (h : Ring k.links wbs) (hwb : wb ∈ wbs) :
    ∃ k', wishboneUnregister wb k = some (k', 0) ∧
      WbDeviceList.wishboneUnregister wb (k.registry wbs) = (k'.registry (wbs.erase wb), 0) ∧
      Ring k'.links (wbs.erase wb) ∧ k'.links.next (some wb) = LIST_POISON1 ∧
      ∀ x, x ∉ wbs → k'.links.next (some x) = k.links.next (some x) := by
  obtain ⟨as, bs, rfl⟩ := List.append_of_mem hwb
  have hnot : wb ∉ as := by
    intro hmem
    exact (List.nodup_append'.mp h.nodup).2.2 hmem List.mem_cons_self
  have herase : (as ++ wb :: bs).erase wb = as ++ bs := by
    rw [List.erase_append_right _ hnot, List.erase_cons_head]
  obtain ⟨links, hdel, hring, hpoison, -, hothers⟩ := h.listDel
  rw [herase]
  refine ⟨{ k with
      links := links
      nodes := (k.nodes.erase (k.slaveDev wb)).erase (k.masterDev wb)
      cdevs := (k.cdevs.erase (k.slaveDev wb)).erase (k.masterDev wb) }, ?_, ?_, hring, hpoison,
    hothers⟩
  · rw [wishboneUnregister, h.listEmpty_of_mem hwb, hdel]
    rfl
  · have hfind : ((as ++ wb :: bs).map k.entry).find? (fun entry => entry.wb = wb) =
        some (k.entry wb) := by
      rw [List.find?_map]
      have hself : (as ++ wb :: bs).find? (fun x => decide (x = wb)) = some wb := by
        refine List.find?_eq_some_iff_append.mpr ⟨by simp, as, bs, rfl, ?_⟩
        intro x hx
        have hne : x ≠ wb := by
          rintro rfl
          exact hnot hx
        simpa using hne
      exact congrArg (Option.map k.entry) hself
    have hlist : ((as ++ wb :: bs).map k.entry).eraseP (fun entry => entry.wb = wb) =
        (as ++ bs).map k.entry := by
      rw [List.eraseP_map, ← herase, List.erase_eq_eraseP']
      rfl
    rw [WbDeviceList.wishboneUnregister, Kernel.registry, hfind, hlist]
    rfl

end spec

/-! ## Every run -/

section run

variable [DecidableEq ω] {g : Globals} {past : History ω} {k : Kernel ω} {wb : ω}

/-- What holds between calls: the links go through some devices, which are the list of
    the module, and of a device that was registered and is not on it they tell whether
    its last call was a removal. -/
structure Intact (g : Globals) (past : History ω) (k : Kernel ω) (wbs : List ω) : Prop where
  ring : Ring k.links wbs
  reachable : Reachable g (k.registry wbs)
  apart : ∀ wb, Seen past wb → wb ∉ wbs →
    (Removed past wb ∧ k.links.next (some wb) = LIST_POISON1) ∨
    (¬ Removed past wb ∧ listEmpty k.links wb = true)

omit [DecidableEq ω] in
/-- A device is registered exactly if it is in the ring. -/
theorem registered_registry (k : Kernel ω) (wbs : List ω) (wb : ω) :
    Registered (k.registry wbs) wb ↔ wb ∈ wbs := by
  constructor
  · rintro ⟨entry, hentry, rfl⟩
    obtain ⟨x, hx, rfl⟩ := List.mem_map.mp hentry
    exact hx
  · intro hwb
    exact ⟨k.entry wb, List.mem_map_of_mem hwb, rfl⟩

theorem listEmpty_congr {m m' : Links ω} (h : m'.next (some wb) = m.next (some wb)) :
    listEmpty m' wb = listEmpty m wb := by
  rw [listEmpty, listEmpty, h]

omit [DecidableEq ω] in
/-- A call on another device does not matter to what was said of this one. -/
theorem seen_of_ne {c : Call ω × Int} (hne : c.1.device ≠ wb) :
    Seen (c :: past) wb ↔ Seen past wb := by
  constructor
  · rintro ⟨d, hd, calls, hcall⟩
    rcases List.mem_cons.mp hd with rfl | hd
    · exact absurd (congrArg Call.device hcall) hne
    · exact ⟨d, hd, calls, hcall⟩
  · rintro ⟨d, hd, calls, hcall⟩
    exact ⟨d, List.mem_cons_of_mem c hd, calls, hcall⟩

/-- A call about a device decides whether it was removed last. -/
theorem removed_self {c : Call ω} {ret : Int} (hc : c.device = wb) :
    Removed ((c, ret) :: past) wb ↔ c = .unregister wb ∧ ret = 0 := by
  rw [Removed, if_pos hc]

/-- Calls about other devices don't matter. -/
theorem removed_of_ne {c : Call ω} {ret : Int} (hne : c.device ≠ wb) :
    Removed ((c, ret) :: past) wb ↔ Removed past wb := by
  rw [Removed, if_neg hne]

/-- A registration keeps it. -/
theorem Intact.register {wbs : List ω} (h : Intact g past k wbs) (hwb : wb ∉ wbs)
    {calls : RegisterCalls} {k' : Kernel ω} {ret : Int}
    (hcall : wishboneRegister g calls wb k = some (k', ret)) :
    ∃ wbs', Intact g ((.register wb calls, ret) :: past) k' wbs' := by
  obtain ⟨k'', ret', wbs', hsome, hlist, hlinked⟩ := wishboneRegister_spec g calls h.ring hwb
  rw [hcall] at hsome
  cases hsome
  refine ⟨wbs', hlinked.ring, ?_, ?_⟩
  · have hnext := h.reachable.register calls wb (mt (registered_registry k wbs wb).mp hwb)
    rwa [hlist] at hnext
  · intro x hx hmem
    by_cases hne : (Call.register wb calls).device = x
    · cases hne
      right
      have hret : ret ≠ 0 := fun h0 => hmem ((hlinked.mem wb).mpr (Or.inr ⟨rfl, h0⟩))
      refine ⟨?_, hlinked.failed hret⟩
      rw [removed_self (c := .register wb calls) rfl]
      rintro ⟨hc, -⟩
      cases hc
    · have hold : x ∉ wbs := fun hx' => hmem ((hlinked.mem x).mpr (Or.inl hx'))
      have hnext := hlinked.others x (Ne.symm hne) hold
      rw [removed_of_ne hne, hnext, listEmpty_congr hnext]
      exact h.apart x ((seen_of_ne hne).mp hx) hold

/-- So does a removal. -/
theorem Intact.unregister {wbs : List ω} (h : Intact g past k wbs) (hseen : Seen past wb)
    {k' : Kernel ω} {ret : Int} (hcall : wishboneUnregister wb k = some (k', ret)) :
    ∃ wbs', Intact g ((.unregister wb, ret) :: past) k' wbs' := by
  by_cases hwb : wb ∈ wbs
  · obtain ⟨k'', hsome, hlist, hring, hpoison, hothers⟩ := wishboneUnregister_spec h.ring hwb
    rw [hcall] at hsome
    cases hsome
    refine ⟨wbs.erase wb, hring, ?_, ?_⟩
    · have hnext := h.reachable.unregister wb ((registered_registry k wbs wb).mpr hwb)
      rwa [hlist] at hnext
    · intro x hx hmem
      by_cases hne : (Call.unregister wb).device = x
      · cases hne
        left
        exact ⟨(removed_self rfl).mpr ⟨rfl, rfl⟩, hpoison⟩
      · have hold : x ∉ wbs := fun hx' => hmem ((List.mem_erase_of_ne (Ne.symm hne)).mpr hx')
        rw [removed_of_ne hne, hothers x hold,
          listEmpty_congr (hothers x hold)]
        exact h.apart x ((seen_of_ne hne).mp hx) hold
  · rcases h.apart wb hseen hwb with ⟨-, hpoison⟩ | ⟨-, hempty⟩
    · -- the machine stopped
      rw [wishboneUnregister_of_poisoned hpoison] at hcall
      cases hcall
    · rw [wishboneUnregister_of_listEmpty hempty] at hcall
      cases hcall
      refine ⟨wbs, h.ring, h.reachable, ?_⟩
      intro x hx hmem
      by_cases hne : (Call.unregister wb).device = x
      · cases hne
        right
        refine ⟨?_, hempty⟩
        rw [removed_self (c := .unregister wb) rfl]
        rintro ⟨-, hret⟩
        exact absurd hret (by decide)
      · rw [removed_of_ne hne]
        exact h.apart x ((seen_of_ne hne).mp hx) hmem

/-- The invariant holds after every run. -/
theorem Run.intact (h : Run g past k) : ∃ wbs, Intact g past k wbs := by
  induction h with
  | load hnext hprev hcdevs hnodes =>
      refine ⟨[], Ring.empty hnext hprev, ?_, ?_⟩
      · rw [Kernel.registry, hcdevs, hnodes]
        exact Reachable.start
      · rintro wb ⟨c, hc, -⟩
        cases hc
  | @step past k k' c ret _ hproper hcall ih =>
      obtain ⟨wbs, hintact⟩ := ih
      cases c with
      | register wb calls => exact hintact.register (mt hintact.ring.listed_iff.mpr hproper) hcall
      | unregister wb => exact hintact.unregister hproper hcall

/-- The links carry the list of the module: it is one that the calls on the list lead
    to, and the devices on it are those that the links lead to. -/
theorem Run.refines (h : Run g past k) : ∃ wbs, Reachable g (k.registry wbs) ∧
    ∀ wb, Registered (k.registry wbs) wb ↔ Listed k.links wb := by
  obtain ⟨wbs, hintact⟩ := h.intact
  refine ⟨wbs, hintact.reachable, ?_⟩
  intro wb
  rw [registered_registry, hintact.ring.listed_iff]

/-- **When a device that is not on the list is refused.**  In a run in which no device
    is registered while it is on the list, and only devices that were registered are
    unregistered, `wishbone_unregister` of one that is not on the list returns
    `-EINVAL` and changes nothing exactly when the last call on it was not a removal
    that succeeded. -/
theorem unregister_refused_iff (g : Globals) (past : History ω) (k : Kernel ω) (h : Run g past k)
    (wb : ω) (hseen : Seen past wb) (hwb : ¬ Listed k.links wb) :
    wishboneUnregister wb k = some (k, -EINVAL) ↔ ¬ Removed past wb := by
  obtain ⟨wbs, hintact⟩ := h.intact
  rw [hintact.ring.listed_iff] at hwb
  rcases hintact.apart wb hseen hwb with ⟨hremoved, hpoison⟩ | ⟨hnot, hempty⟩
  · rw [wishboneUnregister_of_poisoned hpoison]
    constructor
    · intro h
      cases h
    · intro h
      exact absurd hremoved h
  · rw [wishboneUnregister_of_listEmpty hempty]
    exact ⟨fun _ => hnot, fun _ => rfl⟩

end run

/-! ## Two short runs -/

/-- The module after it was loaded; the memory of the devices is zero. -/
def loaded : Kernel Nat where
  links := ⟨fun n => if n = none then .node none else .invalid 0,
    fun n => if n = none then .node none else .invalid 0⟩
  masterDev := fun _ => 0
  slaveDev := fun _ => 0
  cdevs := []
  nodes := []

theorem loaded_ring : Ring loaded.links [] := Ring.empty rfl rfl

/-- The first registration is a proper one. -/
theorem loaded_proper (past : History Nat) (calls : RegisterCalls) :
    Proper past loaded (.register 0 calls) :=
  fun h => List.not_mem_nil (loaded_ring.listed_iff.mp h)

/-- A device whose registration failed is refused. -/
theorem unregister_refused_iff_failed :
    ∃ k, Run twoDevices [(.register 0 ⟨false, true, true, true⟩, -ENOMEM)] k ∧
      (wishboneUnregister 0 k = some (k, -EINVAL) ↔
        ¬ Removed [(.register 0 ⟨false, true, true, true⟩, -ENOMEM)] 0) := by
  have hring : Ring (loaded.initList 0).links ([] ++ []) :=
    loaded_ring.initListHead List.not_mem_nil
  have hsearch : searchGap twoDevices (loaded.initList 0) ((loaded.initList 0).links.next none) 0 =
      .found 0 none := by
    rw [hring.next_head]
    exact searchGap_eq twoDevices hring
  have hcall : call twoDevices (.register 0 ⟨false, true, true, true⟩) loaded =
      some ((loaded.initList 0).numbered twoDevices 0 0, -ENOMEM) := wishboneRegister_found hsearch
  have hrun : Run twoDevices [(.register 0 ⟨false, true, true, true⟩, -ENOMEM)]
      ((loaded.initList 0).numbered twoDevices 0 0) :=
    (Run.load rfl rfl rfl rfl).step (loaded_proper [] _) hcall
  have hlisted : ¬ Listed ((loaded.initList 0).numbered twoDevices 0 0).links 0 :=
    fun h => List.not_mem_nil (hring.listed_iff.mp h)
  exact ⟨_, hrun, unregister_refused_iff twoDevices _ _ hrun 0
    ⟨_, List.mem_cons_self, _, rfl⟩ hlisted⟩

/-- A device that has been removed is not: the second removal goes through the
    poisoned links of the first. -/
theorem unregister_twice :
    ∃ k, Run twoDevices
        [(.unregister 0, 0), (.register 0 ⟨true, true, true, true⟩, 0)] k ∧
      Seen [(.unregister 0, 0), (.register 0 ⟨true, true, true, true⟩, 0)] 0 ∧
      ¬ Listed k.links 0 ∧ wishboneUnregister 0 k = none := by
  obtain ⟨k, ret, wbs, hregister, hlist, hlinked⟩ :=
    wishboneRegister_spec twoDevices ⟨true, true, true, true⟩ loaded_ring
      (List.not_mem_nil (a := 0))
  have hret : ret = 0 := (congrArg Prod.snd hlist).symm
  subst hret
  have hmem : 0 ∈ wbs := (hlinked.mem 0).mpr (Or.inr ⟨rfl, rfl⟩)
  obtain ⟨k', hunregister, -, hring, hpoison, -⟩ := wishboneUnregister_spec hlinked.ring hmem
  have hseen : Seen [((.register 0 ⟨true, true, true, true⟩, 0) : Call Nat × Int)] 0 :=
    ⟨_, List.mem_cons_self, _, rfl⟩
  refine ⟨k', ?_, ⟨_, List.mem_cons_of_mem _ List.mem_cons_self, _, rfl⟩, ?_, ?_⟩
  · exact ((Run.load rfl rfl rfl rfl).step (loaded_proper [] _) hregister).step hseen hunregister
  · rw [hring.listed_iff]
    exact hlinked.ring.nodup.not_mem_erase
  · exact wishboneUnregister_of_poisoned hpoison

end WbDeviceLinks
