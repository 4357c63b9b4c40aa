import FpgaConfigSpace.Lib.LinkedList
import FpgaConfigSpace.SdbfsCreate

/-! # The list of devices

    `sdbfs_list` of `glue.c`: `sdbfs_dev_create` pushes a device whose magic number
    it accepts, `sdbfs_dev_destroy` unlinks one through the pointer that leads to it,
    and `sdbfs_dev_find` compares names along the list.  A device need not have a
    name.

    `δ` is the type of pointers to a `struct sdbfs`.  The loops take a budget of
    steps; comparing the name of a device that has none is undefined. -/

namespace SdbfsDevList

open BigEndian SdbfsDevice SdbfsOpen SdbfsCreate LinkedList

variable {δ : Type} {w : Nat}

/-- `sdbfs_list`, the `next` pointers, and the names of the devices. -/
structure Memory (δ : Type) where
  links : Links δ
  name : δ → Option CString

/-- What a call returns: an `int`, or a device. -/
inductive Ret (δ : Type) where
  | int (n : Int)
  | dev (d : Option δ)

/-- A call: a device is created with the name its user gave it, and with the four
    bytes of magic number found at its entry point. -/
inductive Call (δ : Type) where
  | create (fs : δ) (name : Option CString) (magic : Fin 4 → Byte)
  | destroy (fs : δ)
  | find (name : CString)

/-! ## The functions -/

section functions

variable [DecidableEq δ]

/-- `sdbfs_dev_create`, as far as the list is concerned. -/
def sdbfsDevCreate (host : Host w) (m : Memory δ) (fs : δ) (name : Option CString)
    (magic : Fin 4 → Byte) : Memory δ × Int :=
  let m := { m with name := Function.update m.name fs name }
  if (verdict host magic).2 = 0 then
    ({ m with links := { head := some fs, next := Function.update m.links.next fs m.links.head } }, 0)
  else (m, (verdict host magic).2)

/-- `sdbfs_dev_destroy`. -/
def sdbfsDevDestroy (n : Nat) (m : Memory δ) (fs : δ) : Outcome (Memory δ × Int) :=
  match seek m.links (fun d => d == fs) n .head with
  | none => .running
  | some p =>
      match m.links.read p with
      | none => .done (m, -ENOENT)
      | some _ => .done ({ m with links := m.links.write p (m.links.next fs) }, 0)

/-- The loop of `sdbfs_dev_find`, from a pointer on. -/
def devFindLoop (m : Memory δ) (name : CString) : Nat → Option δ → Outcome (Option δ)
  | 0, _ => .running
  | _ + 1, none => .done none
  | n + 1, some l =>
      match m.name l with
      | none => .undefined
      | some s => if s.chars = name.chars then .done (some l) else devFindLoop m name n (m.links.next l)

/-- `sdbfs_dev_find`. -/
def sdbfsDevFind (n : Nat) (m : Memory δ) (name : CString) : Outcome (Option δ) :=
  devFindLoop m name n m.links.head

/-- One call. -/
def call (host : Host w) (n : Nat) (m : Memory δ) : Call δ → Outcome (Memory δ × Ret δ)
  | .create fs name magic =>
      let r := sdbfsDevCreate host m fs name magic
      .done (r.1, .int r.2)
  | .destroy fs =>
      match sdbfsDevDestroy n m fs with
      | .done (m, ret) => .done (m, .int ret)
      | .running => .running
      | .undefined => .undefined
  | .find name =>
      match sdbfsDevFind n m name with
      | .done d => .done (m, .dev d)
      | .running => .running
      | .undefined => .undefined

/-- One call after another. -/
def runCalls (host : Host w) (n : Nat) : Memory δ → List (Call δ) → Outcome (Memory δ × List (Ret δ))
  | m, [] => .done (m, [])
  | m, c :: calls =>
      match call host n m c with
      | .done (m, ret) =>
          match runCalls host n m calls with
          | .done (m, rets) => .done (m, ret :: rets)
          | .running => .running
          | .undefined => .undefined
      | .running => .running
      | .undefined => .undefined

/-! ## What the list is for -/

/-- The registered devices with their names, most recent first. -/
abbrev Registry (δ : Type) := List (δ × Option CString)

/-- The devices of the list, in its order. -/
def devices (r : Registry δ) : List δ := r.map Prod.fst

/-- The device has this name. -/
def named (name : CString) (e : δ × Option CString) : Bool :=
  match e.2 with
  | none => false
  | some s => s.chars == name.chars

/-- What a call does to the registry, and what it should return. -/
def register (host : Host w) (r : Registry δ) : Call δ → Registry δ × Ret δ
  | .create fs name magic =>
      if (verdict host magic).2 = 0 then ((fs, name) :: r, .int 0)
      else (r, .int (verdict host magic).2)
  | .destroy fs =>
      if fs ∈ devices r then (r.filter fun e => e.1 != fs, .int 0) else (r, .int (-ENOENT))
  | .find name => (r, .dev ((r.find? (named name)).map Prod.fst))

/-- A run of calls, with what each of them returned. -/
def registerAll (host : Host w) : Registry δ → List (Call δ) → Registry δ × List (Ret δ)
  | r, [] => (r, [])
  | r, c :: calls =>
      let s := register host r c
      let rest := registerAll host s.1 calls
      (rest.1, s.2 :: rest.2)

/-- The call does not create a device that is registered. -/
def Fresh (r : Registry δ) : Call δ → Prop
  | .create fs _ _ => fs ∉ devices r
  | _ => True

/-- No call creates a device that is registered. -/
def CreatesFresh (host : Host w) : Registry δ → List (Call δ) → Prop
  | _, [] => True
  | r, c :: calls => Fresh r c ∧ CreatesFresh host (register host r c).1 calls

/-- A search for this name meets no device without a name before it ends. -/
def Comparable (r : Registry δ) (name : CString) : Prop :=
  ∀ e ∈ r.takeWhile fun e => !named name e, e.2.isSome = true

/-- If the call is a search, it compares names only. -/
def Compares (r : Registry δ) : Call δ → Prop
  | .find name => Comparable r name
  | _ => True

/-- Every search of the calls is one that compares names only. -/
def FindsComparable (host : Host w) : Registry δ → List (Call δ) → Prop
  | _, [] => True
  | r, c :: calls => Compares r c ∧ FindsComparable host (register host r c).1 calls

instance (r : Registry δ) (c : Call δ) : Decidable (Fresh r c) :=
  match c with
  | .create fs _ _ => inferInstanceAs (Decidable (fs ∉ devices r))
  | .destroy _ => isTrue trivial
  | .find _ => isTrue trivial

instance (r : Registry δ) (c : Call δ) : Decidable (Compares r c) :=
  match c with
  | .find name =>
      inferInstanceAs (Decidable (∀ e ∈ r.takeWhile fun e => !named name e, e.2.isSome = true))
  | .create _ _ _ => isTrue trivial
  | .destroy _ => isTrue trivial

instance decidableCreatesFresh (host : Host w) : ∀ (calls : List (Call δ)) (r : Registry δ),
    Decidable (CreatesFresh host r calls)
  | [], _ => isTrue trivial
  | c :: calls, r =>
      have := decidableCreatesFresh host calls (register host r c).1
      inferInstanceAs (Decidable (_ ∧ _))

instance decidableFindsComparable (host : Host w) : ∀ (calls : List (Call δ)) (r : Registry δ),
    Decidable (FindsComparable host r calls)
  | [], _ => isTrue trivial
  | c :: calls, r =>
      have := decidableFindsComparable host calls (register host r c).1
      inferInstanceAs (Decidable (_ ∧ _))

/-- The memory holds the registry. -/
structure Holds (m : Memory δ) (r : Registry δ) : Prop where
  chain : Chain m.links.next m.links.head (devices r)
  nodup : (devices r).Nodup
  names : ∀ e ∈ r, m.name e.1 = e.2

end functions

variable {host : Host w} {m : Memory δ} {r : Registry δ}

theorem length_devices (r : Registry δ) : (devices r).length = r.length := List.length_map ..

/-! ## Searching -/

/-- A search along a chain of devices that compares names only. -/
theorem devFindLoop_comparable (name : CString) : ∀ {r : Registry δ} {p : Option δ} {n : Nat},
    Chain m.links.next p (devices r) → (∀ e ∈ r, m.name e.1 = e.2) → Comparable r name →
    r.length < n → devFindLoop m name n p = .done ((r.find? (named name)).map Prod.fst) := by
  intro r
  induction r with
  | nil =>
      intro p n hchain _ _ hn
      obtain ⟨k, rfl⟩ : ∃ k, n = k + 1 := ⟨n - 1, by omega⟩
      have hp : p = none := hchain
      rw [hp]
      rfl
  | cons e r ih =>
      intro p n hchain hnames hcmp hn
      obtain ⟨k, rfl⟩ : ∃ k, n = k + 1 := ⟨n - 1, by omega⟩
      rw [hchain.1, devFindLoop, hnames e List.mem_cons_self]
      rw [Comparable, List.takeWhile_cons] at hcmp
      by_cases hnamed : named name e = true
      · rw [List.find?_cons_of_pos hnamed]
        rw [named] at hnamed
        cases hname : e.2 with
        | none =>
            rw [hname] at hnamed
            cases hnamed
        | some s =>
            rw [hname] at hnamed
            exact if_pos (beq_iff_eq.mp hnamed)
      · rw [Bool.eq_false_iff.mpr hnamed] at hcmp
        have hrest := ih hchain.2 (fun e' he' => hnames e' (List.mem_cons_of_mem e he'))
          (fun e' he' => hcmp e' (List.mem_cons_of_mem e he')) (Nat.lt_of_succ_lt_succ hn)
        rw [List.find?_cons_of_neg hnamed, ← hrest]
        obtain ⟨s, hname⟩ := Option.isSome_iff_exists.mp (hcmp e List.mem_cons_self)
        rw [named, hname] at hnamed
        rw [hname]
        exact if_neg fun heq => hnamed (beq_iff_eq.mpr heq)

/-- A search that meets a device without a name compares the null pointer. -/
theorem devFindLoop_undefined (name : CString) : ∀ {r : Registry δ} {p : Option δ} {n : Nat},
    Chain m.links.next p (devices r) → (∀ e ∈ r, m.name e.1 = e.2) → ¬ Comparable r name →
    r.length < n → devFindLoop m name n p = .undefined := by
  intro r
  induction r with
  | nil =>
      intro p n _ _ hcmp _
      refine absurd ?_ hcmp
      intro e he
      cases he
  | cons e r ih =>
      intro p n hchain hnames hcmp hn
      obtain ⟨k, rfl⟩ : ∃ k, n = k + 1 := ⟨n - 1, by omega⟩
      rw [hchain.1, devFindLoop, hnames e List.mem_cons_self]
      rw [Comparable, List.takeWhile_cons] at hcmp
      cases hname : e.2 with
      | none => rfl
      | some s =>
          by_cases hnamed : named name e = true
          · rw [hnamed] at hcmp
            refine absurd ?_ hcmp
            intro e' he'
            cases he'
          · rw [Bool.eq_false_iff.mpr hnamed] at hcmp
            have hrest := ih hchain.2 (fun e' he' => hnames e' (List.mem_cons_of_mem e he'))
              (fun hall => hcmp fun e' he' => ?_) (Nat.lt_of_succ_lt_succ hn)
            · rw [named, hname] at hnamed
              exact (if_neg fun heq => hnamed (beq_iff_eq.mpr heq)).trans hrest
            · rcases List.mem_cons.mp he' with rfl | he'
              · rw [hname]
                rfl
              · exact hall e' he'

/-! ## Creating and destroying -/

section edit

variable [DecidableEq δ]

/-- A device that is created comes to the front of the list, if its magic is good. -/
theorem create_holds (host : Host w) (h : Holds m r) {fs : δ} (hfs : fs ∉ devices r)
    (name : Option CString) (magic : Fin 4 → Byte) :
    Holds (sdbfsDevCreate host m fs name magic).1 (register host r (.create fs name magic)).1 ∧
      (register host r (.create fs name magic)).2 =
        .int (sdbfsDevCreate host m fs name magic).2 := by
  have hnames : ∀ e ∈ r, Function.update m.name fs name e.1 = e.2 := by
    intro e he
    rw [Function.update_of_ne ?_, h.names e he]
    rintro rfl
    exact hfs (List.mem_map_of_mem he)
  rw [sdbfsDevCreate, register]
  by_cases hok : (verdict host magic).2 = 0
  · rw [if_pos hok, if_pos hok]
    refine ⟨⟨h.chain.push hfs, List.nodup_cons.mpr ⟨hfs, h.nodup⟩, ?_⟩, rfl⟩
    intro e he
    rcases List.mem_cons.mp he with rfl | he
    · exact Function.update_self ..
    · exact hnames e he
  · rw [if_neg hok, if_neg hok]
    exact ⟨⟨h.chain, h.nodup, hnames⟩, rfl⟩

/-- A device that is not registered is not destroyed, and nothing changes. -/
theorem destroy_absent (h : Holds m r) {fs : δ} (hfs : fs ∉ devices r) {n : Nat}
    (hn : r.length < n) : sdbfsDevDestroy n m fs = .done (m, -ENOENT) := by
  obtain ⟨hseek, hread⟩ := seek_chain m.links (fun d => d == fs) (s := .head) h.chain
    (by rw [length_devices]; exact hn)
  have hdrop : (devices r).dropWhile (fun d => !(d == fs)) = [] := by
    rw [List.dropWhile_eq_nil_iff]
    intro d hd
    have hne : d ≠ fs := by
      rintro rfl
      exact hfs hd
    rw [beq_eq_false_iff_ne.mpr hne]
    rfl
  rw [hdrop] at hread
  rw [sdbfsDevDestroy, hseek]
  simp only [hread, List.head?_nil]

/-- A registered device is unlinked, wherever it is. -/
theorem destroy_present (h : Holds m r) {fs : δ} (hfs : fs ∈ devices r) {n : Nat}
    (hn : r.length < n) :
    ∃ m', sdbfsDevDestroy n m fs = .done (m', 0) ∧ Holds m' (r.filter fun e => e.1 != fs) := by
  obtain ⟨as, bs, hsplit, hnot⟩ := List.eq_append_cons_of_mem hfs
  obtain ⟨hseek, hread⟩ := seek_chain m.links (fun d => d == fs) (s := .head) h.chain
    (by rw [length_devices]; exact hn)
  have hpass : ∀ d ∈ as, (!(d == fs)) = true := by
    intro d hd
    have hne : d ≠ fs := by
      rintro rfl
      exact hnot hd
    rw [beq_eq_false_iff_ne.mpr hne]
    rfl
  have htake : (devices r).takeWhile (fun d => !(d == fs)) = as := by
    rw [hsplit, List.takeWhile_append_of_pos hpass, List.takeWhile_cons, beq_self_eq_true]
    exact List.append_nil as
  have hdrop : (devices r).dropWhile (fun d => !(d == fs)) = fs :: bs := by
    rw [hsplit, List.dropWhile_append_of_pos hpass, List.dropWhile_cons, beq_self_eq_true]
    rfl
  have hleft : devices (r.filter fun e => e.1 != fs) = as ++ bs := by
    have hfilter : devices (r.filter fun e => e.1 != fs) = (devices r).filter (· != fs) := by
      rw [devices, devices, List.filter_map]
      rfl
    rw [hfilter, ← h.nodup.erase_eq_filter, hsplit, List.erase_append_right _ hnot,
      List.erase_cons_head]
  rw [htake] at hseek hread
  rw [hdrop] at hread
  have hchain := h.chain
  have hnodup := h.nodup
  rw [hsplit] at hchain hnodup
  refine ⟨{ m with links := m.links.write (slotFrom .head as) (m.links.next fs) }, ?_, ?_, ?_, ?_⟩
  · rw [sdbfsDevDestroy, hseek]
    simp only [hread, List.head?_cons]
  · rw [hleft]
    exact hchain.remove hnodup
  · rw [hleft]
    exact hnodup.sublist ((List.Sublist.refl as).append (List.sublist_cons_self fs bs))
  · intro e he
    exact h.names e (List.mem_of_mem_filter he)

/-! ## Runs -/

/-- A call adds one device at most. -/
theorem length_register (host : Host w) (r : Registry δ) (c : Call δ) :
    (register host r c).1.length ≤ r.length + 1 := by
  cases c with
  | create fs name magic =>
      rw [register]
      split
      · exact Nat.le_refl _
      · exact Nat.le_succ _
  | destroy fs =>
      rw [register]
      split
      · exact Nat.le_succ_of_le (List.length_filter_le _ r)
      · exact Nat.le_succ _
  | find name => exact Nat.le_succ _

/-- So a run adds no more than it has calls. -/
theorem length_registerAll (host : Host w) : ∀ (calls : List (Call δ)) (r : Registry δ),
    (registerAll host r calls).1.length ≤ r.length + calls.length := by
  intro calls
  induction calls with
  | nil => exact fun r => Nat.le_refl _
  | cons c calls ih =>
      intro r
      have hone := length_register host r c
      have hrest := ih (register host r c).1
      rw [List.length_cons]
      exact Nat.le_trans hrest (by omega)

/-- One call on a memory that holds a registry. -/
theorem call_holds (h : Holds m r) {c : Call δ} (hfresh : Fresh r c) {n : Nat}
    (hn : r.length < n) (hcmp : Compares r c) :
    ∃ m', call host n m c = .done (m', (register host r c).2) ∧
      Holds m' (register host r c).1 := by
  cases c with
  | create fs name magic =>
      obtain ⟨hholds, hret⟩ := create_holds host h hfresh name magic
      exact ⟨_, congrArg (fun ret => Outcome.done (_, ret)) hret.symm, hholds⟩
  | destroy fs =>
      by_cases hfs : fs ∈ devices r
      · obtain ⟨m', hdestroy, hholds⟩ := destroy_present h hfs hn
        rw [call, hdestroy, register, if_pos hfs]
        exact ⟨m', rfl, hholds⟩
      · rw [call, destroy_absent h hfs hn, register, if_neg hfs]
        exact ⟨m, rfl, h⟩
  | find name =>
      rw [call, sdbfsDevFind, devFindLoop_comparable name h.chain h.names hcmp hn]
      exact ⟨m, rfl, h⟩

/-- A run on a memory that holds a registry. -/
theorem runCalls_holds {n : Nat} : ∀ {calls : List (Call δ)} {m : Memory δ} {r : Registry δ},
    Holds m r → CreatesFresh host r calls → r.length + calls.length < n →
    FindsComparable host r calls →
    ∃ m', runCalls host n m calls = .done (m', (registerAll host r calls).2) ∧
      Holds m' (registerAll host r calls).1 := by
  intro calls
  induction calls with
  | nil =>
      intro m r h _ _ _
      exact ⟨m, rfl, h⟩
  | cons c calls ih =>
      intro m r h hfresh hn hcmp
      rw [List.length_cons] at hn
      have hlen := length_register host r c
      obtain ⟨m₁, hcall, h₁⟩ := call_holds h hfresh.1 (n := n) (by omega) hcmp.1
      obtain ⟨m', hrun, h'⟩ := ih h₁ hfresh.2 (by omega) hcmp.2
      refine ⟨m', ?_, h'⟩
      rw [runCalls, hcall]
      simp only [hrun]
      rfl

/-- A run with a search that compares the name of a device without one. -/
theorem runCalls_undefined {n : Nat} : ∀ {calls : List (Call δ)} {m : Memory δ} {r : Registry δ},
    Holds m r → CreatesFresh host r calls → r.length + calls.length < n →
    ¬ FindsComparable host r calls → runCalls host n m calls = .undefined := by
  intro calls
  induction calls with
  | nil =>
      intro m r _ _ _ hcmp
      exact absurd trivial hcmp
  | cons c calls ih =>
      intro m r h hfresh hn hcmp
      rw [List.length_cons] at hn
      have hlen := length_register host r c
      by_cases hc : Compares r c
      · obtain ⟨m₁, hcall, h₁⟩ := call_holds h hfresh.1 (n := n) (by omega) hc
        have hrest := ih h₁ hfresh.2 (by omega) fun hrest => hcmp ⟨hc, hrest⟩
        rw [runCalls, hcall]
        simp only [hrest]
      · cases c with
        | create fs name magic => exact absurd trivial hc
        | destroy fs => exact absurd trivial hc
        | find name =>
            rw [runCalls, call, sdbfsDevFind,
              devFindLoop_undefined name h.chain h.names hc (by omega)]

/-- **The list is the registry, as long as no search meets a device without a name.**
    Whatever the `next` fields held before, after every sequence of calls that create
    no registered device, the list leads through the devices that were created with
    success and not destroyed since, most recent first, and every call returned what
    it should; destroying a device that is not there changes nothing.  A search that
    meets a device without a name before it ends is undefined. -/
theorem devices_listed (host : Host w) (calls : List (Call δ)) (m : Memory δ)
    (hempty : m.links.head = none) (hfresh : CreatesFresh host [] calls) (n : Nat)
    (hn : calls.length < n) :
    (∃ m', runCalls host n m calls = .done (m', (registerAll host [] calls).2) ∧
      Chain m'.links.next m'.links.head (devices (registerAll host [] calls).1) ∧
      ∀ fs, fs ∉ devices (registerAll host [] calls).1 →
        sdbfsDevDestroy n m' fs = .done (m', -ENOENT)) ↔
    FindsComparable host [] calls := by
  have hstart : Holds m ([] : Registry δ) := ⟨hempty, List.nodup_nil, fun e he => by cases he⟩
  have hbudget : ([] : Registry δ).length + calls.length < n := by
    rw [List.length_nil, Nat.zero_add]
    exact hn
  constructor
  · rintro ⟨m', hrun, _⟩
    by_contra hcmp
    rw [runCalls_undefined hstart hfresh hbudget hcmp] at hrun
    cases hrun
  · intro hcmp
    obtain ⟨m', hrun, hholds⟩ := runCalls_holds hstart hfresh hbudget hcmp
    refine ⟨m', hrun, hholds.chain, fun fs hfs => destroy_absent hholds hfs ?_⟩
    exact Nat.lt_of_le_of_lt (length_registerAll host calls []) hbudget

end edit

/-! ## A device without a name -/

/-- Two devices, and stale `next` fields that point to each other. -/
def staleMemory : Memory Bool where
  links := { head := none, next := fun d => some (!d) }
  name := fun _ => none

/-- A little-endian machine. -/
def littleHost : Host 32 where
  littleEndian := true
  mem := fun _ => 0

/-- "SDB-", as it is stored. -/
def goodMagic : Fin 4 → Byte := fun i => [0x53, 0x44, 0x42, 0x2d].getD i.val 0

/-- The name "fl". -/
def flashName : CString := ⟨[0x66, 0x6c], by decide⟩

/-- The named device is in front, and the other is destroyed first. -/
def namedFirst : List (Call Bool) :=
  [.create true none goodMagic, .create false (some flashName) goodMagic, .find flashName, .destroy true,
    .destroy true]

/-- A run in which every device has a name. -/
theorem devices_listed_named :
    ∃ m', runCalls littleHost 6 staleMemory namedFirst =
        .done (m', (registerAll littleHost [] namedFirst).2) ∧
      Chain m'.links.next m'.links.head (devices (registerAll littleHost [] namedFirst).1) ∧
      ∀ fs, fs ∉ devices (registerAll littleHost [] namedFirst).1 →
        sdbfsDevDestroy 6 m' fs = .done (m', -ENOENT) :=
  (devices_listed littleHost namedFirst staleMemory rfl (by decide +kernel) 6 (by decide)).mpr
    (by decide +kernel)

/-- A device without a name is registered, and some name is looked up. -/
def unnamedOnly : List (Call Bool) := [.create true none goodMagic, .find flashName]

/-- The search should return no device; it compares the missing name. -/
theorem devices_unlisted_unnamed :
    CreatesFresh littleHost [] unnamedOnly ∧
      (registerAll littleHost [] unnamedOnly).2 = [.int 0, .dev none] ∧
      runCalls littleHost 3 staleMemory unnamedOnly = .undefined := by
  have hok : (verdict littleHost goodMagic).2 = 0 := by decide +kernel
  refine ⟨by decide +kernel, ?_, ?_⟩
  · rw [unnamedOnly, registerAll, register, if_pos hok]
    rfl
  · rw [unnamedOnly, runCalls, call, sdbfsDevCreate, if_pos hok]
    rfl

end SdbfsDevList
