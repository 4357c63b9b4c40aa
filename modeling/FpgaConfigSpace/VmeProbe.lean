import FpgaConfigSpace.DeviceList
import FpgaConfigSpace.Lib.Trace
import Mathlib.Logic.Function.Basic

/-! # Probing and removing VME bridges

    `vme_probe` and `vme_remove` of `vme_wb_external.c`.  A probe allocates the
    device, maps its three windows, registers it and requests its interrupt; a step
    that fails jumps to one of four labels, which fall through into one another and
    share the variable `error`.

    Devices are numbered in the order of their allocation.  `live` says which of
    them are not freed; `bound` remembers for which device a probe returned zero,
    until the removal. -/

namespace VmeProbe

open WbDeviceList Trace

/-- `enum vme_map_win`. -/
inductive Window where
  | crCsr
  | reg
  | ctrl
  deriving DecidableEq

/-- The size of the tables of module parameters. -/
def VME_MAX_DEVICES : Int := 32

/-- The vendor that `vme_is_present` looks for. -/
def VME_VENDOR_ID : BitVec 32 := 0x80031

/-- "Operation not permitted". -/
def EPERM : Int := 1

/-- The driver and the device list it shares with the other bridges. -/
structure Driver where
  registry : Registry Nat
  live : Nat → Bool
  /-- Which of the pointers `vme_res.map` are not null. -/
  maps : Nat → Window → Bool
  /-- The number of the next allocation. -/
  next : Nat
  drvdata : Nat → Option Nat
  bound : Nat → Option Nat

/-- Nothing has been probed. -/
def Driver.start : Driver where
  registry := ⟨[], [], []⟩
  live := fun _ => false
  maps := fun _ _ => false
  next := 0
  drvdata := fun _ => none
  bound := fun _ => none

/-! ## Windows -/

/-- The answers to one `vme_map_window`: of `kzalloc` and `vme_find_mapping`. -/
structure MapCalls where
  alloc : Bool
  findMapping : Int

/-- Both calls of `vme_map_window` succeed. -/
def MapCalls.succeed (calls : MapCalls) : Prop := calls.alloc = true ∧ calls.findMapping = 0

instance (calls : MapCalls) : Decidable calls.succeed := inferInstanceAs (Decidable (_ ∧ _))

/-- A window of a device is mapped, or not. -/
def setMap (dev : Nat) (w : Window) (mapped : Bool) (s : Driver) : Driver :=
  { s with maps := Function.update s.maps dev (Function.update (s.maps dev) w mapped) }

/-- `vme_map_window`. -/
def vmeMapWindow (calls : MapCalls) (dev : Nat) (w : Window) (s : Driver) : Driver × Int :=
  if s.maps dev w then (s, -EPERM)
  else if !calls.alloc then (s, -ENOMEM)
  else if calls.findMapping ≠ 0 then (setMap dev w false s, -EINVAL)
  else (setMap dev w true s, 0)

/-- `vme_unmap_window`; `release` is what `vme_release_mapping` returns. -/
def vmeUnmapWindow (release : Int) (dev : Nat) (w : Window) (s : Driver) : Driver × Int :=
  if !s.maps dev w then (s, -EINVAL)
  else if release ≠ 0 then (s, -EINVAL)
  else (setMap dev w false s, 0)

/-! ## The labels of `vme_probe` -/

/-- The memory of a device is freed. -/
def kfree (dev : Nat) (s : Driver) : Driver := { s with live := Function.update s.live dev false }

/-- `failed`. -/
def failed (dev : Nat) (error : Int) (s : Driver) : Driver × Int := (kfree dev s, error)

/-- `failed_unmap_crcsr`. -/
def failedUnmapCrcsr (release : Nat → Int) (dev : Nat) (error : Int) (s : Driver) : Driver × Int :=
  failed dev error (vmeUnmapWindow (release 0) dev .crCsr s).1

/-- `failed_unmap_wb`. -/
def failedUnmapWb (release : Nat → Int) (dev : Nat) (error : Int) (s : Driver) : Driver × Int :=
  let s := (vmeUnmapWindow (release 2) dev .reg s).1
  failedUnmapCrcsr release dev error (vmeUnmapWindow (release 1) dev .crCsr s).1

/-- `fail_irq`. -/
def failIrq (release : Nat → Int) (dev : Nat) (error : Int) (s : Driver) : Driver × Int :=
  let s := (vmeUnmapWindow (release 4) dev .reg s).1
  failedUnmapWb release dev error (vmeUnmapWindow (release 3) dev .crCsr s).1

/-! ## Probe and remove -/

/-- Everything a probe is told from outside. -/
structure ProbeCalls where
  lun : Int
  alloc : Bool
  crCsr : MapCalls
  /-- The three words at the vendor id, as the processor reads them. -/
  vendor : BitVec 32 × BitVec 32 × BitVec 32
  reg : MapCalls
  ctrl : MapCalls
  register : RegisterCalls
  requestIrq : Int
  /-- What `vme_release_mapping` returns in each line of the labels, from the last. -/
  release : Nat → Int

/-- `vme_is_present`. -/
def vmeIsPresent (vendor : BitVec 32 × BitVec 32 × BitVec 32) : Bool :=
  (vendor.1 <<< 16) + (vendor.2.1 <<< 8) + vendor.2.2 == VME_VENDOR_ID

/-- `kzalloc` of the device. -/
def kzalloc (s : Driver) : Driver :=
  { s with
    live := Function.update s.live s.next true
    maps := Function.update s.maps s.next fun _ => false
    next := s.next + 1 }

/-- `vme_probe` from the registration on. -/
def probeRegister (g : Globals) (calls : ProbeCalls) (dev : Nat) (error : Int) (s : Driver) :
    Driver × Int :=
  let ret := wishboneRegister g calls.register dev s.registry
  let s := { s with registry := ret.1 }
  if ret.2 < 0 then failedUnmapWb calls.release dev error s
  else if calls.requestIrq ≠ 0 then failIrq calls.release dev error s
  else (s, 0)

/-- `vme_probe` behind the vendor check. -/
def probeWindows (g : Globals) (pdev : Nat) (calls : ProbeCalls) (dev : Nat) (s : Driver) :
    Driver × Int :=
  let s := { s with drvdata := Function.update s.drvdata pdev (some dev) }
  let reg := vmeMapWindow calls.reg dev .reg s
  if reg.2 ≠ 0 then failedUnmapWb calls.release dev reg.2 reg.1
  else
    let ctrl := vmeMapWindow calls.ctrl dev .ctrl reg.1
    if ctrl.2 ≠ 0 then failedUnmapWb calls.release dev ctrl.2 ctrl.1
    -- the last call that sets `error` has set it to zero
    else probeRegister g calls dev ctrl.2 ctrl.1

/-- `vme_probe`. -/
def vmeProbe (g : Globals) (pdev : Nat) (calls : ProbeCalls) (s : Driver) : Driver × Int :=
  if VME_MAX_DEVICES ≤ calls.lun then (s, -EINVAL)
  else if !calls.alloc then (s, -ENOMEM)
  else
    let crCsr := vmeMapWindow calls.crCsr s.next .crCsr (kzalloc s)
    if crCsr.2 ≠ 0 then failed s.next crCsr.2 crCsr.1
    else if !vmeIsPresent calls.vendor then failedUnmapCrcsr calls.release s.next (-EINVAL) crCsr.1
    else probeWindows g pdev calls s.next crCsr.1

/-- `vme_remove`; `none` is the use of a device that is not there. -/
def vmeRemove (pdev : Nat) (release : Nat → Int) (s : Driver) : Option (Driver × Int) :=
  match s.drvdata pdev with
  | none => none
  | some dev =>
      if !s.live dev then none
      else
        let s := (vmeUnmapWindow (release 0) dev .crCsr s).1
        let s := (vmeUnmapWindow (release 1) dev .reg s).1
        let s := (vmeUnmapWindow (release 2) dev .ctrl s).1
        let s := { s with registry := (wishboneUnregister dev s.registry).1 }
        some (kfree dev s, 0)

/-! ## Runs -/

/-- The calls of the driver core. -/
inductive Call where
  | probe (pdev : Nat) (calls : ProbeCalls)
  | remove (pdev : Nat) (release : Nat → Int)

/-- The driver core remembers the slots whose probe has returned zero. -/
def bindSlot (pdev dev : Nat) (ret : Driver × Int) : Driver :=
  if ret.2 = 0 then { ret.1 with bound := Function.update ret.1.bound pdev (some dev) } else ret.1

/-- One call: a slot is probed while nothing is bound to it, and removed after a
    probe of it has returned zero. -/
def step (g : Globals) (s : Driver) : Call → Option Driver
  | .probe pdev calls =>
      match s.bound pdev with
      | some _ => none
      | none => some (bindSlot pdev s.next (vmeProbe g pdev calls s))
  | .remove pdev release =>
      match s.bound pdev with
      | none => none
      | some _ => (vmeRemove pdev release s).map fun ret =>
          { ret.1 with bound := Function.update ret.1.bound pdev none }

/-- The devices on the list are those whose probe returned zero and that have not
    been removed, and none of them is freed. -/
structure InSync (s : Driver) : Prop where
  listed : ∀ dev, Registered s.registry dev ↔ ∃ pdev, s.bound pdev = some dev
  live : ∀ dev, Registered s.registry dev → s.live dev = true

/-- The probe gets as far as the registration. -/
def Attaches (calls : ProbeCalls) : Prop :=
  calls.lun < VME_MAX_DEVICES ∧ calls.alloc = true ∧ calls.crCsr.succeed ∧
    vmeIsPresent calls.vendor = true ∧ calls.reg.succeed ∧ calls.ctrl.succeed

instance (calls : ProbeCalls) : Decidable (Attaches calls) :=
  inferInstanceAs (Decidable (_ ∧ _ ∧ _ ∧ _ ∧ _ ∧ _))

/-- A probe that gets as far as the registration gets to its end: a minor number is
    free, and the kernel grants the registration and the interrupt. -/
def Completes (g : Globals) (s : Driver) : Call → Prop
  | .probe _ calls => Attaches calls →
      FreeOffset g s.registry ∧ calls.register.succeed ∧ calls.requestIrq = 0
  | .remove _ _ => True

instance (g : Globals) (s : Driver) : (call : Call) → Decidable (Completes g s call)
  | .probe _ calls => inferInstanceAs (Decidable (Attaches calls → _ ∧ _ ∧ _))
  | .remove _ _ => inferInstanceAs (Decidable True)

/-! ## What the parts do -/

theorem einval_ne : -EINVAL ≠ 0 := by decide

/-- A window that is not mapped is mapped, or it is not and the error says so. -/
theorem vmeMapWindow_cases (calls : MapCalls) {dev : Nat} {w : Window} {s : Driver}
    (h : s.maps dev w = false) :
    (calls.succeed ∧ ∃ m, vmeMapWindow calls dev w s = ({ s with maps := m }, 0) ∧
      ∀ w', w' ≠ w → m dev w' = s.maps dev w') ∨
    (¬ calls.succeed ∧ ∃ m e, vmeMapWindow calls dev w s = ({ s with maps := m }, e) ∧ e ≠ 0) := by
  rw [vmeMapWindow, h, MapCalls.succeed]
  cases halloc : calls.alloc with
  | false =>
      exact Or.inr ⟨fun hs => absurd hs.1 Bool.false_ne_true, s.maps, -ENOMEM, rfl, by decide⟩
  | true =>
      by_cases hfind : calls.findMapping = 0
      · refine Or.inl ⟨⟨rfl, hfind⟩, (setMap dev w true s).maps, ?_, ?_⟩
        · rw [hfind]
          rfl
        · intro w' hw
          show Function.update s.maps dev _ dev w' = s.maps dev w'
          rw [Function.update_self, Function.update_of_ne hw]
      · refine Or.inr ⟨fun hs => hfind hs.2, (setMap dev w false s).maps, -EINVAL, ?_, einval_ne⟩
        exact if_pos hfind

/-- Unmapping a window changes the map only. -/
theorem vmeUnmapWindow_frame (release : Int) (dev : Nat) (w : Window) (s : Driver) :
    ∃ m, (vmeUnmapWindow release dev w s).1 = { s with maps := m } := by
  rw [vmeUnmapWindow]
  split
  · exact ⟨_, rfl⟩
  · split <;> exact ⟨_, rfl⟩

/-- Every label ends in `kfree` and returns `error` as it found it. -/
theorem failedUnmapCrcsr_eq (release : Nat → Int) (dev : Nat) (error : Int) (s : Driver) :
    ∃ m, failedUnmapCrcsr release dev error s = (kfree dev { s with maps := m }, error) := by
  obtain ⟨m, hm⟩ := vmeUnmapWindow_frame (release 0) dev .crCsr s
  exact ⟨m, by rw [failedUnmapCrcsr, failed, hm]⟩

/-- What a probe leaves that fails early, or late. -/
theorem failedUnmapWb_eq (release : Nat → Int) (dev : Nat) (error : Int) (s : Driver) :
    ∃ m, failedUnmapWb release dev error s = (kfree dev { s with maps := m }, error) := by
  obtain ⟨m₁, h₁⟩ := vmeUnmapWindow_frame (release 2) dev .reg s
  obtain ⟨m₂, h₂⟩ := vmeUnmapWindow_frame (release 1) dev .crCsr { s with maps := m₁ }
  obtain ⟨m, hm⟩ := failedUnmapCrcsr_eq release dev error { s with maps := m₂ }
  exact ⟨m, by rw [failedUnmapWb, h₁, h₂, hm]⟩

theorem failIrq_eq (release : Nat → Int) (dev : Nat) (error : Int) (s : Driver) :
    ∃ m, failIrq release dev error s = (kfree dev { s with maps := m }, error) := by
  obtain ⟨m₁, h₁⟩ := vmeUnmapWindow_frame (release 4) dev .reg s
  obtain ⟨m₂, h₂⟩ := vmeUnmapWindow_frame (release 3) dev .crCsr { s with maps := m₁ }
  obtain ⟨m, hm⟩ := failedUnmapWb_eq release dev error { s with maps := m₂ }
  exact ⟨m, by rw [failIrq, h₁, h₂, hm]⟩

/-- Behind the vendor check a probe is given up with an error, or it comes to the
    registration with `error` zero. -/
theorem probeWindows_cases (g : Globals) (pdev : Nat) (calls : ProbeCalls) {dev : Nat} {s : Driver}
    (hreg : s.maps dev .reg = false) (hctrl : s.maps dev .ctrl = false) :
    (¬ (calls.reg.succeed ∧ calls.ctrl.succeed) ∧ ∃ m d e,
      probeWindows g pdev calls dev s = (kfree dev { s with maps := m, drvdata := d }, e) ∧ e ≠ 0 ∧
        d = Function.update s.drvdata pdev (some dev)) ∨
    (calls.reg.succeed ∧ calls.ctrl.succeed ∧ ∃ m,
      probeWindows g pdev calls dev s = probeRegister g calls dev 0
        { s with maps := m, drvdata := Function.update s.drvdata pdev (some dev) }) := by
  rcases vmeMapWindow_cases calls.reg
      (s := { s with drvdata := Function.update s.drvdata pdev (some dev) }) hreg with
    ⟨hok₁, m₁, h₁, hsame⟩ | ⟨hno, m₁, e, h₁, he⟩
  · rcases vmeMapWindow_cases calls.ctrl
        (s := { s with maps := m₁, drvdata := Function.update s.drvdata pdev (some dev) })
        ((hsame .ctrl (by decide)).trans hctrl) with
      ⟨hok₂, m₂, h₂, -⟩ | ⟨hno, m₂, e, h₂, he⟩
    · refine Or.inr ⟨hok₁, hok₂, m₂, ?_⟩
      rw [probeWindows, h₁, h₂]
      rfl
    · obtain ⟨m, hm⟩ := failedUnmapWb_eq calls.release dev e
        { s with maps := m₂, drvdata := Function.update s.drvdata pdev (some dev) }
      refine Or.inl ⟨fun h => hno h.2, m, _, e, ?_, he, rfl⟩
      rw [probeWindows, h₁, h₂]
      exact (if_pos he).trans hm
  · obtain ⟨m, hm⟩ := failedUnmapWb_eq calls.release dev e
      { s with maps := m₁, drvdata := Function.update s.drvdata pdev (some dev) }
    refine Or.inl ⟨fun h => hno h.1, m, _, e, ?_, he, rfl⟩
    rw [probeWindows, h₁]
    exact (if_pos he).trans hm

/-- What is left of a probe that fails before the registration: nothing but the
    driver data of its slot and the number of the device. -/
structure Abandoned (pdev : Nat) (s s' : Driver) : Prop where
  registry : s'.registry = s.registry
  bound : s'.bound = s.bound
  live : ∀ dev, dev < s.next → s'.live dev = s.live dev
  freed : ∀ dev, s'.live dev = true → s.live dev = true
  next : s.next ≤ s'.next
  drvdata : ∀ p, p ≠ pdev → s'.drvdata p = s.drvdata p

theorem Abandoned.refl (pdev : Nat) (s : Driver) : Abandoned pdev s s :=
  ⟨rfl, rfl, fun _ _ => rfl, fun _ h => h, Nat.le_refl _, fun _ _ => rfl⟩

/-- A device that is allocated and freed. -/
theorem abandoned_kfree (pdev : Nat) (s : Driver) (m : Nat → Window → Bool)
    {d : Nat → Option Nat} (hd : ∀ p, p ≠ pdev → d p = s.drvdata p) :
    Abandoned pdev s (kfree s.next { kzalloc s with maps := m, drvdata := d }) := by
  have hlive : ∀ dev, dev ≠ s.next →
      Function.update (Function.update s.live s.next true) s.next false dev = s.live dev := by
    intro dev hne
    rw [Function.update_of_ne hne, Function.update_of_ne hne]
  refine ⟨rfl, rfl, fun dev hlt => hlive dev (Nat.ne_of_lt hlt), ?_, Nat.le_succ _, hd⟩
  intro dev h
  by_cases hne : dev = s.next
  · rw [hne] at h
    exact absurd (h.symm.trans (Function.update_self _ _ _)) (Ne.symm Bool.false_ne_true)
  · exact (hlive dev hne).symm.trans h

/-- The device as the registration finds it. -/
def attached (pdev : Nat) (m : Nat → Window → Bool) (s : Driver) : Driver :=
  { kzalloc s with maps := m, drvdata := Function.update s.drvdata pdev (some s.next) }

/-- A probe either fails on its way to the registration, or it gets there with
    `error` zero. -/
theorem vmeProbe_cases (g : Globals) (pdev : Nat) (calls : ProbeCalls) (s : Driver) :
    (¬ Attaches calls ∧ (vmeProbe g pdev calls s).2 ≠ 0 ∧
      Abandoned pdev s (vmeProbe g pdev calls s).1) ∨
    (Attaches calls ∧ ∃ m, vmeProbe g pdev calls s =
      probeRegister g calls s.next 0 (attached pdev m s)) := by
  have hdrv : ∀ p, p ≠ pdev →
      Function.update s.drvdata pdev (some s.next) p = s.drvdata p :=
    fun p hp => Function.update_of_ne hp _ _
  have hmaps : ∀ w, (kzalloc s).maps s.next w = false := by
    intro w
    show Function.update s.maps s.next _ s.next w = false
    rw [Function.update_self]
  rw [vmeProbe]
  by_cases hlun : VME_MAX_DEVICES ≤ calls.lun
  · rw [if_pos hlun]
    exact Or.inl ⟨fun h => absurd h.1 (Int.not_lt.mpr hlun), einval_ne, Abandoned.refl pdev s⟩
  rw [if_neg hlun]
  cases halloc : calls.alloc with
  | false =>
      exact Or.inl ⟨fun h => absurd (halloc.symm.trans h.2.1) Bool.false_ne_true,
        (by decide : -ENOMEM ≠ 0), Abandoned.refl pdev s⟩
  | true =>
    rcases vmeMapWindow_cases calls.crCsr (hmaps .crCsr) with
      ⟨hcr, m₁, h₁, hsame⟩ | ⟨hno, m₁, e, h₁, he⟩
    · rw [h₁]
      cases hvendor : vmeIsPresent calls.vendor with
      | false =>
          obtain ⟨m, hm⟩ := failedUnmapCrcsr_eq calls.release s.next (-EINVAL)
            { kzalloc s with maps := m₁ }
          have hret : (failedUnmapCrcsr calls.release s.next (-EINVAL)
              { kzalloc s with maps := m₁ }).2 ≠ 0 := by
            rw [hm]
            exact einval_ne
          have hleft : Abandoned pdev s (failedUnmapCrcsr calls.release s.next (-EINVAL)
              { kzalloc s with maps := m₁ }).1 := by
            rw [hm]
            exact abandoned_kfree pdev s m fun _ _ => rfl
          exact Or.inl ⟨fun h => absurd (hvendor.symm.trans h.2.2.2.1) Bool.false_ne_true,
            hret, hleft⟩
      | true =>
          rcases probeWindows_cases g pdev calls (s := { kzalloc s with maps := m₁ })
              ((hsame .reg (by decide)).trans (hmaps .reg))
              ((hsame .ctrl (by decide)).trans (hmaps .ctrl)) with
            ⟨hno, m, d, e, h, he, rfl⟩ | ⟨hreg, hctrl, m, h⟩
          · have hret : (probeWindows g pdev calls s.next { kzalloc s with maps := m₁ }).2 ≠ 0 := by
              rw [h]
              exact he
            have hleft : Abandoned pdev s
                (probeWindows g pdev calls s.next { kzalloc s with maps := m₁ }).1 := by
              rw [h]
              exact abandoned_kfree pdev s m hdrv
            exact Or.inl ⟨fun h => hno ⟨h.2.2.2.2.1, h.2.2.2.2.2⟩, hret, hleft⟩
          · exact Or.inr ⟨⟨Int.not_le.mp hlun, halloc, hcr, hvendor, hreg, hctrl⟩, m, h⟩
    · rw [h₁]
      have hret : failed s.next e { kzalloc s with maps := m₁ } =
          (kfree s.next { kzalloc s with maps := m₁ }, e) := rfl
      refine Or.inl ⟨fun h => hno h.2.2.1, ?_, ?_⟩
      · show (if e ≠ 0 then failed s.next e _ else _).2 ≠ 0
        rw [if_pos he, hret]
        exact he
      · show Abandoned pdev s (if e ≠ 0 then failed s.next e _ else _).1
        rw [if_pos he, hret]
        exact abandoned_kfree pdev s m₁ fun _ _ => rfl

/-- From the registration on a probe returns zero, whatever happens. -/
theorem probeRegister_cases (g : Globals) (calls : ProbeCalls) (dev : Nat) (s : Driver)
    (hret : (wishboneRegister g calls.register dev s.registry).2 = 0 ∨
      (wishboneRegister g calls.register dev s.registry).2 = -ENOMEM) :
    (¬ ((wishboneRegister g calls.register dev s.registry).2 = 0 ∧ calls.requestIrq = 0) ∧
      ∃ m, probeRegister g calls dev 0 s = (kfree dev { s with
        registry := (wishboneRegister g calls.register dev s.registry).1, maps := m }, 0)) ∨
    ((wishboneRegister g calls.register dev s.registry).2 = 0 ∧ calls.requestIrq = 0 ∧
      probeRegister g calls dev 0 s =
        ({ s with registry := (wishboneRegister g calls.register dev s.registry).1 }, 0)) := by
  rw [probeRegister]
  rcases hret with hzero | hneg
  · have hlt : ¬ (wishboneRegister g calls.register dev s.registry).2 < 0 := by
      rw [hzero]
      decide
    by_cases hirq : calls.requestIrq = 0
    · refine Or.inr ⟨hzero, hirq, ?_⟩
      exact (if_neg hlt).trans (if_neg (not_not.mpr hirq))
    · obtain ⟨m, hm⟩ := failIrq_eq calls.release dev 0
        { s with registry := (wishboneRegister g calls.register dev s.registry).1 }
      refine Or.inl ⟨fun h => hirq h.2, m, ?_⟩
      exact ((if_neg hlt).trans (if_pos hirq)).trans hm
  · have hlt : (wishboneRegister g calls.register dev s.registry).2 < 0 := by
      rw [hneg]
      decide
    obtain ⟨m, hm⟩ := failedUnmapWb_eq calls.release dev 0
      { s with registry := (wishboneRegister g calls.register dev s.registry).1 }
    refine Or.inl ⟨fun h => absurd h.1 (Int.ne_of_lt hlt), m, ?_⟩
    exact (if_pos hlt).trans hm

/-- A removal frees the device of its slot and takes it off the list. -/
theorem vmeRemove_eq {pdev : Nat} {release : Nat → Int} {s : Driver} {ret : Driver × Int}
    (h : vmeRemove pdev release s = some ret) :
    ∃ dev m, s.drvdata pdev = some dev ∧ ret = (kfree dev { s with
      registry := (wishboneUnregister dev s.registry).1, maps := m }, 0) := by
  rw [vmeRemove] at h
  split at h
  · cases h
  · next dev hdrv =>
    split at h
    · cases h
    · obtain ⟨m₁, h₁⟩ := vmeUnmapWindow_frame (release 0) dev .crCsr s
      obtain ⟨m₂, h₂⟩ := vmeUnmapWindow_frame (release 1) dev .reg { s with maps := m₁ }
      obtain ⟨m₃, h₃⟩ := vmeUnmapWindow_frame (release 2) dev .ctrl { s with maps := m₂ }
      simp only [h₁, h₂, h₃] at h
      exact ⟨dev, m₃, hdrv, (Option.some.inj h).symm⟩

/-! ## What a run keeps -/

/-- The invariant of the runs whose probes complete. -/
structure Consistent (g : Globals) (s : Driver) : Prop extends InSync s where
  reachable : Reachable g s.registry
  fresh : ∀ dev, s.live dev = true → dev < s.next
  drvdata : ∀ pdev dev, s.bound pdev = some dev → s.drvdata pdev = some dev
  unique : ∀ p q dev, s.bound p = some dev → s.bound q = some dev → p = q

variable {g : Globals} {s s' : Driver}

/-- The invariant holds in the beginning. -/
theorem consistent_start (g : Globals) : Consistent g Driver.start := by
  refine ⟨⟨?_, ?_⟩, Reachable.start, ?_, ?_, ?_⟩
  · intro dev
    constructor
    · rintro ⟨e, he, -⟩
      cases he
    · rintro ⟨p, hp⟩
      cases hp
  · rintro dev ⟨e, he, -⟩
    cases he
  · intro dev h
    cases h
  · intro p dev h
    cases h
  · intro p q dev h
    cases h

/-- No device on the list has the number of the next allocation. -/
theorem Consistent.next_not_registered (h : Consistent g s) : ¬ Registered s.registry s.next :=
  fun hreg => absurd (h.fresh _ (h.live _ hreg)) (Nat.lt_irrefl _)

/-- A probe keeps it, abandoned or complete, and so does removing a device. -/
theorem Consistent.abandoned (h : Consistent g s) {pdev : Nat} (hfree : s.bound pdev = none)
    (ha : Abandoned pdev s s') : Consistent g s' := by
  refine ⟨⟨?_, ?_⟩, ?_, ?_, ?_, ?_⟩
  · rw [ha.registry, ha.bound]
    exact h.listed
  · intro dev hreg
    rw [ha.registry] at hreg
    have hlive := h.live dev hreg
    rw [ha.live dev (h.fresh dev hlive)]
    exact hlive
  · rw [ha.registry]
    exact h.reachable
  · intro dev hlive
    exact Nat.lt_of_lt_of_le (h.fresh dev (ha.freed dev hlive)) ha.next
  · intro p dev hp
    rw [ha.bound] at hp
    have hne : p ≠ pdev := by
      rintro rfl
      rw [hfree] at hp
      cases hp
    rw [ha.drvdata p hne]
    exact h.drvdata p dev hp
  · rw [ha.bound]
    exact h.unique

/-- A slot that is bound to the next device. -/
theorem bound_update {bound : Nat → Option Nat} {pdev next p dev : Nat} :
    Function.update bound pdev (some next) p = some dev ↔
      (p = pdev ∧ dev = next) ∨ (p ≠ pdev ∧ bound p = some dev) := by
  by_cases hp : p = pdev
  · rw [hp, Function.update_self]
    constructor
    · intro h
      exact Or.inl ⟨rfl, (Option.some.inj h).symm⟩
    · rintro (⟨-, rfl⟩ | ⟨hne, -⟩)
      · rfl
      · exact absurd rfl hne
  · rw [Function.update_of_ne hp]
    constructor
    · intro h
      exact Or.inr ⟨hp, h⟩
    · rintro (⟨heq, -⟩ | ⟨-, h⟩)
      · exact absurd heq hp
      · exact h

theorem Consistent.probed (hg : Loaded g) (h : Consistent g s) {pdev : Nat}
    (hfree : s.bound pdev = none) {calls : RegisterCalls}
    (hret : (wishboneRegister g calls s.next s.registry).2 = 0) (m : Nat → Window → Bool) :
    Consistent g { attached pdev m s with
      registry := (wishboneRegister g calls s.next s.registry).1
      bound := Function.update s.bound pdev (some s.next) } := by
  have hreg := (h.reachable.ordered hg).registered_register hg hret
  refine ⟨⟨?_, ?_⟩, ?_, ?_, ?_, ?_⟩
  · intro dev
    rw [hreg dev, h.listed dev]
    constructor
    · rintro (rfl | ⟨p, hp⟩)
      · exact ⟨pdev, bound_update.mpr (Or.inl ⟨rfl, rfl⟩)⟩
      · refine ⟨p, bound_update.mpr (Or.inr ⟨?_, hp⟩)⟩
        rintro rfl
        rw [hfree] at hp
        cases hp
    · rintro ⟨p, hp⟩
      rcases bound_update.mp hp with ⟨-, hdev⟩ | ⟨-, hp⟩
      · exact Or.inl hdev
      · exact Or.inr ⟨p, hp⟩
  · intro dev hdev
    show Function.update s.live s.next true dev = true
    rcases (hreg dev).mp hdev with rfl | hdev
    · exact Function.update_self _ _ _
    · by_cases hne : dev = s.next
      · rw [hne]
        exact Function.update_self _ _ _
      · rw [Function.update_of_ne hne]
        exact h.live dev hdev
  · exact Reachable.register calls s.next h.reachable h.next_not_registered
  · intro dev hlive
    by_cases hne : dev = s.next
    · rw [hne]
      exact Nat.lt_succ_self s.next
    · have hold : s.live dev = true := (Function.update_of_ne hne _ _).symm.trans hlive
      exact Nat.lt_succ_of_lt (h.fresh dev hold)
  · intro p dev hp
    show Function.update s.drvdata pdev (some s.next) p = some dev
    rcases bound_update.mp hp with ⟨rfl, rfl⟩ | ⟨hne, hp⟩
    · exact Function.update_self _ _ _
    · rw [Function.update_of_ne hne]
      exact h.drvdata p dev hp
  · intro p q dev hp hq
    have hnext : ∀ p', s.bound p' ≠ some s.next := fun p' hp' =>
      h.next_not_registered ((h.listed _).mpr ⟨p', hp'⟩)
    rcases bound_update.mp hp with ⟨hp, hdev⟩ | ⟨-, hp⟩
    · rcases bound_update.mp hq with ⟨hq, -⟩ | ⟨-, hq⟩
      · exact hp.trans hq.symm
      · exact absurd (hdev ▸ hq) (hnext q)
    · rcases bound_update.mp hq with ⟨-, hdev⟩ | ⟨-, hq⟩
      · exact absurd (hdev ▸ hp) (hnext p)
      · exact h.unique p q dev hp hq

theorem Consistent.removed (h : Consistent g s) {pdev dev : Nat} (hbound : s.bound pdev = some dev)
    (m : Nat → Window → Bool) :
    Consistent g { kfree dev { s with
        registry := (wishboneUnregister dev s.registry).1, maps := m } with
      bound := Function.update s.bound pdev none } := by
  have hreg := h.reachable.registered_unregister dev
  have hupdate : ∀ p d, Function.update s.bound pdev none p = some d ↔
      p ≠ pdev ∧ s.bound p = some d := by
    intro p d
    by_cases hp : p = pdev
    · rw [hp, Function.update_self]
      constructor
      · intro h
        cases h
      · rintro ⟨hne, -⟩
        exact absurd rfl hne
    · rw [Function.update_of_ne hp]
      exact ⟨fun h => ⟨hp, h⟩, fun h => h.2⟩
  refine ⟨⟨?_, ?_⟩, ?_, ?_, ?_, ?_⟩
  · intro d
    show Registered (wishboneUnregister dev s.registry).1 d ↔
      ∃ p, Function.update s.bound pdev none p = some d
    rw [hreg d, h.listed d]
    constructor
    · rintro ⟨hne, p, hp⟩
      refine ⟨p, (hupdate p d).mpr ⟨?_, hp⟩⟩
      rintro rfl
      exact hne (Option.some.inj (hp.symm.trans hbound))
    · rintro ⟨p, hp⟩
      obtain ⟨hne, hp⟩ := (hupdate p d).mp hp
      refine ⟨?_, p, hp⟩
      rintro rfl
      exact hne (h.unique p pdev d hp hbound)
  · intro d hd
    obtain ⟨hne, hd⟩ := (hreg d).mp hd
    show Function.update s.live dev false d = true
    rw [Function.update_of_ne hne]
    exact h.live d hd
  · exact Reachable.unregister dev h.reachable ((h.listed dev).mpr ⟨pdev, hbound⟩)
  · intro d hlive
    by_cases hne : d = dev
    · rw [hne] at hlive
      exact absurd (hlive.symm.trans (Function.update_self _ _ _)) (Ne.symm Bool.false_ne_true)
    · exact h.fresh d ((Function.update_of_ne hne _ _).symm.trans hlive)
  · intro p d hp
    exact h.drvdata p d ((hupdate p d).mp hp).2
  · intro p q d hp hq
    exact h.unique p q d ((hupdate p d).mp hp).2 ((hupdate q d).mp hq).2

/-- The step lemma. -/
theorem Consistent.step (hg : Loaded g) (h : Consistent g s) (call : Call)
    (hcall : Completes g s call) (hs : step g s call = some s') : Consistent g s' := by
  cases call with
  | remove pdev release =>
      rw [VmeProbe.step] at hs
      split at hs
      · cases hs
      · next dev hbound =>
        obtain ⟨ret, hret, rfl⟩ := Option.map_eq_some_iff.mp hs
        obtain ⟨d, m, hdrv, rfl⟩ := vmeRemove_eq hret
        rw [h.drvdata pdev dev hbound] at hdrv
        cases hdrv
        exact h.removed hbound m
  | probe pdev calls =>
      rw [VmeProbe.step] at hs
      split at hs
      · cases hs
      · next hfree =>
        rcases vmeProbe_cases g pdev calls s with ⟨-, hne, hleft⟩ | ⟨hattach, m, hprobe⟩
        · rw [bindSlot, if_neg hne] at hs
          cases hs
          exact h.abandoned hfree hleft
        · obtain ⟨hoff, hcalls, hirq⟩ := hcall hattach
          have hret := ((h.reachable.ordered hg).register_eq_zero_iff hg calls.register s.next).mpr
            ⟨hoff, hcalls⟩
          rcases probeRegister_cases g calls s.next (attached pdev m s) (Or.inl hret) with
            ⟨hno, -⟩ | ⟨-, -, hregister⟩
          · exact absurd ⟨hret, hirq⟩ hno
          · rw [hprobe, hregister, bindSlot, if_pos rfl] at hs
            cases hs
            exact h.probed hg hfree hret m

/-- A probe that gets as far as the registration and does not complete leaves the
    list and the devices apart. -/
theorem Consistent.broken (hg : Loaded g) (h : Consistent g s) (call : Call)
    (hcall : ¬ Completes g s call) (hs : VmeProbe.step g s call = some s') : ¬ InSync s' := by
  cases call with
  | remove pdev release => exact absurd trivial hcall
  | probe pdev calls =>
      have hattach : Attaches calls := by
        by_contra hno
        exact hcall fun hattach => absurd hattach hno
      have hwhy : ¬ (FreeOffset g s.registry ∧ calls.register.succeed ∧ calls.requestIrq = 0) :=
        fun hall => hcall fun _ => hall
      rw [VmeProbe.step] at hs
      split at hs
      · cases hs
      · rcases vmeProbe_cases g pdev calls s with ⟨hno, -⟩ | ⟨-, m, hprobe⟩
        · exact absurd hattach hno
        have hordered := h.reachable.ordered hg
        have hregisters := hordered.registers hg calls.register s.next
        rcases probeRegister_cases g calls s.next (attached pdev m s) hregisters.result with
          ⟨-, m', hregister⟩ | ⟨hret, hirq, -⟩
        · rw [hprobe, hregister, bindSlot, if_pos rfl] at hs
          cases hs
          intro hsync
          have hlisted := (hsync.listed s.next).mpr ⟨pdev, Function.update_self _ _ _⟩
          -- it is on the list although it is freed
          exact absurd ((hsync.live s.next hlisted).symm.trans (Function.update_self _ _ _))
            (Ne.symm Bool.false_ne_true)
        · obtain ⟨hoff, hcalls⟩ := (hordered.register_eq_zero_iff hg calls.register s.next).mp hret
          exact absurd ⟨hoff, hcalls, hirq⟩ hwhy

/-- **The list holds the probed devices as long as every probe that registers its
    device gets to its end.**  If the registration or the interrupt fails, the probe
    frees the device and returns zero all the same. -/
theorem vme_devices_listed (g : Globals) (hg : Loaded g) (run : List Call) :
    (∀ t ∈ trace (VmeProbe.step g) Driver.start run, InSync t.behind) ↔
      ∀ t ∈ trace (VmeProbe.step g) Driver.start run, Completes g t.before t.act :=
  trace_iff (fun _ h => h.toInSync)
    (fun _ call _ h hcall hs => h.step hg call hcall hs)
    (fun _ call _ h hcall hs => h.broken hg call hcall hs) (consistent_start g)

/-! ## Two runs -/

/-- A probe to which every call is granted but the interrupt. -/
def calls (requestIrq : Int) : ProbeCalls where
  lun := 0
  alloc := true
  crCsr := ⟨true, 0⟩
  vendor := (0x8, 0, 0x31)
  reg := ⟨true, 0⟩
  ctrl := ⟨true, 0⟩
  register := ⟨true, true, true, true⟩
  requestIrq := requestIrq
  release := fun _ => 0

/-- Two bridges are probed and one is removed. -/
def probeProbeRemove : List Call := [.probe 0 (calls 0), .probe 1 (calls 0), .remove 0 fun _ => 0]

/-- Two devices, of which one is removed. -/
theorem vme_devices_listed_removed :
    ∃ t, (trace (VmeProbe.step twoDevices) Driver.start probeProbeRemove)[2]? = some t ∧
      InSync t.behind := by
  obtain ⟨t, ht⟩ := Option.isSome_iff_exists.mp (by decide +kernel :
    (trace (VmeProbe.step twoDevices) Driver.start probeProbeRemove)[2]?.isSome = true)
  refine ⟨t, ht, ?_⟩
  exact (vme_devices_listed twoDevices ⟨2, ⟨.ok (), .ok (), some 240, some 241⟩, by rfl⟩
    probeProbeRemove).mpr (by decide +kernel) t (List.mem_of_getElem? ht)

/-- The interrupt is refused: the probe returns zero, and a freed device stays on
    the list. -/
theorem vme_devices_listed_irq :
    ¬ ∀ t ∈ trace (VmeProbe.step twoDevices) Driver.start [.probe 0 (calls (-1))],
      InSync t.behind := by
  intro h
  have hg : Loaded twoDevices := ⟨2, ⟨.ok (), .ok (), some 240, some 241⟩, by rfl⟩
  obtain ⟨s', hs⟩ : ∃ s', VmeProbe.step twoDevices Driver.start (.probe 0 (calls (-1))) = some s' :=
    ⟨_, rfl⟩
  have hmem : ⟨Driver.start, .probe 0 (calls (-1)), s'⟩ ∈
      trace (VmeProbe.step twoDevices) Driver.start [.probe 0 (calls (-1))] := by
    rw [trace, hs]
    exact List.mem_cons_self
  exact (consistent_start twoDevices).broken hg _ (by decide +kernel) hs (h _ hmem)

end VmeProbe
