import FpgaConfigSpace.Lib.Trace
import FpgaConfigSpace.SdbRecord

/-! # Mounting a device

    `sdbfs_fill_super` and `sdbfs_kill_sb` of `sdbfs-core.c`, and the two functions
    of `sdbfs-client.c` that take and drop the reference to the module that owns a
    device.  The VFS runs `sdbfs_fill_super` on fresh superblocks, and
    `sdbfs_kill_sb` once on each of them, in whatever order; what the environment
    answers (the devices that are registered, the module, the device read, the inode,
    the root dentry) may be anything each time.

    `δ` is the type of device pointers. -/

namespace SdbfsMount

open BigEndian SdbRecord Trace

variable {δ : Type}

/-- "Invalid argument", as the kernel numbers it. -/
def EINVAL : Int := 22

/-- "No such file or directory". -/
def ENOENT : Int := 2

/-- "Out of memory". -/
def ENOMEM : Int := 12

/-! ## The state -/

/-- A `struct super_block`, and whether `sdbfs_kill_sb` has run on it. -/
structure SuperBlock (δ : Type) where
  sFsInfo : Option δ
  sBlocksize : Nat
  sBlocksizeBits : Nat
  sMagic : Word
  sRoot : Bool
  killed : Bool

/-- A superblock as the VFS hands it over. -/
def SuperBlock.fresh : SuperBlock δ where
  sFsInfo := none
  sBlocksize := 0
  sBlocksizeBits := 0
  sMagic := 0
  sRoot := false
  killed := false

/-- The references taken and dropped, the devices with `SDBFS_F_FIXENDIAN`, and the
    superblocks on which `sdbfs_fill_super` ran, oldest first. -/
structure Kernel (δ : Type) where
  gets : δ → Nat
  puts : δ → Nat
  fixEndian : δ → Bool
  supers : List (SuperBlock δ)

/-- Nothing was mounted yet. -/
def start : Kernel δ where
  gets := fun _ => 0
  puts := fun _ => 0
  fixEndian := fun _ => false
  supers := []

/-- What a mount attempt meets: the device list and the name it looks up in it,
    whether `try_module_get` succeeds, the first word at the entry point as the
    machine loads it, the error of `sdbfs_iget` if it fails, and whether
    `d_make_root` succeeds. -/
structure Attempt (δ : Type) where
  devlist : List (List Byte × δ)
  name : List Byte
  moduleLive : Bool
  littleEndian : Bool
  magic : Word
  igetError : Option Int
  rootMade : Bool

/-! ## The functions -/

section functions

variable [DecidableEq δ]

/-- A successful `try_module_get` on the owner of a device. -/
def Kernel.get (k : Kernel δ) (sd : δ) : Kernel δ :=
  { k with gets := fun d => if d = sd then k.gets d + 1 else k.gets d }

/-- `sdbfs_put`. -/
def sdbfsPut (k : Kernel δ) (sd : δ) : Kernel δ :=
  { k with puts := fun d => if d = sd then k.puts d + 1 else k.puts d }

/-- The first device of the list that has the name. -/
def Attempt.lookup (a : Attempt δ) : Option δ :=
  (a.devlist.find? fun entry => entry.1 == a.name).map Prod.snd

/-- `sdbfs_get_by_name`: no device if there is none of that name, or if its module
    is going away. -/
def sdbfsGetByName (k : Kernel δ) (a : Attempt δ) : Kernel δ × Option δ :=
  match a.lookup with
  | none => (k, none)
  | some sd => if a.moduleLive then (k.get sd, some sd) else (k, none)

/-- `ntohl`. -/
def Attempt.ntohl (a : Attempt δ) (v : Word) : Word :=
  if a.littleEndian then wordOf (byteOf v 3) (byteOf v 2) (byteOf v 1) (byteOf v 0) else v

/-- The end of `sdbfs_fill_super`, once the magic was accepted. -/
def fillRoot (k : Kernel δ) (a : Attempt δ) (sd : δ) : Kernel δ × SuperBlock δ × Int :=
  let sb : SuperBlock δ := { (SuperBlock.fresh : SuperBlock δ) with
    sFsInfo := some sd
    sBlocksize := 64
    sBlocksizeBits := 6
    sMagic := SDB_MAGIC }
  match a.igetError with
  | some err => (sdbfsPut k sd, sb, err)
  | none =>
      if a.rootMade then (k, { sb with sRoot := true }, 0)
      else (sdbfsPut k sd, sb, -ENOMEM)

/-- `sdbfs_fill_super`: the superblock it leaves, and what it returns. -/
def sdbfsFillSuper (k : Kernel δ) (a : Attempt δ) : Kernel δ × SuperBlock δ × Int :=
  match sdbfsGetByName k a with
  | (k, none) => (k, SuperBlock.fresh, -ENOENT)
  | (k, some sd) =>
      -- check the magic number first
      if a.magic = a.ntohl SDB_MAGIC then fillRoot k a sd
      else if a.magic = SDB_MAGIC then
        fillRoot { k with fixEndian := fun d => if d = sd then true else k.fixEndian d } a sd
      else (k, { (SuperBlock.fresh : SuperBlock δ) with sFsInfo := some sd }, -EINVAL)

/-- `sdbfs_kill_sb`. -/
def sdbfsKillSb (k : Kernel δ) (sb : SuperBlock δ) : Kernel δ :=
  match sb.sFsInfo with
  | some sd => sdbfsPut k sd
  | none => k

/-- What the VFS does: mount on a fresh superblock, or kill the one with a number. -/
inductive Action (δ : Type) where
  | mount (a : Attempt δ)
  | kill (i : Nat)

/-- One action; a superblock that is not there, or was killed, is not killed. -/
def step (k : Kernel δ) : Action δ → Option (Kernel δ)
  | .mount a =>
      let r := sdbfsFillSuper k a
      some { r.1 with supers := k.supers ++ [r.2.1] }
  | .kill i =>
      match k.supers[i]? with
      | none => none
      | some sb =>
          if sb.killed then none
          else some { sdbfsKillSb k sb with supers := k.supers.set i { sb with killed := true } }

/-- A live superblock that uses the device. -/
def SuperBlock.uses (sd : δ) (sb : SuperBlock δ) : Bool := !sb.killed && sb.sFsInfo == some sd

/-- The number of live superblocks that use the device. -/
def Kernel.users (k : Kernel δ) (sd : δ) : Nat := k.supers.countP (SuperBlock.uses sd)

/-- The references to every device are those of its live superblocks. -/
def Balanced (k : Kernel δ) : Prop :=
  ∀ sd, k.puts sd ≤ k.gets sd ∧ k.gets sd - k.puts sd = k.users sd

/-- The mount reached the root inode: a device was taken and its magic accepted. -/
def Attempt.accepted (a : Attempt δ) : Bool :=
  a.lookup.isSome && a.moduleLive && (a.magic == a.ntohl SDB_MAGIC || a.magic == SDB_MAGIC)

/-- The action does not fail between the root inode and the root dentry. -/
def Completes : Action δ → Prop
  | .mount a => a.accepted = true → a.igetError = none ∧ a.rootMade = true
  | .kill _ => True

/-! ## What a mount attempt does to the references -/

/-- It finds no device; it takes one and keeps it, although the magic may be wrong;
    or it takes one and drops it again. -/
inductive Filled (k : Kernel δ) (a : Attempt δ) (k' : Kernel δ) (sb : SuperBlock δ) : Prop where
  | noDevice (hgets : k'.gets = k.gets) (hputs : k'.puts = k.puts) (hsb : sb.sFsInfo = none)
      (hdone : Completes (.mount a))
  | kept (sd : δ) (hgets : k'.gets = (k.get sd).gets) (hputs : k'.puts = k.puts)
      (hsb : sb.sFsInfo = some sd) (hdone : Completes (.mount a))
  | dropped (sd : δ) (hgets : k'.gets = (k.get sd).gets) (hputs : k'.puts = (sdbfsPut k sd).puts)
      (hsb : sb.sFsInfo = some sd) (hfail : ¬ Completes (.mount a))

/-- What becomes of the super block, once there is a device. -/
theorem fillRoot_cases {k₀ k : Kernel δ} {a : Attempt δ} {sd : δ}
    (hgets : k.gets = (k₀.get sd).gets) (hputs : k.puts = k₀.puts) (hacc : a.accepted = true) :
    Filled k₀ a (fillRoot k a sd).1 (fillRoot k a sd).2.1 ∧
      (fillRoot k a sd).2.1.killed = false := by
  have hput : (sdbfsPut k sd).puts = (sdbfsPut k₀ sd).puts := by
    show (fun d => if d = sd then k.puts d + 1 else k.puts d) = _
    rw [hputs]
    rfl
  rw [fillRoot]
  cases herr : a.igetError with
  | some err =>
      refine ⟨Filled.dropped sd hgets hput rfl ?_, rfl⟩
      intro hdone
      rw [(hdone hacc).1] at herr
      cases herr
  | none =>
      by_cases hroot : a.rootMade = true
      · simp only [if_pos hroot]
        exact ⟨Filled.kept sd hgets hputs rfl fun _ => ⟨herr, hroot⟩, rfl⟩
      · simp only [if_neg hroot]
        refine ⟨Filled.dropped sd hgets hput rfl ?_, rfl⟩
        intro hdone
        exact hroot (hdone hacc).2

/-- What becomes of it at all. -/
theorem sdbfsFillSuper_cases (k : Kernel δ) (a : Attempt δ) :
    Filled k a (sdbfsFillSuper k a).1 (sdbfsFillSuper k a).2.1 ∧
      (sdbfsFillSuper k a).2.1.killed = false := by
  rw [sdbfsFillSuper, sdbfsGetByName]
  cases hlook : a.lookup with
  | none =>
      refine ⟨Filled.noDevice rfl rfl rfl ?_, rfl⟩
      intro hacc
      rw [Attempt.accepted, hlook] at hacc
      cases hacc
  | some sd =>
      by_cases hlive : a.moduleLive = true
      · simp only [if_pos hlive]
        have haccepted : a.accepted = (a.magic == a.ntohl SDB_MAGIC || a.magic == SDB_MAGIC) := by
          rw [Attempt.accepted, hlook, hlive]
          rfl
        by_cases hmagic : a.magic = a.ntohl SDB_MAGIC
        · rw [if_pos hmagic]
          refine fillRoot_cases rfl rfl ?_
          rw [haccepted, beq_iff_eq.mpr hmagic, Bool.true_or]
        · by_cases hswapped : a.magic = SDB_MAGIC
          · rw [if_neg hmagic, if_pos hswapped]
            refine fillRoot_cases rfl rfl ?_
            rw [haccepted, beq_iff_eq.mpr hswapped, Bool.or_true]
          · rw [if_neg hmagic, if_neg hswapped]
            refine ⟨Filled.kept sd rfl rfl rfl ?_, rfl⟩
            intro hacc
            rw [haccepted, beq_eq_false_iff_ne.mpr hmagic, beq_eq_false_iff_ne.mpr hswapped] at hacc
            cases hacc
      · simp only [if_neg hlive]
        refine ⟨Filled.noDevice rfl rfl rfl ?_, rfl⟩
        intro hacc
        rw [Attempt.accepted, Bool.eq_false_iff.mpr hlive, Bool.and_false] at hacc
        cases hacc

/-! ## Balance -/

/-- A super block uses the device it was given. -/
theorem uses_iff {sb : SuperBlock δ} (hkilled : sb.killed = false) (sd : δ) :
    SuperBlock.uses sd sb = true ↔ sb.sFsInfo = some sd := by
  rw [SuperBlock.uses, hkilled, Bool.not_false, Bool.true_and, beq_iff_eq]

/-- A superblock that is added counts for its device. -/
theorem users_append (k k' : Kernel δ) {sb : SuperBlock δ}
    (hk' : k'.supers = k.supers ++ [sb]) (hkilled : sb.killed = false) (sd : δ) :
    k'.users sd = k.users sd + if sb.sFsInfo = some sd then 1 else 0 := by
  have hone : [sb].countP (SuperBlock.uses sd) = if sb.sFsInfo = some sd then 1 else 0 := by
    rw [List.countP_singleton]
    by_cases h : sb.sFsInfo = some sd
    · rw [if_pos h, if_pos ((uses_iff hkilled sd).mpr h)]
    · rw [if_neg h, if_neg (mt (uses_iff hkilled sd).mp h)]
  rw [Kernel.users, Kernel.users, hk', List.countP_append, hone]

theorem get_gets (k : Kernel δ) (sd d : δ) :
    (k.get sd).gets d = k.gets d + if some sd = some d then 1 else 0 := by
  show (if d = sd then k.gets d + 1 else k.gets d) = _
  by_cases h : d = sd
  · rw [if_pos h, if_pos (congrArg some h.symm)]
  · rw [if_neg h, if_neg fun heq => h (Option.some.inj heq).symm, Nat.add_zero]

theorem put_puts (k : Kernel δ) (sd d : δ) :
    (sdbfsPut k sd).puts d = k.puts d + if some sd = some d then 1 else 0 := by
  show (if d = sd then k.puts d + 1 else k.puts d) = _
  by_cases h : d = sd
  · rw [if_pos h, if_pos (congrArg some h.symm)]
  · rw [if_neg h, if_neg fun heq => h (Option.some.inj heq).symm, Nat.add_zero]

/-- A mount keeps the balance if it completes. -/
theorem balanced_mount {k : Kernel δ} {a : Attempt δ} (hk : Balanced k)
    (hdone : Completes (.mount a)) {k' : Kernel δ} (h : step k (.mount a) = some k') :
    Balanced k' := by
  obtain ⟨hfill, hkilled⟩ := sdbfsFillSuper_cases k a
  cases h
  intro sd
  obtain ⟨hle, heq⟩ := hk sd
  have husers := users_append k { (sdbfsFillSuper k a).1 with
    supers := k.supers ++ [(sdbfsFillSuper k a).2.1] } rfl hkilled sd
  rw [husers]
  cases hfill with
  | noDevice hgets hputs hsb =>
      rw [hsb, hgets, hputs]
      exact ⟨hle, heq⟩
  | kept sd' hgets hputs hsb =>
      rw [hsb, hgets, hputs, get_gets]
      omega
  | dropped sd' hgets hputs hsb hfail => exact absurd hdone hfail

/-- A mount that fails behind the root inode breaks it: the reference was dropped, and
    the superblock still names the device. -/
theorem unbalanced_mount {k : Kernel δ} {a : Attempt δ} (hk : Balanced k)
    (hfail : ¬ Completes (.mount a)) {k' : Kernel δ} (h : step k (.mount a) = some k') :
    ¬ Balanced k' := by
  obtain ⟨hfill, hkilled⟩ := sdbfsFillSuper_cases k a
  cases h
  cases hfill with
  | noDevice hgets hputs hsb hdone => exact absurd hdone hfail
  | kept sd hgets hputs hsb hdone => exact absurd hdone hfail
  | dropped sd hgets hputs hsb =>
      intro hk'
      obtain ⟨hle, heq⟩ := hk sd
      obtain ⟨_, heq'⟩ := hk' sd
      have husers := users_append k { (sdbfsFillSuper k a).1 with
        supers := k.supers ++ [(sdbfsFillSuper k a).2.1] } rfl hkilled sd
      rw [husers, hsb, if_pos rfl, hgets, hputs, get_gets, put_puts, if_pos rfl] at heq'
      omega

/-- Killing a superblock drops the reference it held. -/
theorem balanced_kill {k : Kernel δ} {i : Nat} (hk : Balanced k) {k' : Kernel δ}
    (h : step k (.kill i) = some k') : Balanced k' := by
  rw [step] at h
  cases hsb : k.supers[i]? with
  | none =>
      rw [hsb] at h
      cases h
  | some sb =>
      simp only [hsb] at h
      by_cases hkilled : sb.killed = true
      · rw [if_pos hkilled] at h
        cases h
      · rw [if_neg hkilled] at h
        cases h
        intro sd
        obtain ⟨hle, heq⟩ := hk sd
        obtain ⟨hi, hget⟩ := List.getElem?_eq_some_iff.mp hsb
        have hpos : SuperBlock.uses sd sb = true → 0 < k.users sd := fun huse =>
          List.countP_pos_iff.mpr ⟨sb, List.mem_of_getElem? hsb, huse⟩
        have husers : (k.supers.set i { sb with killed := true }).countP (SuperBlock.uses sd) =
            k.users sd - (if SuperBlock.uses sd sb then 1 else 0) := by
          rw [List.countP_set hi, hget]
          rfl
        show (sdbfsKillSb k sb).puts sd ≤ (sdbfsKillSb k sb).gets sd ∧
          (sdbfsKillSb k sb).gets sd - (sdbfsKillSb k sb).puts sd =
            (k.supers.set i { sb with killed := true }).countP (SuperBlock.uses sd)
        rw [husers, sdbfsKillSb]
        have huse := uses_iff (Bool.eq_false_iff.mpr hkilled) sd
        cases hinfo : sb.sFsInfo with
        | none =>
            rw [hinfo] at huse
            rw [if_neg fun hu => by cases huse.mp hu]
            exact ⟨hle, heq⟩
        | some sd' =>
            rw [hinfo] at huse
            show (sdbfsPut k sd').puts sd ≤ k.gets sd ∧ k.gets sd - (sdbfsPut k sd').puts sd = _
            rw [put_puts]
            by_cases hsd : some sd' = some sd
            · have hu := hpos (huse.mpr hsd)
              rw [if_pos hsd, if_pos (huse.mpr hsd)]
              omega
            · rw [if_neg hsd, if_neg (mt huse.mp hsd)]
              exact ⟨hle, heq⟩

/-- A mount or an umount that completes keeps the balance. -/
theorem balanced_step {k : Kernel δ} {act : Action δ} (hk : Balanced k) (hdone : Completes act)
    {k' : Kernel δ} (h : step k act = some k') : Balanced k' := by
  cases act with
  | mount a => exact balanced_mount hk hdone h
  | kill i => exact balanced_kill hk h

/-- A mount that fails does not. -/
theorem unbalanced_step {k : Kernel δ} {act : Action δ} (hk : Balanced k)
    (hfail : ¬ Completes act) {k' : Kernel δ} (h : step k act = some k') : ¬ Balanced k' := by
  cases act with
  | mount a => exact unbalanced_mount hk hfail h
  | kill i => exact absurd trivial hfail

theorem balanced_start : Balanced (start : Kernel δ) := fun _ => ⟨Nat.le_refl 0, rfl⟩

/-- **The references of a device are its live superblocks, as long as no mount fails
    behind the magic check.**  In every order of mounts and unmounts, whatever the
    environment answers: there are never more references dropped than taken, and the
    difference is the number of live superblocks that use the device, in every state
    of the run; unless an attempt fails at the root inode or the root dentry, where
    the reference is dropped and the superblock goes on naming the device. -/
theorem mount_balanced (actions : List (Action δ)) :
    (∀ t ∈ trace step (start : Kernel δ) actions, Balanced t.behind) ↔
      ∀ t ∈ trace step (start : Kernel δ) actions, Completes t.act :=
  trace_iff (fun _ hk => hk) (fun _ _ _ hk hdone h => balanced_step hk hdone h)
    (fun _ _ _ hk hfail h => unbalanced_step hk hfail h) balanced_start

end functions

/-! ## A mount that fails -/

/-- A device with a good magic number, whose root inode cannot be had. -/
def failingAttempt : Attempt Unit where
  devlist := [([0x61], ())]
  name := [0x61]
  moduleLive := true
  littleEndian := true
  magic := 0x2d424453
  igetError := some (-12)
  rootMade := true

/-- One mount fails, and its superblock is killed: one reference more is dropped than
    was taken. -/
theorem mount_unbalanced :
    ((step start (.mount failingAttempt)).bind fun k => (step k (.kill 0)).map fun k =>
        (k.gets (), k.puts ())) = some (1, 2) ∧
      ¬ ∀ t ∈ trace step (start : Kernel Unit) [.mount failingAttempt, .kill 0],
        Balanced t.behind := by
  refine ⟨by decide, ?_⟩
  intro hall
  have htwo : ((trace step (start : Kernel Unit) [.mount failingAttempt, .kill 0])[1]?).map
      (fun t => decide (t.behind.puts () ≤ t.behind.gets ())) = some false := by decide
  obtain ⟨t, ht, hbad⟩ := Option.map_eq_some_iff.mp htwo
  exact absurd (hall t (List.mem_of_getElem? ht) ()).1 (of_decide_eq_false hbad)

end SdbfsMount
