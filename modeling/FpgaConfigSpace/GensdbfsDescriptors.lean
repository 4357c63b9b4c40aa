import FpgaConfigSpace.GensdbfsMain
import FpgaConfigSpace.GensdbfsTables
import FpgaConfigSpace.GensdbfsInput

/-! # A limit on the descriptors

    `scan_inputdir` opens a directory twice and closes it once, so every directory keeps a
    descriptor until the program exits.  A configuration file keeps one while its directory
    is scanned, and `write_sdb` needs one for every subdirectory that it is in and one for
    the file that it copies.  `limit` is the number of descriptors that the program may have
    besides the image and the standard streams. -/

namespace GensdbfsDescriptors

open BigEndian SdbRecord SdbFields SdbfsOpen FileWrites Gensdbfs GensdbfsLayout GensdbfsConfig
open GensdbfsApart GensdbfsTables GensdbfsInput GensdbfsMain

/-- "--SDB-CONFIG--" -/
def CFG_NAME : CString :=
  ⟨[0x2d, 0x2d, 0x53, 0x44, 0x42, 0x2d, 0x43, 0x4f, 0x4e, 0x46, 0x49, 0x47, 0x2d, 0x2d], by decide⟩

/-- What `scan_inputdir` leaves: the entries, the descriptors in use, and whether `*cfgf` is
    open. -/
structure Scanned where
  entries : Entries
  used : Nat
  cfg : Bool

variable (blocksize : BitVec 32) (limit : Nat)

/-! ## The program -/

/-- The end of `prepare_dir`: a configuration file that is open is read and closed. -/
def closeConfig (level : Nat) (config : Config) (s : Scanned) : Tree × Nat :=
  let tree : Tree := ⟨fillDot level (s.entries.count + 1), s.entries⟩
  if s.cfg then (scanConfig level config tree, s.used - 1) else (tree, s.used)

/-- The second loop of `scan_inputdir`, with `used` descriptors in use, and with it
    `prepare_dir` of the subdirectories. -/
def scanWithin (level : Nat) : Dirents → (used : Nat) → (cfg : Bool) → Option Scanned
  | .nil, used, cfg => some ⟨.nil, used, cfg⟩
  | .file name file rest, used, cfg =>
      (scanWithin level rest used cfg).map fun s =>
        { s with entries := .file (fillFile blocksize level name file) file s.entries }
  | .other name rest, used, cfg =>
      if name.chars = CFG_NAME.chars then
        if used < limit then scanWithin level rest (used + 1) true
        -- "don't exit on this error: proceed without cfg"
        else scanWithin level rest used false
      else scanWithin level rest used cfg
  | .lost _ _, _, _ => none
  | .dir name config sub rest, used, cfg =>
      -- the first `opendir` is closed again, and the second is not
      if used < limit then
        (scanWithin (level + 1) sub (used + 1) false).bind fun s =>
          let t := closeConfig (level + 1) config s
          (scanWithin level rest t.2 cfg).map fun r =>
            { r with entries := .subdir (fillDir level name) t.1.dot t.1.entries r.entries }
      else none

/-- `prepare_dir`, of the directory that the program is given: the tree, and the
    descriptors that stay in use. -/
def prepareWithin (config : Config) (dirents : Dirents) : Option (Tree × Nat) :=
  if 0 < limit then
    (scanWithin blocksize limit 0 dirents 1 false).map (closeConfig 0 config)
  else none

/-- Whether a file can be opened below a number of open directories. -/
def spare (used n : Nat) : Bool := decide (used + n < limit)

/-- The program, with a limit on its descriptors. -/
def gensdbfsWithin (devsize : ULong) (config : Config) (dirents : Dirents) :
    Bool × List (Write Byte) :=
  match prepareWithin blocksize limit config dirents with
  | none => (false, [])
  | some (tree, used) =>
      finishWith blocksize (spare limit used) devsize (allocStorage blocksize tree)

/-! ## What stays open -/

/-- The directories below a directory. -/
def directories : Dirents → Nat
  | .nil => 0
  | .file _ _ rest => directories rest
  | .other _ rest => directories rest
  | .lost _ rest => directories rest
  | .dir _ _ sub rest => directories sub + 1 + directories rest

/-- The entries of a directory that are its configuration file. -/
def configEntries : Dirents → Nat
  | .nil => 0
  | .file _ _ rest => configEntries rest
  | .other name rest => configEntries rest + if name.chars = CFG_NAME.chars then 1 else 0
  | .lost _ rest => configEntries rest
  | .dir _ _ _ rest => configEntries rest

/-- No directory below has its configuration file twice. -/
def OneConfigBelow : Dirents → Prop
  | .nil => True
  | .file _ _ rest => OneConfigBelow rest
  | .other _ rest => OneConfigBelow rest
  | .lost _ rest => OneConfigBelow rest
  | .dir _ _ sub rest => configEntries sub ≤ 1 ∧ OneConfigBelow sub ∧ OneConfigBelow rest

/-- No directory has two entries of the name of the configuration file. -/
def OneConfig (dirents : Dirents) : Prop := configEntries dirents ≤ 1 ∧ OneConfigBelow dirents

variable {blocksize limit}

/-- A configuration file gives its descriptor back. -/
theorem closeConfig_used (level : Nat) (config : Config) (s : Scanned) :
    (closeConfig level config s).2 = s.used - s.cfg.toNat := by
  rw [closeConfig]
  cases s.cfg <;> rfl

/-- Scanning leaves a descriptor open for every directory. -/
theorem scanWithin_used {dirents : Dirents} : ∀ {level used : Nat} {cfg : Bool} {s : Scanned},
    scanWithin blocksize limit level dirents used cfg = some s →
    configEntries dirents + cfg.toNat ≤ 1 → OneConfigBelow dirents →
    s.used + cfg.toNat = used + directories dirents + s.cfg.toNat := by
  induction dirents with
  | nil =>
      intro level used cfg s h _ _
      cases h
      rfl
  | file name file rest ih =>
      intro level used cfg s h hone hbelow
      obtain ⟨left, hleft, rfl⟩ := Option.map_eq_some_iff.mp h
      have hused := ih hleft hone hbelow
      exact hused
  | other name rest ih =>
      intro level used cfg s h hone hbelow
      rw [scanWithin] at h
      rw [configEntries] at hone
      by_cases hcfg : name.chars = CFG_NAME.chars
      · rw [if_pos hcfg] at h hone
        have hnone : cfg.toNat = 0 := by omega
        rw [hnone, directories]
        by_cases hspare : used < limit
        · rw [if_pos hspare] at h
          have hused := ih h (show configEntries rest + 1 ≤ 1 by omega) hbelow
          have htrue : (true : Bool).toNat = 1 := rfl
          omega
        · rw [if_neg hspare] at h
          exact ih h (show configEntries rest + 0 ≤ 1 by omega) hbelow
      · rw [if_neg hcfg] at h hone
        exact ih h hone hbelow
  | lost name rest => exact fun h => absurd h (Option.some_ne_none _).symm
  | dir name config sub rest ihsub ih =>
      rintro level used cfg s h hone ⟨honeSub, hbelowSub, hbelow⟩
      rw [scanWithin] at h
      split at h
      · obtain ⟨below, hsub, h⟩ := Option.bind_eq_some_iff.mp h
        obtain ⟨left, hleft, rfl⟩ := Option.map_eq_some_iff.mp h
        have hused := ihsub hsub (show configEntries sub + 0 ≤ 1 by omega) hbelowSub
        have hrest := ih hleft hone hbelow
        rw [closeConfig_used] at hrest
        have hfalse : (false : Bool).toNat = 0 := rfl
        simp only [directories]
        omega
      · cases h

/-- The descriptors that are in use when the image is written. -/
theorem prepareWithin_used {config : Config} {dirents : Dirents} {tree : Tree} {used : Nat}
    (h : prepareWithin blocksize limit config dirents = some (tree, used))
    (hone : OneConfig dirents) : used = directories dirents + 1 := by
  rw [prepareWithin] at h
  split at h
  · obtain ⟨s, hs, h⟩ := Option.map_eq_some_iff.mp h
    have hused := scanWithin_used hs hone.1 hone.2
    have hlast : (closeConfig 0 config s).2 = used := congrArg Prod.snd h
    have hfalse : (false : Bool).toNat = 0 := rfl
    rw [closeConfig_used] at hlast
    omega
  · cases h

/-! ## The tree that is built -/

/-- A directory of which some configuration files are not read. -/
def FewerConfigs : Dirents → Dirents → Prop
  | .nil, d => d = .nil
  | .file name file rest, d => ∃ rest', d = .file name file rest' ∧ FewerConfigs rest rest'
  | .other name rest, d => ∃ rest', d = .other name rest' ∧ FewerConfigs rest rest'
  | .lost name rest, d => ∃ rest', d = .lost name rest' ∧ FewerConfigs rest rest'
  | .dir name config sub rest, d => ∃ config' sub' rest', d = .dir name config' sub' rest' ∧
      (config' = config ∨ config' = []) ∧ FewerConfigs sub sub' ∧ FewerConfigs rest rest'

/-- A configuration that is not read is an empty one. -/
theorem closeConfig_tree (level : Nat) (config : Config) (s : Scanned) :
    ∃ config', (config' = config ∨ config' = []) ∧ (closeConfig level config s).1 =
      scanConfig level config' ⟨fillDot level (s.entries.count + 1), s.entries⟩ := by
  rw [closeConfig]
  cases s.cfg with
  | true => exact ⟨config, .inl rfl, rfl⟩
  | false => exact ⟨[], .inr rfl, rfl⟩

/-- **A limit on the descriptors loses configuration files, or everything.** -/
theorem scanWithin_entries {dirents : Dirents} : ∀ {level used : Nat} {cfg : Bool} {s : Scanned},
    scanWithin blocksize limit level dirents used cfg = some s →
    ∃ d, FewerConfigs dirents d ∧ scanEntries blocksize level d = some s.entries := by
  induction dirents with
  | nil =>
      intro level used cfg s h
      cases h
      exact ⟨.nil, rfl, rfl⟩
  | file name file rest ih =>
      intro level used cfg s h
      obtain ⟨left, hleft, rfl⟩ := Option.map_eq_some_iff.mp h
      obtain ⟨d, hd, hscan⟩ := ih hleft
      exact ⟨.file name file d, ⟨d, rfl, hd⟩, Option.map_eq_some_iff.mpr ⟨_, hscan, rfl⟩⟩
  | other name rest ih =>
      intro level used cfg s h
      have hrest : ∀ {used : Nat} {cfg : Bool},
          scanWithin blocksize limit level rest used cfg = some s →
          ∃ d, FewerConfigs (.other name rest) d ∧
            scanEntries blocksize level d = some s.entries := by
        intro used cfg h
        obtain ⟨d, hd, hscan⟩ := ih h
        exact ⟨.other name d, ⟨d, rfl, hd⟩, hscan⟩
      rw [scanWithin] at h
      split at h
      · split at h
        · exact hrest h
        · exact hrest h
      · exact hrest h
  | lost name rest => exact fun h => absurd h (Option.some_ne_none _).symm
  | dir name config sub rest ihsub ih =>
      intro level used cfg s h
      rw [scanWithin] at h
      split at h
      · obtain ⟨below, hsub, h⟩ := Option.bind_eq_some_iff.mp h
        obtain ⟨left, hleft, rfl⟩ := Option.map_eq_some_iff.mp h
        obtain ⟨sub', hsub', hscanSub⟩ := ihsub hsub
        obtain ⟨rest', hrest', hscan⟩ := ih hleft
        obtain ⟨config', hconfig, htree⟩ := closeConfig_tree (level + 1) config below
        refine ⟨.dir name config' sub' rest', ⟨_, _, _, rfl, hconfig, hsub', hrest'⟩, ?_⟩
        rw [scanEntries, hscanSub, Option.bind_some, hscan, htree]
        rfl
      · cases h

/-- The program works on the tree of such a directory. -/
theorem prepareWithin_tree {config : Config} {dirents : Dirents} {tree : Tree} {used : Nat}
    (h : prepareWithin blocksize limit config dirents = some (tree, used)) :
    ∃ config' d, (config' = config ∨ config' = []) ∧ FewerConfigs dirents d ∧
      prepareDir blocksize config' d = some tree := by
  rw [prepareWithin] at h
  split at h
  · obtain ⟨s, hs, h⟩ := Option.map_eq_some_iff.mp h
    obtain ⟨d, hd, hscan⟩ := scanWithin_entries hs
    obtain ⟨config', hconfig, htree⟩ := closeConfig_tree 0 config s
    refine ⟨config', d, hconfig, hd, ?_⟩
    rw [prepareDir, hscan, Option.map_some, ← htree, h]
  · cases h

/-! ## With descriptors enough -/

/-- The directories below have a configuration file if they have a configuration. -/
def ListedBelow : Dirents → Prop
  | .nil => True
  | .file _ _ rest => ListedBelow rest
  | .other _ rest => ListedBelow rest
  | .lost _ rest => ListedBelow rest
  | .dir _ config sub rest =>
      (configEntries sub = 0 → config = []) ∧ ListedBelow sub ∧ ListedBelow rest

/-- How deep the directories below are nested. -/
def nesting : Dirents → Nat
  | .nil => 0
  | .file _ _ rest => nesting rest
  | .other _ rest => nesting rest
  | .lost _ rest => nesting rest
  | .dir _ _ sub rest => max (nesting sub + 1) (nesting rest)

/-- It is read if there is one, and nothing else stays of it. -/
theorem closeConfig_listed {level used n : Nat} {config : Config} {e : Entries} {cfg : Bool}
    (hlisted : n = 0 → config = []) (hn : n ≤ 1) (hcfg : cfg = decide (n ≠ 0)) :
    closeConfig level config ⟨e, used + n, cfg⟩ =
      (scanConfig level config ⟨fillDot level (e.count + 1), e⟩, used) := by
  rw [closeConfig, hcfg]
  by_cases h : n = 0
  · rw [hlisted h, h]
    rfl
  · have hone : n = 1 := by omega
    rw [hone]
    rfl

/-- Nothing is lost in a scan that has descriptors enough. -/
theorem scanWithin_enough {dirents : Dirents} : ∀ {level used : Nat} {cfg : Bool},
    configEntries dirents + cfg.toNat ≤ 1 → OneConfigBelow dirents → ListedBelow dirents →
    used + directories dirents + nesting dirents + 1 ≤ limit + cfg.toNat →
    scanWithin blocksize limit level dirents used cfg =
      (scanEntries blocksize level dirents).map fun e =>
        ⟨e, used + directories dirents + configEntries dirents,
          cfg || decide (configEntries dirents ≠ 0)⟩ := by
  induction dirents with
  | nil =>
      intro level used cfg _ _ _ _
      rw [scanWithin, scanEntries, Option.map_some, directories, configEntries]
      simp
  | file name file rest ih =>
      intro level used cfg hone hbelow hlisted hlimit
      rw [scanWithin, ih hone hbelow hlisted hlimit, scanEntries, Option.map_map, Option.map_map]
      rfl
  | other name rest ih =>
      intro level used cfg hone hbelow hlisted hlimit
      rw [configEntries] at hone
      rw [directories, nesting] at hlimit
      rw [scanWithin, scanEntries, directories, configEntries]
      by_cases hcfg : name.chars = CFG_NAME.chars
      · rw [if_pos hcfg] at hone ⊢
        have hnone : cfg.toNat = 0 := by omega
        have htrue : (true : Bool).toNat = 1 := rfl
        rw [if_pos (show used < limit by omega), if_pos hcfg, ih (by omega) hbelow hlisted (by omega)]
        refine congrArg (Option.map · _) (funext fun e => ?_)
        have hrest : configEntries rest = 0 := by omega
        rw [hrest]
        simp only [Bool.true_or, ne_eq, Nat.zero_add, Nat.one_ne_zero, not_false_eq_true, decide_true,
          Bool.or_true, Nat.add_zero, Scanned.mk.injEq, and_true, true_and]
        omega
      · rw [if_neg hcfg] at hone ⊢
        rw [if_neg hcfg, ih hone hbelow hlisted hlimit]
        rfl
  | lost name rest => exact fun _ _ _ _ => rfl
  | dir name config sub rest ihsub ih =>
      rintro level used cfg hone ⟨honeSub, hbelowSub, hbelow⟩ ⟨hlisted, hlistedSub, hlistedRest⟩ hlimit
      rw [directories, nesting] at hlimit
      rw [configEntries] at hone
      have hle : cfg.toNat ≤ 1 := by omega
      have hsubLevels := Nat.le_max_left (nesting sub + 1) (nesting rest)
      have hrestLevels := Nat.le_max_right (nesting sub + 1) (nesting rest)
      have hfalse : (false : Bool).toNat = 0 := rfl
      rw [scanWithin, if_pos (by omega), ihsub (by omega) hbelowSub hlistedSub (by omega), scanEntries]
      cases hscan : scanEntries blocksize (level + 1) sub with
      | none => rfl
      | some e =>
          simp only [Option.map_some, Option.bind_some]
          rw [closeConfig_listed hlisted honeSub (Bool.false_or _),
            ih hone hbelow hlistedRest (by omega)]
          rw [Option.map_map, Option.map_map, directories, configEntries]
          refine congrArg (Option.map · _) (funext fun left => ?_)
          simp only [Function.comp, Scanned.mk.injEq, and_true, true_and]
          omega

/-- `write_sdb` ignores nothing if there is a descriptor at every level. -/
theorem outputEntries_opens (e : Entries) : ∀ (opens : Nat → Bool) (base : ULong) (left : Nat)
    (out : Output), (∀ n ≤ levelsBelow e, opens n = true) →
    outputEntries blocksize opens base left e out =
      outputEntries blocksize anyOpens base left e out := by
  induction e with
  | nil => exact fun opens base left out _ => by cases left <;> rfl
  | file f file rest ih =>
      intro opens base left out hopens
      cases left with
      | zero => rfl
      | succ left =>
          rw [outputEntries, outputEntries, if_pos (hopens 0 (Nat.zero_le _)),
            ih opens base left _ hopens]
          rfl
  | subdir f dot sub rest ihsub ih =>
      intro opens base left out hopens
      cases left with
      | zero => rfl
      | succ left =>
          have hsub : ∀ n ≤ levelsBelow sub, opens (n + 1) = true := fun n hn =>
            hopens (n + 1) (Nat.le_trans (Nat.succ_le_succ hn) (Nat.le_max_left _ _))
          have hrest : ∀ n ≤ levelsBelow rest, opens n = true := fun n hn =>
            hopens n (Nat.le_trans hn (Nat.le_max_right _ _))
          rw [outputEntries, outputEntries, if_pos (hopens 0 (Nat.zero_le _)),
            ih opens base left _ hrest]
          simp only
          rw [ihsub (fun n => opens (n + 1)) _ _ _ hsub]
          rfl

/-- The tree is as deep as the directories. -/
theorem levelsBelow_built {dirents : Dirents} : ∀ {level i : Nat}
    {directives : Nat → List Directive} {e : Entries},
    builtEntries blocksize level directives dirents i = some e →
    levelsBelow e = nesting dirents := by
  induction dirents with
  | nil =>
      intro level i directives e h
      cases h
      rfl
  | file name file rest ih =>
      intro level i directives e h
      obtain ⟨left, hleft, rfl⟩ := Option.map_eq_some_iff.mp h
      have hlevels := ih hleft
      exact hlevels
  | other name rest ih => exact fun h => ih h
  | lost name rest => exact fun h => absurd h (Option.some_ne_none _).symm
  | dir name config sub rest ihsub ih =>
      intro level i directives e h
      obtain ⟨below, hbelow, h⟩ := Option.bind_eq_some_iff.mp h
      obtain ⟨left, hleft, rfl⟩ := Option.map_eq_some_iff.mp h
      rw [levelsBelow, nesting, ihsub hbelow, ih hleft]

/-- Allocating moves nothing to another level. -/
theorem levelsBelow_allocEntries (e : Entries) : ∀ (base : ULong) (left : Nat) (rpos last : ULong),
    levelsBelow (allocEntries blocksize base left e rpos last).1 = levelsBelow e := by
  induction e with
  | nil => exact fun base left rpos last => by cases left <;> rfl
  | file f file rest ih =>
      intro base left rpos last
      cases left with
      | zero => rfl
      | succ left => exact ih base left _ _
  | subdir f dot sub rest ihsub ih =>
      intro base left rpos last
      cases left with
      | zero => rfl
      | succ left =>
          rw [allocEntries, levelsBelow, levelsBelow, ihsub, ih]

/-- **With descriptors enough a run is what the program does without a limit.** -/
theorem gensdbfsWithin_enough {devsize : ULong} {config : Config} {dirents : Dirents}
    (hone : OneConfig dirents) (hlisted : configEntries dirents = 0 → config = [])
    (hlistedBelow : ListedBelow dirents)
    (hlimit : directories dirents + nesting dirents + 2 ≤ limit) :
    gensdbfsWithin blocksize limit devsize config dirents =
      gensdbfs blocksize devsize config dirents := by
  have hprepare : prepareWithin blocksize limit config dirents =
      (prepareDir blocksize config dirents).map fun tree => (tree, directories dirents + 1) := by
    have hscan := @scanWithin_enough blocksize limit dirents 0 1 false
      hone.1 hone.2 hlistedBelow
      (show _ ≤ limit + 0 by omega)
    rw [prepareWithin, if_pos (by omega), hscan, prepareDir, Option.map_map, Option.map_map]
    refine congrArg (Option.map · _) (funext fun e => ?_)
    refine (closeConfig_listed hlisted hone.1 (Bool.false_or _)).trans ?_
    rw [Nat.add_comm 1]
    rfl
  rw [gensdbfsWithin, gensdbfs, hprepare]
  cases htree : prepareDir blocksize config dirents with
  | none => rfl
  | some tree =>
      have hlevels : levelsBelow (allocStorage blocksize tree).entries = nesting dirents := by
        rw [prepareDir_built] at htree
        obtain ⟨e, he, rfl⟩ := Option.map_eq_some_iff.mp htree
        exact (levelsBelow_allocEntries _ _ _ _ _).trans (levelsBelow_built he)
      have hspare : ∀ n ≤ levelsBelow (allocStorage blocksize tree).entries,
          spare limit (directories dirents + 1) n = true := by
        intro n hn
        rw [hlevels] at hn
        exact decide_eq_true (by omega)
      show finishWith blocksize _ devsize _ = finishWith blocksize anyOpens devsize _
      rw [finishWith, finishWith, outputTree, outputTree, outputEntries_opens _ _ _ _ _ hspare]

end GensdbfsDescriptors
