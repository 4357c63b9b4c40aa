import FpgaConfigSpace.GensdbfsInput
import FpgaConfigSpace.GensdbfsFrame

/-! # Files that can be written to

    "In any case if the file can be written to, align to the block size": the size is rounded
    when the file is filled in, by its mode.  The configuration may give it another size, or
    the write flag, afterwards; and a "." at an odd place moves what follows it. -/

namespace GensdbfsErase

open BigEndian SdbRecord SdbFields SdbfsOpen Gensdbfs GensdbfsLayout GensdbfsConfig GensdbfsInput
open GensdbfsFrame

/-! ## What is emitted -/

/-- The files of the tables that are written, with the bases of their directories. -/
def emittedFiles (base : ULong) : (left : Nat) → Entries → List (ULong × Sdbf)
  | 0, _ => []
  | _, .nil => []
  | left + 1, .file f _ rest => (base, f) :: emittedFiles base left rest
  | left + 1, .subdir _ dot sub rest =>
      emittedFiles dot.base (records dot - 1) sub ++ emittedFiles base left rest

/-- A range of whole blocks, at the beginning of a block unless the user wants it elsewhere. -/
structure WholeBlocks (b : Nat) (base : ULong) (f : Sdbf) : Prop where
  size : b ∣ (addrLast f.record + 1 - addrFirst f.record).toNat
  start : f.userpos = false → b ∣ (addrFirst f.record).toNat ∧ b ∣ (base + addrFirst f.record).toNat

/-- Whatever has the write flag can be erased on its own. -/
def WritableWhole (b : Nat) (tree : Tree) : Prop :=
  ∀ p ∈ emittedFiles tree.dot.base (records tree.dot - 1) tree.entries,
    writeBit p.2.record = true → WholeBlocks b p.1 p.2

/-! ## What is asked for -/

/-- The flag that a file ends up with. -/
def writable (ds : List Directive) (file : RegularFile) : Bool :=
  match lastNaming .dataWrite ds with
  | some (.write on) => on
  | _ => file.iwoth

/-- The size is a number of blocks: the one that the user wants, or else the file's, which is
    rounded for a file that can be written to. -/
def WholeSize (b : Nat) (ds : List Directive) (file : RegularFile) : Prop :=
  match lastNaming .size ds with
  | some (.maxsize size) => b ∣ size.toNat
  | _ => file.iwoth = true ∨ b ∣ file.size

/-- The user wants an entry at a place. -/
def Positioned (level : Nat) (ds : List Directive) : Prop :=
  level = 0 ∧ ∃ start, Directive.position start ∈ ds

/-- Every file of a directory that is made writable has a whole size, and is at a whole place
    or where the user wants it.  `base` and `here` say whether the directory and the next
    place are whole: behind the first entry that has no place of its own, the places are. -/
def FilesWhole (b : Nat) : (level : Nat) → (directives : Nat → List Directive) → (base : Prop) →
    Dirents → (left i : Nat) → (here : Prop) → Prop
  | _, _, _, .nil, _, _, _ => True
  | _, _, _, .lost _ _, _, _, _ => True
  | level, directives, base, .other _ rest, left, i, here =>
      FilesWhole b level directives base rest left i here
  | level, directives, base, .file _ file rest, left, i, here =>
      left = 0 ∨
        ((writable (directives i) file = true → WholeSize b (directives i) file ∧
          (¬ Positioned level (directives i) → here ∧ base)) ∧
        FilesWhole b level directives base rest (left - 1) (i + 1)
          (here ∨ ¬ Positioned level (directives i)))
  | level, directives, base, .dir _ config sub rest, left, i, here =>
      left = 0 ∨
        (FilesWhole b (level + 1) (directivesAt config sub) (base ∧ here) sub (counted sub - 1) 1
          True ∧
        FilesWhole b level directives base rest (left - 1) (i + 1)
          (here ∨ ¬ Positioned level (directives i)))

/-- The last position of ".", if there is one. -/
def DotWhole (b : Nat) (ds : List Directive) : Prop :=
  match lastNaming .position ds with
  | some (.position start) => b ∣ start.toNat
  | _ => True

/-- What the user asks for, and the modes and sizes of the files. -/
def AskedWhole (b : Nat) (config : Config) (dirents : Dirents) : Prop :=
  FilesWhole b 0 (directivesAt config dirents) True dirents (counted dirents - 1) 1
    (DotWhole b (directivesAt config dirents 0))

/-! ## Directives and their file -/

section

variable (level : Nat) (ds : List Directive)

/-- An entry has a place of its own exactly if a `position` asked for it. -/
theorem foldl_userpos : ∀ f : Sdbf,
    (ds.foldl (applyDirective level) f).userpos = true ↔ f.userpos = true ∨ Positioned level ds := by
  induction ds with
  | nil => exact fun f => ⟨Or.inl, fun h => h.resolve_right fun h => List.not_mem_nil h.2.choose_spec⟩
  | cons d ds ih =>
      intro f
      have hcons : Positioned level (d :: ds) ↔
          (level = 0 ∧ ∃ start, d = .position start) ∨ Positioned level ds := by
        simp only [Positioned, List.mem_cons, exists_or, ← and_or_left, eq_comm]
      have hone : (applyDirective level f d).userpos = true ↔
          f.userpos = true ∨ level = 0 ∧ ∃ start, d = .position start := by
        cases d with
        | position start =>
            rw [applyDirective]
            by_cases hlevel : level = 0
            · simp [hlevel]
            · simp [hlevel]
        | _ => simp [applyDirective]
      rw [List.foldl_cons, ih, hone, hcons, or_assoc]

/-- The write flag, by the mode of the file and the directives. -/
theorem foldl_writable (name : CString) (file : RegularFile) (blocksize : BitVec 32) :
    writeBit (ds.foldl (applyDirective level) (fillFile blocksize level name file)).record =
      writable ds file := by
  have hmode : writeBit (fillFile blocksize level name file).record = file.iwoth := by
    have hseven : byteAt (fillFile blocksize level name file).record 7 = byteOf (fileFlags file) 3 := by
      refine (byteAt_fillProduct _ name _ (by decide)).trans ?_
      exact byteAt_setBytes_add _ (k := 4) (i := 3) (by decide) rfl
    rw [writeBit, hseven, fileFlags]
    cases file.iroth <;> cases file.iwoth <;> cases file.ixoth <;> rfl
  have hlast := foldl_agree level (fillFile blocksize level name file) ds .dataWrite
  rw [writable]
  cases h : lastNaming .dataWrite ds with
  | none =>
      rw [h] at hlast
      exact Eq.trans hlast hmode
  | some d =>
      rw [h] at hlast
      have hfield := (lastNaming_mem h).2
      cases d with
      | write on => exact Eq.trans hlast (writeBit_writeFlag _ on)
      | _ => cases hfield

/-- The size is whole blocks, by the size of the file and the directives. -/
theorem foldl_wholeSize {blocksize : BitVec 32} (hpow : blocksize.toNat.isPowerOfTwo)
    (name : CString) (file : RegularFile) :
    blocksize.toNat ∣
        (ds.foldl (applyDirective level) (fillFile blocksize level name file)).size.toNat ↔
      WholeSize blocksize.toNat ds file := by
  have hlast := foldl_agree level (fillFile blocksize level name file) ds .size
  rw [WholeSize]
  cases h : lastNaming .size ds with
  | none =>
      rw [h] at hlast
      rw [show _ = (fillFile blocksize level name file).size from hlast, fillFile]
      cases hw : file.iwoth with
      | true =>
          simp only [if_true, true_or, iff_true]
          exact sdbAlign_dvd hpow _
      | false =>
          have hlt := file.size_lt
          simp only [Bool.false_eq_true, if_false, false_or, BitVec.toNat_ofNat,
            Nat.mod_eq_of_lt (show file.size < 2 ^ 64 by omega)]
  | some d =>
      rw [h] at hlast
      have hfield := (lastNaming_mem h).2
      cases d with
      | maxsize size => rw [show _ = size from hlast]
      | _ => cases hfield

end

/-! ## An entry at its place -/

section

variable (f : Sdbf) (rpos : ULong)

theorem userpos_place : (place f rpos).userpos = f.userpos := by
  rw [place]
  split <;> rfl

/-- The range of an entry is as long as its size says, wherever it is. -/
theorem size_place : addrLast (place f rpos).record + 1 - addrFirst (place f rpos).record =
    f.size := by
  have hrange : ∀ first size : ULong, first + size - 1 + 1 - first = size := by
    intro first size
    rw [BitVec.sub_add_cancel, BitVec.add_comm, BitVec.add_sub_cancel]
  have hlast : ∀ first last : ULong,
      addrLast (setAddrLast (setAddrFirst f.record first) last) = last := fun first last =>
    be64_setBytes _ (k := 0x10) (by decide) last
  have hfirst : ∀ first last : ULong,
      addrFirst (setAddrLast (setAddrFirst f.record first) last) = first := fun first last =>
    (be64_setBytes_of_outside _ (by decide) (Or.inl (by decide))).trans
      (be64_setBytes f.record (k := 0x08) (by decide) first)
  by_cases huser : f.userpos = true
  · rw [place, if_pos huser, hlast, hfirst, lastOf, if_pos huser, hrange]
  · rw [place, if_neg huser, hlast, hfirst, lastOf, if_neg huser, hrange]

variable {f}

/-- Without a place of its own an entry is put where the last one ended. -/
theorem addrFirst_place (huser : f.userpos = false) :
    addrFirst (place f rpos).record = rpos := by
  rw [place, if_neg (by rw [huser]; exact Bool.false_ne_true)]
  exact (be64_setBytes_of_outside _ (by decide) (Or.inl (by decide))).trans
    (be64_setBytes f.record (k := 0x08) (by decide) rpos)

end

/-! ## The places -/

section

variable {blocksize : BitVec 32} (hpow : blocksize.toNat.isPowerOfTwo)

include hpow

/-- Sums wrap around at a whole number of blocks. -/
theorem dvd_add_iff (x y : ULong) : blocksize.toNat ∣ (x + y).toNat ↔
    blocksize.toNat ∣ x.toNat + y.toNat := by
  obtain ⟨k, hk32, hk⟩ := exponent_of_pow hpow
  have hwrap : blocksize.toNat ∣ 2 ^ 64 := hk ▸ Nat.pow_dvd_pow 2 (by omega)
  rw [BitVec.toNat_add]
  exact Nat.dvd_mod_iff hwrap

/-- The files of a directory begin at a block exactly if its table does. -/
theorem behindTable_dvd (dot : Sdbf) :
    blocksize.toNat ∣ (behindTable blocksize dot).toNat ↔ blocksize.toNat ∣ dot.ustart.toNat := by
  rw [behindTable, dvd_add_iff hpow]
  exact (Nat.dvd_add_left (sdbAlign_dvd hpow _))

omit hpow in
/-- A file at its place. -/
theorem wholeBlocks_place (base rpos : ULong) (f : Sdbf) :
    WholeBlocks blocksize.toNat base (place f rpos) ↔ blocksize.toNat ∣ f.size.toNat ∧
      (f.userpos = false → blocksize.toNat ∣ rpos.toNat ∧ blocksize.toNat ∣ (base + rpos).toNat) := by
  have huser := userpos_place f rpos
  constructor
  · rintro ⟨hsize, hstart⟩
    rw [size_place] at hsize
    refine ⟨hsize, fun hfree => ?_⟩
    have hplace := hstart (huser.trans hfree)
    rwa [addrFirst_place rpos hfree] at hplace
  · rintro ⟨hsize, hstart⟩
    refine ⟨?_, fun hfree => ?_⟩
    · rwa [size_place]
    · rw [addrFirst_place rpos (huser.symm.trans hfree)]
      exact hstart (huser.symm.trans hfree)

omit hpow in
theorem writeBit_place (f : Sdbf) (rpos : ULong) :
    writeBit (place f rpos).record = writeBit f.record := by
  have hset : ∀ first last : ULong,
      byteAt (setAddrLast (setAddrFirst f.record first) last) 7 = byteAt f.record 7 := fun _ _ =>
    (byteAt_setBytes_of_outside _ (Or.inl (by decide))).trans
      (byteAt_setBytes_of_outside _ (Or.inl (by decide)))
  rw [place]
  split
  · rw [writeBit, hset, writeBit]
  · rw [writeBit, hset, writeBit]

/-- Behind an entry that takes the next place, the places are whole. -/
theorem advance_dvd (f : Sdbf) (rpos last : ULong) {here : Prop}
    (hhere : blocksize.toNat ∣ rpos.toNat ↔ here) :
    blocksize.toNat ∣ (advance blocksize f rpos last).1.toNat ↔ here ∨ ¬ f.userpos = true := by
  by_cases huser : f.userpos = true
  · rw [advance, if_pos huser]
    exact hhere.trans (or_iff_left (not_not_intro huser)).symm
  · rw [advance, if_neg huser]
    exact iff_of_true (sdbAlign_dvd hpow _) (Or.inr huser)

/-- **The entries of a directory: what is emitted for them is whole if what is asked for is.** -/
theorem emittedFiles_whole {dirents : Dirents} :
    ∀ {level i left : Nat} {directives : Nat → List Directive} {e : Entries}
      {base rpos last : ULong} {okBase here : Prop},
      builtEntries blocksize level directives dirents i = some e →
      (blocksize.toNat ∣ base.toNat ↔ okBase) → (blocksize.toNat ∣ rpos.toNat ↔ here) →
      (okBase ∨ here) →
      ((∀ p ∈ emittedFiles base left (allocEntries blocksize base left e rpos last).1,
          writeBit p.2.record = true → WholeBlocks blocksize.toNat p.1 p.2) ↔
        FilesWhole blocksize.toNat level directives okBase dirents left i here) := by
  induction dirents with
  | nil =>
      intro level i left directives e base rpos last okBase here h _ _ _
      cases h
      refine iff_of_true ?_ trivial
      cases left <;> exact fun p hp => absurd hp List.not_mem_nil
  | file name file rest ih =>
      intro level i left directives e base rpos last okBase here h hbase hhere hone
      obtain ⟨e, he, rfl⟩ := Option.map_eq_some_iff.mp h
      cases left with
      | zero => exact iff_of_true (fun p hp => absurd hp List.not_mem_nil) (Or.inl rfl)
      | succ left =>
          have huser := foldl_userpos level (directives i) (fillFile blocksize level name file)
          have hwrite := foldl_writable level (directives i) name file blocksize
          have hsize := foldl_wholeSize level (directives i) hpow name file
          generalize (directives i).foldl (applyDirective level)
            (fillFile blocksize level name file) = f at huser hwrite hsize
          have hpos : f.userpos = true ↔ Positioned level (directives i) :=
            huser.trans (or_iff_right Bool.false_ne_true)
          have hnext := advance_dvd hpow f rpos last hhere
          rw [hpos] at hnext
          have hfalse : f.userpos = false ↔ ¬ Positioned level (directives i) := by
            rw [← hpos, Bool.not_eq_true]
          have hstart : blocksize.toNat ∣ rpos.toNat ∧ blocksize.toNat ∣ (base + rpos).toNat ↔
              here ∧ okBase := by
            rw [dvd_add_iff hpow, ← hhere, ← hbase]
            exact and_congr_right fun h => (Nat.dvd_add_left h)
          show (∀ p ∈ (base, place f rpos) :: emittedFiles base left (allocEntries blocksize base left
            e (advance blocksize f rpos last).1 (advance blocksize f rpos last).2).1, _) ↔ _ ∨ _ ∧ _
          rw [List.forall_mem_cons, ih he hbase hnext (hone.imp_right Or.inl), writeBit_place, hwrite,
            wholeBlocks_place, hsize, hfalse, hstart]
          exact (or_iff_right (Nat.succ_ne_zero left)).symm
  | other name rest ih => exact fun h => ih h
  | lost name rest => exact fun h => absurd h (Option.some_ne_none _).symm
  | dir name config sub rest ihsub ih =>
      intro level i left directives e base rpos last okBase here h hbase hhere hone
      obtain ⟨s, hs, h⟩ := Option.bind_eq_some_iff.mp h
      obtain ⟨e, he, rfl⟩ := Option.map_eq_some_iff.mp h
      cases left with
      | zero => exact iff_of_true (fun p hp => absurd hp List.not_mem_nil) (Or.inl rfl)
      | succ left =>
          have huser := foldl_userpos level (directives i) (fillDir level name)
          generalize (directives i).foldl (applyDirective level) (fillDir level name) = f at huser
          have hpos : f.userpos = true ↔ Positioned level (directives i) :=
            huser.trans (or_iff_right Bool.false_ne_true)
          have hrecords := (foldl_same (level + 1) (directivesAt config sub 0)
            (fillDot (level + 1) (recordCount sub + 1))).records.trans (records_fillDot _ _)
          have hstart : ((directivesAt config sub 0).foldl (applyDirective (level + 1))
              (fillDot (level + 1) (recordCount sub + 1))).ustart = 0 :=
            (foldl_unmoved (Or.inl (Nat.succ_ne_zero level))).2
          generalize (directivesAt config sub 0).foldl (applyDirective (level + 1))
            (fillDot (level + 1) (recordCount sub + 1)) = dot at hrecords hstart
          have hbehind : blocksize.toNat ∣ (behindTable blocksize dot).toNat ↔ True := by
            rw [behindTable_dvd hpow, hstart]
            exact iff_true_intro (Nat.dvd_zero _)
          have hsum : blocksize.toNat ∣ (base + rpos).toNat ↔ okBase ∧ here := by
            rw [dvd_add_iff hpow, ← hhere, ← hbase]
            rw [← hhere, ← hbase] at hone
            refine ⟨fun h => ?_, fun h => Nat.dvd_add h.1 h.2⟩
            rcases hone with hone | hone
            · exact ⟨hone, (Nat.dvd_add_right hone).mp h⟩
            · exact ⟨(Nat.dvd_add_left hone).mp h, hone⟩
          have hsub := @ihsub _ _ (records dot - 1) _ _ _ _ (behindTable blocksize dot) _ _ hs hsum
            hbehind (Or.inr trivial)
          rw [allocEntries]
          generalize allocEntries blocksize (base + rpos) (records dot - 1) s
            (behindTable blocksize dot) (behindTable blocksize dot) = r at hsub ⊢
          have hnext := advance_dvd hpow (sizeDir f rpos r.2) rpos last hhere
          rw [show (sizeDir f rpos r.2).userpos = f.userpos from rfl, hpos] at hnext
          simp only [emittedFiles, records_closeDir]
          show (∀ p ∈ emittedFiles (base + rpos) _ _ ++ _, _) ↔ _ ∨ _ ∧ _
          rw [List.forall_mem_append, hsub, ih he hbase hnext (hone.imp_right Or.inl), hrecords]
          exact (or_iff_right (Nat.succ_ne_zero left)).symm

/-- Whether the top table begins at a block, by the directives. -/
theorem dotWhole_iff (n : Nat) (ds : List Directive) :
    blocksize.toNat ∣ (behindTable blocksize (ds.foldl (applyDirective 0) (fillDot 0 n))).toNat ↔
      DotWhole blocksize.toNat ds := by
  rw [behindTable_dvd hpow, DotWhole]
  have hlast := foldl_agree 0 (fillDot 0 n) ds .position
  cases h : lastNaming .position ds with
  | none =>
      rw [h] at hlast
      rw [hlast.2]
      exact iff_true_intro (Nat.dvd_zero _)
  | some d =>
      rw [h] at hlast
      have hfield := (lastNaming_mem h).2
      cases d with
      | position start => rw [show _ = start from hlast.2]
      | _ => cases hfield

/-- **What can be written to is made of whole blocks exactly if it is asked for so**: a `write`
    does not round a size, and a `maxsize` is taken as it is. -/
theorem writable_whole {config : Config} {dirents : Dirents} {tree : Tree}
    (h : prepareDir blocksize config dirents = some tree) :
    WritableWhole blocksize.toNat (allocStorage blocksize tree) ↔
      AskedWhole blocksize.toNat config dirents := by
  rw [prepareDir_built] at h
  obtain ⟨e, he, rfl⟩ := Option.map_eq_some_iff.mp h
  have hsame := foldl_same 0 (directivesAt config dirents 0) (fillDot 0 (recordCount dirents + 1))
  have hrecords : records _ = counted dirents := hsame.records.trans (records_fillDot _ _)
  have hbehind := dotWhole_iff hpow (recordCount dirents + 1) (directivesAt config dirents 0)
  have hbase := hsame.base_eq
  generalize (directivesAt config dirents 0).foldl (applyDirective 0)
    (fillDot 0 (recordCount dirents + 1)) = dot at hrecords hbehind hbase
  have hzero : blocksize.toNat ∣ dot.base.toNat ↔ True := by
    rw [hbase]
    exact iff_true_intro (Nat.dvd_zero _)
  have hrun := @emittedFiles_whole _ hpow _ _ _ (records dot - 1) _ _ _ _
    (behindTable blocksize dot) _ _ he hzero hbehind (Or.inl trivial)
  rw [WritableWhole, AskedWhole, ← hrecords, ← hrun, allocStorage]
  simp only [records_closeDir]
  rfl

end

/-! ## A file of three bytes -/

/-- "b", a file that anyone may read, and write to if the mode says so. -/
def threeName : CString := ⟨[0x62], by decide⟩

/-- Three bytes, that others may read, and write to or not. -/
def threeBytes (iwoth : Bool) : RegularFile where
  size := 3
  contents := some [0x78, 0x79, 0x7a]
  iroth := true
  iwoth := iwoth
  ixoth := false
  sized := fun _ h => congrArg List.length (Option.some.inj h).symm
  size_lt := by decide

/-- Its mode makes it a block. -/
theorem writable_whole_mode : ∃ tree,
    prepareDir 64 [] (.file threeName (threeBytes true) .nil) = some tree ∧
      WritableWhole 64 (allocStorage 64 tree) := by
  have hscan : prepareDir 64 [] (.file threeName (threeBytes true) .nil) =
      some ⟨fillDot 0 2, .file (fillFile 64 0 threeName (threeBytes true)) (threeBytes true) .nil⟩ :=
    rfl
  refine ⟨_, hscan, (writable_whole (by exact ⟨6, rfl⟩) hscan).mpr ?_⟩
  refine Or.inr ⟨fun _ => ⟨Or.inl rfl, fun _ => ⟨trivial, trivial⟩⟩, trivial⟩

/-- "write = 1" for a file that its mode does not make writable: three bytes that can be
    written to. -/
theorem writable_whole_configured : ∃ tree,
    prepareDir 64 [(threeName, [.write true])] (.file threeName (threeBytes false) .nil) =
        some tree ∧
      ¬ WritableWhole 64 (allocStorage 64 tree) := by
  refine ⟨_, rfl, fun h => ?_⟩
  have hsize := (h _ List.mem_cons_self (by decide)).size
  exact absurd hsize (by decide)

end GensdbfsErase
