import FpgaConfigSpace.GensdbfsFlat
import FpgaConfigSpace.SdbExtractText
import FpgaConfigSpace.SdbfsModes
import FpgaConfigSpace.SdbfsSearch

/-! # Extracting an image without subdirectories

    The scan of a mapped image returns the records of its table, one behind the other, and
    `sdb-extract` makes of them what `create_file` does. -/

namespace SdbExtractFlat

open BigEndian SdbRecord SdbFields SdbfsDevice SdbfsScan SdbfsOpen SdbfsTree SdbfsRuns SdbfsCreate
open SdbfsModes FileWrites CyclicBuffer Gensdbfs GensdbfsTables SdbExtract

/-! ## The loop -/

section

variable {w : Nat} {σ : Type} {host : Host w} {content : BitVec w → Record}
  {opens : List Byte → Bool}

/-- `create_file` needs the device only for where it is mapped. -/
theorem createFile_same {fs fs' : Sdbfs w σ} (h : SameDevice fs fs') :
    createFile host opens fs' = createFile host opens fs := by
  funext d
  rw [createFile, createFile, extractedBytes, extractedBytes, h.1]

/-- The loop ends where the scan does. -/
theorem extractLoop_ends {fs fs' : Sdbfs w σ} {new : Bool}
    (h : sdbfsScan host fs new = some (fs', RecordPtr.NULL w)) (n : Nat) :
    extractLoop host opens (n + 1) fs new = .done [] := by
  rw [extractLoop, h]
  exact if_pos (RecordPtr.isNull_NULL w)

/-- A call that arrives at a record makes the first file of the loop. -/
theorem extractLoop_arrives {fs fs' : Sdbfs w σ} {new : Bool} {dev : RecordPtr w} {e : Entry w}
    {rest : List (Entry w)} {x : List Byte × Option CreatedFile}
    {more : List (List Byte × Option CreatedFile)} {n : Nat}
    (h : sdbfsScan host fs new = some (fs', dev)) (harr : Arrived host content fs fs' dev e rest)
    (hx : createFile host opens fs e.record = some x)
    (hmore : extractLoop host opens n fs' false = .done more) :
    extractLoop host opens (n + 1) fs new = .done (x :: more) := by
  rw [extractLoop, h]
  show (if dev.isNull then _ else _) = _
  rw [if_neg (Bool.eq_false_iff.mp harr.nonnull), harr.record, Option.bind_some,
    createFile_same harr.same, hx, hmore]

/-- What is pending becomes files. -/
theorem extractLoop_pending : ∀ (rest : List (Entry w)) (fs : Sdbfs w σ) (path : List Record)
    (rec : Record) (xs : List (List Byte × Option CreatedFile)), Delivers host fs content →
    OnPath fs path → fs.deref host fs.currentp = some rec → pending content fs path rec = rest →
    (∀ e ∈ rest, ¬ NullAt fs e.pos) → AllDeclared rest →
    List.Forall₂ (fun e x => createFile host opens fs e.record = some x) rest xs →
    ∀ n, rest.length < n → extractLoop host opens n fs false = .done xs := by
  intro rest
  induction rest with
  | nil =>
      intro fs path rec xs hd hp hcur hpend _ _ hxs n hn
      obtain ⟨fs', hscan⟩ := sdbfsScan_ends hd hp hcur hpend
      obtain ⟨k, rfl⟩ : ∃ k, n = k + 1 := ⟨n - 1, by omega⟩
      cases hxs
      exact extractLoop_ends hscan k
  | cons e rest ih =>
      intro fs path rec xs hd hp hcur hpend hnull hdecl hxs n hn
      obtain ⟨fs', dev, hscan, harr⟩ := sdbfsScan_arrives hd hp hcur hpend
        (hnull e List.mem_cons_self) (hdecl e List.mem_cons_self)
      obtain ⟨k, rfl⟩ : ∃ k, n = k + 1 := ⟨n - 1, by omega⟩
      cases hxs with
      | @cons _ x _ xs hx hxs =>
          refine extractLoop_arrives hscan harr hx ?_
          refine ih fs' e.path e.record xs (hd.same harr.same) harr.onPath ?_ harr.pending
            (fun e' he' h => hnull e' (List.mem_cons_of_mem e he') (harr.same.nullAt h))
            (fun e' he' => hdecl e' (List.mem_cons_of_mem e he')) ?_ k (Nat.lt_of_succ_lt_succ hn)
          · rw [harr.current]
            exact harr.record
          · rw [createFile_same harr.same]
            exact hxs

/-- The whole traversal becomes files. -/
theorem extractLoop_preorder {fs : Sdbfs w σ} (hd : Delivers host fs content)
    (hnull : ∀ e ∈ preorder content fs.entrypoint, ¬ NullAt fs e.pos)
    (hdecl : AllDeclared (preorder content fs.entrypoint))
    {xs : List (List Byte × Option CreatedFile)}
    (hxs : List.Forall₂ (fun e x => createFile host opens fs e.record = some x)
      (preorder content fs.entrypoint) xs) {n : Nat}
    (hn : (preorder content fs.entrypoint).length < n) :
    extractLoop host opens n fs true = .done xs := by
  obtain ⟨k, rfl⟩ : ∃ k, n = k + 1 := ⟨n - 1, by omega⟩
  cases hpre : preorder content fs.entrypoint with
  | nil =>
      rw [hpre] at hxs
      cases hxs
      obtain ⟨fs', hscan⟩ := sdbfsScan_new_ends hd hpre
      exact extractLoop_ends hscan k
  | cons e rest =>
      rw [hpre] at hnull hdecl hxs hn
      obtain ⟨fs', dev, hscan, harr⟩ := sdbfsScan_new_arrives hd hpre
        (hnull e List.mem_cons_self) (hdecl e List.mem_cons_self)
      cases hxs with
      | @cons _ x _ xs hx hxs =>
          refine extractLoop_arrives hscan harr hx ?_
          refine extractLoop_pending rest fs' e.path e.record xs (hd.same harr.same) harr.onPath ?_
            harr.pending
            (fun e' he' h => hnull e' (List.mem_cons_of_mem e he') (harr.same.nullAt h))
            (fun e' he' => hdecl e' (List.mem_cons_of_mem e he')) ?_ k (Nat.lt_of_succ_lt_succ hn)
          · rw [harr.current]
            exact harr.record
          · rw [createFile_same harr.same]
            exact hxs

end

/-! ## A table without bridges -/

section

variable {host : Host 64} {ws : List (Write Byte)} {size : Nat} {data entry : BitVec 64}

/-- The image as the scan sees it. -/
theorem recordAt_image (hmap : MapsImage host (imageDevice data entry) (imageByte ws) size) {p : Nat}
    (hp : p + 64 ≤ size) : host.recordAt (data + BitVec.ofNat 64 p) = imageRecord ws p := by
  funext i
  have hbyte := (hmap.2 (p + i.val) (by omega)).1
  rw [BitVec.ofNat_add, ← BitVec.add_assoc] at hbyte
  exact hbyte

theorem ofNat_entry (entry : BitVec 64) (n : Nat) :
    BitVec.ofNat 64 (entry.toNat + n) = entry + BitVec.ofNat 64 n := by
  rw [BitVec.ofNat_add, BitVec.ofNat_toNat, BitVec.setWidth_eq]

/-- The magic number of a table is that of an image which needs no conversion. -/
theorem verdict_image (hmap : MapsImage host (imageDevice data entry) (imageByte ws) size)
    (hroom : entry.toNat + 64 ≤ size) (htable : IsTable (imageRecord ws entry.toNat)) :
    verdict host (fun i : Fin 4 => host.mem (data + entry + BitVec.ofNat 64 i.val)) = (false, 0) := by
  have hrecord := recordAt_image hmap hroom
  rw [BitVec.ofNat_toNat, BitVec.setWidth_eq] at hrecord
  have hmagic : netWord (fun i : Fin 4 =>
      host.mem (data + entry + BitVec.ofNat 64 i.val)) = SDB_MAGIC := by
    rw [← htable.2, ← hrecord]
    rfl
  cases hle : host.littleEndian with
  | true =>
      have hne : leWord (fun i : Fin 4 =>
          host.mem (data + entry + BitVec.ofNat 64 i.val)) ≠ SDB_MAGIC :=
        fun h => magic_one_way _ ⟨h, hmagic⟩
      rw [verdict_eq hle, if_pos (Or.inr hmagic), decide_eq_false hne]
  | false =>
      have hload : Host.loadInt host (fun i : Fin 4 =>
          host.mem (data + entry + BitVec.ofNat 64 i.val)) = SDB_MAGIC := by
        rw [Host.loadInt, hle]
        exact hmagic
      rw [verdict, if_pos hload, hle]

/-- The magic number in front of the table is found. -/
theorem sdbfsDevCreate_image (hmap : MapsImage host (imageDevice data entry) (imageByte ws) size)
    (hroom : entry.toNat + 64 ≤ size) (htable : IsTable (imageRecord ws entry.toNat))
    (stack : Fin 4 → Byte) :
    sdbfsDevCreate host stack (imageDevice data entry) = some (imageDevice data entry, 0) := by
  have hmapped : (imageDevice data entry).isMapped = true := by
    have hdata : data ≠ 0#64 := hmap.1
    simp [Sdbfs.isMapped, imageDevice, Sdbfs.fresh, hdata]
  have hload : createMagic host stack (imageDevice data entry) =
      some ({ imageDevice data entry with drvdata := () },
        fun i : Fin 4 => host.mem (data + entry + BitVec.ofNat 64 i.val)) := by
    rw [createMagic, if_pos hmapped]
    rfl
  rw [sdbfsDevCreate_verdict hload, verdict_image hmap hroom htable]
  rfl

end

/-- Records that have nothing below them. -/
theorem entries_plain {w : Nat} {content : BitVec w → Record}
    {under : List Record → Record → List (Entry w)} (path : List Record) (rs : List Record) :
    ∀ pos : BitVec w, (∀ k r, rs[k]? = some r → content (pos + BitVec.ofNat w (64 * k)) = r) →
    (∀ r ∈ rs, under path r = []) →
    (entries content under path pos rs.length).map Entry.record = rs ∧
      ∀ e ∈ entries content under path pos rs.length, e.head = false ∧
        ∃ k < rs.length, e.pos = pos + BitVec.ofNat w (64 * k) := by
  induction rs with
  | nil => exact fun _ _ _ => ⟨rfl, fun e he => absurd he List.not_mem_nil⟩
  | cons r rs ih =>
      intro pos hcontent hunder
      have hfirst : content pos = r := by
        have h := hcontent 0 r rfl
        rwa [Nat.mul_zero, BitVec.add_zero] at h
      have hstep : ∀ k : Nat, pos + 64 + BitVec.ofNat w (64 * k) =
          pos + BitVec.ofNat w (64 * (k + 1)) := by
        intro k
        rw [Nat.mul_add, Nat.add_comm, BitVec.ofNat_add, ← BitVec.add_assoc]
        rfl
      obtain ⟨hrecords, hrest⟩ := ih (pos + 64)
        (fun k r' hk => by rw [hstep]; exact hcontent (k + 1) r' hk)
        fun r' hr => hunder r' (List.mem_cons_of_mem r hr)
      rw [List.length_cons, entries, hfirst, hunder r List.mem_cons_self, List.nil_append]
      refine ⟨congrArg (List.cons r) hrecords, fun e he => ?_⟩
      rcases List.mem_cons.mp he with rfl | he
      · refine ⟨rfl, 0, Nat.succ_pos _, ?_⟩
        rw [Nat.mul_zero, BitVec.add_zero]
      · obtain ⟨hhead, k, hk, hpos⟩ := hrest e he
        exact ⟨hhead, k + 1, Nat.succ_lt_succ hk, hpos.trans (hstep k)⟩

/-- The traversal of a table without bridges. -/
theorem preorder_plain {w : Nat} {content : BitVec w → Record} {entry : BitVec w} {dot : Record}
    {rs : List Record} (hdot : content entry = dot)
    (hrest : ∀ k r, rs[k]? = some r → content (entry + 64 + BitVec.ofNat w (64 * k)) = r)
    (htable : IsTable dot) (hcount : (sdbRecords dot).toNat = rs.length + 1)
    (hplain : ∀ r ∈ rs, ¬ IsBridge r) :
    (preorder content entry).map Entry.record = dot :: rs ∧
      ∀ e ∈ preorder content entry, (e.head = true → e.record = dot) ∧
        ∃ k ≤ rs.length, e.pos = entry + BitVec.ofNat w (64 * k) := by
  have hunder : ∀ r ∈ rs, below content (room []) [] r = [] := fun r hr => if_neg (hplain r hr)
  obtain ⟨hrecords, hmem⟩ := entries_plain [] rs (entry + 64) hrest hunder
  rw [preorder, table, hdot, if_pos htable, hcount, Nat.add_sub_cancel]
  refine ⟨congrArg (List.cons dot) hrecords, fun e he => ?_⟩
  rcases List.mem_cons.mp he with rfl | he
  · refine ⟨fun _ => rfl, 0, Nat.zero_le _, ?_⟩
    rw [Nat.mul_zero, BitVec.add_zero]
  · obtain ⟨hhead, k, hk, hpos⟩ := hmem e he
    refine ⟨fun h => absurd (h.symm.trans hhead) (by decide), k + 1, hk, hpos.trans ?_⟩
    rw [Nat.mul_add, Nat.add_comm (64 * k), BitVec.ofNat_add, ← BitVec.add_assoc]
    rfl

section

variable {host : Host 64} {ws : List (Write Byte)} {size : Nat} {data entry : BitVec 64}

/-- **Every record of the table becomes what `create_file` makes of it.** -/
theorem sdbExtract_flat {opens : List Byte → Bool}
    (hmap : MapsImage host (imageDevice data entry) (imageByte ws) size) (hsize : fileSize ws ≤ size)
    {dot : Record} {rs : List Record} (hholds : Holds ws (entry.toNat, dot :: rs))
    (htable : IsTable dot) (hcount : (sdbRecords dot).toNat = rs.length + 1)
    (hplain : ∀ r ∈ rs, ¬ IsBridge r) {xs : List (List Byte × Option CreatedFile)}
    (hxs : List.Forall₂ (fun r x => createFile host opens (imageDevice data entry) r = some x)
      (dot :: rs) xs) (stack : Fin 4 → Byte) :
    ∃ n, sdbExtract host opens stack data entry true n = .done (0, xs) := by
  have hread : ∀ k r, (dot :: rs)[k]? = some r → entry.toNat + 64 * k + 64 ≤ size ∧
      host.recordAt (data + (entry + BitVec.ofNat 64 (64 * k))) = r := by
    intro k r hk
    have hroom := Nat.le_trans (hholds.lt_fileSize hk) hsize
    have hrecord := recordAt_image hmap hroom
    rw [ofNat_entry, hholds.record hk] at hrecord
    exact ⟨hroom, hrecord⟩
  have hcreate : sdbfsDevCreate host stack (imageDevice data entry) =
      some (imageDevice data entry, 0) := by
    have hdot : imageRecord ws entry.toNat = dot := hholds.record (j := 0) rfl
    exact sdbfsDevCreate_image hmap (hread 0 dot rfl).1 (hdot ▸ htable) stack
  obtain ⟨content, hcontent⟩ : ∃ content : BitVec 64 → Record,
      ∀ pos, content pos = host.recordAt (data + pos) := ⟨_, fun _ => rfl⟩
  have hdelivers : Delivers host (imageDevice data entry) content := by
    have hdata : data ≠ 0#64 := hmap.1
    have hmapped : (imageDevice data entry).isMapped = true := by
      simp [Sdbfs.isMapped, imageDevice, Sdbfs.fresh, hdata]
    have hconvert : (imageDevice data entry).converts = false := by
      simp [Sdbfs.converts, imageDevice, Sdbfs.fresh]
    rw [Delivers, if_pos hmapped, hconvert]
    exact hcontent
  -- the traversal is the table
  have hdot : content entry = dot := by
    have h := (hread 0 dot rfl).2
    rwa [Nat.mul_zero, BitVec.add_zero, ← hcontent] at h
  have hrest : ∀ k r, rs[k]? = some r → content (entry + 64 + BitVec.ofNat 64 (64 * k)) = r := by
    intro k r hk
    have h := (hread (k + 1) r hk).2
    rw [Nat.mul_add, Nat.add_comm, BitVec.ofNat_add, ← BitVec.add_assoc entry, ← hcontent] at h
    exact h
  obtain ⟨hrecords, hmem⟩ := preorder_plain hdot hrest htable hcount hplain
  have hnull : ∀ e ∈ preorder content (imageDevice data entry).entrypoint,
      ¬ NullAt (imageDevice data entry) e.pos := by
    rintro e he ⟨-, -, hzero⟩
    obtain ⟨-, k, hk, hpos⟩ := hmem e he
    obtain ⟨r, hr⟩ : ∃ r, (dot :: rs)[k]? = some r :=
      ⟨_, List.getElem?_eq_getElem (Nat.lt_succ_of_le hk)⟩
    have hroom := (hread k r hr).1
    have hmapped := (hmap.2 (entry.toNat + 64 * k) (by omega)).2
    rw [ofNat_entry, ← hpos] at hmapped
    exact hmapped hzero
  have hdeclared : AllDeclared (preorder content (imageDevice data entry).entrypoint) := by
    intro e he hhead
    rw [(hmem e he).1 hhead, hcount]
    exact Nat.succ_pos _
  have hfiles : List.Forall₂
      (fun e x => createFile host opens (imageDevice data entry) e.record = some x)
      (preorder content (imageDevice data entry).entrypoint) xs := by
    rw [← hrecords] at hxs
    exact List.forall₂_map_left_iff.mp hxs
  have hloop := extractLoop_preorder hdelivers hnull hdeclared hfiles (Nat.lt_succ_self _)
  refine ⟨(preorder content (imageDevice data entry).entrypoint).length + 1, ?_⟩
  rw [sdbExtract, hcreate]
  simp only [ne_eq, not_true_eq_false, if_false, if_true]
  rw [hloop]

end

end SdbExtractFlat
