import FpgaConfigSpace.SdbfsRuns
import FpgaConfigSpace.SdbfsVisits

/-! # When a scan is bounded

    The two views of a scan together: what its counters do on any storage, and the
    traversal it makes of a storage that is a tree of tables.  A traversal all of
    whose tables declare their records is a run that does. -/

namespace SdbfsBounded

open BigEndian SdbRecord SdbfsDevice SdbfsScan SdbfsTree SdbfsRuns SdbfsCalls SdbfsVisits

variable {w : Nat} {σ : Type} {host : Host w} {content : BitVec w → Record}

/-! ## Runs over a tree of tables -/

/-- A call that tries a directory enters it if there is a table. -/
theorem entered_newdir {fs g : Sdbfs w σ} {newscan : Bool} {d : Nat} {pos : BitVec w}
    (hstart : scanStart host fs newscan = some (g, d, true)) (hd : Delivers host g content)
    (hpos : g.thisPos d = pos) :
    entered host fs newscan =
      if IsTable (content pos) then some (d, (sdbRecords (content pos)).toNat) else none := by
  obtain ⟨drv, buf, hderef, hnew⟩ := scanNewdir_eq hd hpos
  rw [entered, hstart]
  show (scanNewdir host g d).bind _ = _
  rw [hnew]
  by_cases ht : IsTable (content pos)
  · rw [if_pos ht, if_pos ht]
    have hderef' := (deref_congr ⟨rfl, rfl, rfl⟩ rfl (recordPtr g pos)).trans hderef
    refine (congrArg (Option.bind · _) hderef').trans ?_
    exact if_pos ht
  · rw [if_neg ht, if_neg ht]
    have hderef' := (deref_congr ⟨rfl, rfl, rfl⟩ rfl (recordPtr g pos)).trans hderef
    refine (congrArg (Option.bind · _) hderef').trans ?_
    exact if_neg ht

/-- A state of a run, as a state of the traversal: what is pending declares its
    records, and none of it is at address 0. -/
structure Traversing (host : Host w) (content : BitVec w → Record) (s : Sdbfs w σ) : Prop where
  delivers : Delivers host s content
  upcoming : ∃ path rec, OnPath s path ∧ s.deref host s.currentp = some rec ∧
    AllDeclared (pending content s path rec) ∧
    ∀ e ∈ pending content s path rec, ¬ NullAt s e.pos

/-- The state behind a record is one of the traversal. -/
theorem Traversing.arrived {s s' : Sdbfs w σ} {dev : RecordPtr w} {e : Entry w}
    {rest : List (Entry w)} (hd : Delivers host s content)
    (harr : Arrived host content s s' dev e rest) (hdecl : AllDeclared (e :: rest))
    (hnull : ∀ e' ∈ e :: rest, ¬ NullAt s e'.pos) : Traversing host content s' := by
  refine ⟨hd.same harr.same, e.path, e.record, harr.onPath, harr.current ▸ harr.record, ?_, ?_⟩
  · rw [harr.pending]
    exact fun e' he' => hdecl e' (List.mem_cons_of_mem e he')
  · rw [harr.pending]
    exact fun e' he' h => hnull e' (List.mem_cons_of_mem e he') (harr.same.nullAt h)

/-- So is the state behind the next call. -/
theorem Traversing.next {s s' : Sdbfs w σ} {dev : RecordPtr w} (ht : Traversing host content s)
    (h : sdbfsScan host s false = some (s', dev)) (hdev : dev.isNull = false) :
    Traversing host content s' := by
  obtain ⟨hd, path, rec, hp, hcur, hdecl, hnull⟩ := ht
  cases hpend : pending content s path rec with
  | nil =>
      obtain ⟨s₁, hend⟩ := sdbfsScan_ends hd hp hcur hpend
      rw [h] at hend
      cases hend
      rw [RecordPtr.isNull_NULL] at hdev
      cases hdev
  | cons e rest =>
      rw [hpend] at hdecl hnull
      obtain ⟨s₁, dev₁, hscan, harr⟩ := sdbfsScan_arrives hd hp hcur hpend
        (hnull e List.mem_cons_self) (hdecl e List.mem_cons_self)
      rw [h] at hscan
      cases hscan
      exact Traversing.arrived hd harr hdecl hnull

/-- A directory that is entered is the head of what is pending. -/
theorem Traversing.declares {s : Sdbfs w σ} (ht : Traversing host content s) :
    Declares host s false := by
  obtain ⟨hd, path, rec, hp, hcur, hdecl, _⟩ := ht
  intro l k hent
  by_cases hb : IsBridge rec ∧ s.depth + 1 < SDBFS_DEPTH
  · have hpos : (descend s rec).thisPos (s.depth + 1) = childPos path rec := by
      show Function.update s.thisPos (s.depth + 1) _ (s.depth + 1) = _
      rw [Function.update_self, hp.depth, hp.base path (List.suffix_refl path)]
      rfl
    rw [entered_newdir (scanStart_descend hcur hb.1 hb.2) (hd.same ⟨rfl, rfl, rfl⟩) hpos] at hent
    by_cases htab : IsTable (content (childPos path rec))
    · rw [if_pos htab] at hent
      cases hent
      refine hdecl ⟨childPos path rec, rec :: path, content (childPos path rec), true⟩ ?_ rfl
      rw [pending, below_enter hb.1 (hp.depth ▸ hb.2), table, if_pos htab]
      exact List.mem_cons_self
    · rw [if_neg htab] at hent
      cases hent
  · rw [entered, scanStart_stay hcur hb] at hent
    cases hent

/-- **A tree of tables that declare their records is scanned within the bound.** -/
theorem runDeclared_of_preorder {fs : Sdbfs w σ} (content : BitVec w → Record)
    (hd : Delivers host fs content)
    (ht : IsTable (content fs.entrypoint)) (hdecl : AllDeclared (preorder content fs.entrypoint))
    (hnull : ∀ e ∈ preorder content fs.entrypoint, ¬ NullAt fs e.pos) :
    RunDeclared host fs := by
  have hent := entered_newdir (scanStart_new host fs) (hd.same ⟨rfl, rfl, rfl⟩) (restart_thisPos fs)
  rw [if_pos ht] at hent
  obtain ⟨rest, hpre⟩ : ∃ rest, preorder content fs.entrypoint =
      ⟨fs.entrypoint, [], content fs.entrypoint, true⟩ :: rest := by
    rw [preorder, table, if_pos ht]
    exact ⟨_, rfl⟩
  rw [hpre] at hdecl hnull
  have hrun : ∀ s v, ScanRun host fs s v → Traversing host content s := by
    intro s v hr
    induction hr with
    | first h =>
        obtain ⟨s₁, dev₁, hscan, harr⟩ := sdbfsScan_new_arrives hd hpre
          (hnull _ List.mem_cons_self) (hdecl _ List.mem_cons_self)
        rw [h] at hscan
        cases hscan
        exact Traversing.arrived hd harr hdecl hnull
    | next hr h hdev ih => exact ih.next h hdev
  refine ⟨?_, Or.inl (by rw [hent]; rfl), fun s v hr => (hrun s v hr).declares⟩
  intro l k h
  have hk : (sdbRecords (content fs.entrypoint)).toNat = k :=
    congrArg Prod.snd (Option.some.inj (hent.symm.trans h))
  rw [← hk]
  exact hdecl ⟨fs.entrypoint, [], content fs.entrypoint, true⟩ List.mem_cons_self rfl

/-- **A scan is bounded exactly when the directories it enters declare their
    records.**  Whatever the storage holds, and whatever a read delivers, the scan
    ends and no visit yields too many records if every directory entered declares
    at least one; and this is needed, unless a record hides at address 0. -/
theorem scan_bounded (host : Host w) (fs : Sdbfs w σ) (ha : Accessible fs) :
    (RunDeclared host fs → ScanBounded host fs) ∧
    (RunSeen host fs → ScanBounded host fs → RunDeclared host fs) :=
  ⟨scanBounded_of_declared ha, fun hseen hb => declares_of_bounded hb hseen⟩

theorem scan_bounded_nested :
    ScanBounded (mappedHost 0x1000 nestedBytes) (mapped 0 0x1000) :=
  (scan_bounded (mappedHost 0x1000 nestedBytes) (mapped 0 0x1000) (by decide)).1
    (runDeclared_of_preorder (mappedContent 0x1000 nestedBytes) (by intro pos; rfl)
      (by decide +kernel) (by decide +kernel) (by decide +kernel))

/-- A directory that declares no records: the second call returns a record that is
    none of its entries. -/
theorem scan_unbounded_empty :
    ¬ ScanBounded (mappedHost 0x1000 (interconnectBytes 0)) (mapped 0 0x1000) := by
  intro hb
  have hrun : ((sdbfsScan (mappedHost 0x1000 (interconnectBytes 0)) (mapped 0 0x1000) true).bind
      fun r => (sdbfsScan (mappedHost 0x1000 (interconnectBytes 0)) r.1 false).map
        fun r' => (r'.2.isNull, visit (mappedHost 0x1000 (interconnectBytes 0)) r.1 false r'.2
          (visit (mappedHost 0x1000 (interconnectBytes 0)) (mapped 0 0x1000) true r.2 noVisits) 0))
      = some (false, some ⟨0, 2⟩) := by decide +kernel
  obtain ⟨r, h, hrun⟩ := Option.bind_eq_some_iff.mp hrun
  obtain ⟨r', h', heq⟩ := Option.map_eq_some_iff.mp hrun
  obtain ⟨hdev, hvisit⟩ := Prod.mk.inj heq
  have hle := hb.visits r'.1 _ (ScanRun.next (ScanRun.first h) h' hdev) 0 ⟨0, 2⟩ hvisit
  exact absurd hle (by decide)

end SdbfsBounded
