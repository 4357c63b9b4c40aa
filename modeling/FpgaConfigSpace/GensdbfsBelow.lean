import FpgaConfigSpace.GensdbfsScan

/-! # Scanning below a bridge

    Once `sdbfs_scan` has returned a bridge of the top directory, it goes on with what is
    below: its depth is at least one until the next record of the top directory comes, or
    none is left. -/

namespace GensdbfsBelow

open SdbRecord SdbfsDevice SdbfsScan SdbfsOpen SdbfsTree SdbfsRuns GensdbfsScan

variable {w : Nat} {σ : Type} {host : Host w} {content : BitVec w → Record}

/-- Call `sdbfs_scan` until it is back in the top directory, and open every record that it
    returns before. -/
def scanBelow (host : Host w) : Nat → Sdbfs w σ → Outcome (List (Opened w))
  | 0, _ => .running
  | n + 1, fs =>
      match sdbfsScan host fs false with
      | none => .undefined
      | some (fs, d) =>
          if d.isNull || fs.depth == 0 then .done []
          else
            match fs.deref host d with
            | none => .undefined
            | some dev =>
                let fs := openCurrent fs dev
                match scanBelow host n fs with
                | .done more => .done (⟨d, dev, fs.fOffset, fs.fLen⟩ :: more)
                | rest => rest

/-! ## How deep the records are -/

/-- The records of a table are as deep as the table, or deeper. -/
theorem entries_deep {below' : List Record → Record → List (Entry w)} {path : List Record}
    (hbelow : ∀ rec, ∀ e ∈ below' path rec, path.length < e.path.length) (n : Nat) :
    ∀ pos, ∀ e ∈ entries content below' path pos n, path.length ≤ e.path.length := by
  induction n with
  | zero => exact fun _ e he => absurd he List.not_mem_nil
  | succ n ih =>
      intro pos e he
      rcases List.mem_cons.mp he with rfl | he
      · exact Nat.le_refl _
      · rcases List.mem_append.mp he with he | he
        · exact Nat.le_of_lt (hbelow _ e he)
        · exact ih _ e he

/-- What is below a record is deeper than the record. -/
theorem below_deep (k : Nat) : ∀ (path : List Record) (rec : Record),
    ∀ e ∈ below content k path rec, path.length < e.path.length := by
  induction k with
  | zero => exact fun _ _ e he => absurd he List.not_mem_nil
  | succ k ih =>
      intro path rec e he
      rw [below] at he
      split at he
      · rw [table] at he
        split at he
        · rcases List.mem_cons.mp he with rfl | he
          · exact Nat.lt_succ_self _
          · exact entries_deep (ih (rec :: path)) _ _ e he
        · exact absurd he List.not_mem_nil
      · exact absurd he List.not_mem_nil

/-! ## What is returned -/

/-- A record that a call can return. -/
def Returnable (fs : Sdbfs w σ) (e : Entry w) : Prop :=
  ¬ NullAt fs e.pos ∧ (e.head = true → 1 ≤ (sdbRecords e.record).toNat)

theorem Returnable.same {fs fs' : Sdbfs w σ} (h : SameDevice fs fs') {e : Entry w}
    (he : Returnable fs e) : Returnable fs' e := ⟨fun hn => he.1 (h.nullAt hn), he.2⟩

/-- A call that arrives at a record is the first of the loop. -/
theorem scanBelow_arrives {fs fs' : Sdbfs w σ} {dev : RecordPtr w} {e : Entry w}
    {rest : List (Entry w)} {more : List (Opened w)} {n : Nat}
    (h : sdbfsScan host fs false = some (fs', dev)) (harr : Arrived host content fs fs' dev e rest)
    (hdeep : 0 < e.path.length) (hmore : scanBelow host n (openCurrent fs' e.record) = .done more) :
    scanBelow host (n + 1) fs = .done (opened fs e :: more) := by
  have hoffset : (openCurrent fs' e.record).fOffset = e.fOffset := by
    show fs'.base fs'.depth + _ = baseOf e.path + _
    rw [harr.onPath.depth, harr.onPath.base e.path (List.suffix_refl _)]
  have hdepth : (fs'.depth == 0) = false := by
    rw [harr.onPath.depth]
    exact beq_false_of_ne (Nat.ne_of_gt hdeep)
  rw [scanBelow, h]
  show (if dev.isNull || fs'.depth == 0 then _ else _) = _
  rw [harr.nonnull, hdepth, if_neg (by decide), harr.record]
  simp only [hmore]
  rw [hoffset, harr.ptr]
  rfl

/-- The deep records that are pending are returned and opened, and no others. -/
theorem scanBelow_pending (deep : List (Entry w)) : ∀ (fs : Sdbfs w σ) (path : List Record)
    (rec : Record) (rest : List (Entry w)), Delivers host fs content → OnPath fs path →
    fs.deref host fs.currentp = some rec → pending content fs path rec = deep ++ rest →
    (∀ e ∈ deep, 0 < e.path.length ∧ Returnable fs e) →
    (∀ e ∈ rest.head?, e.path = [] ∧ Returnable fs e) →
    ∀ n, deep.length < n → scanBelow host n fs = .done (deep.map (opened fs)) := by
  induction deep with
  | nil =>
      intro fs path rec rest hd hp hcur hpend _ hrest n hn
      obtain ⟨k, rfl⟩ : ∃ k, n = k + 1 := ⟨n - 1, by omega⟩
      cases rest with
      | nil =>
          obtain ⟨fs', hscan⟩ := sdbfsScan_ends hd hp hcur hpend
          rw [scanBelow, hscan]
          exact if_pos rfl
      | cons e rest =>
          obtain ⟨htop, hnull, hdecl⟩ := hrest e rfl
          obtain ⟨fs', dev, hscan, harr⟩ := sdbfsScan_arrives hd hp hcur hpend hnull hdecl
          have hdepth : (fs'.depth == 0) = true := by
            rw [harr.onPath.depth, htop]
            rfl
          rw [scanBelow, hscan]
          show (if dev.isNull || fs'.depth == 0 then _ else _) = _
          rw [hdepth, Bool.or_true, if_pos rfl]
          rfl
  | cons e deep ih =>
      intro fs path rec rest hd hp hcur hpend hdeep hrest n hn
      obtain ⟨hlevel, hnull, hdecl⟩ := hdeep e List.mem_cons_self
      obtain ⟨fs', dev, hscan, harr⟩ := sdbfsScan_arrives hd hp hcur hpend hnull hdecl
      obtain ⟨k, rfl⟩ : ∃ k, n = k + 1 := ⟨n - 1, by omega⟩
      obtain ⟨hsame, hpath, hrecord, hmore⟩ := arrived_opened harr
      have hback := ih _ e.path e.record rest (hd.same hsame) hpath hrecord hmore
        (fun e' he' => (hdeep e' (List.mem_cons_of_mem e he')).imp_right (Returnable.same hsame))
        (fun e' he' => (hrest e' he').imp_right (Returnable.same hsame))
        k (Nat.lt_of_succ_lt_succ hn)
      rw [opened_same hsame] at hback
      exact scanBelow_arrives hscan harr hlevel hback

/-- **Below a bridge of the top directory, the scan is the traversal below it.** -/
theorem scanBelow_bridge {fs : Sdbfs w σ} {bridge : Record} (hd : Delivers host fs content)
    (hp : OnPath fs []) (hcur : fs.deref host fs.currentp = some bridge)
    (hnext : ¬ NullAt fs (fs.thisPos 0))
    (hbelow : ∀ e ∈ below content (room []) [] bridge, Returnable fs e) {n : Nat}
    (hn : (below content (room []) [] bridge).length < n) :
    scanBelow host n fs = .done ((below content (room []) [] bridge).map (opened fs)) := by
  refine scanBelow_pending _ fs [] bridge _ hd hp hcur rfl ?_ ?_ n hn
  · exact fun e he => ⟨below_deep _ [] bridge e he, hbelow e he⟩
  · intro e he
    obtain ⟨k, hk⟩ := Int.eq_ofNat_of_zero_le (hp.nleft ([] : List Record).length (Nat.le_refl _))
    cases k with
    | zero =>
        rw [levelEntries_zero hk] at he
        cases he
    | succ k =>
        rw [levelEntries_succ hk] at he
        cases he
        exact ⟨rfl, hnext, fun h => absurd h Bool.false_ne_true⟩

end GensdbfsBelow
