import FpgaConfigSpace.SdbfsSearch
import FpgaConfigSpace.SdbfsZeroBased

/-! # Opening a record after anything else

    Scans, opens and reads share one structure, and a new scan resets only part of it.
    No call changes the device, so whatever was called before, and also in the middle of a
    scan, an open finds the same record. -/

namespace SdbfsHistory

open BigEndian SdbRecord SdbfsDevice SdbfsScan SdbfsOpen SdbfsAccess SdbfsTree SdbfsRuns
open SdbfsSearch SdbfsZeroBased

variable {w : Nat} {σ : Type} {host : Host w} {fs fs' : Sdbfs w σ}

/-! ## Histories -/

/-- A call after the device was created. -/
def Later : Call → Prop
  | .devCreate _ => False
  | _ => True

/-- A call that returns an error code, an offset or a record. -/
theorem codeOf_done {r : Outcome (Sdbfs w σ × Int)} {reply : Reply w}
    (h : codeOf r = .done (fs', reply)) : ∃ ret, r = .done (fs', ret) := by
  cases r with
  | undefined => cases h
  | running => cases h
  | done x =>
      cases h
      exact ⟨x.2, rfl⟩

theorem offsetOf_done {r : Outcome (Sdbfs w σ × BitVec w)} {reply : Reply w}
    (h : offsetOf r = .done (fs', reply)) : ∃ offset, r = .done (fs', offset) := by
  cases r with
  | undefined => cases h
  | running => cases h
  | done x =>
      cases h
      exact ⟨x.2, rfl⟩

theorem recordOut_done {r : Option (Sdbfs w σ × RecordPtr w)} {reply : Reply w}
    (h : recordOut host r = .done (fs', reply)) : ∃ d, r = some (fs', d) := by
  cases r with
  | none => cases h
  | some x =>
      obtain ⟨fs₁, d⟩ := x
      rw [recordOut] at h
      split at h
      · cases h
        exact ⟨d, rfl⟩
      · split at h
        · cases h
        · cases h
          exact ⟨d, rfl⟩

/-- One call keeps the device. -/
theorem runCall_same {n : Nat} {c : Call} (hc : Later c) {fs : Sdbfs w σ} {reply : Reply w}
    (h : runCall host n fs c = .done (fs', reply)) : SameStorage fs fs' := by
  cases c with
  | devCreate stack => cases hc
  | scan newscan =>
      obtain ⟨d, hscan⟩ := recordOut_done h
      exact sdbfsScan_same hscan
  | openName name =>
      obtain ⟨ret, hopen⟩ := codeOf_done h
      exact sdbfsOpenName_same hopen
  | openId vid did =>
      obtain ⟨ret, hopen⟩ := codeOf_done h
      exact openScan_same hopen
  | findName name =>
      obtain ⟨offset, hfind⟩ := offsetOf_done h
      exact findOffset_same (fun _ _ hopen => sdbfsOpenName_same hopen) hfind
  | findId vid did =>
      obtain ⟨offset, hfind⟩ := offsetOf_done h
      exact findOffset_same (fun _ _ hopen => openScan_same hopen) hfind
  | fstat =>
      rw [runCall] at h
      split at h
      · cases h
      · cases h
        exact SameStorage.refl _
  | fread offset buf count =>
      rw [runCall] at h
      split at h
      · cases h
      next hread =>
        cases h
        exact sdbfsFread_same hread
  | close =>
      cases h
      exact ⟨⟨rfl, rfl, rfl⟩, rfl⟩

/-- The states the library reaches after a device was created, by any calls. -/
def Reached (host : Host w) (fs₀ fs : Sdbfs w σ) : Prop :=
  ∃ n calls replies, (∀ c ∈ calls, Later c) ∧ runCalls host n fs₀ calls = .done (fs, replies)

/-- And so does a whole history. -/
theorem runCalls_same {n : Nat} {calls : List Call} : ∀ {fs : Sdbfs w σ} {replies : List (Reply w)},
    (∀ c ∈ calls, Later c) → runCalls host n fs calls = .done (fs', replies) → SameStorage fs fs' := by
  induction calls with
  | nil =>
      intro fs replies _ h
      cases h
      exact SameStorage.refl _
  | cons c calls ih =>
      intro fs replies hlater h
      rw [runCalls] at h
      split at h
      · cases h
      · cases h
      next fs₁ reply hcall =>
        split at h
        · cases h
        · cases h
        next fs₂ more hmore =>
          cases h
          exact (runCall_same (hlater c List.mem_cons_self) hcall).trans
            (ih (fun d hd => hlater d (List.mem_cons_of_mem c hd)) hmore)

/-- No history changes the storage. -/
theorem Reached.same {fs₀ : Sdbfs w σ} (h : Reached host fs₀ fs) : SameStorage fs₀ fs := by
  obtain ⟨n, calls, replies, hlater, hrun⟩ := h
  exact runCalls_same hlater hrun

/-! ## What an open finds -/

/-- What `sdbfs_find_id` should do: return the offset of the first entry that passes and
    leave no file open, or return `-ENOENT` as an `unsigned long`. -/
structure FindsFirst (es : List (Entry w)) (found : Record → Bool)
    (r : Outcome (Sdbfs w σ × BitVec w)) : Prop where
  first : ∀ e, firstOf found es = some e →
    ∃ fs', r = .done (fs', e.fOffset) ∧ fs'.currentp = RecordPtr.NULL w
  missing : firstOf found es = none → ∃ fs', r = .done (fs', BitVec.ofInt w (-ENOENT))

/-- What is found is the offset of what is opened. -/
theorem findOffset_first {es : List (Entry w)} {found : Record → Bool}
    {r : Outcome (Sdbfs w σ × Int)} (h : OpensFirst host fs es found r) :
    FindsFirst es found (findOffset r) := by
  constructor
  · intro e he
    obtain ⟨fs', rfl, ho⟩ := h.first e he
    refine ⟨sdbfsClose fs', ?_, rfl⟩
    rw [findOffset, ho.fOffset]
    exact if_neg (Int.lt_irrefl 0)
  · intro hnone
    obtain ⟨fs', rfl⟩ := h.missing.mpr fun e he =>
      Bool.eq_false_iff.mpr (List.find?_eq_none.mp hnone e he)
    refine ⟨fs', ?_⟩
    rw [findOffset]
    exact if_pos (by decide)

/-- What the caller of an open function can tell: the code, and of an open file what
    `currentp` points to, where the file starts, how long it is and where it is read. -/
def answer (host : Host w) : Outcome (Sdbfs w σ × Int) →
    Option (Int × Option (RecordPtr w × Option Record × BitVec w × BitVec w × BitVec w))
  | .done (fs, ret) =>
      some (ret, if ret < 0 then none
        else some (fs.currentp, fs.deref host fs.currentp, fs.fOffset, fs.fLen, fs.readOffset))
  | _ => none

/-- There is one answer for an image. -/
theorem answer_unique {es : List (Entry w)} {found : Record → Bool}
    {r r' : Outcome (Sdbfs w σ × Int)} (h : OpensFirst host fs es found r)
    (h' : OpensFirst host fs es found r') : answer host r = answer host r' := by
  cases hfirst : firstOf found es with
  | none =>
      have hnone : ∀ e ∈ es, found e.record = false := fun e he =>
        Bool.eq_false_iff.mpr (List.find?_eq_none.mp hfirst e he)
      obtain ⟨s, rfl⟩ := h.missing.mpr hnone
      obtain ⟨s', rfl⟩ := h'.missing.mpr hnone
      rfl
  | some e =>
      obtain ⟨s, rfl, ho⟩ := h.first e hfirst
      obtain ⟨s', rfl, ho'⟩ := h'.first e hfirst
      rw [answer, answer, ho.record, ho'.record, ho.current, ho'.current,
        ho.fOffset, ho'.fOffset, ho.fLen, ho'.fLen, ho.readOffset, ho'.readOffset]

/-- What `sdbfs_open_id` and `sdbfs_find_id` should do after a history. -/
structure FindsId (host : Host w) (fs₀ fs : Sdbfs w σ) (es : List (Entry w)) (vid : BitVec 64)
    (did : BitVec 32) (n : Nat) : Prop where
  opens : OpensFirst host fs₀ es (idMatches host vid did) (sdbfsOpenId host n fs vid did)
  finds : FindsFirst es (idMatches host vid did) (sdbfsFindId host n fs vid did)

/-- **An open by identifiers does not depend on what was called before.**  For every image
    with a root table whose tables declare at least one record, every pair of identifiers
    and every two states that the library reaches by any calls after the device was created:
    in both the first record behind the root with these identifiers is opened and found, or
    `-ENOENT` is returned if there is none, and the answers are the same; as long as no
    record up to the first with these identifiers is used in place at address 0. -/
theorem open_id_any_history (host : Host w) (content : BitVec w → Record) (fs₀ : Sdbfs w σ)
    (hd : Delivers host fs₀ content) (ht : IsTable (content fs₀.entrypoint))
    (hdecl : AllDeclared (preorder content fs₀.entrypoint)) (vid : BitVec 64) (did : BitVec 32)
    (hnull : ∀ e ∈ upTo (idMatches host vid did) (behindRoot content fs₀.entrypoint),
      ¬ NullAt fs₀ e.pos) :
    ∀ fs fs' : Sdbfs w σ, Reached host fs₀ fs → Reached host fs₀ fs' →
      ∀ n, (behindRoot content fs₀.entrypoint).length < n →
        FindsId host fs₀ fs (behindRoot content fs₀.entrypoint) vid did n ∧
        answer host (sdbfsOpenId host n fs vid did) =
          answer host (sdbfsOpenId host n fs' vid did) := by
  have hopen : ∀ fs, Reached host fs₀ fs → ∀ n, (behindRoot content fs₀.entrypoint).length < n →
      OpensFirst host fs₀ (behindRoot content fs₀.entrypoint) (idMatches host vid did)
        (sdbfsOpenId host n fs vid did) := by
    intro fs hreached n hn
    obtain ⟨hsame, hentry⟩ := hreached.same
    rw [← hentry] at ht hdecl hnull hn ⊢
    refine OpensFirst.of_same ?_ hsame
    exact openScan_first (hd.same hsame) ht hdecl (fun e he h => hnull e he (hsame.nullAt h)) hn
  intro fs fs' h h' n hn
  have hfirst := hopen fs h n hn
  exact ⟨⟨hfirst, findOffset_first hfirst⟩, answer_unique hfirst (hopen fs' h' n hn)⟩

/-! ## An abandoned scan, and a table at address 0 -/

/-- A device of one byte with identifiers, which a little-endian host reads as 0xce and 1. -/
def idBytes (first : Byte) : List Byte :=
  List.replicate 15 0 ++ [first] ++ List.replicate 7 0 ++ [first] ++ [0xce] ++
    List.replicate 7 0 ++ [1] ++ List.replicate 30 0 ++ [1]

/-- The device is in a subdirectory. -/
def subdirBytes : List Byte :=
  interconnectBytes 2 ++ bridgeBytes 128 128 ++ (interconnectBytes 2 ++ idBytes 128)

/-- A scan of it that is given up at the bridge. -/
theorem subdir_reached : ∃ fs replies, runCalls (mappedHost 0x1000 subdirBytes) 4 (mapped 0 0x1000)
    [.scan true, .scan false] = .done (fs, replies) := by
  have hdone : isDone (runCalls (mappedHost 0x1000 subdirBytes) 4 (mapped 0 0x1000)
      [.scan true, .scan false]) = true := by decide +kernel
  generalize runCalls (mappedHost 0x1000 subdirBytes) 4 (mapped 0 0x1000)
    [.scan true, .scan false] = r at hdone ⊢
  cases r with
  | undefined => cases hdone
  | running => cases hdone
  | done x => exact ⟨x.1, x.2, rfl⟩

/-- A scan was abandoned in a subdirectory before. -/
theorem open_id_any_history_abandoned : ∃ fs,
    Reached (mappedHost 0x1000 subdirBytes) (mapped 0 0x1000) fs ∧
      FindsId (mappedHost 0x1000 subdirBytes) (mapped 0 0x1000) fs
        (behindRoot (mappedContent 0x1000 subdirBytes) 0) 0xce 1 4 := by
  obtain ⟨fs, replies, hrun⟩ := subdir_reached
  have hreached : Reached (mappedHost 0x1000 subdirBytes) (mapped 0 0x1000) fs := by
    refine ⟨4, [.scan true, .scan false], replies, ?_, hrun⟩
    intro c hc
    rcases List.mem_cons.mp hc with rfl | hc
    · trivial
    · rw [List.mem_singleton.mp hc]
      trivial
  exact ⟨fs, hreached, (open_id_any_history (mappedHost 0x1000 subdirBytes)
    (mappedContent 0x1000 subdirBytes) (mapped 0 0x1000) (by intro pos; rfl) (by decide +kernel)
    (by decide +kernel) 0xce 1 (by decide +kernel) fs fs hreached hreached 4
    (by decide +kernel)).1⟩

/-- The table of the subdirectory is at address 0, the root behind it. -/
def lowTableBytes : List Byte :=
  interconnectBytes 2 ++ idBytes 0 ++ (interconnectBytes 2 ++ bridgeBytes 0 0)

/-- A device that is mapped at zero, with its table at 128. -/
def lowTableDevice : Sdbfs 32 Unit := { mapped (SDBFS_F_ZEROBASED 32) 0 with entrypoint := 128 }

/-- The device is there, and it is not found. -/
theorem open_id_any_history_zeroBased :
    Delivers (mappedHost 0 lowTableBytes) lowTableDevice (mappedContent 0 lowTableBytes) ∧
      IsTable (mappedContent 0 lowTableBytes 128) ∧
      AllDeclared (preorder (mappedContent 0 lowTableBytes) 128) ∧
      Reached (mappedHost 0 lowTableBytes) lowTableDevice lowTableDevice ∧
      (behindRoot (mappedContent 0 lowTableBytes) 128).length < 4 ∧
      ¬ FindsId (mappedHost 0 lowTableBytes) lowTableDevice lowTableDevice
        (behindRoot (mappedContent 0 lowTableBytes) 128) 0xce 1 4 := by
  refine ⟨by intro pos; rfl, by decide +kernel, by decide +kernel,
    ⟨0, [], [], fun c hc => absurd hc List.not_mem_nil, rfl⟩, by decide +kernel, ?_⟩
  intro h
  have hmissing : (answer (mappedHost 0 lowTableBytes)
      (sdbfsOpenId (mappedHost 0 lowTableBytes) 4 lowTableDevice 0xce 1)).map Prod.fst =
      some (-ENOENT) := by decide +kernel
  have hthere : (behindRoot (mappedContent 0 lowTableBytes) 128).any
      (fun e => idMatches (mappedHost 0 lowTableBytes) 0xce 1 e.record) = true := by decide +kernel
  cases hopen : sdbfsOpenId (mappedHost 0 lowTableBytes) 4 lowTableDevice 0xce 1 with
  | undefined =>
      rw [hopen] at hmissing
      cases hmissing
  | running =>
      rw [hopen] at hmissing
      cases hmissing
  | done r =>
      obtain ⟨fs, ret⟩ := r
      rw [hopen] at hmissing
      have hret : ret = -ENOENT := Option.some.inj hmissing
      obtain ⟨e, he, hmatch⟩ := List.any_eq_true.mp hthere
      rw [h.opens.missing.mp ⟨fs, hret ▸ hopen⟩ e he] at hmatch
      cases hmatch

end SdbfsHistory
