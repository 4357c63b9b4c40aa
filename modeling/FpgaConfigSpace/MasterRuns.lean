import FpgaConfigSpace.MasterRing

/-! # Runs of the master device

    A run is any sequence of `read`, `write` and `poll` calls on one open file,
    with any user buffers.  `RunInv` is the invariant of a run: the context
    represents the bytes accepted so far, and the bytes returned so far are the
    beginning of the transducer's output. -/

namespace WbMasterRuns

open BigEndian WbIovec WbWishbone WbMaster WbTransducer WbMasterRecord WbMasterRing CyclicBuffer
open Frames

variable {σ : Type} (wops : WishboneOperations σ)

/-- A system call on an open master file. -/
inductive MasterCall where
  | aioRead (signal nonblock : Bool) (iov : Iovec)
  | aioWrite (signal nonblock : Bool) (iov : Iovec)
  | poll

/-- The context, the bus, and what user space has seen: the bytes accepted by
    writes and the bytes returned by reads. -/
structure MasterRun (σ : Type) where
  ctx : EtherboneMasterContext
  bus : Bus σ
  accepted : List Byte
  returned : List Byte

/-- One call, and what it returns or accepts. -/
def MasterRun.step (run : MasterRun σ) : MasterCall → MasterRun σ
  | .aioRead signal nonblock iov =>
      let x := charMasterAioRead signal nonblock iov run.ctx
      { run with ctx := x.2.2, returned := run.returned ++ transferred x.1 x.2.1 }
  | .aioWrite signal nonblock iov =>
      let x := charMasterAioWrite wops signal nonblock iov run.ctx run.bus
      { run with ctx := x.2.1, bus := x.2.2, accepted := run.accepted ++ transferred x.1 iov }
  | .poll => run

/-- A run of calls. -/
def MasterRun.exec (run : MasterRun σ) (calls : List MasterCall) : MasterRun σ :=
  calls.foldl (MasterRun.step wops) run

/-- A freshly opened file. -/
def MasterRun.opened (mem : EtherboneMasterContext) (bus : Bus σ) : MasterRun σ :=
  ⟨initContext mem, bus, [], []⟩

/-- What holds after every call. -/
structure RunInv (bus₀ : Bus σ) (run : MasterRun σ) : Prop where
  rep : Represents wops bus₀ run.accepted run.returned.length run.ctx run.bus
  out : run.returned <+: (transduce wops bus₀ run.accepted).out

variable {wops}

/-- A read returns the next bytes of the output. -/
theorem charMasterAioRead_spec {bus₀ : Bus σ} {W : List Byte} {s : Nat}
    {ctx : EtherboneMasterContext} {bus : Bus σ} (h : Represents wops bus₀ W s ctx bus)
    (signal nonblock : Bool) (iov : Iovec) :
    let x := charMasterAioRead signal nonblock iov ctx
    ∃ len, s + len ≤ (transduce wops bus₀ W).out.length ∧
      transferred x.1 x.2.1 = ((transduce wops bus₀ W).out.drop s).take len ∧
      Represents wops bus₀ W (s + len) x.2.2 bus := by
  intro x
  have hx : charMasterAioRead signal nonblock iov ctx = x := rfl
  unfold charMasterAioRead masterAioReadWith at hx
  dsimp only at hx
  by_cases hzero : u32 (iovLength iov) = 0
  · rw [if_pos hzero] at hx
    rw [← hx]
    exact ⟨0, h.sent_le, rfl, h⟩
  rw [if_neg hzero] at hx
  by_cases hsig : signal = true
  · rw [if_pos hsig] at hx
    rw [← hx]
    exact ⟨0, h.sent_le, rfl, h⟩
  rw [if_neg hsig] at hx
  obtain ⟨len, hlen⟩ : ∃ len, min (ringReadLen ctx) (u32 (iovLength iov)) = len := ⟨_, rfl⟩
  rw [hlen] at hx
  have hread := h.ringReadLen
  have hsle := h.sent_le
  have hroom := h.room
  have htotal := h.total
  have hfit : s + len ≤ (transduce wops bus₀ W).out.length := by omega
  have hspan : len ≤ iov.flatten.length := by
    have := u32_le (iovLength iov)
    rw [iovLength_eq] at this
    rw [iovLength_eq] at hlen
    omega
  obtain ⟨htake, hrep⟩ := h.take hfit
  have hidx : ringIndex ctx.sent = s % RING_SIZE := by
    rw [h.sent, ringIndex_eq]
    unfold RING_SIZE
    omega
  rw [hidx] at hx
  have hpos : s % RING_SIZE < RING_SIZE := Nat.mod_lt s (by decide)
  -- the two copies deliver one window of the ring
  have hcopy : ∀ iov', iov' = (if RING_SIZE - s % RING_SIZE < len then
        memcpyToiovecend
          (memcpyToiovecend iov (load ctx.buf (s % RING_SIZE) (RING_SIZE - s % RING_SIZE)) 0)
          (load ctx.buf 0 (len - (RING_SIZE - s % RING_SIZE))) (RING_SIZE - s % RING_SIZE)
      else memcpyToiovecend iov (load ctx.buf (s % RING_SIZE) len) 0) →
      iov'.flatten.take len = window RING_SIZE ctx.buf s len := by
    intro iov' hiov'
    by_cases hwrap : RING_SIZE - s % RING_SIZE < len
    · rw [if_pos hwrap] at hiov'
      have htwo := take_memcpyToiovecend_two iov
        (load ctx.buf (s % RING_SIZE) (RING_SIZE - s % RING_SIZE))
        (load ctx.buf 0 (len - (RING_SIZE - s % RING_SIZE)))
        (by rw [load_length, load_length]; omega)
      rw [load_append_load RING_SIZE ctx.buf s len (by decide) (by omega) (by omega), load_length,
        load_length, show RING_SIZE - s % RING_SIZE + (len - (RING_SIZE - s % RING_SIZE)) = len
          by omega] at htwo
      rw [hiov', htwo]
    · rw [if_neg hwrap] at hiov'
      have hone := take_memcpyToiovecend iov (load ctx.buf (s % RING_SIZE) len)
        (by rw [load_length]; exact hspan)
      rw [load_length] at hone
      rw [hiov', hone, load_eq_window RING_SIZE ctx.buf s len (by omega)]
  refine ⟨len, hfit, ?_, ?_⟩
  · rw [← hx, ← htake]
    split
    · rename_i hagain
      rw [hagain.1]
      rfl
    · exact hcopy _ rfl
  · rw [← hx]
    split
    · exact hrep
    · exact hrep

/-- The two copies of a write store the bytes cyclically. -/
theorem copyIn_eq (buf : Nat → Byte) (pos : Nat) (iov : Iovec) {len : Nat}
    (hspan : len ≤ iov.flatten.length) :
    (if RING_SIZE - ringIndex pos < len then
        store (store buf (ringIndex pos) (memcpyFromiovecend iov 0 (RING_SIZE - ringIndex pos)))
          0 (memcpyFromiovecend iov (RING_SIZE - ringIndex pos) (len - (RING_SIZE - ringIndex pos)))
      else store buf (ringIndex pos) (memcpyFromiovecend iov 0 len)) =
      storeCyclic RING_SIZE buf pos (iov.flatten.take len) := by
  have hdata : (iov.flatten.take len).length = len := by
    rw [List.length_take]
    omega
  have hidx : ringIndex pos = pos % RING_SIZE := ringIndex_eq pos
  unfold storeCyclic
  rw [hidx, hdata, memcpyFromiovecend_eq, memcpyFromiovecend_eq, memcpyFromiovecend_eq,
    List.drop_zero]
  by_cases hwrap : RING_SIZE - pos % RING_SIZE < len
  · rw [if_pos hwrap, if_pos hwrap, List.take_take, Nat.min_eq_left (by omega), List.drop_take]
  · rw [if_neg hwrap, if_neg hwrap]

/-- A write extends the accepted stream by the bytes it reports. -/
theorem charMasterAioWrite_spec {bus₀ : Bus σ} {W : List Byte} {s : Nat}
    {ctx : EtherboneMasterContext} {bus : Bus σ} (h : Represents wops bus₀ W s ctx bus)
    (signal nonblock : Bool) (iov : Iovec) :
    let x := charMasterAioWrite wops signal nonblock iov ctx bus
    Represents wops bus₀ (W ++ transferred x.1 iov) s x.2.1 x.2.2 := by
  intro x
  have hx : charMasterAioWrite wops signal nonblock iov ctx bus = x := rfl
  unfold charMasterAioWrite masterAioWriteWith at hx
  dsimp only at hx
  by_cases hzero : u32 (iovLength iov) = 0
  · rw [if_pos hzero] at hx
    rw [← hx]
    show Represents wops bus₀ (W ++ []) s ctx bus
    rw [List.append_nil]
    exact h
  rw [if_neg hzero] at hx
  by_cases hsig : signal = true
  · rw [if_pos hsig] at hx
    rw [← hx]
    show Represents wops bus₀ (W ++ []) s ctx bus
    rw [List.append_nil]
    exact h
  rw [if_neg hsig] at hx
  obtain ⟨len, hlen⟩ : ∃ len, min (ringWriteLen ctx) (u32 (iovLength iov)) = len := ⟨_, rfl⟩
  rw [hlen] at hx
  have hwrite := h.ringWriteLen
  have hspan : len ≤ iov.flatten.length := by
    have := u32_le (iovLength iov)
    rw [iovLength_eq] at this
    rw [iovLength_eq] at hlen
    omega
  have hroom := h.room
  have hdata : (iov.flatten.take len).length = len := by
    rw [List.length_take]
    omega
  have hcopy := copyIn_eq ctx.buf ctx.received iov hspan
  rw [h.received, storeCyclic_congr RING_SIZE ctx.buf _
    (show W.length % 16384 % RING_SIZE = W.length % RING_SIZE by unfold RING_SIZE; omega),
    ← h.received] at hcopy
  rw [hcopy] at hx
  have hput := h.put (iov.flatten.take len) (by rw [hdata]; omega)
  rw [hdata] at hput
  rw [← hx]
  split
  · rename_i hagain
    rw [hagain.1] at hput
    rw [hagain.1]
    exact hput
  · exact hput

/-- **Every call preserves the invariant.** -/
theorem RunInv.step {bus₀ : Bus σ} {run : MasterRun σ} (h : RunInv wops bus₀ run)
    (call : MasterCall) : RunInv wops bus₀ (run.step wops call) := by
  cases call with
  | aioRead signal nonblock iov =>
      obtain ⟨len, hfit, hbytes, hrep⟩ := charMasterAioRead_spec h.rep signal nonblock iov
      have hlen : (transferred (charMasterAioRead signal nonblock iov run.ctx).1
          (charMasterAioRead signal nonblock iov run.ctx).2.1).length = len := by
        rw [hbytes, List.length_take, List.length_drop]
        omega
      constructor
      · show Represents wops bus₀ run.accepted (run.returned ++ _).length _ _
        rw [List.length_append, hlen]
        exact hrep
      · show run.returned ++ _ <+: _
        rw [hbytes, List.prefix_iff_eq_take.mp h.out]
        have htake : (List.take run.returned.length
            (transduce wops bus₀ run.accepted).out).length = run.returned.length := by
          rw [List.length_take]
          omega
        rw [htake, ← List.take_add]
        exact List.take_prefix _ _
  | aioWrite signal nonblock iov =>
      have hrep := charMasterAioWrite_spec h.rep signal nonblock iov
      exact ⟨hrep, h.out.trans (drain_out_extends _ _ _ _)⟩
  | poll => exact h

/-- A freshly opened file satisfies the invariant. -/
theorem runInv_opened (mem : EtherboneMasterContext) (bus₀ : Bus σ) :
    RunInv wops bus₀ (MasterRun.opened mem bus₀) :=
  ⟨represents_open wops mem bus₀, List.nil_prefix⟩

/-- **The invariant holds throughout every run.** -/
theorem runInv_exec (mem : EtherboneMasterContext) (bus₀ : Bus σ) (calls : List MasterCall) :
    RunInv wops bus₀ ((MasterRun.opened mem bus₀).exec wops calls) := by
  have key : ∀ (calls : List MasterCall) (run : MasterRun σ), RunInv wops bus₀ run →
      RunInv wops bus₀ (run.exec wops calls) := by
    intro calls
    induction calls with
    | nil => intro run h; exact h
    | cons call calls ih => intro run h; exact ih (run.step wops call) (h.step call)
  exact key calls _ (runInv_opened mem bus₀)

/-! ## What a run amounts to -/

/-- **The master device is the transducer `T`**: whatever the interleaving of the
    calls, the bus has seen the calls of `T` on the accepted stream, and user
    space has read a prefix of its output, which has the length of the items it
    replaces. -/
theorem master_run_transduces (mem : EtherboneMasterContext) (st : σ) (calls : List MasterCall) :
    let run := (MasterRun.opened mem ⟨st, []⟩).exec wops calls
    let t := transduce wops ⟨st, []⟩ run.accepted
    run.bus.trace = t.state.2.trace ∧ run.bus.st = t.state.2.st ∧
    run.returned <+: t.out ∧ t.out.length + t.rest.length = run.accepted.length := by
  intro run t
  have h : RunInv wops ⟨st, []⟩ run := runInv_exec mem ⟨st, []⟩ calls
  have hbus : run.bus = t.state.2 := congrArg Prod.snd h.rep.state
  exact ⟨congrArg Bus.trace hbus, congrArg Bus.st hbus, h.out, h.rep.total⟩

/-- An incomplete item is shorter than the longest record. -/
theorem incomplete_lt {s : MasterState} {xs : List Byte} (h : masterFrame s xs = none) :
    xs.length < 2052 := by
  by_cases hs : s = .header
  · rw [hs, masterFrame] at h
    split at h
    · omega
    · cases h
  · rw [masterFrame_record hs] at h
    have hle := recordLen_le (xs.getD 2 0) (xs.getD 3 0)
    split at h
    · omega
    · split at h
      · omega
      · cases h

/-- **The three positions of the ring are ordered in every reachable state**, the
    lengths computed from them are exact, record words never straddle the end of
    the buffer, and the device is always readable or writable. -/
theorem master_ring_ordered (mem : EtherboneMasterContext) (st : σ) (calls : List MasterCall) :
    let run := (MasterRun.opened mem ⟨st, []⟩).exec wops calls
    let ctx := run.ctx
    ∃ processed : Nat,
      -- the order, of the positions before they are reduced
      run.returned.length ≤ processed ∧ processed ≤ run.accepted.length ∧
      run.accepted.length ≤ run.returned.length + RING_SIZE ∧
      ctx.sent = ringPos run.returned.length ∧ ctx.processed = ringPos processed ∧
      ctx.received = ringPos run.accepted.length ∧
      -- the lengths
      ringReadLen ctx = processed - run.returned.length ∧
      ringProcLen ctx = run.accepted.length - processed ∧
      ringWriteLen ctx = run.returned.length + RING_SIZE - run.accepted.length ∧
      ringProcLen ctx < 2052 ∧
      -- alignment
      4 ∣ ctx.processed ∧ (∀ k, ringIndex (ctx.processed + 4 * k) + 4 ≤ RING_SIZE) ∧
      -- liveness of poll
      (ringReadLen ctx = 0 → 0 < ringWriteLen ctx) ∧ charMasterPoll ctx ≠ (false, false) := by
  intro run ctx
  have h : RunInv wops ⟨st, []⟩ run := runInv_exec mem ⟨st, []⟩ calls
  have hread := h.rep.ringReadLen
  have hproc := h.rep.ringProcLen
  have hwrite := h.rep.ringWriteLen
  have htotal := h.rep.total
  have hsle := h.rep.sent_le
  have hal := h.rep.aligned
  have hlt : (transduce wops ⟨st, []⟩ run.accepted).rest.length < 2052 :=
    incomplete_lt (drain_rest_incomplete (masterFramer wops) (.header, ⟨st, []⟩) run.accepted)
  have hal' : 4 ∣ ctx.processed := by
    rw [h.rep.processed]
    omega
  have hstuck : ringReadLen ctx = 0 → 0 < ringWriteLen ctx := by
    intro h0
    rw [hwrite]
    rw [hread] at h0
    unfold RING_SIZE
    omega
  refine ⟨(transduce wops ⟨st, []⟩ run.accepted).out.length, hsle, by omega, h.rep.room,
    ?_, ?_, ?_, hread, ?_, hwrite, ?_, hal', ?_, hstuck, ?_⟩
  · rw [ringPos_eq]; exact h.rep.sent
  · rw [ringPos_eq]; exact h.rep.processed
  · rw [ringPos_eq]; exact h.rep.received
  · rw [hproc]; omega
  · rw [hproc]; exact hlt
  · intro k
    rw [ringIndex_eq]
    unfold RING_SIZE
    omega
  · intro hpoll
    have h1 := congrArg Prod.fst hpoll
    have h2 := congrArg Prod.snd hpoll
    simp only [charMasterPoll, ne_eq, decide_not, Bool.not_eq_false', decide_eq_true_eq] at h1 h2
    have := hstuck h1
    omega

end WbMasterRuns
