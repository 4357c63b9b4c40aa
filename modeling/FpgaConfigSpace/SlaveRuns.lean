import FpgaConfigSpace.SlaveWrite

/-! # Runs of the slave device

    A run is any sequence of `read`, `write` and `poll` calls on one open file,
    with any user buffers.  `ParseInv` relates what the writes have done to the
    reference parser; `StreamInv` relates what the reads have returned to the
    requests taken from the hardware. -/

namespace WbSlaveRuns

open BigEndian WbIovec WbWishbone WbSlave WbSlaveParser WbSlaveWrite CyclicBuffer Frames

variable {σ : Type} (wops : WishboneOperations σ)

/-- A system call on an open slave file. -/
inductive SlaveCall where
  | aioRead (signal nonblock : Bool) (iov : Iovec)
  | aioWrite (signal : Bool) (iov : Iovec)
  | poll

/-- The context, the bus, and what user space has seen: the bytes returned by
    reads, the bytes writes were called with, and whether one returned `-EIO`.
    `copies` are the copies made into `wbuf`. -/
structure SlaveRun (σ : Type) where
  ctx : EtherboneSlaveContext
  bus : Bus σ
  returned : List Byte
  offered : List Byte
  eio : Bool
  copies : List (EtherboneSlaveContext × Nat)

/-- The call failed with `-EIO`. -/
def isEio : Except Errno Nat → Bool
  | .error .eio => true
  | _ => false

/-- One call, and what it returns or accepts. -/
def SlaveRun.step (run : SlaveRun σ) : SlaveCall → SlaveRun σ
  | .aioRead signal nonblock iov =>
      let x := charSlaveAioRead wops signal nonblock iov run.ctx run.bus
      { run with
        ctx := x.2.2.1
        bus := x.2.2.2
        returned := run.returned ++ transferred x.1 x.2.1 }
  | .aioWrite signal iov =>
      let outlen := u32 (iovLength iov)
      let x := charSlaveAioWrite wops signal iov run.ctx run.bus
      { run with
        ctx := x.2.1
        bus := x.2.2
        offered := run.offered ++ if signal then [] else iov.flatten.take outlen
        eio := run.eio || isEio x.1
        copies := run.copies ++ if signal then [] else
          slaveCopies wops (2 * outlen + 1) iov 0 outlen run.ctx run.bus }
  | .poll =>
      let x := charSlavePoll wops run.ctx run.bus
      { run with ctx := x.2.1, bus := x.2.2 }

/-- A run of calls. -/
def SlaveRun.exec (run : SlaveRun σ) (calls : List SlaveCall) : SlaveRun σ :=
  calls.foldl (SlaveRun.step wops) run

/-- A run that starts in a given context. -/
def SlaveRun.start (ctx : EtherboneSlaveContext) (bus : Bus σ) : SlaveRun σ :=
  ⟨ctx, bus, [], [], false, []⟩

variable {wops}

/-! ## Writes -/

/-- What holds after every write. -/
structure ParseInv (wops : WishboneOperations σ) (s₀ : ParserState) (bus₀ : Bus σ)
    (run : SlaveRun σ) : Prop where
  waiting : Waiting run.ctx
  copies : ∀ c ∈ run.copies, c.1.wbufFill + c.2 ≤ assembling c.1
  eio : run.eio = (drain (slaveFramer 1) s₀ run.offered).state.failed
  parsed : run.eio = false →
    parserOf run.ctx = (drain (slaveFramer 1) s₀ run.offered).state ∧
    held run.ctx = (drain (slaveFramer 1) s₀ run.offered).rest ∧
    run.bus = replyAll wops (drain (slaveFramer 1) s₀ run.offered).out bus₀

/-- **Every write preserves the invariant.** -/
theorem ParseInv.write {s₀ : ParserState} {bus₀ : Bus σ} {run : SlaveRun σ}
    (h : ParseInv wops s₀ bus₀ run) (signal : Bool) (iov : Iovec) :
    ParseInv wops s₀ bus₀ (run.step wops (.aioWrite signal iov)) := by
  cases signal with
  | true =>
      -- interrupted before anything was done
      have hrun : run.step wops (.aioWrite true iov) = run := by
        show SlaveRun.mk run.ctx run.bus run.returned (run.offered ++ []) (run.eio || false)
          (run.copies ++ []) = run
        rw [List.append_nil, List.append_nil, Bool.or_false]
      rw [hrun]
      exact h
  | false =>
      obtain ⟨outlen, hout⟩ : ∃ outlen, u32 (iovLength iov) = outlen := ⟨_, rfl⟩
      have hle : outlen ≤ (iov.flatten.drop 0).length := by
        have := u32_le (iovLength iov)
        rw [iovLength_eq] at this
        rw [← hout, iovLength_eq]
        exact this
      obtain ⟨hloop, hcopies⟩ := slaveWriteLoop_spec wops (2 * outlen + 1) iov 0 outlen run.ctx
        run.bus h.waiting hle (by rw [budget]; split <;> omega)
      rw [List.drop_zero] at hloop
      obtain ⟨r, hr⟩ : ∃ r, slaveWriteLoop wops (2 * outlen + 1) iov 0 outlen run.ctx run.bus = r :=
        ⟨_, rfl⟩
      rw [hr] at hloop
      have hrun : run.step wops (.aioWrite false iov) =
          { run with
            ctx := r.2.1
            bus := r.2.2
            offered := run.offered ++ iov.flatten.take outlen
            eio := run.eio || decide (0 < r.1)
            copies := run.copies ++
              slaveCopies wops (2 * outlen + 1) iov 0 outlen run.ctx run.bus } := by
        rw [SlaveRun.step, charSlaveAioWrite_eq]
        dsimp only
        rw [hout, hr]
        by_cases hleft : 0 < r.1
        · rw [if_neg Bool.false_ne_true, if_pos hleft, decide_eq_true hleft]
          rfl
        · rw [if_neg Bool.false_ne_true, if_neg hleft, decide_eq_false hleft]
          rfl
      rw [hrun]
      have happend := drain_append (slaveFramer 1) (iov.flatten.take outlen) s₀ run.offered
      refine ⟨hloop.waiting, ?_, ?_, ?_⟩
      · intro c hc
        rcases List.mem_append.mp hc with hc | hc
        · exact h.copies c hc
        · exact hcopies c hc
      · dsimp only
        rw [happend]
        cases heio : run.eio with
        | true =>
            have hfail : (drain (slaveFramer 1) s₀ run.offered).state.failed = true := by
              rw [← h.eio]
              exact heio
            rw [drain_failed hfail]
            exact hfail.symm
        | false =>
            obtain ⟨hstate, hheld, _⟩ := h.parsed heio
            rw [← hstate, ← hheld]
            exact hloop.failed.symm
      · intro hok
        obtain ⟨heio, hleft⟩ := Bool.or_eq_false_iff.mp hok
        obtain ⟨hstate, hheld, hbus⟩ := h.parsed heio
        obtain ⟨hdone, hrest⟩ := hloop.done (Nat.eq_zero_of_not_pos (of_decide_eq_false hleft))
        dsimp only
        rw [happend, ← hstate, ← hheld]
        refine ⟨hdone, hrest, ?_⟩
        rw [replyAll_append, ← hbus]
        exact hloop.replies

/-- A sequence of writes. -/
theorem parseInv_writes (s₀ : EtherboneSlaveContext) (bus₀ : Bus σ)
    (writes : List (Bool × Iovec)) :
    ParseInv wops (parserOf { s₀ with wbufFill := 0 }) bus₀
      ((SlaveRun.start { s₀ with wbufFill := 0 } bus₀).exec wops
        (writes.map fun w => .aioWrite w.1 w.2)) := by
  rw [SlaveRun.exec, List.foldl_map]
  refine List.foldlRecOn writes _ ?_ ?_
  · have hnil : drain (slaveFramer 1) (parserOf { s₀ with wbufFill := 0 }) [] = ⟨_, _, _⟩ :=
      @parse_nil { s₀ with wbufFill := 0 } (waiting_iff.mpr (.inl (Nat.zero_le 4)))
    refine ⟨waiting_iff.mpr (.inl (Nat.zero_le 4)), fun _ h => absurd h List.not_mem_nil, ?_, ?_⟩
    · show false = (drain (slaveFramer 1) _ []).state.failed
      rw [hnil]
      rfl
    · intro _
      show _ = (drain (slaveFramer 1) _ []).state ∧ _ = (drain (slaveFramer 1) _ []).rest ∧
        _ = replyAll wops (drain (slaveFramer 1) _ []).out _
      rw [hnil]
      exact ⟨rfl, rfl, rfl⟩
  · intro run h w _
    exact h.write w.1 w.2

/-- **Writing to the slave device parses the written stream**, however it is cut
    into calls and segments.  While no call has failed, the context and the answers
    given are those of the reference parser on the concatenated stream; a call
    fails exactly when the parser does.  The device waits for one byte behind a
    four-byte item; the eager parser, which does not, gives the same answers and
    holds the same data and count.  No copy into `wbuf` leaves the item it belongs
    to, or the buffer. -/
theorem slave_write_parses (ctx₀ : EtherboneSlaveContext) (bus₀ : Bus σ)
    (writes : List (Bool × Iovec)) :
    let fresh := { ctx₀ with wbufFill := 0 }
    let run := (SlaveRun.start fresh bus₀).exec wops (writes.map fun w => .aioWrite w.1 w.2)
    let t := drain (slaveFramer 1) (parserOf fresh) run.offered
    let e := drain (slaveFramer 0) (parserOf fresh) run.offered
    run.offered = (writes.map fun w =>
      if w.1 then [] else w.2.flatten.take (u32 (iovLength w.2))).flatten ∧
    run.eio = t.state.failed ∧
    (run.eio = false →
      run.ctx.negotiated = t.state.negotiated ∧ run.ctx.data = t.state.data ∧
      run.ctx.pendingErr = t.state.pendingErr ∧ run.ctx.wbufFill = t.rest.length ∧
      load run.ctx.wbuf 0 run.ctx.wbufFill = t.rest ∧
      run.bus = replyAll wops t.out bus₀ ∧
      run.bus.trace = bus₀.trace ++ t.out.map (fun r => .reply r.err r.data)) ∧
    (e.out = t.out ∧ e.state.pendingErr = t.state.pendingErr ∧ e.state.data = t.state.data ∧
      (e = t ∨ t.rest.length = 4 ∧ e.rest = [] ∧ e.state = (slaveStep t.state t.rest).1)) ∧
    ∀ c ∈ run.copies, c.1.wbufFill + c.2 ≤ assembling c.1 ∧ assembling c.1 ≤ 2052 := by
  intro fresh run t e
  have h : ParseInv wops (parserOf fresh) bus₀ run := parseInv_writes ctx₀ bus₀ writes
  refine ⟨?_, h.eio, ?_, drain_eager (parserOf fresh) run.offered, ?_⟩
  · have key : ∀ (writes : List (Bool × Iovec)) (r : SlaveRun σ),
        (r.exec wops (writes.map fun w => .aioWrite w.1 w.2)).offered = r.offered ++
          (writes.map fun w =>
            if w.1 then [] else w.2.flatten.take (u32 (iovLength w.2))).flatten := by
      intro writes
      induction writes with
      | nil => intro r; exact (List.append_nil _).symm
      | cons w writes ih =>
          intro r
          show ((r.step wops (.aioWrite w.1 w.2)).exec wops _).offered = _
          rw [ih, List.map_cons, List.flatten_cons, ← List.append_assoc]
          rfl
    exact key writes (SlaveRun.start fresh bus₀)
  · intro hok
    obtain ⟨hstate, hheld, hbus⟩ := h.parsed hok
    refine ⟨congrArg (·.negotiated) hstate, congrArg (·.data) hstate,
      congrArg (·.pendingErr) hstate, ?_, hheld, hbus, ?_⟩
    · rw [← hheld, held_length]
    · rw [hbus, replyAll_trace]
  · intro c hc
    exact ⟨h.copies c hc, assembling_le c.1⟩

end WbSlaveRuns
