import FpgaConfigSpace.MasterRecord

/-! # The ring refines the transducer

    `Represents` relates a master context to a byte stream: after the stream `W`
    was accepted and `s` response bytes were taken away, the ring holds the unread
    part of the transducer's output, followed by the incomplete record at the end
    of `W`, and the context's state and bus are the transducer's.  Opening
    establishes it, and `write` and `read` preserve it. -/

namespace WbMasterRing

open BigEndian WbIovec WbWishbone WbMaster WbTransducer WbMasterRecord CyclicBuffer Frames

variable {σ : Type} (wops : WishboneOperations σ)

/-! ## The record loop -/

/-- What the record loop leaves of the `left` bytes from word position `q`: the
    responses, the incomplete tail, and everything else as it was. -/
structure LoopSpec (left q : Nat) (m : RecordCursor σ) (r : Nat × RecordCursor σ)
    (d : Drained Byte (MasterState × Bus σ) Byte) : Prop where
  rest : r.1 = d.rest.length
  state : (r.2.state, r.2.bus) = d.state
  live : r.2.state ≠ .header
  ring : window RING_SIZE r.2.buf (4 * q) left = d.out ++ d.rest
  frame : SameOutside RING_SIZE m.buf r.2.buf (4 * q) left
  aligned : 4 ∣ d.out.length

/-- Nothing is done to an incomplete record. -/
theorem LoopSpec.stop {left q : Nat} {m : RecordCursor σ} (hlive : m.state ≠ .header)
    (h : masterFrame m.state (window RING_SIZE m.buf (4 * q) left) = none) :
    LoopSpec left q m (left, m)
      (drain (masterFramer wops) (m.state, m.bus) (window RING_SIZE m.buf (4 * q) left)) := by
  rw [drain_of_none (masterFramer wops) (s := (m.state, m.bus)) h]
  exact ⟨(window_length _ _ _ _).symm, rfl, hlive, rfl, SameOutside.refl _ _ _ _, Nat.dvd_zero 4⟩

/-- The byte at offset `k < 4` of a window is the header byte of its record. -/
theorem window_header (buf : Nat → Byte) (q left k : Nat) (hk : k < 4) (hleft : 4 ≤ left) :
    (window RING_SIZE buf (4 * q) left).getD k 0 = headerByte buf q k := by
  rw [List.getD_eq_getElem _ _ (by rw [window_length]; omega), window_getElem, headerByte]
  congr 1
  unfold RING_SIZE RING_WORDS
  omega

/-- A record keeps the cursor past the header phase. -/
theorem exec_live (r : EbRecord) (s : MasterState × Bus σ) : (r.exec wops s).1.1 ≠ .header := by
  unfold EbRecord.exec
  split
  · exact nofun
  · exact nofun

/-- **The record loop drains the transducer.** -/
theorem recordLoop_spec : ∀ (fuel left q : Nat) (m : RecordCursor σ), left ≤ fuel →
    left ≤ RING_SIZE → m.i = 4 * (q % RING_WORDS) → m.state ≠ .header →
    LoopSpec left q m (recordLoop wops fuel left m)
      (drain (masterFramer wops) (m.state, m.bus) (window RING_SIZE m.buf (4 * q) left)) := by
  intro fuel
  induction fuel with
  | zero =>
      intro left q m hfuel _ _ hlive
      obtain rfl : left = 0 := Nat.le_zero.mp hfuel
      refine LoopSpec.stop wops hlive ?_
      rw [masterFrame_record hlive]
      rfl
  | succ fuel ih =>
      intro left q m hfuel hsize hi hlive
      have hframe := masterFrame_record hlive (window RING_SIZE m.buf (4 * q) left)
      rw [window_length] at hframe
      rw [recordLoop]
      by_cases h4 : left < 4
      · rw [if_pos h4]
        refine LoopSpec.stop wops hlive ?_
        rw [hframe, if_pos h4]
      rw [if_neg h4]
      rw [if_neg h4, window_header _ _ _ 2 (by omega) (by omega),
        window_header _ _ _ 3 (by omega) (by omega)] at hframe
      have hcode : ∀ k, m.buf (m.i + k) = headerByte m.buf q k := fun k => by rw [hi]; rfl
      simp only [hcode]
      by_cases hlen : left < recordLen (headerByte m.buf q 2) (headerByte m.buf q 3)
      · rw [if_pos hlen]
        refine LoopSpec.stop wops hlive ?_
        rw [hframe, if_pos hlen]
      rw [if_neg hlen]
      rw [if_neg hlen] at hframe
      -- one record: the transducer makes the same step
      have hrec := recordAt_eq m.buf q
      obtain ⟨hstate, hadv⟩ := processRecord_spec wops q m hi hlive
      rw [recordLen_eq] at hframe hlen ⊢
      rw [recordLen_eq] at hrec
      have hle := recordWords_le (headerByte m.buf q 2) (headerByte m.buf q 3)
      obtain ⟨n, hn⟩ : ∃ n, recordWords (headerByte m.buf q 2) (headerByte m.buf q 3) = n :=
        ⟨_, rfl⟩
      have hnpos : 0 < n := by rw [← hn]; unfold recordWords; omega
      rw [hn] at hframe hlen hrec hadv hle ⊢
      obtain ⟨l, rfl⟩ : ∃ l, left = 4 * n + l := ⟨left - 4 * n, by omega⟩
      rw [Nat.add_sub_cancel_left]
      let x := (recordAt m.buf q).exec wops (m.state, m.bus)
      have hstep : (masterFramer wops).step (m.state, m.bus)
          ((window RING_SIZE m.buf (4 * q) (4 * n + l)).take (4 * n)) =
          (x.1, x.2.flatMap bytesOf) := by
        show masterStep wops _ _ = _
        rw [window_take _ _ _ (by omega), masterStep, if_neg hlive, ← hrec]
      have hframe' : SameOutside RING_SIZE m.buf (processRecord wops m).buf (4 * q) (4 * n) :=
        sameOutside_bytes hadv.frame
      have hahead : window RING_SIZE m.buf (4 * q + 4 * n) l =
          window RING_SIZE (processRecord wops m).buf (4 * (q + n)) l := by
        rw [Nat.mul_add]
        exact (hframe'.window_after (Nat.le_refl _) (by omega)).symm
      have hout : window RING_SIZE (processRecord wops m).buf (4 * q) (4 * n) =
          x.2.flatMap bytesOf := by
        rw [window_eq_flatMap, hadv.out]
      have hlive' : (processRecord wops m).state ≠ .header := by
        have := exec_live wops (recordAt m.buf q) (m.state, m.bus)
        rw [← hstate] at this
        exact this
      have hrest := ih l (q + n) (processRecord wops m) (by omega) (by omega) hadv.i hlive'
      have hring := hrest.ring
      have hfr := hrest.frame
      rw [Nat.mul_add] at hfr
      rw [drain_of_some (masterFramer wops) (s := (m.state, m.bus)) hframe, hstep,
        window_drop _ _ _ (by omega), Nat.add_sub_cancel_left, hahead]
      rw [show x.1 = ((processRecord wops m).state, (processRecord wops m).bus) from hstate.symm]
      refine ⟨hrest.rest, hrest.state, hrest.live, ?_, hframe'.trans hfr, ?_⟩
      · rw [window_add, hfr.window_before (Nat.le_refl _) (by omega), hout, ← Nat.mul_add, hring,
          List.append_assoc]
      · rw [List.length_append, length_flatMap_bytesOf]
        exact Nat.dvd_add (Nat.dvd_mul_right 4 _) hrest.aligned

/-! ## Processing -/

/-- Distances between positions are exact below twice the ring size. -/
theorem ringPos_sub {a b : Nat} (h : b ≤ a) (h' : a < b + 16384) :
    ringPos (subU32 (a % 16384) (b % 16384)) = a - b := by
  rw [ringPos_eq, subU32]
  omega

/-- What processing leaves of the pending bytes between positions `p` and `r`. -/
structure ProcessSpec (p r : Nat) (ctx : EtherboneMasterContext)
    (x : EtherboneMasterContext × Bus σ) (d : Drained Byte (MasterState × Bus σ) Byte) :
    Prop where
  state : (x.1.state, x.2) = d.state
  sent : x.1.sent = ctx.sent
  received : x.1.received = ctx.received
  processed : x.1.processed = (p + d.out.length) % 16384
  ring : window RING_SIZE x.1.buf p (r - p) = d.out ++ d.rest
  frame : SameOutside RING_SIZE ctx.buf x.1.buf p (r - p)
  aligned : 4 ∣ d.out.length

/-- Past the header, processing runs the record loop from `processed`. -/
theorem processRecords_spec {p r : Nat} (ctx : EtherboneMasterContext) (bus : Bus σ)
    (hp : ctx.processed = p % 16384) (hr : ctx.received = r % 16384) (hpr : p ≤ r)
    (hroom : r ≤ p + RING_SIZE) (hal : 4 ∣ p) (hlive : ctx.state ≠ .header) :
    ProcessSpec p r ctx (processRecords wops ctx bus)
      (drain (masterFramer wops) (ctx.state, bus) (window RING_SIZE ctx.buf p (r - p))) := by
  obtain ⟨q, rfl⟩ := hal
  have hsize : ringProcLen ctx = r - 4 * q := by
    rw [ringProcLen, hp, hr, ringPos_sub hpr (by unfold RING_SIZE at hroom; omega)]
  have hi : ringIndex ctx.processed = 4 * (q % RING_WORDS) := by
    rw [hp, ringIndex_eq]
    unfold RING_WORDS
    omega
  obtain ⟨d, hd⟩ : ∃ d, drain (masterFramer wops) (ctx.state, bus)
      (window RING_SIZE ctx.buf (4 * q) (r - 4 * q)) = d := ⟨_, rfl⟩
  have hloop : LoopSpec (r - 4 * q) q ⟨ctx.state, ctx.buf, ringIndex ctx.processed, bus⟩
      (recordLoop wops (r - 4 * q) (r - 4 * q) ⟨ctx.state, ctx.buf, ringIndex ctx.processed, bus⟩)
      d := by
    rw [← hd]
    exact recordLoop_spec wops (r - 4 * q) (r - 4 * q) q _ (Nat.le_refl _) (by omega) hi hlive
  have hlen := congrArg List.length hloop.ring
  rw [window_length, List.length_append] at hlen
  unfold processRecords
  rw [hsize, hd]
  refine ⟨hloop.state, rfl, rfl, ?_, hloop.ring, hloop.frame, hloop.aligned⟩
  show ringPos (ctx.processed + (r - 4 * q) - _) = _
  rw [hloop.rest, ringPos_eq, hp]
  omega

/-- Answering the probe is the transducer's first step. -/
theorem answerProbe_window (ctx : EtherboneMasterContext) :
    window RING_SIZE (answerProbe ctx).buf 0 8 =
      probeResponse (window RING_SIZE ctx.buf 0 8) := rfl

theorem answerProbe_frame (ctx : EtherboneMasterContext) :
    SameOutside RING_SIZE ctx.buf (answerProbe ctx).buf 0 8 := by
  intro x hx hout
  refine storeFour_outside _ _ _ _ _ (Or.inr ?_)
  by_contra hlt
  refine hout x (by omega) ?_
  unfold RING_SIZE
  omega

/-- **`etherbone_master_process` drains the transducer**, in the header phase and
    past it. -/
theorem etherboneMasterProcess_spec {p r : Nat} (ctx : EtherboneMasterContext) (bus : Bus σ)
    (hp : ctx.processed = p % 16384) (hr : ctx.received = r % 16384) (hpr : p ≤ r)
    (hroom : r ≤ p + RING_SIZE) (hal : 4 ∣ p) (hhdr : ctx.state = .header → p = 0) :
    ProcessSpec p r ctx (etherboneMasterProcess wops ctx bus)
      (drain (masterFramer wops) (ctx.state, bus) (window RING_SIZE ctx.buf p (r - p))) := by
  unfold etherboneMasterProcess
  by_cases hs : ctx.state = .header
  · obtain rfl := hhdr hs
    have hr' : ctx.received = r := by
      rw [hr]
      unfold RING_SIZE at hroom
      omega
    have hwin : (window RING_SIZE ctx.buf 0 (r - 0)).length = r := by
      rw [window_length, Nat.sub_zero]
    rw [if_pos hs, hs]
    by_cases h8 : r < 8
    · rw [if_pos (by rw [hr']; exact h8), drain_of_none (masterFramer wops)
        (s := (MasterState.header, bus)) (show masterFrame .header _ = none from by
          rw [masterFrame, hwin, if_pos h8])]
      refine ⟨by rw [hs], rfl, rfl, ?_, rfl, SameOutside.refl _ _ _ _, Nat.dvd_zero 4⟩
      rw [hp]
      rfl
    · -- the probe is answered, and the rest is processed as records
      rw [if_neg (by rw [hr']; exact h8), drain_of_some (masterFramer wops)
        (s := (MasterState.header, bus)) (show masterFrame .header _ = some 8 from by
          rw [masterFrame, hwin, if_neg h8])]
      obtain ⟨l, rfl⟩ : ∃ l, r = 8 + l := ⟨r - 8, by omega⟩
      have hfr := answerProbe_frame ctx
      have hafter : window RING_SIZE (answerProbe ctx).buf 8 l = window RING_SIZE ctx.buf 8 l :=
        hfr.window_after (by omega) (by omega)
      have hrec := processRecords_spec wops (p := 8) (r := 8 + l) (answerProbe ctx) bus rfl hr
        (by omega) (by omega) (by decide) (fun h => by cases h)
      rw [Nat.add_sub_cancel_left] at hrec
      rw [Nat.sub_zero, window_take _ _ _ (by omega), window_drop _ _ _ (by omega),
        Nat.add_sub_cancel_left, Nat.zero_add,
        ← hafter]
      have hrfr := hrec.frame
      rw [Nat.add_sub_cancel_left] at hrfr
      refine ⟨hrec.state, hrec.sent, hrec.received, ?_, ?_, ?_, ?_⟩
      · rw [hrec.processed, List.length_append, Nat.zero_add]
        rfl
      · rw [Nat.sub_zero, window_add, hrfr.window_before (by omega) (by omega),
          answerProbe_window, List.append_assoc]
        refine congrArg _ ?_
        have := hrec.ring
        rwa [Nat.add_sub_cancel_left] at this
      · rw [Nat.sub_zero]
        exact hfr.trans hrfr
      · rw [List.length_append]
        exact Nat.dvd_add ⟨2, rfl⟩ hrec.aligned
  · rw [if_neg hs]
    exact processRecords_spec wops ctx bus hp hr hpr hroom hal hs

/-! ## The context and the stream -/

/-- The transducer on a whole stream, from the header phase. -/
def transduce (bus : Bus σ) (W : List Byte) : Drained Byte (MasterState × Bus σ) Byte :=
  drain (masterFramer wops) (.header, bus) W

/-- The context after the stream `W` was accepted and `s` bytes of the response
    were taken away, on a bus that was `bus₀` at the start. -/
structure Represents (bus₀ : Bus σ) (W : List Byte) (s : Nat) (ctx : EtherboneMasterContext)
    (bus : Bus σ) : Prop where
  state : (ctx.state, bus) = (transduce wops bus₀ W).state
  sent : ctx.sent = s % 16384
  processed : ctx.processed = (transduce wops bus₀ W).out.length % 16384
  received : ctx.received = W.length % 16384
  sent_le : s ≤ (transduce wops bus₀ W).out.length
  total : (transduce wops bus₀ W).out.length + (transduce wops bus₀ W).rest.length = W.length
  room : W.length ≤ s + RING_SIZE
  aligned : 4 ∣ (transduce wops bus₀ W).out.length
  ring : window RING_SIZE ctx.buf s (W.length - s) =
    (transduce wops bus₀ W).out.drop s ++ (transduce wops bus₀ W).rest

/-- In the header phase nothing was consumed. -/
theorem transduce_header {bus₀ : Bus σ} {W : List Byte}
    (h : (transduce wops bus₀ W).state.1 = .header) : (transduce wops bus₀ W).out = [] := by
  unfold transduce at h ⊢
  cases hf : (masterFramer wops).frame (.header, bus₀) W with
  | none => rw [drain_of_none _ hf]
  | some k =>
      -- past the probe the state is never `header` again
      rw [drain_of_some _ hf] at h
      refine absurd h (drain_invariant (masterFramer wops) (P := fun s => s.1 ≠ .header) ?_ _ _
        (fun h => by cases h))
      intro s xs k hs _
      show (masterStep wops s _).1.1 ≠ _
      rw [masterStep, if_neg hs]
      exact exec_live wops _ s

/-- Opening the device: nothing was received. -/
theorem represents_open (mem : EtherboneMasterContext) (bus₀ : Bus σ) :
    Represents wops bus₀ [] 0 (initContext mem) bus₀ := by
  have hnil : transduce wops bus₀ [] = ⟨(.header, bus₀), [], []⟩ :=
    drain_of_none (masterFramer wops) rfl
  refine ⟨?_, rfl, ?_, rfl, Nat.zero_le _, ?_, ?_, ?_, ?_⟩
  · rw [hnil]; rfl
  · rw [hnil]; rfl
  · rw [hnil]; rfl
  · exact Nat.zero_le _
  · rw [hnil]; exact Nat.dvd_zero 4
  · rw [hnil]; rfl

variable {wops}

/-- The bytes to read are the unread part of the output. -/
theorem Represents.ringReadLen {bus₀ : Bus σ} {W : List Byte} {s : Nat}
    {ctx : EtherboneMasterContext} {bus : Bus σ} (h : Represents wops bus₀ W s ctx bus) :
    ringReadLen ctx = (transduce wops bus₀ W).out.length - s := by
  have := h.total
  have := h.room
  rw [WbMaster.ringReadLen, h.processed, h.sent]
  exact ringPos_sub h.sent_le (by unfold RING_SIZE at *; omega)

/-- The bytes to process are the incomplete tail. -/
theorem Represents.ringProcLen {bus₀ : Bus σ} {W : List Byte} {s : Nat}
    {ctx : EtherboneMasterContext} {bus : Bus σ} (h : Represents wops bus₀ W s ctx bus) :
    ringProcLen ctx = (transduce wops bus₀ W).rest.length := by
  have := h.total
  have := h.room
  have := h.sent_le
  rw [WbMaster.ringProcLen, h.received, h.processed,
    ringPos_sub (by omega) (by unfold RING_SIZE at *; omega)]
  omega

/-- The room left is what the ring does not hold. -/
theorem Represents.ringWriteLen {bus₀ : Bus σ} {W : List Byte} {s : Nat}
    {ctx : EtherboneMasterContext} {bus : Bus σ} (h : Represents wops bus₀ W s ctx bus) :
    ringWriteLen ctx = s + RING_SIZE - W.length := by
  have := h.total
  have := h.room
  have := h.sent_le
  rw [WbMaster.ringWriteLen, h.received, h.sent, ringPos_eq, subU32]
  unfold RING_SIZE at *
  omega

/-- Taking the next `len` bytes of the output. -/
theorem Represents.take {bus₀ : Bus σ} {W : List Byte} {s : Nat} {ctx : EtherboneMasterContext}
    {bus : Bus σ} (h : Represents wops bus₀ W s ctx bus) {len : Nat}
    (hlen : s + len ≤ (transduce wops bus₀ W).out.length) :
    window RING_SIZE ctx.buf s len = ((transduce wops bus₀ W).out.drop s).take len ∧
    Represents wops bus₀ W (s + len) { ctx with sent := ringPos (ctx.sent + len) } bus := by
  have htotal := h.total
  have hring := h.ring
  constructor
  · rw [← window_take RING_SIZE ctx.buf s (show len ≤ W.length - s by omega), hring,
      List.take_append_of_le_length (by rw [List.length_drop]; omega)]
  · refine ⟨h.state, ?_, h.processed, h.received, hlen, htotal, ?_, h.aligned, ?_⟩
    · show ringPos (ctx.sent + len) = _
      rw [h.sent, ringPos_eq]
      omega
    · have := h.room
      omega
    · show window RING_SIZE ctx.buf (s + len) _ = _
      have := congrArg (List.drop len) hring
      rw [window_drop _ _ _ (by omega), List.drop_append_of_le_length
        (by rw [List.length_drop]; omega), List.drop_drop] at this
      rw [← this]
      congr 1
      omega

/-- Accepting `data`: the ring is extended and processed, and the transducer goes
    on where it had stopped. -/
theorem Represents.put {bus₀ : Bus σ} {W : List Byte} {s : Nat} {ctx : EtherboneMasterContext}
    {bus : Bus σ} (h : Represents wops bus₀ W s ctx bus) (data : List Byte)
    (hdata : W.length + data.length ≤ s + RING_SIZE) :
    let x := etherboneMasterProcess wops
      { ctx with
        buf := storeCyclic RING_SIZE ctx.buf W.length data
        received := ringPos (ctx.received + data.length) } bus
    Represents wops bus₀ (W ++ data) s x.1 x.2 := by
  intro x
  have htotal := h.total
  have hsle := h.sent_le
  obtain ⟨t, ht⟩ : ∃ t, transduce wops bus₀ W = t := ⟨_, rfl⟩
  have hstate := h.state
  have hring := h.ring
  have hal := h.aligned
  have hproc := h.processed
  have hout0 := @transduce_header σ wops bus₀ W
  rw [ht] at htotal hsle hstate hring hal hproc hout0
  -- the ring before processing: unread output, tail, new data
  obtain ⟨hnew, hkeep⟩ := storeCyclic_spec RING_SIZE ctx.buf W.length data
    (by unfold RING_SIZE; omega) (by omega)
  have hold : window RING_SIZE (storeCyclic RING_SIZE ctx.buf W.length data) s (W.length - s) =
      t.out.drop s ++ t.rest := by
    rw [hkeep.window_before (by omega) (by omega), hring]
  rw [show W.length - s = (t.out.length - s) + t.rest.length by omega] at hold
  obtain ⟨hunread, htail⟩ := window_split hold List.length_drop
  rw [show s + (t.out.length - s) = t.out.length by omega] at htail
  have hpending : window RING_SIZE (storeCyclic RING_SIZE ctx.buf W.length data) t.out.length
      (W.length + data.length - t.out.length) = t.rest ++ data := by
    rw [show W.length + data.length - t.out.length = t.rest.length + data.length by omega,
      window_add, htail, htotal, hnew]
  -- processing it
  have hspec := etherboneMasterProcess_spec wops (p := t.out.length) (r := W.length + data.length)
    { ctx with
      buf := storeCyclic RING_SIZE ctx.buf W.length data
      received := ringPos (ctx.received + data.length) } bus hproc
    (by
      show ringPos (ctx.received + data.length) = _
      rw [h.received, ringPos_eq]
      omega)
    (by omega) (by omega) hal
    (by
      intro hhdr
      have : t.state.1 = .header := by rw [← hstate]; exact hhdr
      rw [hout0 this]
      rfl)
  rw [hpending] at hspec
  obtain ⟨d, hd⟩ : ∃ d, drain (masterFramer wops) t.state (t.rest ++ data) = d := ⟨_, rfl⟩
  have hd' : transduce wops bus₀ (W ++ data) = ⟨d.state, d.rest, t.out ++ d.out⟩ := by
    unfold transduce at ht ⊢
    rw [drain_append, ht, hd]
  rw [show (({ ctx with
      buf := storeCyclic RING_SIZE ctx.buf W.length data
      received := ringPos (ctx.received + data.length) } : EtherboneMasterContext).state, bus) =
      t.state from hstate, hd] at hspec
  have hlen := congrArg List.length hspec.ring
  rw [window_length, List.length_append] at hlen
  refine ⟨?_, hspec.sent.trans h.sent, ?_, ?_, ?_, ?_, ?_, ?_, ?_⟩
  · rw [hd']; exact hspec.state
  · rw [hd', List.length_append]; exact hspec.processed
  · rw [List.length_append]
    refine hspec.received.trans ?_
    show ringPos (ctx.received + data.length) = _
    rw [h.received, ringPos_eq]
    omega
  · rw [hd', List.length_append]; omega
  · rw [hd', List.length_append, List.length_append]
    show t.out.length + d.out.length + d.rest.length = _
    omega
  · rw [List.length_append]; exact hdata
  · rw [hd', List.length_append]; exact Nat.dvd_add hal hspec.aligned
  · rw [hd', List.length_append]
    show window RING_SIZE x.1.buf s _ = (t.out ++ d.out).drop s ++ d.rest
    rw [show W.length + data.length - s
        = (t.out.length - s) + (W.length + data.length - t.out.length) by omega,
      window_add, hspec.frame.window_before (by omega) (by omega),
      show s + (t.out.length - s) = t.out.length by omega, hspec.ring]
    show window RING_SIZE (storeCyclic RING_SIZE ctx.buf W.length data) s _ ++ _ = _
    rw [hunread, List.drop_append_of_le_length hsle, List.append_assoc]

end WbMasterRing
