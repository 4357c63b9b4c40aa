import FpgaConfigSpace.MasterRing

/-! # The execution of one record

    What `etherbone_master_process` does with a complete record, spelled out: the
    calls it makes, one by one, and the response it leaves in the place of the
    record, as a reader of Etherbone parses it. -/

namespace WbMasterExecution

open BigEndian WbIovec WbWishbone WbMaster WbTransducer WbMasterRecord WbMasterRing CyclicBuffer
open Frames

variable {σ : Type} (wops : WishboneOperations σ)

/-! ## The calls -/

/-- The writes: one address for a FIFO, ascending addresses otherwise, and none to
    the configuration space. -/
def writeCalls (r : EbRecord) : List WopsCall :=
  if r.flags &&& ETHERBONE_WCA ≠ 0 then []
  else r.writes.mapIdx fun k d =>
    .write (if r.flags &&& ETHERBONE_WFF ≠ 0 then r.base else r.base + BitVec.ofNat 32 (4 * k)) d

/-- The reads of the listed addresses, with the values they returned. -/
def readCalls (r : EbRecord) (values : List Word) : List WopsCall :=
  List.zipWith (fun a v => if r.flags &&& ETHERBONE_RCA ≠ 0 then .readCfg a v else .read a v)
    r.reads values

/-- All calls of a record: its accesses, in a cycle that is opened if none is open,
    and closed if the record says so. -/
def recordCalls (state : MasterState) (r : EbRecord) (values : List Word) : List WopsCall :=
  (if state = .idle then [.cycle true] else []) ++
    .byteenable r.be :: (writeCalls r ++ readCalls r values) ++
      (if r.flags &&& ETHERBONE_CYC ≠ 0 then [.cycle false] else [])

/-- The calls of the writes of a record. -/
theorem busWrites_trace (inc : Word) : ∀ (ds : List Word) (base : Word) (bus : Bus σ),
    (busWrites wops inc base ds bus).trace =
      bus.trace ++ ds.mapIdx fun k d => .write (base + inc * BitVec.ofNat 32 k) d := by
  intro ds
  induction ds with
  | nil =>
      intro base bus
      exact (List.append_nil _).symm
  | cons d ds ih =>
      intro base bus
      have hnext : ∀ k, base + inc + inc * BitVec.ofNat 32 k =
          base + inc * BitVec.ofNat 32 (k + 1) := by
        intro k
        rw [BitVec.ofNat_add, BitVec.mul_add, BitVec.add_assoc, BitVec.mul_one,
          BitVec.add_comm inc]
      rw [busWrites, ih, List.mapIdx_cons]
      simp only [hnext, BitVec.mul_zero, BitVec.add_zero]
      exact List.append_assoc _ [_] _

/-- There is a value for every read. -/
theorem busReads_length (cfg : Bool) (as : List Word) :
    ∀ bus : Bus σ, (busReads wops cfg as bus).1.length = as.length := by
  induction as with
  | nil => intro bus; rfl
  | cons a as ih =>
      intro bus
      exact congrArg (· + 1) (ih _)

/-- The calls of the reads of a record, with their values. -/
theorem busReads_trace (cfg : Bool) (as : List Word) : ∀ bus : Bus σ,
    (busReads wops cfg as bus).2.trace = bus.trace ++
      List.zipWith (fun a v => if cfg then .readCfg a v else .read a v) as
        (busReads wops cfg as bus).1 := by
  induction as with
  | nil =>
      intro bus
      exact (List.append_nil _).symm
  | cons a as ih =>
      intro bus
      rw [busReads, ih, List.zipWith_cons_cons]
      cases cfg with
      | true => exact List.append_assoc _ [_] _
      | false => exact List.append_assoc _ [_] _

/-- The calls of the writes. -/
theorem written_trace (r : EbRecord) (s : MasterState × Bus σ) :
    (r.written wops s).trace = (r.opened wops s).trace ++ writeCalls r := by
  rw [EbRecord.written, writeCalls]
  by_cases hwca : r.flags &&& ETHERBONE_WCA ≠ 0
  · rw [if_pos hwca, if_pos hwca, List.append_nil]
  · rw [if_neg hwca, if_neg hwca, busWrites_trace]
    have haddr : ∀ k, r.base + r.increment * BitVec.ofNat 32 k =
        if r.flags &&& ETHERBONE_WFF ≠ 0 then r.base else r.base + BitVec.ofNat 32 (4 * k) := by
      intro k
      rw [EbRecord.increment]
      by_cases hwff : r.flags &&& ETHERBONE_WFF ≠ 0
      · rw [if_pos hwff, if_pos hwff]
        exact (congrArg (r.base + ·) BitVec.zero_mul).trans (BitVec.add_zero _)
      · rw [if_neg hwff, if_neg hwff, BitVec.ofNat_mul]
        rfl
    simp only [haddr]

/-- **The calls of a record.** -/
theorem exec_trace (r : EbRecord) (s : MasterState × Bus σ) :
    (r.exec wops s).1.2.trace = s.2.trace ++ recordCalls s.1 r (r.readBack wops s).1 := by
  have hopened : (r.opened wops s).trace =
      s.2.trace ++ ((if s.1 = .idle then [.cycle true] else []) ++ [.byteenable r.be]) := by
    rw [EbRecord.opened]
    by_cases hidle : s.1 = .idle
    · rw [if_pos hidle, if_pos hidle]
      exact List.append_assoc _ [_] [_]
    · rw [if_neg hidle, if_neg hidle]
      rfl
  have hread : (r.readBack wops s).2.trace = (r.written wops s).trace ++
      readCalls r (r.readBack wops s).1 := by
    rw [EbRecord.readBack, busReads_trace, readCalls]
    simp only [decide_eq_true_eq]
  have htrace : (r.readBack wops s).2.trace = s.2.trace ++
      ((if s.1 = .idle then [.cycle true] else []) ++
        .byteenable r.be :: (writeCalls r ++ readCalls r (r.readBack wops s).1)) := by
    rw [hread, written_trace, hopened]
    simp only [List.append_assoc, List.cons_append, List.nil_append]
  rw [EbRecord.exec, recordCalls]
  by_cases hcyc : r.flags &&& ETHERBONE_CYC ≠ 0
  · simp only [if_pos hcyc]
    show (r.readBack wops s).2.trace ++ [.cycle false] = _
    rw [htrace, List.append_assoc]
  · simp only [if_neg hcyc]
    rw [htrace, List.append_nil]

/-! ## The response, parsed -/

/-- Cuts a stream into Etherbone records. -/
def recordFramer : Framer Byte Unit EbRecord where
  frame _ xs := masterFrame .idle xs
  step _ xs := ((), [EbRecord.ofBytes xs])
  frame_pos h := Nat.lt_of_lt_of_le (by decide) (masterFrame_bounds h).1
  frame_le h := (masterFrame_bounds h).2
  frame_append ys h := masterFrame_append ys h

/-- A record that asks for nothing. -/
def padding : EbRecord := EbRecord.ofWords 0 0 0 0 []

/-- The record of the response. -/
def answer (r : EbRecord) (values : List Word) : EbRecord where
  flags := responseFlags r.flags
  be := r.be
  rcount := 0
  base := r.retAddr
  writes := values
  retAddr := 0
  reads := []

/-- A complete record at the head of a stream. -/
theorem parse_record {xs ys : List Byte} (h : masterFrame .idle (xs ++ ys) = some xs.length) :
    drain recordFramer () (xs ++ ys) =
      ⟨(), (drain recordFramer () ys).rest,
        EbRecord.ofBytes xs :: (drain recordFramer () ys).out⟩ := by
  have hframe : recordFramer.frame () (xs ++ ys) = some xs.length := h
  rw [drain_of_some _ hframe, List.take_left, List.drop_left]
  rfl

/-- Erased words are records that ask for nothing. -/
theorem parse_padding (n : Nat) (ys : List Byte) :
    drain recordFramer () ((List.replicate n (0 : Word)).flatMap bytesOf ++ ys) =
      ⟨(), (drain recordFramer () ys).rest,
        List.replicate n padding ++ (drain recordFramer () ys).out⟩ := by
  induction n with
  | zero => rfl
  | succ n ih =>
      have hframe : masterFrame .idle (bytesOf 0 ++
          ((List.replicate n (0 : Word)).flatMap bytesOf ++ ys)) = some (bytesOf 0).length := by
        show (if ((List.replicate n (0 : Word)).flatMap bytesOf ++ ys).length + 4 < 4 then none
          else some 4) = some 4
        exact if_neg (by omega)
      rw [List.replicate_succ, List.flatMap_cons, List.append_assoc, parse_record hframe, ih]
      rfl

/-- The words behind the header of a record. -/
theorem ofBytes_words (flags be wcount rcount : Byte) (ws : List Word) :
    EbRecord.ofBytes ((wordOf flags be wcount rcount :: ws).flatMap bytesOf) =
      EbRecord.ofWords flags be wcount rcount ws := by
  rw [List.flatMap_cons, bytesOf_wordOf]
  show EbRecord.ofWords _ _ _ _ (wordsOf (ws.flatMap bytesOf)) = _
  rw [wordsOf_flatMap]

/-- The record of the response, read off its bytes. -/
theorem parse_answer (r : EbRecord) (hr : r.reads.length = r.rcount.toNat)
    (hret : r.reads = [] → r.retAddr = 0) {values : List Word}
    (hvalues : values.length = r.reads.length) :
    drain recordFramer () ((wordOf (responseFlags r.flags) r.be r.rcount 0 ::
        (if r.reads = [] then [] else r.retAddr :: values)).flatMap bytesOf) =
      ⟨(), [], [answer r values]⟩ := by
  obtain ⟨ws, hws⟩ : ∃ ws, (if r.reads = [] then [] else r.retAddr :: values) = ws := ⟨_, rfl⟩
  have hspan : ws.length = writeSpan r.rcount.toNat := by
    rw [← hws, writeSpan]
    by_cases hnil : r.reads = []
    · rw [if_pos hnil, if_neg (by rw [← hr, hnil]; decide)]
      rfl
    · have hpos : r.rcount.toNat > 0 := by
        rw [← hr]
        exact List.length_pos_iff.mpr hnil
      rw [if_neg hnil, if_pos hpos, List.length_cons, hvalues, hr]
  have hof : EbRecord.ofWords (responseFlags r.flags) r.be r.rcount 0 ws = answer r values := by
    have hbase : ws.headD 0 = r.retAddr := by
      rw [← hws]
      by_cases hnil : r.reads = []
      · rw [if_pos hnil, hret hnil]
        rfl
      · rw [if_neg hnil]
        rfl
    have hwrites : (ws.drop 1).take r.rcount.toNat = values := by
      rw [← hws]
      by_cases hnil : r.reads = []
      · rw [hnil] at hvalues
        rw [if_pos hnil, List.length_eq_zero_iff.mp hvalues]
        exact List.take_nil
      · rw [if_neg hnil]
        exact List.take_of_length_le (by rw [← hr, ← hvalues]; exact Nat.le_refl _)
    have hback : (ws.drop (writeSpan r.rcount.toNat)).headD 0 = 0 := by
      rw [← hspan, List.drop_length]
      rfl
    rw [EbRecord.ofWords, hbase, hwrites, hback]
    rfl
  have hframe : masterFrame .idle ((wordOf (responseFlags r.flags) r.be r.rcount 0 ::
      ws).flatMap bytesOf ++ []) = some ((wordOf (responseFlags r.flags) r.be r.rcount 0 ::
      ws).flatMap bytesOf).length := by
    rw [List.append_nil, length_flatMap_bytesOf, List.flatMap_cons, bytesOf_wordOf]
    show (if (ws.flatMap bytesOf).length + 4 < recordLen r.rcount 0 then none
      else some (recordLen r.rcount 0)) = _
    rw [length_flatMap_bytesOf, recordLen_eq, recordWords, List.length_cons, hspan]
    rw [if_neg (by show ¬ _ < 4 * (1 + _ + 0); omega)]
    exact congrArg some (by show 4 * (1 + _ + 0) = _; omega)
  have hparse := parse_record hframe
  rw [List.append_nil, ofBytes_words, hof] at hparse
  rw [hws, hparse]
  rfl

/-! ## The record loop, one record at a time -/

/-- The loop leaves no more than there was. -/
theorem recordLoop_left_le : ∀ (fuel left : Nat) (m : RecordCursor σ),
    (recordLoop wops fuel left m).1 ≤ left := by
  intro fuel
  induction fuel with
  | zero => intro left m; exact Nat.le_refl left
  | succ fuel ih =>
      intro left m
      rw [recordLoop]
      split
      · exact Nat.le_refl left
      · dsimp only
        split
        · exact Nat.le_refl left
        · exact Nat.le_trans (ih _ _) (Nat.sub_le _ _)

/-- Iterations beyond the bytes left are not used. -/
theorem recordLoop_fuel : ∀ (fuel fuel' left : Nat) (m : RecordCursor σ), left ≤ fuel →
    left ≤ fuel' → recordLoop wops fuel left m = recordLoop wops fuel' left m := by
  intro fuel
  induction fuel with
  | zero =>
      intro fuel' left m hfuel _
      obtain rfl := Nat.le_zero.mp hfuel
      cases fuel' with
      | zero => rfl
      | succ fuel' => exact (if_pos (by decide)).symm
  | succ fuel ih =>
      intro fuel' left m hfuel hfuel'
      cases fuel' with
      | zero =>
          obtain rfl := Nat.le_zero.mp hfuel'
          exact if_pos (by decide)
      | succ fuel' =>
          have hpos := recordLen_pos (m.buf (m.i + 2)) (m.buf (m.i + 3))
          rw [recordLoop, recordLoop]
          by_cases h4 : left < 4
          · rw [if_pos h4, if_pos h4]
          · rw [if_neg h4, if_neg h4]
            simp only [ih fuel' _ _ (show left - recordLen (m.buf (m.i + 2)) (m.buf (m.i + 3)) ≤ fuel
              by omega) (show left - recordLen (m.buf (m.i + 2)) (m.buf (m.i + 3)) ≤ fuel' by omega)]

/-- One iteration of the loop, for a complete record. -/
theorem recordLoop_record {left : Nat} {m : RecordCursor σ}
    (h : recordLen (m.buf (m.i + 2)) (m.buf (m.i + 3)) ≤ left) :
    recordLoop wops left left m =
      recordLoop wops (left - recordLen (m.buf (m.i + 2)) (m.buf (m.i + 3)))
        (left - recordLen (m.buf (m.i + 2)) (m.buf (m.i + 3))) (processRecord wops m) := by
  have hpos := recordLen_pos (m.buf (m.i + 2)) (m.buf (m.i + 3))
  obtain ⟨n, rfl⟩ : ∃ n, left = n + 1 := ⟨left - 1, by omega⟩
  rw [recordLoop, if_neg (by omega)]
  simp only
  rw [if_neg (Nat.not_lt.mpr h)]
  exact recordLoop_fuel wops _ _ _ _ (by omega) (Nat.le_refl _)

/-! ## One record of the ring -/

/-- The length of the record at `processed`. -/
def recordSize (ctx : EtherboneMasterContext) : Nat :=
  recordLen (ctx.buf (ringIndex ctx.processed + 2)) (ctx.buf (ringIndex ctx.processed + 3))

/-- The bytes the ring holds where the record at `processed` of `ctx` lies. -/
def recordBytes (ctx ctx' : EtherboneMasterContext) : List Byte :=
  window RING_SIZE ctx'.buf ctx.processed (recordSize ctx)

/-- The record at `processed`. -/
def nextRecord (ctx : EtherboneMasterContext) : EbRecord :=
  EbRecord.ofBytes (recordBytes ctx ctx)

/-- From `ctx` to `ctx'` the record at `processed` was executed. -/
structure Executed (ctx : EtherboneMasterContext) (bus : Bus σ) (ctx' : EtherboneMasterContext)
    (bus' : Bus σ) : Prop where
  flags : (nextRecord ctx).flags = ctx.buf (ringIndex ctx.processed)
  be : (nextRecord ctx).be = ctx.buf (ringIndex ctx.processed + 1)
  wcount : (nextRecord ctx).writes.length = (ctx.buf (ringIndex ctx.processed + 2)).toNat
  rcount : (nextRecord ctx).reads.length = (ctx.buf (ringIndex ctx.processed + 3)).toNat
  calls : bus'.trace = bus.trace ++ recordCalls ctx.state (nextRecord ctx)
    ((nextRecord ctx).readBack wops (ctx.state, bus)).1
  values : ((nextRecord ctx).readBack wops (ctx.state, bus)).1.length =
    (nextRecord ctx).reads.length
  exec : bus' = ((nextRecord ctx).exec wops (ctx.state, bus)).1.2
  bytes : recordBytes ctx ctx' = ((nextRecord ctx).response
    ((nextRecord ctx).readBack wops (ctx.state, bus)).1).flatMap bytesOf
  response : drain recordFramer () (recordBytes ctx ctx') =
    ⟨(), [], List.replicate (writeSpan (nextRecord ctx).writes.length) padding ++
      [answer (nextRecord ctx) ((nextRecord ctx).readBack wops (ctx.state, bus)).1]⟩
  frame : SameOutside RING_SIZE ctx.buf ctx'.buf ctx.processed (recordSize ctx)
  state : ctx'.state = if (nextRecord ctx).flags &&& ETHERBONE_CYC ≠ 0 then .idle else .cycle
  sent : ctx'.sent = ctx.sent
  received : ctx'.received = ctx.received
  processed : ctx'.processed = ringPos (ctx.processed + recordSize ctx)

/-- The context and the bus after the record at `processed`. -/
def afterRecord (ctx : EtherboneMasterContext) (bus : Bus σ) :
    EtherboneMasterContext × Bus σ :=
  let m := processRecord wops ⟨ctx.state, ctx.buf, ringIndex ctx.processed, bus⟩
  ({ ctx with
      state := m.state
      buf := m.buf
      processed := ringPos (ctx.processed + recordSize ctx) }, m.bus)

theorem ringIndex_aligned {p q : Nat} (hp : p = 4 * q) : ringIndex p = 4 * (q % RING_WORDS) := by
  rw [hp, ringIndex_eq]
  unfold RING_WORDS
  omega

/-- A position some words further on, in the ring. -/
theorem ringIndex_ringPos (q n : Nat) :
    ringIndex (ringPos (4 * q + 4 * n)) = 4 * ((q + n) % RING_WORDS) := by
  rw [ringPos_eq, ringIndex_eq]
  unfold RING_WORDS
  omega

/-- The size of a record, by its header. -/
theorem recordSize_eq {ctx : EtherboneMasterContext} {q : Nat} (hq : ctx.processed = 4 * q) :
    recordSize ctx = 4 * recordWords (headerByte ctx.buf q 2) (headerByte ctx.buf q 3) := by
  rw [recordSize, recordLen_eq, ringIndex_aligned hq]
  rfl

/-- The record at the position is the one in the ring. -/
theorem nextRecord_eq {ctx : EtherboneMasterContext} {q : Nat} (hq : ctx.processed = 4 * q) :
    nextRecord ctx = recordAt ctx.buf q := by
  rw [nextRecord, recordBytes, recordSize_eq hq, recordAt_eq, recordLen_eq, hq]

/-- A record without reads has no return address. -/
theorem recordAt_noReturn (buf : Nat → Byte) (q : Nat) (h : (headerByte buf q 3).toNat = 0) :
    (recordAt buf q).retAddr = 0 := by
  show ((window _ _ _ _).drop _).headD 0 = _
  rw [h, List.drop_of_length_le (by rw [window_length]; exact Nat.le_refl _)]
  rfl

/-- **One record is executed.** -/
theorem afterRecord_executed {ctx : EtherboneMasterContext} (bus : Bus σ) {q : Nat}
    (hq : ctx.processed = 4 * q) (hlive : ctx.state ≠ .header) :
    Executed wops ctx bus (afterRecord wops ctx bus).1 (afterRecord wops ctx bus).2 := by
  have hi := ringIndex_aligned hq
  have hrec := nextRecord_eq hq
  obtain ⟨hstate, hadv⟩ := processRecord_spec wops q
    ⟨ctx.state, ctx.buf, ringIndex ctx.processed, bus⟩ hi hlive
  rw [← hrec] at hstate hadv
  have hbus : (afterRecord wops ctx bus).2 = ((nextRecord ctx).exec wops (ctx.state, bus)).1.2 :=
    congrArg Prod.snd hstate
  have hwcount : (nextRecord ctx).writes.length = (headerByte ctx.buf q 2).toNat := by
    rw [hrec, recordAt_writes, window_length]
  have hrcount : (nextRecord ctx).reads.length = (headerByte ctx.buf q 3).toNat := by
    rw [hrec, recordAt_reads, window_length]
  have hvalues : ((nextRecord ctx).readBack wops (ctx.state, bus)).1.length =
      (nextRecord ctx).reads.length := busReads_length wops _ _ _
  have hbytes : recordBytes ctx (afterRecord wops ctx bus).1 = ((nextRecord ctx).response
      ((nextRecord ctx).readBack wops (ctx.state, bus)).1).flatMap bytesOf := by
    rw [recordBytes, recordSize_eq hq, hq, window_eq_flatMap]
    exact congrArg (List.flatMap bytesOf) hadv.out
  have hret : (nextRecord ctx).reads = [] → (nextRecord ctx).retAddr = 0 := by
    intro hnil
    rw [hnil] at hrcount
    rw [hrec]
    exact recordAt_noReturn ctx.buf q hrcount.symm
  have hcount : (nextRecord ctx).reads.length = (nextRecord ctx).rcount.toNat := by
    rw [hrcount, hrec]
    rfl
  refine ⟨?_, ?_, ?_, ?_, ?_, hvalues, hbus, hbytes, ?_, ?_, ?_, rfl, rfl, rfl⟩
  · rw [hrec, hi]
    rfl
  · rw [hrec, hi]
    rfl
  · rw [hwcount, hi]
    rfl
  · rw [hrcount, hi]
    rfl
  · rw [hbus]
    exact exec_trace wops (nextRecord ctx) (ctx.state, bus)
  · rw [hbytes, EbRecord.response, List.flatMap_append, parse_padding,
      parse_answer (nextRecord ctx) hcount hret hvalues]
  · rw [recordSize_eq hq, hq]
    exact sameOutside_bytes hadv.frame
  · have hs : (afterRecord wops ctx bus).1.state =
        ((nextRecord ctx).exec wops (ctx.state, bus)).1.1 := congrArg Prod.fst hstate
    rw [hs, EbRecord.exec]
    by_cases hcyc : (nextRecord ctx).flags &&& ETHERBONE_CYC ≠ 0
    · rw [if_pos hcyc, if_pos hcyc]
    · rw [if_neg hcyc, if_neg hcyc]

/-- The distance between two positions, in plain numbers. -/
theorem ringDistance_eq {a b : Nat} (hb : b < 2 * RING_SIZE) (ha : a < 2 * RING_SIZE) :
    ringPos (subU32 a b) = (a + 2 * RING_SIZE - b) % (2 * RING_SIZE) := by
  rw [RING_SIZE] at ha hb ⊢
  rw [ringPos_eq, subU32]
  omega

/-- A step towards a position shortens the distance to it. -/
theorem ringDistance_advance {a b n : Nat} (hb : b < 2 * RING_SIZE) (ha : a < 2 * RING_SIZE)
    (h : n ≤ ringPos (subU32 a b)) :
    ringPos (subU32 a (ringPos (b + n))) = ringPos (subU32 a b) - n := by
  have hnext : ringPos (b + n) < 2 * RING_SIZE := by
    rw [ringPos_eq, RING_SIZE]
    exact Nat.mod_lt _ (by decide)
  rw [ringDistance_eq hb ha] at h
  rw [ringDistance_eq hb ha, ringDistance_eq hnext ha, ringPos_eq]
  rw [RING_SIZE] at ha hb h ⊢
  omega

/-- Processing a context that holds a complete record is executing that record, and
    then processing what is left. -/
theorem process_afterRecord (ctx : EtherboneMasterContext) (bus : Bus σ)
    (hlive : ctx.state ≠ .header) (hprocessed : ctx.processed < 2 * RING_SIZE)
    (hreceived : ctx.received < 2 * RING_SIZE) {q : Nat} (hq : ctx.processed = 4 * q)
    (hcomplete : recordSize ctx ≤ ringProcLen ctx) :
    (afterRecord wops ctx bus).1.state ≠ .header ∧
    ringProcLen (afterRecord wops ctx bus).1 = ringProcLen ctx - recordSize ctx ∧
    etherboneMasterProcess wops ctx bus =
      etherboneMasterProcess wops (afterRecord wops ctx bus).1 (afterRecord wops ctx bus).2 := by
  obtain ⟨hstate, hadv⟩ := processRecord_spec wops q
    ⟨ctx.state, ctx.buf, ringIndex ctx.processed, bus⟩ (ringIndex_aligned hq) hlive
  have hlive' : (afterRecord wops ctx bus).1.state ≠ .header := by
    have hs : (afterRecord wops ctx bus).1.state = _ := congrArg Prod.fst hstate
    rw [hs]
    exact exec_live wops _ _
  have hsize : ringProcLen (afterRecord wops ctx bus).1 = ringProcLen ctx - recordSize ctx := by
    exact ringDistance_advance hprocessed hreceived hcomplete
  refine ⟨hlive', hsize, ?_⟩
  rw [etherboneMasterProcess, if_neg hlive, etherboneMasterProcess, if_neg hlive', processRecords,
    processRecords, hsize]
  have hi : (processRecord wops ⟨ctx.state, ctx.buf, ringIndex ctx.processed, bus⟩).i =
      ringIndex (afterRecord wops ctx bus).1.processed := by
    rw [hadv.i]
    show _ = ringIndex (ringPos (ctx.processed + recordSize ctx))
    rw [recordSize_eq hq, hq]
    exact (ringIndex_ringPos q _).symm
  have hm : processRecord wops ⟨ctx.state, ctx.buf, ringIndex ctx.processed, bus⟩ =
      ⟨(afterRecord wops ctx bus).1.state, (afterRecord wops ctx bus).1.buf,
        ringIndex (afterRecord wops ctx bus).1.processed, (afterRecord wops ctx bus).2⟩ := by
    rw [← hi]
    rfl
  have hloop : recordLoop wops (ringProcLen ctx) (ringProcLen ctx)
      ⟨ctx.state, ctx.buf, ringIndex ctx.processed, bus⟩ =
        recordLoop wops (ringProcLen ctx - recordSize ctx) (ringProcLen ctx - recordSize ctx)
          ⟨(afterRecord wops ctx bus).1.state, (afterRecord wops ctx bus).1.buf,
            ringIndex (afterRecord wops ctx bus).1.processed, (afterRecord wops ctx bus).2⟩ := by
    rw [← hm]
    exact recordLoop_record wops hcomplete
  have hleft := recordLoop_left_le wops (ringProcLen ctx - recordSize ctx)
    (ringProcLen ctx - recordSize ctx)
    ⟨(afterRecord wops ctx bus).1.state, (afterRecord wops ctx bus).1.buf,
      ringIndex (afterRecord wops ctx bus).1.processed, (afterRecord wops ctx bus).2⟩
  simp only [hloop]
  have hpos : ∀ left, left ≤ ringProcLen ctx - recordSize ctx →
      ringPos (ctx.processed + ringProcLen ctx - left) =
        ringPos (ringPos (ctx.processed + recordSize ctx) + (ringProcLen ctx - recordSize ctx)
          - left) := by
    intro left h
    rw [ringPos_eq, ringPos_eq, ringPos_eq]
    omega
  rw [hpos _ hleft]
  rfl

/-- Nothing is pending, and nothing is done. -/
theorem process_nothing {ctx : EtherboneMasterContext} (bus : Bus σ) (hlive : ctx.state ≠ .header)
    (hpos : ringPos ctx.processed = ctx.processed) (hnone : ringProcLen ctx = 0) :
    etherboneMasterProcess wops ctx bus = (ctx, bus) := by
  rw [etherboneMasterProcess, if_neg hlive, processRecords, hnone]
  show ({ ctx with processed := ringPos ctx.processed }, bus) = (ctx, bus)
  rw [hpos]

/-- **A complete record is executed in place.**  At every aligned position of the
    ring, whatever else is pending behind it: the calls are the byte enable, the
    writes and the reads of the record, in a cycle; its bytes become padding and one
    record that carries the values read to the return address; nothing else in the
    ring changes, and processing goes on behind the record. -/
theorem master_record_executed (ctx : EtherboneMasterContext) (bus : Bus σ)
    (hlive : ctx.state ≠ .header) (hprocessed : ctx.processed < 2 * RING_SIZE)
    (hreceived : ctx.received < 2 * RING_SIZE) (haligned : 4 ∣ ctx.processed)
    (hcomplete : recordSize ctx ≤ ringProcLen ctx) :
    ∃ ctx' bus', Executed wops ctx bus ctx' bus' ∧
      etherboneMasterProcess wops ctx bus = etherboneMasterProcess wops ctx' bus' ∧
      (recordSize ctx = ringProcLen ctx → etherboneMasterProcess wops ctx bus = (ctx', bus')) := by
  obtain ⟨q, hq⟩ := haligned
  obtain ⟨hlive', hleft, hprocess⟩ :=
    process_afterRecord wops ctx bus hlive hprocessed hreceived hq hcomplete
  refine ⟨_, _, afterRecord_executed wops bus hq hlive, hprocess, ?_⟩
  intro hall
  rw [hall, Nat.sub_self] at hleft
  rw [hprocess]
  refine process_nothing wops _ hlive' ?_ hleft
  show ringPos (ringPos _) = ringPos _
  rw [ringPos_eq, ringPos_eq]
  exact Nat.mod_mod _ _

/-! ## A record across the end of the ring -/

/-- A bus with one register. -/
def registerOps : WishboneOperations Word where
  cycle s _ := s
  byteenable s _ := s
  write _ _ d := d
  read s _ := (s, s)
  readCfg s _ := (s, s)
  request s := (none, s)
  reply s _ _ := s

/-- One write and one read, of which only the header lies before the end. -/
def wrappedRecord : EtherboneMasterContext where
  state := .idle
  sent := 8188
  processed := 8188
  received := 8208
  buf := fun i =>
    if i = 8188 then ETHERBONE_CYC else if i = 8189 then 0x0f else if i = 8190 then 1
    else if i = 8191 then 1 else BitVec.ofNat 8 i

theorem master_record_executed_wrapped :
    ∃ ctx' bus', Executed registerOps wrappedRecord ⟨0, []⟩ ctx' bus' ∧
      etherboneMasterProcess registerOps wrappedRecord ⟨0, []⟩ = (ctx', bus') := by
  obtain ⟨ctx', bus', hexecuted, _, hall⟩ := master_record_executed registerOps wrappedRecord
    ⟨0, []⟩ (by decide) (by decide) (by decide) (by decide) (by decide)
  exact ⟨ctx', bus', hexecuted, hall (by decide)⟩

end WbMasterExecution
