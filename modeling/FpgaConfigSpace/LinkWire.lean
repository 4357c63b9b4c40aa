import FpgaConfigSpace.MasterRuns
import FpgaConfigSpace.SlaveRequests

/-! # The wire format between the two devices

    A request of the slave device, carried to a master device as bytes, and its
    response, carried back.  `serve` says what the request means on the peer's bus;
    the theorems follow one encoding through the two parsers: the master's
    transducer turns the encodings of a list of requests into the encodings of the
    outcomes, and the slave's parser turns those into answers. -/

namespace WbLinkWire

open BigEndian WbIovec WbWishbone WbMaster WbTransducer WbSlave WbSlaveParser WbSlaveWrite
open WbSlaveRequests Frames

variable {τ : Type} (wops : WishboneOperations τ)

/-- What the peer's bus delivers for a request: the error status behind it, and for
    a read the value. -/
structure Outcome where
  status : Word
  value : Option Word
deriving DecidableEq

/-- The access itself. -/
def access (request : WishboneRequest) (bus : Bus τ) : Option Word × Bus τ :=
  if request.write then (none, bus.write wops request.addr request.data)
  else
    let v := bus.read wops request.addr
    (some v.1, v.2)

/-- The bus with its cycle line up. -/
def inCycle (s : MasterState × Bus τ) : Bus τ :=
  if s.1 = .idle then s.2.cycle wops true else s.2

/-- Serve a request on the peer's bus: the access under the request's byte mask,
    then the error status, in one cycle. -/
def serve (request : WishboneRequest) (s : MasterState × Bus τ) :
    Outcome × (MasterState × Bus τ) :=
  let a := access wops request ((inCycle wops s).byteenable wops request.mask)
  let e := (a.2.byteenable wops 0xf).readCfg wops 4
  (⟨e.1, a.1⟩, (.idle, e.2.cycle wops false))

/-- Serve requests in order. -/
def serveAll : List WishboneRequest → MasterState × Bus τ → List Outcome × (MasterState × Bus τ)
  | [], s => ([], s)
  | request :: requests, s =>
      let r := serve wops request s
      let t := serveAll requests r.2
      (r.1 :: t.1, t.2)

/-- The answers the hardware is to get, when the device holds `data`. -/
def replies : Word → List Outcome → List Reply
  | _, [] => []
  | data, o :: os => ⟨o.status &&& 1, o.value.getD data⟩ :: replies (o.value.getD data) os

/-- The bytes that come back for a request. -/
def responseBytes (request : WishboneRequest) (o : Outcome) : List Byte :=
  (match o.value with
    | none => [0, 0, 0, 0] ++ ([0, 0, 0, 0] ++ [0x04, request.mask, 0, 0])
    | some v => [0x04, request.mask, 1, 0] ++ bytesOf WBA_DATA ++ bytesOf v) ++
  ([0x0c, 0x0f, 1, 0] ++ bytesOf WBA_ERR ++ bytesOf o.status)

/-- The bytes that come back for a list of requests. -/
def responses : List WishboneRequest → List Outcome → List Byte
  | request :: requests, o :: os => responseBytes request o ++ responses requests os
  | _, _ => []

/-! ## The peer's side -/

/-- What the peer does for a write that was asked for. -/
theorem write_exec (s : MasterState × Bus τ) (mask : Byte) (addr data : Word) :
    (EbRecord.mk ETHERBONE_BCA mask 0 addr [data] 0 []).exec wops s =
      ((.cycle, ((inCycle wops s).byteenable wops mask).write wops addr data),
       [0, 0, wordOf 0x04 mask 0 0]) := by
  have hwca : ¬ ETHERBONE_BCA &&& ETHERBONE_WCA ≠ 0 := by decide
  have hcyc : ¬ ETHERBONE_BCA &&& ETHERBONE_CYC ≠ 0 := by decide
  have hread : (EbRecord.mk ETHERBONE_BCA mask 0 addr [data] 0 []).readBack wops s =
      ([], ((inCycle wops s).byteenable wops mask).write wops addr data) := by
    rw [EbRecord.readBack, EbRecord.written, if_neg hwca]
    rfl
  rw [EbRecord.exec, if_neg hcyc, hread, EbRecord.response, if_pos rfl]
  dsimp only
  rw [show responseFlags ETHERBONE_BCA = 0x04 from rfl]
  rfl

/-- What the peer does for a read. -/
theorem read_exec (s : MasterState × Bus τ) (mask : Byte) (addr : Word) :
    let v := ((inCycle wops s).byteenable wops mask).read wops addr
    (EbRecord.mk ETHERBONE_BCA mask 1 WBA_DATA [] WBA_DATA [addr]).exec wops s =
      ((.cycle, v.2), [wordOf 0x04 mask 1 0, WBA_DATA, v.1]) := by
  intro v
  have hwca : ¬ ETHERBONE_BCA &&& ETHERBONE_WCA ≠ 0 := by decide
  have hcyc : ¬ ETHERBONE_BCA &&& ETHERBONE_CYC ≠ 0 := by decide
  have hrca : decide (ETHERBONE_BCA &&& ETHERBONE_RCA ≠ 0) = false := by decide
  have hread : (EbRecord.mk ETHERBONE_BCA mask 1 WBA_DATA [] WBA_DATA [addr]).readBack wops s =
      ([v.1], v.2) := by
    rw [EbRecord.readBack, hrca, EbRecord.written, if_neg hwca]
    rfl
  rw [EbRecord.exec, if_neg hcyc, hread, EbRecord.response, if_neg (List.cons_ne_nil _ _)]
  dsimp only
  rw [show responseFlags ETHERBONE_BCA = 0x04 from rfl]
  rfl

/-- Flags of the record that reads the error status. -/
def STATUS_FLAGS : Byte := ETHERBONE_CYC ||| ETHERBONE_BCA ||| ETHERBONE_RCA

/-- What it does for the error bit behind each of them. -/
theorem status_exec (bus : Bus τ) :
    let e := (bus.byteenable wops 0xf).readCfg wops 4
    (EbRecord.mk STATUS_FLAGS 0xf 1 WBA_ERR [] WBA_ERR [4]).exec wops (.cycle, bus) =
      ((.idle, e.2.cycle wops false), [wordOf 0x0c 0x0f 1 0, WBA_ERR, e.1]) := by
  intro e
  have hwca : ¬ STATUS_FLAGS &&& ETHERBONE_WCA ≠ 0 := by decide
  have hcyc : STATUS_FLAGS &&& ETHERBONE_CYC ≠ 0 := by decide
  have hrca : decide (STATUS_FLAGS &&& ETHERBONE_RCA ≠ 0) = true := by decide
  have hread : (EbRecord.mk STATUS_FLAGS 0xf 1 WBA_ERR [] WBA_ERR [4]).readBack wops (.cycle, bus) =
      ([e.1], e.2) := by
    rw [EbRecord.readBack, hrca, EbRecord.written, if_neg hwca]
    rfl
  rw [EbRecord.exec, if_pos hcyc, hread, EbRecord.response, if_neg (List.cons_ne_nil _ _)]
  dsimp only
  rw [show responseFlags STATUS_FLAGS = 0x0c from rfl]
  rfl

/-- A record of three words, in front of a stream. -/
def threeWords (flags be wcount rcount : Byte) (w w' : Word) : List Byte :=
  [flags, be, wcount, rcount] ++ bytesOf w ++ bytesOf w'

/-- A record of two words is parsed from three. -/
theorem ofBytes_threeWords (flags be wcount rcount : Byte) (w w' : Word) :
    EbRecord.ofBytes (threeWords flags be wcount rcount w w') =
      .ofWords flags be wcount rcount [w, w'] := by
  show EbRecord.ofWords _ _ _ _ (wordsOf (bytesOf w ++ (bytesOf w' ++ []))) = _
  rw [wordsOf_bytesOf_append, wordsOf_bytesOf_append]
  rfl

/-- The transducer consumes a record of three words. -/
theorem drain_threeWords {s : MasterState × Bus τ} (hs : s.1 ≠ .header)
    {flags be wcount rcount : Byte} (w w' : Word) (hlen : recordLen wcount rcount = 12)
    (ys : List Byte) :
    let r := (EbRecord.ofWords flags be wcount rcount [w, w']).exec wops s
    let t := drain (masterFramer wops) r.1 ys
    drain (masterFramer wops) s (threeWords flags be wcount rcount w w' ++ ys) =
      ⟨t.state, t.rest, r.2.flatMap bytesOf ++ t.out⟩ := by
  intro r t
  have hframe : masterFrame s.1 (threeWords flags be wcount rcount w w' ++ ys) = some 12 := by
    rw [masterFrame_record hs]
    have h4 : ¬ (threeWords flags be wcount rcount w w' ++ ys).length < 4 := by
      rw [List.length_append]
      exact Nat.not_lt.mpr (Nat.le_add_right_of_le (by decide : 4 ≤ 12))
    have h12 : ¬ (threeWords flags be wcount rcount w w' ++ ys).length < recordLen wcount rcount := by
      rw [hlen, List.length_append]
      exact Nat.not_lt.mpr (Nat.le_add_right 12 _)
    rw [if_neg h4]
    show (if _ < recordLen wcount rcount then none else some (recordLen wcount rcount)) = _
    rw [if_neg h12, hlen]
  rw [drain_of_some (masterFramer wops) (s := s) hframe]
  have hstep : (masterFramer wops).step s ((threeWords flags be wcount rcount w w' ++ ys).take 12) =
      (r.1, r.2.flatMap bytesOf) := by
    show masterStep wops s (threeWords flags be wcount rcount w w') = _
    rw [masterStep, if_neg hs, ofBytes_threeWords]
  rw [hstep]
  rfl

/-- **The peer serves a request** and sends its response. -/
theorem drain_requestBytes {s : MasterState × Bus τ} (hs : s.1 ≠ .header)
    (request : WishboneRequest) :
    drain (masterFramer wops) s (requestBytes request) =
      ⟨(serve wops request s).2, [], responseBytes request (serve wops request s).1⟩ := by
  have hnil : ∀ s : MasterState × Bus τ, s.1 ≠ .header →
      drain (masterFramer wops) s [] = ⟨s, [], []⟩ := by
    intro s hs
    refine drain_of_none _ ?_
    show masterFrame s.1 [] = none
    rw [masterFrame_record hs]
    rfl
  have hstatus : ∀ bus : Bus τ,
      let e := (bus.byteenable wops 0xf).readCfg wops 4
      drain (masterFramer wops) (.cycle, bus) (threeWords STATUS_FLAGS 0xf 0 1 WBA_ERR 4) =
        ⟨(.idle, e.2.cycle wops false), [],
          [0x0c, 0x0f, 1, 0] ++ bytesOf WBA_ERR ++ bytesOf e.1⟩ := by
    intro bus e
    have h := @drain_threeWords τ wops (.cycle, bus) (fun h => by cases h) STATUS_FLAGS 0xf 0 1
      WBA_ERR 4 (by decide) []
    rw [List.append_nil] at h
    rw [h, show EbRecord.ofWords STATUS_FLAGS 0xf 0 1 [WBA_ERR, 4] =
      ⟨STATUS_FLAGS, 0xf, 1, WBA_ERR, [], WBA_ERR, [4]⟩ from rfl, status_exec,
      hnil _ (fun h => by cases h)]
    rfl
  rcases request with ⟨write, addr, data, mask⟩
  cases write with
  | true =>
      have hbytes : requestBytes ⟨true, addr, data, mask⟩ =
          threeWords ETHERBONE_BCA mask 1 0 addr data ++
            threeWords STATUS_FLAGS 0xf 0 1 WBA_ERR 4 := rfl
      rw [hbytes, drain_threeWords wops hs addr data (by decide),
        show EbRecord.ofWords ETHERBONE_BCA mask 1 0 [addr, data] =
          ⟨ETHERBONE_BCA, mask, 0, addr, [data], 0, []⟩ from rfl, write_exec, hstatus]
      have hwords : [0, 0, wordOf 0x04 mask 0 0].flatMap bytesOf =
          [0, 0, 0, 0] ++ ([0, 0, 0, 0] ++ [0x04, mask, 0, 0]) := by
        show bytesOf 0 ++ (bytesOf 0 ++ (bytesOf (wordOf 0x04 mask 0 0) ++ [])) = _
        rw [bytesOf_wordOf]
        rfl
      rw [hwords]
      rfl
  | false =>
      have hbytes : requestBytes ⟨false, addr, data, mask⟩ =
          threeWords ETHERBONE_BCA mask 0 1 WBA_DATA addr ++
            threeWords STATUS_FLAGS 0xf 0 1 WBA_ERR 4 := rfl
      rw [hbytes, drain_threeWords wops hs WBA_DATA addr (by decide),
        show EbRecord.ofWords ETHERBONE_BCA mask 0 1 [WBA_DATA, addr] =
          ⟨ETHERBONE_BCA, mask, 1, WBA_DATA, [], WBA_DATA, [addr]⟩ from rfl, read_exec, hstatus]
      have hwords : ∀ v, [wordOf 0x04 mask 1 0, WBA_DATA, v].flatMap bytesOf =
          [0x04, mask, 1, 0] ++ bytesOf WBA_DATA ++ bytesOf v := by
        intro v
        show bytesOf (wordOf 0x04 mask 1 0) ++ (bytesOf WBA_DATA ++ (bytesOf v ++ [])) = _
        rw [bytesOf_wordOf, List.append_nil, List.append_assoc]
      rw [hwords]
      rfl

/-- **The peer serves requests in order.** -/
theorem drain_requests (requests : List WishboneRequest) :
    ∀ {s : MasterState × Bus τ}, s.1 ≠ .header →
      drain (masterFramer wops) s (requests.flatMap requestBytes) =
        ⟨(serveAll wops requests s).2, [], responses requests (serveAll wops requests s).1⟩ := by
  induction requests with
  | nil =>
      intro s hs
      refine drain_of_none _ ?_
      show masterFrame s.1 [] = none
      rw [masterFrame_record hs]
      rfl
  | cons request requests ih =>
      intro s hs
      rw [List.flatMap_cons, drain_append, drain_requestBytes wops hs, List.nil_append,
        ih (s := (serve wops request s).2) (fun h => by cases h)]
      rfl

/-! ## The device's side -/

/-- A record that does nothing, in front of more bytes. -/
theorem drain_noop (s : ParserState) (hneg : s.negotiated = true) (hok : s.failed = false)
    (a b : Byte) {xs : List Byte} (hxs : xs ≠ []) :
    drain (slaveFramer 1) s ([a, b, 0, 0] ++ xs) = drain (slaveFramer 1) s xs := by
  have hlen : itemLen s ([a, b, 0, 0] ++ xs) = 4 := by
    rw [itemLen, if_pos hneg]
    rfl
  have hpos := List.length_pos_iff.mpr hxs
  have hframe : slaveFrame 1 s ([a, b, 0, 0] ++ xs) = some 4 := by
    refine slaveFrame_eq_some.mpr ⟨hok, ?_, hlen.symm, ?_⟩
    · rw [List.length_append]
      exact Nat.add_le_add_left hpos 4
    · rw [List.length_append]
      exact Nat.le_add_right 4 _
  rw [drain_of_some (slaveFramer 1) (s := s) hframe]
  have hstep : (slaveFramer 1).step s (([a, b, 0, 0] ++ xs).take 4) = (s, []) := by
    show slaveStep s [a, b, 0, 0] = _
    rw [slaveStep, if_pos hneg]
    exact cfgExec_empty s rfl
  rw [hstep]
  rfl

/-- The parser consumes a record of three words. -/
theorem drain_slave_threeWords (s : ParserState) (hneg : s.negotiated = true)
    (hok : s.failed = false) (flags be : Byte) (w w' : Word) (ys : List Byte) :
    let r := cfgExec (.ofWords flags be 1 0 [w, w']) s
    let t := drain (slaveFramer 1) r.1 ys
    drain (slaveFramer 1) s (threeWords flags be 1 0 w w' ++ ys) =
      ⟨t.state, t.rest, r.2 ++ t.out⟩ := by
  intro r t
  have hframe : slaveFrame 1 s (threeWords flags be 1 0 w w' ++ ys) = some 12 := by
    refine slaveFrame_eq_some.mpr ⟨hok, ?_, ?_, ?_⟩
    · rw [List.length_append]
      exact Nat.le_add_right_of_le (by decide : 5 ≤ 12)
    · rw [itemLen, if_pos hneg]
      rfl
    · rw [List.length_append]
      exact Nat.le_add_right 12 _
  rw [drain_of_some (slaveFramer 1) (s := s) hframe]
  have hstep : (slaveFramer 1).step s ((threeWords flags be 1 0 w w' ++ ys).take 12) = r := by
    show slaveStep s (threeWords flags be 1 0 w w') = _
    rw [slaveStep, if_pos hneg, ofBytes_threeWords]
  rw [hstep]
  rfl

/-- A record that writes one word. -/
theorem cfgExec_one (flags be : Byte) (addr w : Word) (s : ParserState) :
    cfgExec (.ofWords flags be 1 0 [addr, w]) s =
      if be ≠ 0xf ∨ flags &&& ETHERBONE_WCA = 0 then ({ s with failed := true }, [])
      else cfgWrites (if flags &&& ETHERBONE_WFF ≠ 0 then 0 else 4) addr [w] s := by
  have hwords : ([addr, w].drop 1).take (1 : Byte).toNat = [w] := rfl
  rw [cfgExec_ofWords, if_neg (fun h => h rfl), hwords, if_neg (List.cons_ne_nil _ _)]
  rfl

/-- A full write of one word to configuration space. -/
theorem cfgExec_word {flags : Byte} (hwca : flags &&& ETHERBONE_WCA ≠ 0) (addr w : Word)
    (s : ParserState) :
    cfgExec (.ofWords flags 0xf 1 0 [addr, w]) s =
      cfgWrites (if flags &&& ETHERBONE_WFF ≠ 0 then 0 else 4) addr [w] s := by
  have hgood : ¬ ((0xf : Byte) ≠ 0xf ∨ flags &&& ETHERBONE_WCA = 0) := by
    rintro (h | h)
    · exact h rfl
    · exact hwca h
  rw [cfgExec_one, if_neg hgood]

/-- The value of a read is held. -/
theorem cfgExec_value (v : Word) (s : ParserState) :
    cfgExec (.ofWords 0x04 0xf 1 0 [WBA_DATA, v]) s = ({ s with data := v }, []) := by
  rw [cfgExec_word (by decide), cfgWrites, if_pos rfl]
  rfl

/-- The error status completes a request. -/
theorem cfgExec_status (w : Word) (s : ParserState) (hpend : s.pendingErr ≠ 0) :
    cfgExec (.ofWords 0x0c 0xf 1 0 [WBA_ERR, w]) s =
      ({ s with pendingErr := s.pendingErr - 1 }, [⟨w &&& 1, s.data⟩]) := by
  have hdata : WBA_ERR ≠ WBA_DATA := by decide
  have herr : WBA_ERR = WBA_ERR ∧ s.pendingErr ≠ 0 := ⟨rfl, hpend⟩
  rw [cfgExec_word (by decide), cfgWrites, if_neg hdata, if_pos herr]
  rfl

/-- A response the parser accepts: a value must have been read under a full mask. -/
def FullMask (request : WishboneRequest) : Prop := request.write = false → request.mask = 0xf

instance (request : WishboneRequest) : Decidable (FullMask request) :=
  inferInstanceAs (Decidable (_ → _))

/-- **The device answers a request** when its response has arrived. -/
theorem drain_responseBytes (pending : Nat) (data : Word) (request : WishboneRequest) (o : Outcome)
    (hmask : o.value ≠ none → request.mask = 0xf) (ys : List Byte) :
    let t := drain (slaveFramer 1) ⟨true, pending, o.value.getD data, false⟩ ys
    drain (slaveFramer 1) ⟨true, pending + 1, data, false⟩ (responseBytes request o ++ ys) =
      ⟨t.state, t.rest, ⟨o.status &&& 1, o.value.getD data⟩ :: t.out⟩ := by
  have hstatus : ∀ data : Word,
      let t := drain (slaveFramer 1) ⟨true, pending, data, false⟩ ys
      drain (slaveFramer 1) ⟨true, pending + 1, data, false⟩
        (threeWords 0x0c 0x0f 1 0 WBA_ERR o.status ++ ys) =
        ⟨t.state, t.rest, ⟨o.status &&& 1, data⟩ :: t.out⟩ := by
    intro data t
    rw [drain_slave_threeWords _ rfl rfl, show (0x0f : Byte) = 0xf from rfl,
      cfgExec_status _ _ (Nat.succ_ne_zero pending)]
    rfl
  rcases o with ⟨status, value⟩
  cases value with
  | none =>
      have hbytes : responseBytes request ⟨status, none⟩ ++ ys =
          [0, 0, 0, 0] ++ ([0, 0, 0, 0] ++ ([0x04, request.mask, 0, 0] ++
            (threeWords 0x0c 0x0f 1 0 WBA_ERR status ++ ys))) := rfl
      dsimp only
      rw [hbytes, drain_noop _ rfl rfl 0 0 (fun h => by cases h),
        drain_noop _ rfl rfl 0 0 (fun h => by cases h), drain_noop _ rfl rfl _ _ (fun h => by cases h)]
      exact hstatus data
  | some v =>
      have hfull : request.mask = 0xf := hmask (fun h => by cases h)
      have hbytes : responseBytes request ⟨status, some v⟩ ++ ys =
          threeWords 0x04 request.mask 1 0 WBA_DATA v ++
            (threeWords 0x0c 0x0f 1 0 WBA_ERR status ++ ys) := rfl
      dsimp only
      rw [hbytes, hfull, drain_slave_threeWords _ rfl rfl, cfgExec_value]
      have h := hstatus v
      dsimp only at h ⊢
      rw [h]
      rfl

/-- A value that was read under another mask makes the device fail. -/
theorem drain_responseBytes_partial (pending : Nat) (data : Word) (request : WishboneRequest)
    (status v : Word) (hmask : request.mask ≠ 0xf) (ys : List Byte) :
    (drain (slaveFramer 1) ⟨true, pending, data, false⟩
      (responseBytes request ⟨status, some v⟩ ++ ys)).state.failed = true := by
  have hbytes : responseBytes request ⟨status, some v⟩ ++ ys =
      threeWords 0x04 request.mask 1 0 WBA_DATA v ++
        (threeWords 0x0c 0x0f 1 0 WBA_ERR status ++ ys) := rfl
  have hexec : cfgExec (.ofWords 0x04 request.mask 1 0 [WBA_DATA, v])
      ⟨true, pending, data, false⟩ = (⟨true, pending, data, true⟩, []) := by
    have hcond : request.mask ≠ 0xf ∨ (0x04 : Byte) &&& ETHERBONE_WCA = 0 := .inl hmask
    rw [cfgExec_one, if_pos hcond]
  rw [hbytes, drain_slave_threeWords _ rfl rfl, hexec, drain_failed rfl]

/-- Values come from reads only. -/
theorem serve_value (request : WishboneRequest) (s : MasterState × Bus τ) :
    (serve wops request s).1.value = none ↔ request.write = true := by
  show (access wops request _).1 = none ↔ _
  rw [access]
  cases request.write with
  | true => exact ⟨fun _ => rfl, fun _ => rfl⟩
  | false => exact ⟨(fun h => by cases h), (fun h => by cases h)⟩

/-- **The device answers every request**, in order and exactly once. -/
theorem drain_responses (requests : List WishboneRequest)
    (hmask : ∀ request ∈ requests, FullMask request) :
    ∀ (s : MasterState × Bus τ) (pending : Nat) (data : Word),
      let os := (serveAll wops requests s).1
      let t := drain (slaveFramer 1) ⟨true, requests.length + pending, data, false⟩
        (responses requests os)
      t.state.failed = false ∧ t.state.pendingErr = pending ∧ t.rest = [] ∧
        t.out = replies data os := by
  induction requests with
  | nil =>
      intro s pending data
      have hnil : drain (slaveFramer 1) ⟨true, 0 + pending, data, false⟩ [] = ⟨_, [], []⟩ :=
        drain_of_none _ rfl
      show (drain (slaveFramer 1) ⟨true, 0 + pending, data, false⟩ []).state.failed = _ ∧
        (drain (slaveFramer 1) ⟨true, 0 + pending, data, false⟩ []).state.pendingErr = _ ∧
        (drain (slaveFramer 1) ⟨true, 0 + pending, data, false⟩ []).rest = _ ∧
        (drain (slaveFramer 1) ⟨true, 0 + pending, data, false⟩ []).out = _
      rw [hnil, Nat.zero_add]
      exact ⟨rfl, rfl, rfl, rfl⟩
  | cons request requests ih =>
      intro s pending data
      have hvalue : (serve wops request s).1.value ≠ none → request.mask = 0xf := by
        intro h
        refine hmask request List.mem_cons_self ?_
        exact Bool.eq_false_iff.mpr (fun hw => h ((serve_value wops request s).mpr hw))
      obtain ⟨hok, hpend, hrest, hout⟩ := ih
        (fun r hr => hmask r (List.mem_cons_of_mem _ hr)) (serve wops request s).2 pending
        ((serve wops request s).1.value.getD data)
      have h := drain_responseBytes (requests.length + pending) data request
        (serve wops request s).1 hvalue (responses requests (serveAll wops requests
          (serve wops request s).2).1)
      dsimp only at h hok hpend hrest hout ⊢
      rw [List.length_cons, Nat.add_right_comm, serveAll, responses, h]
      exact ⟨hok, hpend, hrest, congrArg (_ :: ·) hout⟩

/-! ## Failure and the count of open requests -/

/-- One more request is open. -/
def oneMore (s : ParserState) : ParserState :=
  { s with pendingErr := s.pendingErr + 1 }

/-- One more request that is waiting does not disturb the others. -/
theorem cfgWrites_more (increment : Word) (ws : List Word) : ∀ (base : Word) (s : ParserState),
    (cfgWrites increment base ws s).1.failed = false →
    cfgWrites increment base ws (oneMore s) =
      (oneMore (cfgWrites increment base ws s).1, (cfgWrites increment base ws s).2) := by
  induction ws with
  | nil => intro base s _; rfl
  | cons w ws ih =>
      intro base s h
      rw [cfgWrites] at h
      rw [cfgWrites, cfgWrites]
      by_cases hdata : base = WBA_DATA
      · rw [if_pos hdata] at h
        rw [if_pos hdata, if_pos hdata]
        exact ih _ _ h
      rw [if_neg hdata] at h
      rw [if_neg hdata, if_neg hdata]
      by_cases herr : base = WBA_ERR ∧ s.pendingErr ≠ 0
      · have hmore : base = WBA_ERR ∧ (oneMore s).pendingErr ≠ 0 := ⟨herr.1, Nat.succ_ne_zero _⟩
        rw [if_pos herr] at h
        rw [if_pos herr, if_pos hmore]
        have hstate : ({ oneMore s with pendingErr := (oneMore s).pendingErr - 1 } : ParserState) =
            oneMore { s with pendingErr := s.pendingErr - 1 } := by
          show ParserState.mk s.negotiated (s.pendingErr + 1 - 1) s.data s.failed =
            ParserState.mk s.negotiated (s.pendingErr - 1 + 1) s.data s.failed
          have := herr.2
          congr 1
          omega
        rw [hstate, ih _ _ h]
        rfl
      · rw [if_neg herr] at h
        cases h

/-- So it is for a whole record. -/
theorem cfgExec_more (r : EbRecord) (s : ParserState) (h : (cfgExec r s).1.failed = false) :
    cfgExec r (oneMore s) = (oneMore (cfgExec r s).1, (cfgExec r s).2) := by
  rw [cfgExec] at h
  rw [cfgExec, cfgExec]
  by_cases hr : r.rcount ≠ 0
  · rw [if_pos hr] at h
    cases h
  rw [if_neg hr] at h
  rw [if_neg hr, if_neg hr]
  by_cases hw : r.writes = []
  · rw [if_pos hw, if_pos hw]
  rw [if_neg hw] at h
  rw [if_neg hw, if_neg hw]
  by_cases hbad : r.be ≠ 0xf ∨ r.flags &&& ETHERBONE_WCA = 0
  · rw [if_pos hbad] at h
    cases h
  rw [if_neg hbad] at h
  rw [if_neg hbad, if_neg hbad]
  exact cfgWrites_more _ _ _ _ h

/-- A parser that does not fail does the same with one more request open. -/
theorem drain_more : ∀ (s : ParserState) (xs : List Byte),
    (drain (slaveFramer 1) s xs).state.failed = false →
    drain (slaveFramer 1) (oneMore s) xs =
      ⟨oneMore (drain (slaveFramer 1) s xs).state, (drain (slaveFramer 1) s xs).rest,
        (drain (slaveFramer 1) s xs).out⟩ := by
  refine drain_induction (slaveFramer 1) ?_ ?_
  · intro s xs h _
    have hmore : (slaveFramer 1).frame (oneMore s) xs = none := h
    rw [drain_of_none _ h, drain_of_none _ hmore]
  · intro s xs k h ih hok
    have hmore : (slaveFramer 1).frame (oneMore s) xs = some k := h
    rw [drain_of_some _ h] at hok ⊢
    rw [drain_of_some _ hmore]
    have hstep : (slaveStep s (xs.take k)).1.failed = false := by
      by_contra hfail
      have htrue := Bool.of_not_eq_false hfail
      have hrest := drain_failed htrue (xs.drop k)
      have hstate : (drain (slaveFramer 1) ((slaveFramer 1).step s (xs.take k)).1
          (xs.drop k)).state.failed = true :=
        (congrArg (fun d => d.state.failed) hrest).trans htrue
      exact Bool.noConfusion (hok.symm.trans hstate)
    have heq : (slaveFramer 1).step (oneMore s) (xs.take k) =
        (oneMore ((slaveFramer 1).step s (xs.take k)).1, ((slaveFramer 1).step s (xs.take k)).2) := by
      show slaveStep (oneMore s) (xs.take k) =
        (oneMore (slaveStep s (xs.take k)).1, (slaveStep s (xs.take k)).2)
      rw [slaveStep] at hstep ⊢
      rw [slaveStep]
      cases hneg : s.negotiated with
      | true =>
          rw [if_pos hneg] at hstep
          rw [if_pos (show (oneMore s).negotiated = true from hneg), if_pos rfl]
          exact cfgExec_more _ _ hstep
      | false =>
          rw [if_neg (show ¬ (oneMore s).negotiated = true by
            show ¬ s.negotiated = true
            rw [hneg]
            exact Bool.false_ne_true), if_neg Bool.false_ne_true]
          rfl
    rw [heq]
    rw [ih hok]

/-- A stream that parses has only prefixes that parse. -/
theorem drain_ok_of_append {s : ParserState} {xs ys : List Byte}
    (h : (drain (slaveFramer 1) s (xs ++ ys)).state.failed = false) :
    (drain (slaveFramer 1) s xs).state.failed = false := by
  by_contra hfail
  have htrue := Bool.of_not_eq_false hfail
  rw [drain_append, drain_failed htrue] at h
  exact hfail h

end WbLinkWire
