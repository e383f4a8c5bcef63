import FractalSQL.Service.ArgParsing
import FractalSQL.Service.Authentication
import FractalSQL.Service.Encoding

/-!
# From the shim to the daemon and back

A call is encoded by the shim with the argument types of the daemon's reply to UDF_INIT, and
decoded by the daemon with the types of the handle. The result goes back as one entry. Each
side has its own code for the format.
-/
namespace FractalSQL.Service
open Lib

/-- The rows of `functions.def`. -/
def functionRows : List (String × FnKind) :=
  [("fractal_search", .str), ("fractal_search_explore", .str), ("fractal_search_debug", .str),
    ("fractal_version", .str), ("fractal_edition", .str), ("fractal_dimension_dfa", .real),
    ("fractal_dimension_boxcount", .real), ("fractal_dimension_drift", .str), ("fractal_change_point_detect", .str),
    ("fractal_periodogram", .str), ("fractal_spectrogram_entropy", .str), ("fractal_state_fingerprint", .str),
    ("fractal_cycle_detect", .str), ("fractal_tda_persistence_diagram", .str), ("fractal_isolate_background", .int),
    ("fractal_optimize_portfolio", .str), ("fractal_optimize_subset", .str),
    ("fractal_optimize_portfolio_multimodal", .str), ("fractal_optimize_portfolio_multimodal_ex", .str),
    ("fractal_optimize_portfolio_multimodal_pareto", .str), ("fractal_vector", .str),
    ("fractal_vector_from_text", .str), ("fractal_vector_to_json", .str), ("fractal_vector_dims", .int),
    ("fractal_vector_norm", .real), ("fractal_vector_normalize", .str), ("fractal_vector_add", .str),
    ("fractal_vector_sub", .str), ("fractal_vector_scale", .str), ("fractal_vector_l2_distance", .real),
    ("fractal_vector_l2_squared", .real), ("fractal_vector_cosine_distance", .real),
    ("fractal_vector_cosine_similarity", .real), ("fractal_vector_negative_inner_product", .real),
    ("fractal_vector_from_float8_array", .str), ("fractal_vector_to_float8_array", .str),
    ("fractal_vector_lp_distance", .real), ("fractal_vector_quantize_int8", .str),
    ("fractal_vector_quantize_binary", .str), ("fractal_vector_hamming_distance", .int), ("fractal_reason", .str),
    ("fractal_embed", .str), ("fractal_t2s_config", .str), ("fractal_t2s_generate", .str),
    ("fractal_t2s_review", .str), ("fractal_t2s_check_allowlist", .str), ("fractal_config_set", .str),
    ("fractal_config_get", .str), ("fractal_config_reset", .int), ("fractal_config_list", .str),
    ("fractal_config_keys", .str), ("fractal_diversify_enable", .int), ("fractal_diversify_disable", .int),
    ("fractal_diversify_set_params", .int), ("fractal_detect_collapse", .real), ("fractal_explain_result", .str),
    ("fractal_session_close", .int), ("fractal_agent_partial_fail", .str), ("fractal_feedback_report", .int),
    ("fractal_ledger_flush", .int), ("fractal_ledger_load", .int), ("fractal_ledger_compact", .int),
    ("fractal_ledger_reset_soft", .int), ("fractal_ledger_reset_hard", .int), ("fractal_lock_destructive", .int),
    ("fractal_ledger_truth_count", .int), ("fractal_ledger_shadow_count", .int), ("fractal_ledger_verify", .str),
    ("fractal_audit_log", .int), ("fractal_audit_unpack", .str), ("fractal_vascular_network", .str),
    ("fractal_cortical_folding", .str), ("fractal_nerve_plexus_metric", .str),
    ("fractal_morphological_complexity", .str)]

/-- The daemon's function table. -/
def functionTable : List Fn := functionRows.map fun row => ⟨ascii row.1, row.2⟩

/-- `FSQ_MAX_FN_NAME`. -/
def maxFnName : ℕ := 63

theorem functionTable_name {fn : Fn} (h : fn ∈ functionTable) : fn.name.length ≤ maxFnName := by
  have hrows : ∀ row ∈ functionRows, row.1.toList.length ≤ maxFnName := by
    simp only [functionRows, List.forall_mem_cons]
    and_intros <;> first | exact length_literal (by decide) | exact List.forall_mem_nil _
  obtain ⟨row, hrow, rfl⟩ := List.mem_map.mp h
  rw [ascii, List.length_map]
  exact hrows row hrow

/-! ### The request -/

/-- `fsq_server_type`. -/
def serverType (t : UInt8) : ItemResult :=
  if t = 2 then .int else if t = 3 then .real else if t = 4 then .decimal else .string

/-- The argument types the shim takes from the reply to UDF_INIT. -/
def declaredTypes (body : Bytes) (nargs : ℕ) : List ItemResult := ((body.drop 17).take nargs).map serverType

/-- What an argument is to a function of the daemon. -/
inductive ArgValue where
  | null
  | int (v : UInt64)
  | real (bits : UInt64)
  | bytes (bytes : Bytes)
deriving DecidableEq

/-- One turn of the argument loop of `handle_call`. -/
def convertArg (type : ItemResult) (a : WireArg) : Option ArgValue :=
  if a.isNull ≠ 0 then some .null
  else
    match type with
    | .int => if a.bytes.length ≠ 8 then none else some (.int (UInt64.ofNat (leValue a.bytes)))
    | .real => if a.bytes.length ≠ 8 then none else some (.real (UInt64.ofNat (leValue a.bytes)))
    | .string | .decimal => some (.bytes a.bytes)

/-- The argument loop, where the allocations succeed. -/
def convertArgs : List ItemResult → List WireArg → Option (List ArgValue)
  | type :: types, a :: args => do
    let v ← convertArg type a
    let vs ← convertArgs types args
    return v :: vs
  | _, _ => some []

/-- What the server means by an argument. -/
def UdfArg.meaning : UdfArg → ArgValue
  | .null _ => .null
  | .int v => .int v
  | .real bits => .real bits
  | .string bytes => .bytes bytes
  | .decimal bytes => .bytes bytes

section Request
variable (hmac : Bytes → Block 32)

/-- The header of a call. -/
def callHeader (requestId : UInt32) (token : UInt64) (payload : Bytes) : FrameHeader where
  version := protocolVersion
  opcode := 17
  flags := 0
  requestId
  context := token
  authLen := 32
  payloadLen := UInt32.ofNat payload.length

/-- `fsq_header_encode`, as a block. -/
def FrameHeader.block (h : FrameHeader) : Block 32 := ⟨h.encode, h.encode_length⟩

/-- The frame `fsq_roundtrip` writes. -/
def sealFrame (h : FrameHeader) (payload : Bytes) : RawFrame where
  header := h.block
  tag := hmac (h.encode ++ payload)
  payload

def RawFrame.bytes (f : RawFrame) : Bytes := f.header.val ++ (f.tag.val ++ f.payload)

end Request

/-! ### The reply -/

/-- `enum fsq_status`. -/
def Status.code : Status → UInt32
  | .ok => 0
  | .args => 1
  | .limit => 2
  | .core => 3
  | .internal => 6
  | .notsup => 7
  | .busy => 8

/-- The payload of `send_reply`. -/
def Reply.payload (r : Reply) : Bytes := leBytes 4 r.status.code.toNat ++ (leBytes 4 (r.coreRc % 2 ^ 32).toNat ++ r.body)

/-- The header of `send_reply`. -/
def replyHeader (req : FrameHeader) (r : Reply) : FrameHeader where
  version := protocolVersion
  opcode := req.opcode
  flags := if r.status = .ok then 1 else 3
  requestId := req.requestId
  context := req.context
  authLen := 32
  payloadLen := UInt32.ofNat r.payload.length

/-- `FSQ_MAX_RESULT_BYTES`: no init of the function table asks for a longer result. -/
def maxResultBytes : ℕ := 64 * 1024 * 1024

section Response
variable (hmac : Bytes → Block 32)

/-- The reading half of `fsq_roundtrip`: status, core result and body. -/
def readResponse (req : FrameHeader) (fd : Bytes) : Option (UInt32 × UInt32 × Bytes) := do
  let (header, fd) ← takeExact 32 fd
  let h ← frameHeaderDecode header
  if h.version ≠ protocolVersion ∨ h.authLen ≠ 32 ∨ maxPayload < h.payloadLen.toNat ∨ h.requestId ≠ req.requestId ∨
      h.flags &&& 1 = 0 then none
  else do
    let (tag, fd) ← takeExact 32 fd
    let (payload, _) ← takeExact h.payloadLen.toNat fd
    if ctEqual tag (hmac (header.val ++ payload.val)) = false then none
    else if payload.val.length < 8 then none
    else some (UInt32.ofNat (fieldAt 0 4 payload.val), UInt32.ofNat (fieldAt 4 4 payload.val), payload.val.drop 8)

/-- What `fsq_udf_call` takes from a response: the null flag and the bytes. -/
def callResult : UInt32 × UInt32 × Bytes → Option (UInt8 × Bytes)
  | (status, _, body) =>
    if status ≠ 0 ∨ body.length < 6 then none
    else if body.length - 6 < fieldAt 2 4 body then none
    else some (body.getD 1 0, (body.drop 6).take (fieldAt 2 4 body))

end Response

/-! ### Headers -/

/-- The field that stands behind a prefix. -/
theorem fieldAt_behind {off w n : ℕ} {bs : Bytes} (pre rest : Bytes) (hbs : bs = pre ++ (leBytes w n ++ rest))
    (hoff : pre.length = off) (hn : n < 256 ^ w) : fieldAt off w bs = n := by
  subst hoff
  rw [hbs, fieldAt, List.drop_left, List.take_left' (leBytes_length w n), leValue_leBytes hn]

/-- A header is read back as it was written. -/
theorem frameHeaderDecode_block (h : FrameHeader) : frameHeaderDecode h.block = some h := by
  have hmagic : h.block.val.take 4 = frameMagic := List.take_left' rfl
  have hversion : fieldAt 4 2 h.block.val = h.version.toNat :=
    fieldAt_behind frameMagic _ rfl rfl h.version.toNat_lt
  have hopcode : fieldAt 6 2 h.block.val = h.opcode.toNat :=
    fieldAt_behind (frameMagic ++ leBytes 2 h.version.toNat) _ (by simp [FrameHeader.block, FrameHeader.encode]; rfl)
      (by simp [frameMagic]) h.opcode.toNat_lt
  have hflags : fieldAt 8 4 h.block.val = h.flags.toNat :=
    fieldAt_behind (frameMagic ++ (leBytes 2 h.version.toNat ++ leBytes 2 h.opcode.toNat)) _
      (by simp [FrameHeader.block, FrameHeader.encode]; rfl) (by simp [frameMagic]) h.flags.toNat_lt
  have hrequest : fieldAt 12 4 h.block.val = h.requestId.toNat :=
    fieldAt_behind (frameMagic ++ (leBytes 2 h.version.toNat ++ (leBytes 2 h.opcode.toNat ++ leBytes 4 h.flags.toNat))) _
      (by simp [FrameHeader.block, FrameHeader.encode]; rfl) (by simp [frameMagic]) h.requestId.toNat_lt
  have hcontext : fieldAt 16 8 h.block.val = h.context.toNat :=
    fieldAt_behind (frameMagic ++ (leBytes 2 h.version.toNat ++ (leBytes 2 h.opcode.toNat ++ (leBytes 4 h.flags.toNat ++
      leBytes 4 h.requestId.toNat)))) _ (by simp [FrameHeader.block, FrameHeader.encode]; rfl) (by simp [frameMagic])
      h.context.toNat_lt
  have hauth : fieldAt 24 4 h.block.val = h.authLen.toNat :=
    fieldAt_behind (frameMagic ++ (leBytes 2 h.version.toNat ++ (leBytes 2 h.opcode.toNat ++ (leBytes 4 h.flags.toNat ++
      (leBytes 4 h.requestId.toNat ++ leBytes 8 h.context.toNat))))) _
      (by simp [FrameHeader.block, FrameHeader.encode]; rfl) (by simp [frameMagic]) h.authLen.toNat_lt
  have hpayload : fieldAt 28 4 h.block.val = h.payloadLen.toNat :=
    fieldAt_behind (frameMagic ++ (leBytes 2 h.version.toNat ++ (leBytes 2 h.opcode.toNat ++ (leBytes 4 h.flags.toNat ++
      (leBytes 4 h.requestId.toNat ++ (leBytes 8 h.context.toNat ++ leBytes 4 h.authLen.toNat)))))) []
      (by simp [FrameHeader.block, FrameHeader.encode]) (by simp [frameMagic]) h.payloadLen.toNat_lt
  rw [frameHeaderDecode, if_pos hmagic, hversion, hopcode, hflags, hrequest, hcontext, hauth, hpayload]
  simp

/-! ### Argument types and values -/

theorem serverType_itemToWire (type : ItemResult) : serverType (itemToWire type) = type := by
  cases type <;> rfl

/-- The shim takes over the types of the handle. -/
theorem declaredTypes_initBody (h : Handle) (maybeNull : Bool) (nargs : ℕ) :
    declaredTypes (initBody h maybeNull) nargs = h.argTypes.take nargs := by
  have hdrop : (initBody h maybeNull).drop 17 = h.argTypes.map itemToWire := by
    have hhead : (leBytes 8 h.id.toNat ++ (leBytes 4 h.maxLength ++ ((if maybeNull then (1 : UInt8) else 0) ::
        leBytes 4 h.argTypes.length))).length = 17 := by simp
    rw [← hhead]
    simpa [initBody] using @List.drop_left _ (leBytes 8 h.id.toNat ++ (leBytes 4 h.maxLength ++
      ((if maybeNull then (1 : UInt8) else 0) :: leBytes 4 h.argTypes.length))) (h.argTypes.map itemToWire)
  rw [declaredTypes, hdrop, List.map_take, List.map_map]
  congr 1
  conv_rhs => rw [← List.map_id h.argTypes]
  exact List.map_congr_left fun type _ => serverType_itemToWire type

/-- The loop fails where no argument can be converted. -/
theorem convertArgs_isSome (types : List ItemResult) (args : List WireArg) :
    (convertArgs types args).isSome = true ↔ marshalArgs types args [] = none := by
  induction types generalizing args with
  | nil => exact iff_of_true rfl rfl
  | cons type types ih =>
    cases args with
    | nil => exact iff_of_true rfl rfl
    | cons a args =>
      specialize ih args
      have hbind (v : ArgValue) : ((convertArgs types args).bind fun vs => some (v :: vs)).isSome =
          (convertArgs types args).isSome := by
        cases convertArgs types args <;> rfl
      by_cases hnull : a.isNull = 0
      · by_cases hlen : a.bytes.length = 8
        · cases type <;> simp [convertArgs, marshalArgs, convertArg, hnull, hlen, ← ih, hbind]
        · cases type <;> simp [convertArgs, marshalArgs, convertArg, hnull, hlen, ← ih, hbind]
      · simp [convertArgs, marshalArgs, convertArg, hnull, ← ih, hbind]

theorem convertArg_wire (a : UdfArg) : convertArg a.type a.wire = some a.meaning := by
  cases a with
  | null type => rfl
  | int v => simp [convertArg, UdfArg.wire, UdfArg.nullFlag, UdfArg.type, UdfArg.value, UdfArg.meaning, uint64_leBytes]
  | real bits => simp [convertArg, UdfArg.wire, UdfArg.nullFlag, UdfArg.type, UdfArg.value, UdfArg.meaning, uint64_leBytes]
  | string bytes => rfl
  | decimal bytes => rfl

/-- Arguments of the handle's types arrive with their values. -/
theorem convertArgs_wire {types : List ItemResult} {args : List UdfArg}
    (h : args.map UdfArg.type = types.take args.length) :
    convertArgs types (args.map UdfArg.wire) = some (args.map UdfArg.meaning) := by
  induction args generalizing types with
  | nil => cases types <;> rfl
  | cons a args ih =>
    cases types with
    | nil => cases h
    | cons type types =>
      obtain ⟨rfl, htypes⟩ := List.cons.inj h
      rw [List.map_cons, List.map_cons, convertArgs, convertArg_wire, ih htypes]
      rfl

theorem parseCall_callPayload {name : Bytes} (hname : name.length < 256) (handle : UInt64) {args : List WireArg}
    (hcount : args.length ≤ maxArgs) (hlen : ∀ a ∈ args, a.bytes.length < 2 ^ 32) :
    parseCall (callPayload name handle args.length (args.flatMap WireArg.encode)) = some ⟨name, handle, args⟩ := by
  have hnamelen : (UInt8.ofNat name.length).toNat = name.length := UInt8.toNat_ofNat_of_lt' hname
  have htext (rest : Bytes) : takeExact (UInt8.ofNat name.length).toNat (name ++ rest) =
      some (⟨name, hnamelen.symm⟩, rest) := takeExact_eq_some.mpr rfl
  have hmax : maxArgs < 256 ^ 4 := by decide
  have hvalue : leValue (leBytes 4 args.length) = args.length := leValue_leBytes (by omega)
  have hargs := (parseArgs_iff args.length (args.flatMap WireArg.encode) args).mpr ⟨rfl, rfl, hlen⟩
  rw [callPayload, parseCall]
  simp only [Option.bind_eq_bind, htext, Option.bind_some, ← leBlock_val, takeExact_append]
  simp only [leBlock_val, hvalue, uint64_leBytes, if_neg (not_lt.mpr hcount), hargs, Option.bind_some]
  rfl

/-! ### Frames -/

section Frames
variable (hmac : Bytes → Block 32)

/-- The daemon reads a sealed request back, and accepts it. -/
theorem readFrame_sealFrame {h : FrameHeader} {payload : Bytes} (hversion : h.version = protocolVersion)
    (hauth : h.authLen = 32) (hflags : h.flags = 0) (hlen : h.payloadLen.toNat = payload.length)
    (hpos : 0 < payload.length) (hmax : payload.length ≤ maxPayload) (sent : Bool) (rest : Bytes) :
    readFrame ⟨true, true, sent⟩ ((sealFrame hmac h payload).bytes ++ rest) = some (sealFrame hmac h payload, rest) ∧
      accepts hmac ⟨true, true, sent⟩ (sealFrame hmac h payload) = true := by
  constructor
  · have hpayload : takeExact h.payloadLen.toNat (payload ++ rest) = some (⟨payload, hlen.symm⟩, rest) :=
      takeExact_eq_some.mpr rfl
    have hne : h.payloadLen ≠ 0 := by
      rintro hzero
      rw [hzero] at hlen
      simp at hlen
      omega
    rw [readFrame, RawFrame.bytes]
    simp only [List.append_assoc, takeExact_append, Option.bind_eq_bind, Option.bind_some]
    rw [sealFrame]
    simp only [frameHeaderDecode_block, Option.bind_some]
    rw [if_neg (by simp [hversion, hauth]), if_neg (by omega), if_neg (by simp [hflags]), if_neg hne]
    simp only [hpayload]
    rfl
  · exact ctEqual_iff.mpr rfl

/-- The shim reads a sealed reply back. -/
theorem readResponse_sealFrame {req : FrameHeader} {r : Reply} (hmax : r.payload.length ≤ maxPayload) (rest : Bytes) :
    readResponse hmac req ((sealFrame hmac (replyHeader req r) r.payload).bytes ++ rest) =
      some (r.status.code, UInt32.ofNat (r.coreRc % 2 ^ 32).toNat, r.body) := by
  have hlt : maxPayload < UInt32.size := by decide
  have hlen : (replyHeader req r).payloadLen.toNat = r.payload.length :=
    UInt32.toNat_ofNat_of_lt' (lt_of_le_of_lt hmax hlt)
  have hpayload : takeExact (replyHeader req r).payloadLen.toNat (r.payload ++ rest) = some (⟨r.payload, hlen.symm⟩, rest) :=
    takeExact_eq_some.mpr rfl
  have hresponse : (replyHeader req r).flags &&& 1 ≠ 0 := by
    rw [replyHeader]
    dsimp only
    split_ifs <;> decide
  have htag : ctEqual (hmac ((replyHeader req r).encode ++ r.payload)) (hmac ((replyHeader req r).encode ++ r.payload)) =
      true := ctEqual_iff.mpr rfl
  have hstatus : fieldAt 0 4 r.payload = r.status.code.toNat :=
    fieldAt_behind [] _ rfl rfl r.status.code.toNat_lt
  have hcore : fieldAt 4 4 r.payload = (r.coreRc % 2 ^ 32).toNat := by
    refine fieldAt_behind (leBytes 4 r.status.code.toNat) r.body rfl (by simp) ?_
    omega
  have hbody : r.payload.drop 8 = r.body := by
    rw [Reply.payload, ← List.append_assoc]
    exact List.drop_left' (by simp)
  have hshort : ¬ r.payload.length < 8 := by
    simp [Reply.payload]
    omega
  rw [readResponse, RawFrame.bytes]
  simp only [List.append_assoc, takeExact_append, Option.bind_eq_bind, Option.bind_some]
  rw [sealFrame]
  simp only [frameHeaderDecode_block, Option.bind_some]
  rw [if_neg]
  · simp only [hpayload, Option.bind_some]
    rw [if_neg (by rw [FrameHeader.block, htag]; exact nofun), if_neg hshort, hstatus, hcore, hbody, UInt32.ofNat_toNat]
  · rintro (h | h | h | h | h)
    · exact h rfl
    · exact h rfl
    · omega
    · exact h rfl
    · exact hresponse h

end Frames

/-- What `fsq_udf_call` takes from the body of a result. -/
theorem callResult_tlvResult (type : ItemResult) (isNull : Bool) {bytes : Bytes} (hlen : bytes.length < 2 ^ 32)
    (coreRc : UInt32) :
    callResult (0, coreRc, (tlvResult true type isNull bytes).body) = some (if isNull then 1 else 0, bytes) := by
  have hbody : (tlvResult true type isNull bytes).body =
      [itemToWire type, if isNull then 1 else 0] ++ (leBytes 4 bytes.length ++ bytes) := rfl
  have hfield : fieldAt 2 4 (tlvResult true type isNull bytes).body = bytes.length :=
    fieldAt_behind _ _ hbody rfl (by omega)
  have hdrop : (tlvResult true type isNull bytes).body.drop 6 = bytes := by
    rw [hbody, ← List.append_assoc]
    exact List.drop_left' (by simp)
  have hroom : (tlvResult true type isNull bytes).body.length = 6 + bytes.length := by
    rw [hbody]
    simp
    omega
  have hok : ¬ ((0 : UInt32) ≠ 0 ∨ (tlvResult true type isNull bytes).body.length < 6) := by
    rw [hroom]
    simp
  rw [callResult, if_neg hok, hfield, if_neg (by omega), hdrop, List.take_length, hbody]
  rfl

/-- A call that `fsq_udf_call` does not refuse reaches the function of its handle with its token
and its values, and the result comes back as it was given. -/
theorem call_roundTrip (hmac : Bytes → Block 32) {h : Handle} (hfn : h.fn ∈ functionTable) {maybeNull : Bool}
    {args : List UdfArg} (htypes : args.map UdfArg.type = declaredTypes (initBody h maybeNull) args.length)
    (hlen : ∀ a ∈ args, a.value.length < 2 ^ 63) {payload : Bytes} (hcall : encodeCall h.fn.name args h.id = some payload)
    (requestId : UInt32) (token : UInt64) (sent : Bool) (rest : Bytes) :
    (∃ frame call, readFrame ⟨true, true, sent⟩
          ((sealFrame hmac (callHeader requestId token payload) payload).bytes ++ rest) = some (frame, rest) ∧
        accepts hmac ⟨true, true, sent⟩ frame = true ∧
        (frameHeaderDecode frame.header).map FrameHeader.context = some token ∧
        parseCall frame.payload = some call ∧ call.name = h.fn.name ∧ call.handle = h.id ∧
        call.args.length = args.length ∧ convertArgs h.argTypes call.args = some (args.map UdfArg.meaning)) ∧
      ∀ type isNull bytes, bytes.length ≤ maxResultBytes →
        let reply := tlvResult true type isNull bytes
        (readResponse hmac (callHeader requestId token payload)
            ((sealFrame hmac (replyHeader (callHeader requestId token payload) reply) reply.payload).bytes ++ rest)).map
              (fun r => (r.1, callResult r)) =
          some (Status.ok.code, some (if isNull then 1 else 0, bytes)) := by
  have hname : h.fn.name.length < 256 := by
    have := functionTable_name hfn
    rw [maxFnName] at this
    omega
  obtain ⟨rfl, hsize, hcount⟩ := encodeCall_some hname hlen hcall
  have hmax := maxPayload_lt
  constructor
  · have hwire : ∀ a ∈ args.map UdfArg.wire, a.bytes.length < 2 ^ 32 := by
      intro a ha
      obtain ⟨b, hb, rfl⟩ := List.mem_map.mp ha
      have := length_le_argsLength hb
      rw [← argsLength_eq] at this
      simp only [callPayload, List.length_cons, List.length_append] at hsize
      simp only [UdfArg.wire]
      omega
    have hpayload (p : Bytes) (hp : p.length ≤ maxPayload) : (callHeader requestId token p).payloadLen.toNat = p.length :=
      UInt32.toNat_ofNat_of_lt' (lt_of_le_of_lt hp hmax)
    obtain ⟨hread, haccept⟩ := readFrame_sealFrame hmac (h := callHeader requestId token _) rfl rfl rfl
      (hpayload _ hsize) (Nat.zero_lt_succ _) hsize sent rest
    have hparse := @parseCall_callPayload _ hname h.id (args.map UdfArg.wire) (by simpa using hcount) hwire
    rw [List.length_map] at hparse
    rw [declaredTypes_initBody] at htypes
    refine ⟨_, _, hread, haccept, ?_, hparse, rfl, rfl, List.length_map .., convertArgs_wire htypes⟩
    exact congrArg (Option.map FrameHeader.context) (frameHeaderDecode_block _)
  · intro type isNull bytes hbytes
    have hbytes' : bytes.length < 2 ^ 32 := by
      rw [maxResultBytes] at hbytes
      omega
    have hreply : (tlvResult true type isNull bytes).payload.length ≤ maxPayload := by
      rw [maxResultBytes] at hbytes
      simp [Reply.payload, tlvResult, maxPayload]
      omega
    dsimp only
    rw [readResponse_sealFrame hmac hreply rest, Option.map_some]
    exact congrArg some (Prod.ext rfl (callResult_tlvResult type isNull hbytes' 0))

/-- A statement of one string argument. -/
def normHandle : Handle := ⟨7, ⟨ascii "fractal_vector_norm", .real⟩, [.string], 255, 1, false⟩

theorem call_roundTrip_norm :
    ∃ frame call, accepts (fun _ => Block.zero 32) ⟨true, true, true⟩ frame = true ∧
      parseCall frame.payload = some call ∧ call.name = ascii "fractal_vector_norm" ∧ call.handle = 7 ∧
      convertArgs [.string] call.args = some [.bytes (ascii "[3, 4]")] := by
  have hlen : ∀ a ∈ [UdfArg.string (ascii "[3, 4]")], a.value.length < 2 ^ 63 := by
    intro a ha
    rw [List.mem_singleton.mp ha]
    decide
  have hfn : normHandle.fn ∈ functionTable :=
    List.mem_map.mpr ⟨("fractal_vector_norm", .real), List.mem_of_getElem? (i := 24) rfl, rfl⟩
  obtain ⟨payload, hcall⟩ := Option.isSome_iff_exists.mp
    (show (encodeCall normHandle.fn.name [.string (ascii "[3, 4]")] normHandle.id).isSome = true by decide)
  obtain ⟨⟨frame, call, -, haccept, -, hparse, hname, hhandle, -, hargs⟩, -⟩ :=
    @call_roundTrip (fun _ => Block.zero 32) normHandle hfn true _ rfl hlen payload hcall 1 9 true []
  exact ⟨frame, call, haccept, hparse, hname, hhandle, hargs⟩

end FractalSQL.Service
