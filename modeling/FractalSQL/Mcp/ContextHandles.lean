import FractalSQL.Mcp.HttpServe

/-!
# The handle of a new context

A modern call of a context-scoped tool that names no context gets a new one before the
dispatch core looks at the call. The handle is in the result, so whatever keeps the call
from having a result leaves an entry that no client can name.
-/
namespace FractalSQL.Mcp
open Lib

namespace Rpc

variable {lib : JsonLibrary} {srv : JsonRpcServer} {h : Handling} {opts : CallOptions}

/-- What the tool gave can be written down. -/
def RunOutcome.renders : RunOutcome → Bool
  | .returned result => result.utf8
  | .toolError e => isUtf8 e.clientMessage
  | .threw => false

/-- The arguments a tool gets. -/
def toolArguments (params : JsonValue) : JsonValue :=
  ((params.find (ascii "arguments")).getD (.obj [])).erase (ascii "context_id")

/-- The call gets past every refusal, to the tool `spec`. -/
structure Reaches (srv : JsonRpcServer) (h : Handling) (allow : Option (List Bytes)) (params : JsonValue)
    (spec : ToolSpec) : Prop where
  inCatalog : srv.byName ((params.stringMember (ascii "name")).getD []) = some spec
  writable : (srv.readOnlyMode && spec.destructiveHint) = false
  allowed : (allow.any fun names => !names.contains ((params.stringMember (ascii "name")).getD [])) = false
  arguments : ((params.find (ascii "arguments")).getD (.obj [])).isObject = true
  admitted : h.acquire spec = none

/-- The call reaches its tool, and what the tool gives is delivered. -/
structure Answers (srv : JsonRpcServer) (h : Handling) (allow : Option (List Bytes)) (params : JsonValue)
    (spec : ToolSpec) : Prop extends Reaches srv h allow params spec where
  delivered : h.cancelledAfter = false
  renders : (h.runTool spec (toolArguments params)).renders = true

theorem byName_name {name : Bytes} {spec : ToolSpec} (hspec : srv.byName name = some spec) : spec.name = name := by
  simpa using List.find?_some hspec

/-- The result of a call, in the order the result is put together. -/
theorem envelope_toolResult (hera : opts.era = .modern) (hid : opts.contextId ≠ []) (content : Bytes) (isError : Bool)
    (structured : JsonValue) :
    envelope opts (ascii "tools/call") (toolResult opts content isError structured) =
      .obj [("resultType", .text "complete"), ("context_id", .string opts.contextId),
        ("content", .array [.obj [("type", .text "text"), ("text", .string content)]]), ("isError", .bool isError),
        ("structuredContent", structured)] := by
  have hlist : listMethods.contains (ascii "tools/call") = false := by decide
  rw [envelope, if_pos hera, hlist, toolResult, if_neg hid]
  simp +decide [JsonValue.obj, JsonValue.set]

theorem isUtf8_errorClass (c : ErrorClass) : isUtf8 (ascii c.name) = true := by
  cases c <;> decide

theorem utf8_clientPayload (e : ToolError) : e.clientPayload.utf8 = isUtf8 e.clientMessage := by
  simp (disch := decide) [ToolError.clientPayload, JsonValue.obj, JsonValue.utf8, JsonValue.utf8Members,
    JsonValue.text, isUtf8_errorClass, isUtf8_ascii]

variable (lib) in
/-- A reply can be written down where the result's text and value can. -/
theorem dump_makeResult {id : JsonValue} (hutf8 : id.utf8 = true) (hera : opts.era = .modern)
    (hne : opts.contextId ≠ []) (hid : isUtf8 opts.contextId = true) (content : Bytes) (isError : Bool)
    (structured : JsonValue) :
    (lib.dump (makeResult id (envelope opts (ascii "tools/call") (toolResult opts content isError structured)))).isSome =
      (isUtf8 content && structured.utf8) := by
  rw [lib.dump_isSome, envelope_toolResult hera hne]
  simp (disch := decide) [makeResult, JsonValue.obj, JsonValue.utf8, JsonValue.utf8Members, JsonValue.utf8Items,
    JsonValue.text, isUtf8_ascii, hutf8, hid]

theorem find_result_makeResult (id result : JsonValue) : (makeResult id result).find (ascii "result") = some result := by
  simp +decide [makeResult, JsonValue.obj, JsonValue.find]

theorem find_result_makeError (id : JsonValue) (code : ℤ) (message : Bytes) :
    (makeError id code message).find (ascii "result") = none := by
  simp +decide [makeError, JsonValue.obj, JsonValue.find]

/-- A context-scoped tool is none of those that take `auto_execute`. -/
theorem not_takesAutoExecute {name : Bytes} (hname : Http.isContextScopedTool name = true) :
    takesAutoExecute name = false := by
  have hall : ∀ n ∈ Http.contextScopedTools, takesAutoExecute n = false := by
    simp only [Http.contextScopedTools, takesAutoExecute, List.map_cons, List.map_nil]
    repeat rw [ascii_ofList]
    decide
  exact hall name (List.contains_iff_mem.mp hname)

/-- A call of a context-scoped tool has a result exactly where the tool is reached and its
outcome gives one. -/
theorem handleToolsCall_ok {params out : JsonValue}
    (hname : Http.isContextScopedTool ((params.stringMember (ascii "name")).getD []) = true) :
    handleToolsCall lib srv h opts params = .ok out ↔
      ∃ spec, Reaches srv h opts.toolAllow params spec ∧
        finishCall lib h opts (h.runTool spec (toolArguments params)) = .ok out := by
  constructor
  · intro hout
    simp only [handleToolsCall, schemaError] at hout
    split at hout
    · cases hout
    · rename_i spec hspec
      split_ifs at hout with hro hallow hargs hauto
      cases hacq : h.acquire spec with
      | some e =>
        rw [hacq] at hout
        cases hout
      | none =>
        rw [hacq] at hout
        exact ⟨spec, ⟨hspec, eq_false_of_ne_true hro, eq_false_of_ne_true hallow, by simpa using hargs, hacq⟩, hout⟩
  · rintro ⟨spec, hr, hout⟩
    have hauto := not_takesAutoExecute hname
    rw [← byName_name hr.inCatalog] at hauto
    simp only [handleToolsCall, hr.inCatalog, hr.writable, hr.allowed, hr.arguments, hauto, hr.admitted,
      Bool.false_and, Bool.not_true, Bool.false_eq_true, if_false]
    exact hout

/-- What a call delivers: a result that carries the handle and can be written down. -/
theorem finishCall_ok {outcome : RunOutcome} {out : JsonValue} (hout : finishCall lib h opts outcome = .ok out) :
    ∃ content isError structured, out = toolResult opts content isError structured := by
  unfold finishCall at hout
  split at hout
  · cases hout
  · split_ifs at hout
    obtain rfl := Except.ok.inj hout
    exact ⟨_, _, _, rfl⟩
  · split_ifs at hout
    split at hout
    · obtain rfl := Except.ok.inj hout
      exact ⟨_, _, _, rfl⟩
    · cases hout

variable (lib h) in
theorem finishCall_delivers {id : JsonValue} (hutf8 : id.utf8 = true) (hera : opts.era = .modern)
    (hne : opts.contextId ≠ []) (hid : isUtf8 opts.contextId = true) (outcome : RunOutcome) :
    (∃ out, finishCall lib h opts outcome = .ok out ∧
        (lib.dump (makeResult id (envelope opts (ascii "tools/call") out))).isSome = true) ↔
      h.cancelledAfter = false ∧ outcome.renders = true := by
  have hdump := dump_makeResult lib hutf8 hera hne hid
  cases hc : h.cancelledAfter with
  | true => cases outcome <;> simp [finishCall, hc]
  | false =>
    cases outcome with
    | threw => simp [finishCall, RunOutcome.renders]
    | toolError e => simp [finishCall, hc, hdump, utf8_clientPayload, RunOutcome.renders]
    | returned result =>
      have hsome := lib.dump_isSome result
      cases htext : lib.dump result with
      | none => simp_all [finishCall, RunOutcome.renders]
      | some text => simp_all [finishCall, RunOutcome.renders, lib.dump_utf8 htext]

/-- The handle that the result of a reply carries. -/
def contextOf (reply : JsonValue) : Option Bytes :=
  (reply.find (ascii "result")).bind (·.stringMember (ascii "context_id"))

theorem contextOf_makeError (id : JsonValue) (code : ℤ) (message : Bytes) : contextOf (makeError id code message) = none := by
  rw [contextOf, find_result_makeError]
  rfl

theorem contextOf_toolResult (id : JsonValue) (hera : opts.era = .modern) (hne : opts.contextId ≠ []) (content : Bytes)
    (isError : Bool) (structured : JsonValue) :
    contextOf (makeResult id (envelope opts (ascii "tools/call") (toolResult opts content isError structured))) =
      some opts.contextId := by
  rw [contextOf, find_result_makeResult, envelope_toolResult hera hne]
  simp +decide [JsonValue.stringMember, JsonValue.obj, JsonValue.find, JsonValue.asString]

variable (lib srv h opts) in
/-- An answer is an error, or a result that can be written down. -/
theorem answer_cases (req id : JsonValue) (method : Bytes) :
    (∃ code message, answer lib srv h opts req id method = makeError id code message) ∨
      ∃ result, answer lib srv h opts req id method = makeResult id result ∧
        (lib.dump (makeResult id result)).isSome = true := by
  simp only [answer]
  generalize hcall : (if method = ascii "tools/call" then _ else _) = called
  split_ifs
  · exact .inl ⟨_, _, rfl⟩
  · exact .inl ⟨_, _, rfl⟩
  · exact .inl ⟨_, _, rfl⟩
  · cases called with
    | ok result =>
      dsimp only
      split_ifs with hdump
      · exact .inr ⟨_, rfl, hdump⟩
      · exact .inl ⟨_, _, rfl⟩
    | error thrown => cases thrown <;> exact .inl ⟨_, _, rfl⟩

/-- What cannot be written down is an error already. -/
theorem contextOf_backstop (req id : JsonValue) (method : Bytes) :
    contextOf (if (lib.dump (answer lib srv h opts req id method)).isSome then answer lib srv h opts req id method
        else makeError .null (-32603) (ascii "internal error handling the request")) =
      contextOf (answer lib srv h opts req id method) := by
  obtain ⟨code, message, ha⟩ | ⟨result, ha, hdump⟩ := answer_cases lib srv h opts req id method
  · rw [ha, contextOf_makeError]
    split_ifs
    · exact contextOf_makeError ..
    · exact contextOf_makeError ..
  · rw [ha, if_pos hdump]

/-- The answer to a call of a context-scoped tool carries the handle exactly where the call
is answered by its tool. -/
theorem contextOf_answer {req id : JsonValue} (hutf8 : id.utf8 = true) (hera : opts.era = .modern)
    (hne : opts.contextId ≠ []) (hid : isUtf8 opts.contextId = true)
    (hname : Http.isContextScopedTool
      ((((req.find (ascii "params")).getD (.obj [])).stringMember (ascii "name")).getD []) = true) :
    contextOf (answer lib srv h opts req id (ascii "tools/call")) = some opts.contextId ↔
      srv.shuttingDown = false ∧
        ∃ spec, Answers srv h opts.toolAllow ((req.find (ascii "params")).getD (.obj [])) spec := by
  set params := (req.find (ascii "params")).getD (.obj []) with hparams
  have hmethod : ¬ (ascii "tools/call" = ascii "initialize" ∧ srv.modernOnly = true) := by
    rintro ⟨heq, -⟩
    revert heq
    decide
  have hknown : methods.contains (ascii "tools/call") = true := by decide
  simp only [answer, ← hparams, hmethod, hknown, Bool.not_true, Bool.false_eq_true, if_false, if_true]
  cases hshut : srv.shuttingDown with
  | true => simp [contextOf_makeError]
  | false =>
    simp only [Bool.false_eq_true, if_false, true_and]
    have hdelivers := finishCall_delivers lib h hutf8 hera hne hid
    constructor
    · intro hctx
      cases hcall : handleToolsCall lib srv h opts params with
      | error thrown =>
        rw [hcall] at hctx
        cases thrown <;> simp [contextOf_makeError] at hctx
      | ok out =>
        rw [hcall] at hctx
        dsimp only at hctx
        split_ifs at hctx with hdump
        · obtain ⟨spec, hr, hout⟩ := (handleToolsCall_ok hname).mp hcall
          obtain ⟨hc, hrenders⟩ := (hdelivers _).mp ⟨out, hout, hdump⟩
          exact ⟨spec, hr, hc, hrenders⟩
        · rw [contextOf_makeError] at hctx
          cases hctx
    · rintro ⟨spec, hans⟩
      obtain ⟨out, hout, hdump⟩ := (hdelivers _).mpr ⟨hans.delivered, hans.renders⟩
      obtain ⟨content, isError, structured, rfl⟩ := finishCall_ok hout
      rw [(handleToolsCall_ok hname).mpr ⟨spec, hans.toReaches, hout⟩]
      dsimp only
      rw [if_pos hdump]
      exact contextOf_toolResult id hera hne content isError structured

/-- A call of a context-scoped tool, as the transport has read it. -/
structure ContextCall (lib : JsonLibrary) (text : Bytes) (body : JsonValue) : Prop where
  parsed : lib.parse text = some body
  method : Http.messageMethod body = ascii "tools/call"
  tool : Http.isContextScopedTool (Http.paramsString body (ascii "name")) = true

theorem ContextCall.stringMember {text : Bytes} {body : JsonValue} (hc : ContextCall lib text body) :
    body.stringMember (ascii "method") = some (ascii "tools/call") := by
  have hmethod := hc.method
  rw [Http.messageMethod] at hmethod
  cases hm : body.stringMember (ascii "method") with
  | none =>
    rw [hm] at hmethod
    revert hmethod
    decide
  | some m =>
    rw [hm] at hmethod
    exact congrArg some hmethod

theorem ContextCall.isObject {text : Bytes} {body : JsonValue} (hc : ContextCall lib text body) :
    body.isObject = true := by
  have hm := hc.stringMember
  cases body <;> first | rfl | cases hm

/-- The parameters are an object, where the tool's name stands. -/
theorem ContextCall.params {text : Bytes} {body : JsonValue} (hc : ContextCall lib text body) :
    ∃ params, body.find (ascii "params") = some params ∧ params.isObject = true ∧
      (params.stringMember (ascii "name")).getD [] = Http.paramsString body (ascii "name") := by
  have htool := hc.tool
  rw [Http.paramsString] at htool ⊢
  cases hp : body.objectMember (ascii "params") with
  | none =>
    rw [hp] at htool
    have hempty : Http.isContextScopedTool [] = false := by
      simp only [Http.isContextScopedTool, Http.contextScopedTools, List.map_cons, List.map_nil]
      repeat rw [ascii_ofList]
      rfl
    exact absurd htool (hempty ▸ Bool.false_ne_true)
  | some params =>
    obtain ⟨hfind, hobj⟩ := Option.filter_eq_some_iff.mp hp
    exact ⟨params, hfind, hobj, rfl⟩

/-- The reply to such a call carries the handle exactly where it is a request that gets to
its tool on an open server, and what the tool gives is delivered. -/
theorem contextOf_handleLine {text : Bytes} {body : JsonValue} (hc : ContextCall lib text body)
    (hdeep : jsonNestsTooDeep text = false) (hera : opts.era = .modern) (hne : opts.contextId ≠ [])
    (hid : isUtf8 opts.contextId = true) :
    (handleLine lib srv h opts text).bind contextOf = some opts.contextId ↔
      (body.find (ascii "jsonrpc")).isSome = true ∧ (body.find (ascii "id")).isSome = true ∧
        srv.shuttingDown = false ∧
          ∃ spec, Answers srv h opts.toolAllow ((body.find (ascii "params")).getD (.obj [])) spec := by
  obtain ⟨params, hparams, hobj, hname⟩ := hc.params
  have hm := hc.stringMember
  have hmethod : ascii "tools/call" ≠ ascii "notifications/cancelled" := by decide
  obtain ⟨m, hfind, -⟩ := Option.bind_eq_some_iff.mp hm
  simp only [handleLine, handleLineImpl, hdeep, hc.parsed, hc.isObject, hm, hfind, hparams, Bool.not_true,
    Bool.false_eq_true, if_false, Option.any_some, hobj, hmethod, false_or, Option.isNone_some, or_false]
  cases hrpc : body.find (ascii "jsonrpc") with
  | none => simp [contextOf_makeError, apply_ite contextOf]
  | some version =>
    cases hreq : body.find (ascii "id") with
    | none => simp
    | some id =>
      have hutf8 : id.utf8 = true := JsonValue.utf8_find (lib.parse_utf8 hc.parsed) hreq
      simp only [Option.isNone_some, Bool.false_eq_true, if_false, Option.map_some, Option.bind_some,
        Option.getD_some, contextOf_backstop, Option.isSome_some, true_and]
      rw [contextOf_answer hutf8 hera hne hid (by rw [hparams]; exact hname.symm ▸ hc.tool), hparams]
      rfl

end Rpc

namespace Http
open Rpc

variable {p : Platform} {client : Client} {w : Surroundings} {t : Transport} {req : HttpRequest} {text : Bytes}

def Answer.contextId : Answer → Option Bytes
  | .reply _ _ body => body.bind contextOf
  | .escaped => none

/-- A modern POST that names a context-scoped tool and no context. -/
structure NamesNoContext (p : Platform) (req : HttpRequest) (text : Bytes) (body : JsonValue) : Prop
    extends ContextCall p.toJsonLibrary text body where
  post : req.method = ascii "POST"
  modern : isModern req body = true
  noContext : namedContext body = []

/-- The registry takes no new context. -/
def Transport.refuses (t : Transport) (w : Surroundings) : Prop :=
  w.limits.maxSessions ≤ (t.evict w).registry.size ∨ w.factory = false

/-- The new context's handle is on its way to the client, or there is none: the request is
refused before the registry, or by it with nothing idle to evict, or it is a request that
gets to its tool on an open server, and what the tool gives is delivered. -/
def HandsOver (p : Platform) (client : Client) (w : Surroundings) (t : Transport) (req : HttpRequest) (text : Bytes)
    (body : JsonValue) : Prop :=
  req.chunked = true ∨ jsonNestsTooDeep text = true ∨
    (validateModernRequest p req body (ascii "tools/call")).isSome = true ∨
    t.refuses w ∧ (t.evict w).registry = t.registry ∨
    ¬ t.refuses w ∧ (body.find (ascii "jsonrpc")).isSome = true ∧ (body.find (ascii "id")).isSome = true ∧
      (w.server t.nextServer).shuttingDown = false ∧
        ∃ spec, Answers (w.server t.nextServer) (w.handling t.nextServer) client.allow
          ((body.find (ascii "params")).getD (.obj [])) spec

theorem contextId_handled (isRequest : Bool) (session : Option Bytes) (reply : Option JsonValue) :
    (handled isRequest session reply).contextId = reply.bind contextOf := by
  cases reply <;> rfl

theorem minted_ne_nil (w : Surroundings) : w.minted ≠ [] := by
  intro h
  have hlen := hexEncode_length w.random.val
  rw [Surroundings.minted] at h
  rw [h, w.random.property] at hlen
  cases hlen

/-- A context that is made shows in the registry. -/
theorem insert_ne (t : Transport) (w : Surroundings) (owner : Bytes) :
    ((t.evict w).insert w (.context owner)).registry ≠ t.registry := by
  intro h
  have hmem : (w.minted, ⟨t.nextServer, owner, w.now⟩) ∈ t.registry.contexts := by
    rw [← h]
    exact List.mem_cons_self ..
  exact absurd (t.made _ hmem) (Nat.lt_irrefl _)

theorem flow_namesNoContext {body : JsonValue} (hn : NamesNoContext p req text body) (hchunked : req.chunked = false)
    (hdeep : jsonNestsTooDeep text = false) :
    flow p w.modernEraOnly req text = modernFlow p req body (ascii "tools/call") := by
  have hget : ascii "POST" ≠ ascii "GET" := by decide
  have hdelete : ascii "POST" ≠ ascii "DELETE" := by decide
  have hnil : text ≠ [] := by
    rintro rfl
    have := p.parse_nil.symm.trans hn.parsed
    cases this
  simp [flow, postFlow, hn.post, hchunked, hget, hdelete, hdeep, hn.parsed, hn.isObject, hn.modern, hn.method, hnil]

/-- A request that is answered before the registry leaves it alone. -/
theorem serve_answered {a : Answer} (hflow : flow p w.modernEraOnly req text = .answered a) :
    (serve p client w t req text).1.registry = t.registry := by
  rw [serve, hflow]

theorem flow_chunked (hchunked : req.chunked = true) : ∃ a, flow p w.modernEraOnly req text = .answered a :=
  ⟨_, by rw [flow, if_pos hchunked]⟩

theorem flow_deep (hpost : req.method = ascii "POST") (hchunked : req.chunked = false)
    (hdeep : jsonNestsTooDeep text = true) : ∃ a, flow p w.modernEraOnly req text = .answered a := by
  have hget : ascii "POST" ≠ ascii "GET" := by decide
  have hdelete : ascii "POST" ≠ ascii "DELETE" := by decide
  exact ⟨sendStatus 400, by simp [flow, postFlow, hpost, hchunked, hget, hdelete, hdeep]⟩

/-- A call that passes the header checks asks for a context. -/
theorem modernFlow_namesNoContext {body : JsonValue} (hn : NamesNoContext p req text body)
    (hvalid : validateModernRequest p req body (ascii "tools/call") = none) :
    modernFlow p req body (ascii "tools/call") = .createContext := by
  have hknown : ascii "tools/call" ∈ knownRpcMethods := by decide
  simp [modernFlow, hvalid, hknown, hn.tool, hn.noContext]

theorem create_of_refuses {kind : Kind} (h : t.refuses w) : t.create w kind = (t.evict w, none) := by
  rw [Transport.create, if_pos (by simpa [Transport.refuses] using h)]

theorem create_of_not_refuses {kind : Kind} (h : ¬ t.refuses w) :
    t.create w kind = ((t.evict w).insert w kind, some t.nextServer) := by
  rw [Transport.create, if_neg (by simpa [Transport.refuses] using h)]
  rfl

/-- A call that gets a new context runs on it. -/
theorem serve_creates {body : JsonValue} (hn : NamesNoContext p req text body) (hchunked : req.chunked = false)
    (hdeep : jsonNestsTooDeep text = false) (hvalid : validateModernRequest p req body (ascii "tools/call") = none)
    (hrefuses : ¬ t.refuses w) :
    serve p client w t req text = ((t.evict w).insert w (.context client.owner),
      handled (isRequest p text) none (runOn p client w .modern w.minted text t.nextServer)) := by
  have hflow := flow_namesNoContext (w := w) hn hchunked hdeep
  rw [modernFlow_namesNoContext hn hvalid] at hflow
  rw [serve, hflow]
  simp only [create_of_not_refuses hrefuses]

/-- A call that names no context; without an id it is a notification. -/
def pauseBody (id : List (String × JsonValue)) : JsonValue :=
  .obj (id ++ [("jsonrpc", .text "2.0"), ("method", .text "tools/call"),
    ("_meta", .obj [("io.modelcontextprotocol/protocolVersion", .text "2025-11-25")]),
    ("params", .obj [("name", .text "fractal_vectorizer_pause"), ("arguments", .obj [])])])

def pauseText (id : String) : Bytes :=
  (["\x7b", id, "\"jsonrpc\":\"2.0\",", "\"method\":\"tools/call\",", "\"_meta\":\x7b", "\"io.modelcontextprotocol",
    "/protocolVersion\":", "\"2025-11-25\"\x7d,", "\"params\":\x7b\"name\":", "\"fractal_vectorizer_pause\",",
    "\"arguments\":\x7b\x7d\x7d\x7d"].map ascii).flatten

def pauseRequest : HttpRequest where
  method := ascii "POST"
  headers name :=
    if name = ascii "mcp-protocol-version" then some (ascii "2025-11-25")
    else if name = ascii "mcp-method" then some (ascii "tools/call")
    else if name = ascii "mcp-name" then some (ascii "fractal_vectorizer_pause")
    else none

theorem notificationBody_utf8 : (pauseBody []).utf8 = true := by
  simp only [pauseBody, JsonValue.obj, JsonValue.text, List.nil_append, List.map_cons, List.map_nil]
  repeat rw [ascii_ofList]
  decide

theorem requestBody_utf8 : (pauseBody [("id", .int 1)]).utf8 = true := by
  rw [pauseBody, List.singleton_append, JsonValue.obj, List.map_cons, JsonValue.utf8, JsonValue.utf8Members, ascii_ofList,
    show isUtf8 _ = true from rfl, show JsonValue.utf8 (.int 1) = true from rfl, Bool.and_self, Bool.true_and]
  exact notificationBody_utf8

theorem pauseText_ne_nil (id : String) : pauseText id ≠ [] := by
  intro h
  have hmem : (123 : UInt8) ∈ pauseText id := List.mem_append_left _ (by decide)
  rw [h] at hmem
  cases hmem

def requestPlatform : Platform :=
  .oneDocument (pauseText "\"id\":1,") (pauseBody [("id", .int 1)]) requestBody_utf8

def notificationPlatform : Platform :=
  .oneDocument (pauseText "") (pauseBody []) notificationBody_utf8

def someClient : Client := ⟨⟨Block.zero 32, ascii "client"⟩, none⟩

/-- An engine that refuses the statement, behind a server that may be read-only. -/
def pauseServer (readOnly : Bool) : Surroundings where
  server _ := { tools := [⟨ascii "fractal_vectorizer_pause", true⟩], readOnlyMode := readOnly }
  handling _ :=
    { acquire := fun _ => none
      runTool := fun _ _ => .toolError ⟨.engine, ascii "no such vectorizer"⟩
      cancelledAfter := false
      handle := fun _ _ => .error .other }

theorem pause_isContextScoped : isContextScopedTool (ascii "fractal_vectorizer_pause") = true := by
  simp [isContextScopedTool, contextScopedTools]

theorem request_namesNoContext :
    NamesNoContext requestPlatform pauseRequest (pauseText "\"id\":1,") (pauseBody [("id", .int 1)]) where
  parsed := Platform.oneDocument_parse requestBody_utf8 (pauseText_ne_nil _)
  method := by decide
  tool := pause_isContextScoped
  post := rfl
  modern := by decide
  noContext := by decide

theorem notification_namesNoContext :
    NamesNoContext notificationPlatform pauseRequest (pauseText "") (pauseBody []) where
  parsed := Platform.oneDocument_parse notificationBody_utf8 (pauseText_ne_nil _)
  method := by decide
  tool := pause_isContextScoped
  post := rfl
  modern := by decide
  noContext := by decide

theorem pauseServer_takes (readOnly : Bool) : ¬ Transport.refuses {} (pauseServer readOnly) := by
  rintro (hfull | hfactory)
  · revert hfull
    cases readOnly <;> decide
  · cases hfactory

theorem requestText_shallow : jsonNestsTooDeep (pauseText "\"id\":1,") = false := by
  simp only [pauseText, List.map_cons, List.map_nil]
  repeat rw [ascii_ofList]
  decide

theorem notificationText_shallow : jsonNestsTooDeep (pauseText "") = false := by
  simp only [pauseText, List.map_cons, List.map_nil]
  repeat rw [ascii_ofList]
  decide

theorem pause_headers :
    pauseRequest.headers (ascii "mcp-protocol-version") = some (ascii "2025-11-25") ∧
      pauseRequest.headers (ascii "mcp-method") = some (ascii "tools/call") ∧
      pauseRequest.headers (ascii "mcp-name") = some (ascii "fractal_vectorizer_pause") := by
  simp only [pauseRequest]
  repeat rw [ascii_ofList]
  decide

theorem pause_trimmed : trimCopy (ascii "2025-11-25") = ascii "2025-11-25" ∧
    trimCopy (ascii "tools/call") = ascii "tools/call" ∧
    trimCopy (ascii "fractal_vectorizer_pause") = ascii "fractal_vectorizer_pause" := by
  repeat rw [ascii_ofList]
  decide

theorem modernMetaVersion_of_member {body fields : JsonValue} {v : Bytes}
    (hmeta : body.objectMember (ascii "_meta") = some fields)
    (hv : fields.stringMember (ascii "io.modelcontextprotocol/protocolVersion") = some v) :
    modernMetaVersion body = v := by
  simp only [modernMetaVersion, hmeta, hv]

theorem pause_body {id : List (String × JsonValue)} (h : id = [] ∨ id = [("id", .int 1)]) :
    modernMetaVersion (pauseBody id) = ascii "2025-11-25" ∧
      paramsString (pauseBody id) (ascii "name") = ascii "fractal_vectorizer_pause" := by
  have hmeta : (pauseBody id).objectMember (ascii "_meta") =
      some (.obj [("io.modelcontextprotocol/protocolVersion", .text "2025-11-25")]) := by
    rcases h with rfl | rfl
    all_goals
      simp only [pauseBody, JsonValue.obj, JsonValue.text, List.cons_append, List.nil_append, List.map_cons, List.map_nil]
      repeat rw [ascii_ofList]
      rfl
  have hparams : (pauseBody id).objectMember (ascii "params") =
      some (.obj [("name", .text "fractal_vectorizer_pause"), ("arguments", .obj [])]) := by
    rcases h with rfl | rfl
    all_goals
      simp only [pauseBody, JsonValue.obj, JsonValue.text, List.cons_append, List.nil_append, List.map_cons, List.map_nil]
      repeat rw [ascii_ofList]
      rfl
  have hversion : (JsonValue.obj [("io.modelcontextprotocol/protocolVersion", .text "2025-11-25")]).stringMember
      (ascii "io.modelcontextprotocol/protocolVersion") = some (ascii "2025-11-25") := by
    simp [JsonValue.obj, JsonValue.stringMember, JsonValue.find, JsonValue.text, JsonValue.asString]
  have hname : (JsonValue.obj [("name", .text "fractal_vectorizer_pause"), ("arguments", .obj [])]).stringMember
      (ascii "name") = some (ascii "fractal_vectorizer_pause") := by
    simp [JsonValue.obj, JsonValue.stringMember, JsonValue.find, JsonValue.text, JsonValue.asString]
  constructor
  · exact modernMetaVersion_of_member hmeta hversion
  · rw [paramsString, hparams, Option.bind_some, hname, Option.getD_some]

theorem pause_valid (p : Platform) {body : JsonValue} (hversion : modernMetaVersion body = ascii "2025-11-25")
    (hname : paramsString body (ascii "name") = ascii "fractal_vectorizer_pause") :
    validateModernRequest p pauseRequest body (ascii "tools/call") = none := by
  obtain ⟨hpv, hmethod, hmcp⟩ := pause_headers
  obtain ⟨htrimVersion, htrimMethod, htrimName⟩ := pause_trimmed
  have hknown : (!modernProtocolVersions.contains (ascii "2025-11-25")) = false := by
    rw [modernProtocolVersions, List.map_cons, List.contains_cons, beq_self_eq_true, Bool.true_or, Bool.not_true]
  have hne : ascii "2025-11-25" ≠ [] := by
    rw [ascii_ofList]
    exact List.cons_ne_nil _ _
  have hplain : (!(ascii "=?base64?").isPrefixOf (ascii "fractal_vectorizer_pause")) = true := by
    rw [ascii_ofList, ascii_ofList]
    decide
  have hdecode : decodeMcpName p (ascii "fractal_vectorizer_pause") = ascii "fractal_vectorizer_pause" := by
    simp only [decodeMcpName, htrimName, hplain, if_true]
  have hcheck : checkName p pauseRequest body (ascii "tools/call") = none := by
    simp only [checkName, expectedName, true_or, if_true, hname, hmcp, hdecode, ne_eq, not_true_eq_false, if_false]
  simp only [validateModernRequest, hpv, htrimVersion, hknown, hversion, hne, hmethod, htrimMethod, hcheck,
    Bool.false_eq_true, ne_eq, not_true_eq_false, if_false]

/-- Both messages get a context from the empty registry. -/
theorem request_creates (readOnly : Bool) :
    serve requestPlatform someClient (pauseServer readOnly) {} pauseRequest (pauseText "\"id\":1,") =
      ((Transport.evict (pauseServer readOnly) {}).insert (pauseServer readOnly) (.context someClient.owner),
        handled (isRequest requestPlatform (pauseText "\"id\":1,")) none
          (runOn requestPlatform someClient (pauseServer readOnly) .modern (pauseServer readOnly).minted
            (pauseText "\"id\":1,") 0)) :=
  serve_creates request_namesNoContext rfl requestText_shallow
    (pause_valid _ (pause_body (.inr rfl)).1 (pause_body (.inr rfl)).2) (pauseServer_takes readOnly)

theorem notification_creates (readOnly : Bool) :
    serve notificationPlatform someClient (pauseServer readOnly) {} pauseRequest (pauseText "") =
      ((Transport.evict (pauseServer readOnly) {}).insert (pauseServer readOnly) (.context someClient.owner),
        handled (isRequest notificationPlatform (pauseText "")) none
          (runOn notificationPlatform someClient (pauseServer readOnly) .modern (pauseServer readOnly).minted
            (pauseText "") 0)) :=
  serve_creates notification_namesNoContext rfl notificationText_shallow
    (pause_valid _ (pause_body (.inl rfl)).1 (pause_body (.inl rfl)).2) (pauseServer_takes readOnly)

end Http

end FractalSQL.Mcp
