import FractalSQL.Mcp.ClientRegistry
import FractalSQL.Mcp.Dispatch
import FractalSQL.Mcp.HttpHead

/-!
# Serving an HTTP request

`serveConnection` from the moment the credential is accepted: what a request asks of the
client registry, and the reply. The registry's critical sections come one after another
here, with no other request between them.
-/
namespace FractalSQL.Mcp.Http
open Lib Rpc

/-- The JSON library and `EVP_DecodeBlock`. -/
structure Platform extends JsonLibrary where
  decodeBlock : Bytes → Option Bytes

/-- A platform that knows one document. -/
def Platform.oneDocument (text : Bytes) (body : JsonValue) (hbody : body.utf8 = true) : Platform where
  toJsonLibrary := .documents [(text, body)] (by simp [hbody])
  decodeBlock _ := none

theorem Platform.oneDocument_parse {text : Bytes} {body : JsonValue} (hbody : body.utf8 = true) (htext : text ≠ []) :
    (oneDocument text body hbody).parse text = some body := by
  simp [oneDocument, JsonLibrary.documents, htext]

inductive Answer where
  /-- Status, `Mcp-Session-Id`, body. -/
  | reply (status : ℕ) (sessionId : Option Bytes) (body : Option JsonValue)
  /-- An exception leaves `serveConnection`. -/
  | escaped

/-- `sendStatus`. -/
def sendStatus (status : ℕ) : Answer := .reply status none none

/-- `sendJsonError`, whose messages are all literals. -/
def sendJsonError (status : ℕ) (message : String) : Answer :=
  .reply status none (some (.obj [("error", .text message)]))

/-- `rpcErrorBody`. -/
def rpcErrorBody (code : ℤ) (message : Bytes) (data : JsonValue) : JsonValue :=
  let err := JsonValue.obj [("code", .int code), ("message", .string message)]
  .obj [("jsonrpc", .text "2.0"), ("error", if data.isNull then err else err.set (ascii "data") data)]

def contextScopedTools : List Bytes :=
  ["fractal_diversify_enable", "fractal_diversify_disable", "fractal_diversify_set_params", "fractal_feedback_report",
    "fractal_agent_feedback_audit", "fractal_isolate_background", "fractal_agent_recommend_diverse",
    "fractal_search_telemetry", "fractal_vectorizer_create", "fractal_vectorizer_pause", "fractal_vectorizer_resume",
    "fractal_vectorizer_process_queue", "fractal_vectorizer_enqueue", "fractal_vectorizer_drop",
    "fractal_session_close", "fractal_explain_result", "fractal_detect_collapse", "fractalsql_session_config_set",
    "fractalsql_session_config_get", "fractalsql_session_config_reset", "fractalsql_session_config_list"].map ascii

def isContextScopedTool (name : Bytes) : Bool := contextScopedTools.contains name

/-- `isKnownRpcMethod`. -/
def knownRpcMethods : List Bytes :=
  ["initialize", "ping", "tools/list", "tools/call", "resources/list", "resources/read", "resources/templates/list",
    "prompts/list", "prompts/get", "server/discover", "logging/setLevel", "notifications/initialized",
    "notifications/cancelled", "$/cancel"].map ascii

def modernProtocolVersions : List Bytes := ["2025-11-25", "2026-07-28"].map ascii

/-- A string field of the request's params, or the empty string. -/
def paramsString (body : JsonValue) (key : Bytes) : Bytes :=
  ((body.objectMember (ascii "params")).bind (·.stringMember key)).getD []

/-- The `context_id` among the arguments, or the empty string. -/
def namedContext (body : JsonValue) : Bytes :=
  (((body.objectMember (ascii "params")).bind (·.objectMember (ascii "arguments"))).bind
    (·.stringMember (ascii "context_id"))).getD []

def modernMetaVersion (body : JsonValue) : Bytes :=
  match body.objectMember (ascii "_meta") with
  | none => []
  | some fields =>
    match fields.stringMember (ascii "io.modelcontextprotocol/protocolVersion") with
    | some v => v
    | none =>
      ((fields.objectMember (ascii "io.modelcontextprotocol")).bind (·.stringMember (ascii "protocolVersion"))).getD []

/-- `std::string::rfind`. -/
def rfind (lit s : Bytes) : Option ℕ := (List.range (s.length + 1)).reverse.find? fun i => lit.isPrefixOf (s.drop i)

variable (p : Platform)

def base64Decode (s : Bytes) : Bytes :=
  if s = [] then []
  else
    let pad := (s.reverse.takeWhile (· = 61)).length
    match p.decodeBlock s with
    | none => []
    | some out => if pad ≤ out.length then out.take (out.length - pad) else out

/-- Padding up to a multiple of four. -/
def padBase64 (s : Bytes) : Bytes := s ++ List.replicate ((4 - s.length % 4) % 4) 61

def decodeMcpName (raw : Bytes) : Bytes :=
  let v := trimCopy raw
  if !(ascii "=?base64?").isPrefixOf v then v
  else
    match rfind (ascii "?=") v with
    | none => []
    | some stop =>
      if stop < 9 then []
      else
        let b64 := (v.take stop).drop 9
        base64Decode p (padBase64 (b64.map fun c => if c = 45 then 43 else if c = 95 then 47 else c))

/-- A refusal of `ModernCheck`; its status is 400. -/
structure ModernRefusal where
  code : ℤ
  message : Bytes
  data : JsonValue := .null

/-- The name a modern request is to repeat in its `Mcp-Name` header. -/
def expectedName (body : JsonValue) (method : Bytes) : Option Bytes :=
  if method = ascii "tools/call" ∨ method = ascii "prompts/get" then some (paramsString body (ascii "name"))
  else if method = ascii "resources/read" then some (paramsString body (ascii "uri"))
  else none

/-- The check of `Mcp-Name`. -/
def checkName (req : HttpRequest) (body : JsonValue) (method : Bytes) : Option ModernRefusal :=
  match expectedName body method with
  | none => none
  | some expected =>
    match req.headers (ascii "mcp-name") with
    | none => some ⟨-32020, ascii "missing Mcp-Name header: " ++ method ++ ascii " must name what it addresses", .null⟩
    | some raw =>
      if decodeMcpName p raw ≠ expected then
        some ⟨-32020, ascii "header and body disagree about the name: header says '" ++ decodeMcpName p raw ++
          ascii "', body says '" ++ expected ++ ascii "'", .null⟩
      else none

/-- `validateModernRequest`. -/
def validateModernRequest (req : HttpRequest) (body : JsonValue) (method : Bytes) : Option ModernRefusal :=
  match req.headers (ascii "mcp-protocol-version") with
  | none => some ⟨-32020, ascii ("missing MCP-Protocol-Version header: a modern protocol era request " ++
      "must name the revision it speaks"), .null⟩
  | some pv =>
    let headerVersion := trimCopy pv
    let bodyVersion := modernMetaVersion body
    if !modernProtocolVersions.contains headerVersion then
      some ⟨-32022, ascii "unsupported protocol version: " ++ headerVersion,
        .obj [("supported", .array (modernProtocolVersions.map .string)), ("requested", .string headerVersion)]⟩
    else if bodyVersion = [] then
      some ⟨-32020, ascii ("missing _meta.io.modelcontextprotocol/protocolVersion: a modern protocol " ++
        "era request carries its revision in the body as well as in the header"), .null⟩
    else if bodyVersion ≠ headerVersion then
      some ⟨-32020, ascii "header and body disagree about the protocol version: header says " ++ headerVersion ++
        ascii ", body says " ++ bodyVersion, .null⟩
    else
      match req.headers (ascii "mcp-method") with
      | none => some ⟨-32020, ascii ("missing Mcp-Method header: a modern protocol era request must " ++
          "name its method"), .null⟩
      | some mm =>
        if trimCopy mm ≠ method then
          some ⟨-32020, ascii "header and body disagree about the method: header says '" ++ trimCopy mm ++
            ascii "', body says '" ++ method ++ ascii "'", .null⟩
        else checkName p req body method

/-- What a request asks of the registry, and the answer of one that asks nothing. -/
inductive Flow where
  | answered (a : Answer)
  | delete (id : Bytes)
  | handleInitialize
  /-- A legacy call, with the context its arguments name. -/
  | legacy (id named : Bytes)
  | findContext (id : Bytes)
  | createContext
  | credential

/-- `handleModernDispatch`, up to the registry. -/
def modernFlow (req : HttpRequest) (body : JsonValue) (method : Bytes) : Flow :=
  match validateModernRequest p req body method with
  | some refusal =>
    let reply := rpcErrorBody refusal.code refusal.message refusal.data
    .answered (if (p.dump reply).isSome then .reply 400 none (some reply) else .escaped)
  | none =>
    if !knownRpcMethods.contains method then
      .answered (.reply 404 none (some (rpcErrorBody (-32601) (ascii "method not found: " ++ method) .null)))
    else if method = ascii "tools/call" ∧ isContextScopedTool (paramsString body (ascii "name")) then
      if namedContext body = [] then .createContext else .findContext (namedContext body)
    else .credential

/-- The method of a message, or the empty string. -/
def messageMethod (body : JsonValue) : Bytes := (body.stringMember (ascii "method")).getD []

/-- Whether a message is of the modern era. -/
def isModern (req : HttpRequest) (body : JsonValue) : Bool :=
  messageMethod body ≠ ascii "initialize" &&
    ((req.headers (ascii "mcp-protocol-version")).isSome || modernMetaVersion body ≠ [])

/-- A POST, whose body is `text`. -/
def postFlow (modernEraOnly : Bool) (req : HttpRequest) (text : Bytes) : Flow :=
  if jsonNestsTooDeep text then .answered (sendStatus 400)
  else
    match p.parse text with
    | none => .answered (.reply 400 none (some (rpcErrorBody (-32700)
        (ascii "parse error: the request body is not a JSON-RPC 2.0 message") .null)))
    | some body =>
      if !body.isObject ∨ text = [] then .answered (.reply 400 none (some (rpcErrorBody (-32700)
        (ascii "parse error: the request body is not a JSON-RPC 2.0 message") .null)))
      else if modernEraOnly ∧ !isModern req body then
        .answered (.reply 400 none (some (rpcErrorBody (-32000) (ascii ("this server speaks the modern protocol era " ++
          "only (FSQL_MCP_PROTOCOL_ERA=modern); the legacy initialize handshake and the legacy session headers " ++
          "are refused. Supported versions: 2025-11-25, 2026-07-28")) .null)))
      else if isModern req body then modernFlow p req body (messageMethod body)
      else if messageMethod body = ascii "initialize" then
        if req.sessionId ≠ [] then .answered (sendJsonError 400 "initialize must not carry a session id")
        else .handleInitialize
      else if req.sessionId = [] then .answered (sendStatus 400)
      else .legacy req.sessionId (namedContext body)

/-- `serveConnection` of an authenticated request, up to the registry. -/
def flow (modernEraOnly : Bool) (req : HttpRequest) (text : Bytes) : Flow :=
  if req.chunked then
    .answered (sendJsonError 411 "a chunked request body is not accepted; send Content-Length")
  else if req.method = ascii "GET" ∨ req.method = ascii "DELETE" then
    if (req.headers (ascii "mcp-protocol-version")).isSome ∨ modernEraOnly then
      .answered (sendJsonError 405 (if req.method = ascii "GET" then
        "GET is not used by the modern protocol era; POST JSON-RPC 2.0 messages" else
        "DELETE is not used by the modern protocol era; it has no protocol session to tear down"))
    else if req.method = ascii "GET" then .answered (sendStatus 405)
    else if req.sessionId = [] then .answered (sendStatus 400)
    else .delete req.sessionId
  else if req.method ≠ ascii "POST" then .answered (sendStatus 405)
  else postFlow p modernEraOnly req text

def unknownContext : Answer :=
  sendJsonError 404 "unknown context handle: it does not exist, or it belongs to another credential"

/-- The reply with what `handleLine` returned; `session` is the handle of a new session. -/
def handled (isRequest : Bool) (session : Option Bytes) : Option JsonValue → Answer
  | some body => .reply 200 session (some body)
  | none => .reply (if isRequest then 200 else 202) session none

/-- A legacy call may name no context but its session's. -/
def contextMismatch : Answer :=
  .reply 400 none (some (rpcErrorBody (-32602) (ascii ("the context_id does not match this session's own context: " ++
    "in the legacy protocol era the Mcp-Session-Id header supplies the context, and an explicit context_id " ++
    "may only repeat it")) .null))

/-! ### With the registry -/

/-- The credential a request was accepted with, and the tools it may call. -/
structure Client where
  cred : Credential
  allow : Option (List Bytes) := none

def Client.owner (c : Client) : Bytes := c.cred.ownerFp.val

/-- The registry and the servers made so far: a new server is none of those with a context. -/
structure Transport where
  registry : Registry := {}
  nextServer : ℕ := 0
  made : ∀ p ∈ registry.contexts, p.2.srv < nextServer := by simp

/-- What a request meets: the time, the factory, the handle that is minted, the servers. -/
structure Surroundings where
  limits : Limits := {}
  modernEraOnly : Bool := false
  now : ℕ := 0
  factory : Bool := true
  random : Block 16 := Block.zero 16
  server : ℕ → JsonRpcServer
  handling : ℕ → Handling

/-- `mintContextId`. -/
def Surroundings.minted (w : Surroundings) : Bytes := hexEncode w.random.val

theorem made_of_within {m m' : Entries} {n : ℕ} (hw : m'.Within m) (h : ∀ p ∈ m, p.2.srv < n) :
    ∀ p ∈ m', p.2.srv < n := by
  intro p hp
  obtain ⟨q, hq, -, hsrv, -⟩ := hw p hp
  exact hsrv ▸ h q hq

theorem made_insert {r : Registry} {n : ℕ} (h : ∀ p ∈ r.contexts, p.2.srv < n) (kind : Kind) (id : Bytes) (now : ℕ) :
    ∀ p ∈ (r.insert kind id n now).contexts, p.2.srv < n + 1 := by
  cases kind with
  | context owner =>
    intro p hp
    rcases Entries.mem_set hp with rfl | ⟨hp, -⟩
    · exact Nat.lt_succ_self n
    · exact Nat.lt_succ_of_lt (h p hp)
  | _ => exact fun p hp => Nat.lt_succ_of_lt (h p hp)

variable (client : Client) (w : Surroundings) (t : Transport)

/-- `evictIdle`. -/
def Transport.evict : Transport where
  registry := t.registry.evict w.now w.limits.sessionTtl
  nextServer := t.nextServer
  made := made_of_within (Entries.within_filter _ _) t.made

def Transport.insert (kind : Kind) : Transport where
  registry := t.registry.insert kind w.minted t.nextServer w.now
  nextServer := t.nextServer + 1
  made := made_insert t.made kind _ _

/-- `createSession`, `createContext` and the second half of `credentialContext`, with the
server. -/
def Transport.create (kind : Kind) : Transport × Option ℕ :=
  let t := t.evict w
  if w.limits.maxSessions ≤ t.registry.size ∨ !w.factory then (t, none)
  else (t.insert w kind, some t.nextServer)

def Transport.touchSession (id : Bytes) : Transport :=
  { t with registry := { t.registry with sessions := t.registry.sessions.touch id w.now } }

def Transport.touchContext (id : Bytes) : Transport where
  registry := { t.registry with contexts := t.registry.contexts.touch id w.now }
  nextServer := t.nextServer
  made := made_of_within (Entries.within_touch _ _ _) t.made

def Transport.touchCredential (key : Bytes) : Transport :=
  { t with registry := { t.registry with creds := t.registry.creds.touch key w.now } }

def Transport.eraseSession (id : Bytes) : Transport :=
  { t with registry := { t.registry with sessions := t.registry.sessions.erase id } }

/-- `credentialContext`. -/
def Transport.credentialContext : Transport × Option ℕ :=
  match t.registry.hit client.cred with
  | some e => (t.touchCredential w client.cred.key, some e.srv)
  | none => t.create w (.credential client.cred)

/-- `handleLine` of the server `n`. -/
def runOn (era : ProtocolEra) (contextId text : Bytes) (n : ℕ) : Option JsonValue :=
  handleLine p.toJsonLibrary (w.server n) (w.handling n) ⟨era, contextId, client.allow⟩ text

/-- Whether the body is a request and no notification. -/
def isRequest (text : Bytes) : Bool := ((p.parse text).bind (·.find (ascii "id"))).isSome

/-- `serveConnection` of an authenticated request. -/
def serve (req : HttpRequest) (text : Bytes) : Transport × Answer :=
  match flow p w.modernEraOnly req text with
  | .answered a => (t, a)
  | .delete id =>
    match t.registry.sessions.owned id client.owner with
    | some _ => (t.eraseSession id, sendStatus 200)
    | none => (t, sendStatus 404)
  | .handleInitialize =>
    match t.create w (.session client.owner) with
    | (t, some n) => (t, handled false (some w.minted) (runOn p client w .legacy [] text n))
    | (t, none) => (t, sendStatus 503)
  | .legacy id named =>
    match t.registry.sessions.owned id client.owner with
    | some e => (t.touchSession w id, if named ≠ [] ∧ named ≠ id then contextMismatch else
        handled false none (runOn p client w .legacy [] text e.srv))
    | none => (t, sendStatus 404)
  | .findContext id =>
    match t.registry.contexts.owned id client.owner with
    | some e => (t.touchContext w id, handled (isRequest p text) none (runOn p client w .modern id text e.srv))
    | none => (t, unknownContext)
  | .createContext =>
    match t.create w (.context client.owner) with
    | (t, some n) => (t, handled (isRequest p text) none (runOn p client w .modern w.minted text n))
    | (t, none) => (t, sendStatus 503)
  | .credential =>
    match t.credentialContext client w with
    | (t, some n) => (t, handled (isRequest p text) none (runOn p client w .modern [] text n))
    | (t, none) => (t, sendStatus 503)

end FractalSQL.Mcp.Http
