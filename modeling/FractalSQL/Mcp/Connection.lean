import FractalSQL.Mcp.HttpServe
import FractalSQL.Mcp.TokenStore

/-!
# A connection

`serveConnection` from the bytes a peer sends to the reply. A refusal repeats what it
refuses, and a reply is a JSON document, so a header that is no UTF-8 can leave a request
without a reply: the exception ends the process.
-/
namespace FractalSQL.Mcp.Http
open Lib Rpc

/-- `std::string::find`. -/
def findFirst (lit s : Bytes) : Option ℕ := (List.range (s.length + 1)).find? fun i => lit.isPrefixOf (s.drop i)

def originIsLoopback (origin : Bytes) : Bool :=
  match findFirst (ascii "://") origin with
  | none => false
  | some sep =>
    let host := (origin.drop (sep + 3)).takeWhile (· ≠ 47)
    if host.head? = some 91 then
      match cutAt 93 host with
      | none => false
      | some (inner, _) => inner.drop 1 = ascii "::1"
    else
      let host := match rfind [58] host with
        | some colon => host.take colon
        | none => host
      host = ascii "localhost" || (ascii "127.").isPrefixOf host

def originAllowed (origin : Bytes) (allowedOrigins : List Bytes) : Bool :=
  origin = [] || originIsLoopback origin ||
    allowedOrigins.any fun allowed => lowerCopy (trimCopy allowed) = lowerCopy (trimCopy origin)

/-- The `Origin` header, or the empty string. -/
def HttpRequest.origin (req : HttpRequest) : Bytes := trimCopy ((req.headers (ascii "origin")).getD [])

/-- The bearer token of the `Authorization` header, or the empty string. -/
def HttpRequest.presented (req : HttpRequest) : Bytes :=
  let authHeader := (req.headers (ascii "authorization")).getD []
  if (ascii "bearer ").isPrefixOf (lowerCopy authHeader) then trimCopy (authHeader.drop 7) else []

/-- What a connection thread holds: the settings, the credentials, the readiness probe. -/
structure Listener where
  path : Bytes := ascii "/mcp"
  allowedOrigins : List Bytes := []
  /-- `g_httpSignalled`. -/
  signalled : Bool := false
  readinessProbe : Except ToolError Bool
  tokenConfig : Tokens.Config
  tokens : Tokens.State
  /-- What a reload of the credentials sees, and the time it is. -/
  seen : Tokens.Seen
  time : ℤ
  hash : Bytes → Block 32

/-- `tokenFingerprint`. -/
def Listener.tokenFingerprint (l : Listener) (bearer : Bytes) : Block 32 :=
  ⟨hexEncode ((l.hash bearer).val.take 16), by simp [hexEncode_length, (l.hash bearer).property]⟩

inductive Outcome where
  /-- The connection ends without a reply. -/
  | closed
  /-- Status, extra headers, body. -/
  | sent (status : ℕ) (extra : List (Bytes × Bytes)) (body : Bytes)
  /-- An exception leaves `serveConnection`. -/
  | threw
deriving DecidableEq

variable (p : Platform)

/-- `sendStatus`, `sendJsonError` and `sendJsonBody`. -/
def deliver (extra : List (Bytes × Bytes)) : Option JsonValue → ℕ → Outcome
  | none, status => .sent status extra []
  | some body, status =>
    match p.dump body with
    | some text => .sent status extra text
    | none => .threw

def Answer.deliver : Answer → Outcome
  | .escaped => .threw
  | .reply status sessionId body =>
    Http.deliver p (sessionId.toList.map fun id => (ascii "Mcp-Session-Id", id)) body status

variable (l : Listener) (w : Surroundings) (t : Transport)

/-- `handleUnauthenticatedGet`; `none` for the path of the server. -/
def handleUnauthenticatedGet (req : HttpRequest) : Option Outcome :=
  if req.path = ascii "/healthz" then some ((sendStatus 200).deliver p)
  else if req.path = ascii "/readyz" then
    some (match l.readinessProbe with
      | .ok ready => (sendStatus (if ready then 200 else 503)).deliver p
      | .error _ => .threw)
  else if req.path ≠ l.path then some ((sendStatus 404).deliver p)
  else none

def authenticate (req : HttpRequest) : Tokens.Credential :=
  if req.presented = [] then {}
  else (l.tokens.reloaded p.toJsonLibrary l.tokenConfig l.seen).decide l.hash req.presented l.time

/-- The body of a 401. -/
def unauthorized (presented : Bytes) : Outcome :=
  let challenge := ascii "Bearer realm=\"fractalsql-mcp\""
  Http.deliver p
    [(ascii "WWW-Authenticate", if presented = [] then challenge else challenge ++ ascii ", error=\"invalid_token\"")]
    (some (.obj [("error", .text (if presented = [] then "missing bearer token" else "invalid bearer token"))])) 401

/-- The body of an authenticated request; one that is chunked is not read. -/
def bodyOf (req : HttpRequest) (rest : Bytes) : Except Outcome Bytes :=
  if req.chunked ∨ ¬ (req.method = ascii "POST" ∨ 0 < req.contentLength) then .ok []
  else if bodyMax < req.contentLength then .error ((sendStatus 413).deliver p)
  else
    match readRequestBody req rest with
    | none => .error .closed
    | some text => .ok text

def originRefused (origin : Bytes) : JsonValue :=
  rpcErrorBody (-32000) (ascii "origin not allowed: " ++ (origin ++
    ascii " is not a loopback origin and is not listed in FSQL_MCP_ALLOWED_ORIGINS")) .null

/-- The client a credential names. -/
def Listener.client (req : HttpRequest) (cred : Tokens.Credential) : Client where
  cred := ⟨l.tokenFingerprint req.presented, cred.clientName⟩
  allow := cred.allow

/-- `serveConnection`, on the path of the server. -/
def serveRequest (req : HttpRequest) (rest : Bytes) : Transport × Outcome :=
  if !originAllowed req.origin l.allowedOrigins then (t, Http.deliver p [] (some (originRefused req.origin)) 403)
  else if !(authenticate p l req).ok then (t, unauthorized p req.presented)
  else
    match bodyOf p req rest with
    | .error outcome => (t, outcome)
    | .ok text =>
      let served := serve p (l.client req (authenticate p l req)) w t req text
      (served.1, served.2.deliver p)

/-- `serveConnection`, on the bytes that arrive. -/
def serveConnection (s : Bytes) : Transport × Outcome :=
  match readRequestHead s with
  | .error .malformed => (t, (sendStatus 400).deliver p)
  | .error .closed => (t, .closed)
  | .ok (req, rest) =>
    if l.signalled then (t, .closed)
    else
      match handleUnauthenticatedGet p l req with
      | some outcome => (t, outcome)
      | none => serveRequest p l w t req rest

/-! ### What can be sent -/

/-- The body of a reply can be dumped. -/
def Answer.Printable : Answer → Prop
  | .reply _ _ (some body) => body.utf8 = true
  | .reply _ _ none => True
  | .escaped => False

/-- What asks the registry is answered with what can be dumped. -/
def Flow.Printable : Flow → Prop
  | .answered a => a.Printable
  | _ => True

theorem deliver_ne_threw (extra : List (Bytes × Bytes)) (body : Option JsonValue) (status : ℕ) :
    Http.deliver p extra body status ≠ .threw ↔ ∀ j, body = some j → j.utf8 = true := by
  cases body with
  | none => exact iff_of_true nofun nofun
  | some j =>
    have hdump := p.dump_isSome j
    rw [deliver]
    cases hj : p.dump j with
    | none =>
      rw [hj] at hdump
      simp [← hdump]
    | some text =>
      rw [hj] at hdump
      simp [← hdump]

theorem Answer.deliver_ne_threw (a : Answer) : a.deliver p ≠ .threw ↔ a.Printable := by
  cases a with
  | reply status sessionId body =>
    rw [deliver, Http.deliver_ne_threw]
    cases body <;> simp [Printable]
  | escaped => exact iff_of_false (fun h => h rfl) id

theorem utf8_rpcErrorBody (code : ℤ) (message : Bytes) (data : JsonValue) :
    (rpcErrorBody code message data).utf8 = (isUtf8 message && data.utf8) := by
  have hcode : ascii "code" ≠ ascii "data" := by decide
  have hmessage : ascii "message" ≠ ascii "data" := by decide
  cases data <;>
    simp (disch := decide) [rpcErrorBody, JsonValue.obj, JsonValue.utf8, JsonValue.utf8Members, JsonValue.text,
      JsonValue.isNull, JsonValue.set, JsonValue.utf8_int, isUtf8_ascii, List.filter_cons, hcode, hmessage,
      Bool.and_comm]

theorem sendJsonError_printable {status : ℕ} {message : String}
    (h : (message.toList.all fun c => c.toNat < 128) = true) : (sendJsonError status message).Printable := by
  simp [sendJsonError, Answer.Printable, JsonValue.obj, JsonValue.utf8, JsonValue.utf8Members, JsonValue.text,
    isUtf8_ascii h, isUtf8_ascii (s := "error") (by decide)]

theorem handleLine_utf8 {lib : JsonLibrary} {srv : JsonRpcServer} {h : Handling} {opts : CallOptions} {line : Bytes}
    {reply : JsonValue} (hreply : handleLine lib srv h opts line = some reply) : reply.utf8 = true := by
  obtain ⟨answered, -, rfl⟩ := Option.map_eq_some_iff.mp hreply
  split
  · rename_i hdump
    rw [← lib.dump_isSome, hdump]
  · simp (disch := decide) [makeError, JsonValue.obj, JsonValue.utf8, JsonValue.utf8Members, JsonValue.text,
      isUtf8_ascii, JsonValue.utf8_int]

theorem handled_printable {lib : JsonLibrary} {srv : JsonRpcServer} {h : Handling} {opts : CallOptions} {line : Bytes}
    (isRequest : Bool) (session : Option Bytes) :
    (handled isRequest session (handleLine lib srv h opts line)).Printable := by
  cases hreply : handleLine lib srv h opts line with
  | none => trivial
  | some reply => exact handleLine_utf8 hreply

/-- Once a request asks the registry, there is a reply. -/
theorem serve_printable (client : Client) (req : HttpRequest) (text : Bytes) :
    (serve p client w t req text).2.Printable ↔ (flow p w.modernEraOnly req text).Printable := by
  unfold serve
  cases flow p w.modernEraOnly req text with
  | answered a => exact Iff.rfl
  | delete id =>
    refine iff_of_true ?_ trivial
    dsimp only
    split <;> trivial
  | handleInitialize =>
    refine iff_of_true ?_ trivial
    dsimp only
    split
    · exact handled_printable _ _
    · trivial
  | legacy id named =>
    refine iff_of_true ?_ trivial
    dsimp only
    split
    · split_ifs
      · exact (utf8_rpcErrorBody ..).trans (by rw [isUtf8_ascii (all_append (all_append (all_literal (by decide)) (all_literal (by decide))) (all_literal (by decide)))]; rfl)
      · exact handled_printable _ _
    · trivial
  | findContext id =>
    refine iff_of_true ?_ trivial
    dsimp only
    split
    · exact handled_printable _ _
    · exact sendJsonError_printable (all_literal (by decide))
  | createContext =>
    refine iff_of_true ?_ trivial
    dsimp only
    split
    · exact handled_printable _ _
    · trivial
  | credential =>
    refine iff_of_true ?_ trivial
    dsimp only
    split
    · exact handled_printable _ _
    · trivial

/-! ### The flow of a request -/

/-- The version header names a revision of the modern era, and so does the body. -/
def VersionAgrees (req : HttpRequest) (body : JsonValue) : Prop :=
  ∃ v, req.headers (ascii "mcp-protocol-version") = some v ∧ trimCopy v ∈ modernProtocolVersions ∧
    modernMetaVersion body = trimCopy v

def MethodAgrees (req : HttpRequest) (body : JsonValue) : Prop :=
  ∃ m, req.headers (ascii "mcp-method") = some m ∧ trimCopy m = messageMethod body

/-- The headers that are compared with the body, each as long as the ones before agree. -/
structure Comparable (req : HttpRequest) (body : JsonValue) : Prop where
  version : ∀ v, req.headers (ascii "mcp-protocol-version") = some v → isUtf8 (trimCopy v) = true
  method : VersionAgrees req body → ∀ m, req.headers (ascii "mcp-method") = some m → isUtf8 (trimCopy m) = true
  name : VersionAgrees req body → MethodAgrees req body → (expectedName body (messageMethod body)).isSome →
    ∀ n, req.headers (ascii "mcp-name") = some n → isUtf8 (decodeMcpName p n) = true

theorem utf8_objectMember {j fields : JsonValue} {key : Bytes} (hj : j.utf8 = true)
    (h : j.objectMember key = some fields) : fields.utf8 = true :=
  JsonValue.utf8_find hj (Option.filter_eq_some_iff.mp h).1

theorem isUtf8_paramsString {body : JsonValue} (hbody : body.utf8 = true) (key : Bytes) :
    isUtf8 (paramsString body key) = true := by
  rw [paramsString]
  cases hparams : body.objectMember (ascii "params") with
  | none => rfl
  | some params => exact JsonValue.isUtf8_stringMember (utf8_objectMember hbody hparams) key

theorem isUtf8_modernMetaVersion {body : JsonValue} (hbody : body.utf8 = true) :
    isUtf8 (modernMetaVersion body) = true := by
  rw [modernMetaVersion]
  split
  · rfl
  · rename_i fields hmeta
    have hfields := utf8_objectMember hbody hmeta
    split
    · rename_i v hv
      have h := JsonValue.isUtf8_stringMember hfields (ascii "io.modelcontextprotocol/protocolVersion")
      rwa [hv] at h
    · cases hnested : fields.objectMember (ascii "io.modelcontextprotocol") with
      | none => rfl
      | some nested => exact JsonValue.isUtf8_stringMember (utf8_objectMember hfields hnested) _

theorem isUtf8_expectedName {body : JsonValue} (hbody : body.utf8 = true) {method expected : Bytes}
    (h : expectedName body method = some expected) : isUtf8 expected = true := by
  rw [expectedName] at h
  split_ifs at h <;> cases h <;> exact isUtf8_paramsString hbody _

theorem modernProtocolVersions_utf8 {v : Bytes} (h : v ∈ modernProtocolVersions) : isUtf8 v = true ∧ v ≠ [] := by
  simp only [modernProtocolVersions, List.map_cons, List.map_nil, List.mem_cons, List.not_mem_nil, or_false] at h
  rcases h with rfl | rfl <;> decide

def ModernRefusal.Printable (r : ModernRefusal) : Prop := isUtf8 r.message = true ∧ r.data.utf8 = true

theorem literal_printable {code : ℤ} {message : String} (h : (message.toList.all fun c => c.toNat < 128) = true) :
    ModernRefusal.Printable ⟨code, ascii message, .null⟩ :=
  ⟨isUtf8_ascii h, rfl⟩

/-- A refusal that says what the header has and what the body has. -/
theorem isUtf8_disagreement {said said' text : Bytes} {c : UInt8} (hsaid : isUtf8 said = true) (hc : c < 128)
    (hsaid' : isUtf8 (c :: said') = true) (value : Bytes) (htext : isUtf8 text = true) :
    isUtf8 (said ++ value ++ (c :: said') ++ text) = isUtf8 value := by
  rw [List.append_assoc, List.append_assoc, isUtf8_append hsaid]
  cases hvalue : isUtf8 value with
  | true => rw [isUtf8_append hvalue, isUtf8_append hsaid', htext]
  | false =>
    rw [Bool.eq_false_iff] at hvalue ⊢
    exact fun h => hvalue (isUtf8_of_append hc h)

theorem checkName_printable (req : HttpRequest) {body : JsonValue} (hbody : body.utf8 = true) {method : Bytes}
    (hmethod : isUtf8 method = true) :
    (∀ r, checkName p req body method = some r → r.Printable) ↔
      ((expectedName body method).isSome → ∀ n, req.headers (ascii "mcp-name") = some n →
        isUtf8 (decodeMcpName p n) = true) := by
  rw [checkName]
  cases hexpected : expectedName body method with
  | none => exact iff_of_true nofun nofun
  | some expected =>
    have hutf8 := isUtf8_expectedName hbody hexpected
    cases hname : req.headers (ascii "mcp-name") with
    | none =>
      refine iff_of_true ?_ nofun
      intro r hr
      cases hr
      refine ⟨?_, rfl⟩
      rw [isUtf8_append, isUtf8_literal (by decide)]
      rw [isUtf8_append (isUtf8_literal (by decide)), hmethod]
    | some raw =>
      have hmessage : isUtf8 (ascii "header and body disagree about the name: header says '" ++ decodeMcpName p raw ++
          ascii "', body says '" ++ expected ++ ascii "'") = isUtf8 (decodeMcpName p raw) := by
        rw [List.append_assoc _ expected]
        refine isUtf8_disagreement (isUtf8_literal (by decide)) (by decide) (by decide) _ ?_
        rw [isUtf8_append hutf8, isUtf8_literal (by decide)]
      dsimp only
      split_ifs with hne
      · constructor
        · intro h _ n hn
          cases hn
          exact hmessage ▸ (h _ rfl).1
        · intro h r hr
          cases hr
          exact ⟨hmessage.trans (h rfl raw rfl), rfl⟩
      · rw [not_not] at hne
        refine iff_of_true nofun ?_
        intro _ n hn
        cases hn
        rw [hne, hutf8]

theorem isUtf8_messageMethod {body : JsonValue} (hbody : body.utf8 = true) : isUtf8 (messageMethod body) = true :=
  JsonValue.isUtf8_stringMember hbody _

/-- Where the versions do not agree, no other header is compared. -/
theorem comparable_of_not_agrees {req : HttpRequest} {body : JsonValue} (h : ¬ VersionAgrees req body) :
    Comparable p req body ↔ ∀ v, req.headers (ascii "mcp-protocol-version") = some v → isUtf8 (trimCopy v) = true :=
  ⟨Comparable.version, fun hversion => ⟨hversion, fun ha => absurd ha h, fun ha => absurd ha h⟩⟩

theorem unsupported_printable (requested : Bytes) :
    ModernRefusal.Printable ⟨-32022, ascii "unsupported protocol version: " ++ requested,
      .obj [("supported", .array (modernProtocolVersions.map .string)), ("requested", .string requested)]⟩ ↔
      isUtf8 requested = true := by
  have hsupported : JsonValue.utf8Items (modernProtocolVersions.map .string) = true := by decide
  simp (disch := decide) [ModernRefusal.Printable, JsonValue.obj, JsonValue.utf8, JsonValue.utf8Members, isUtf8_ascii,
    isUtf8_append, hsupported]

/-- The comparison of the method and of the name, once the versions agree. -/
theorem agreed_printable {req : HttpRequest} {body : JsonValue} (hbody : body.utf8 = true) {pv : Bytes}
    (hversion : req.headers (ascii "mcp-protocol-version") = some pv) (hutf8 : isUtf8 (trimCopy pv) = true)
    (hagrees : VersionAgrees req body) :
    (∀ r, (match req.headers (ascii "mcp-method") with
      | none => some ⟨-32020, ascii ("missing Mcp-Method header: a modern protocol era request must " ++
          "name its method"), .null⟩
      | some mm =>
        if trimCopy mm ≠ messageMethod body then
          some ⟨-32020, ascii "header and body disagree about the method: header says '" ++ trimCopy mm ++
            ascii "', body says '" ++ messageMethod body ++ ascii "'", .null⟩
        else checkName p req body (messageMethod body)) = some r → r.Printable) ↔ Comparable p req body := by
  have hmethod := isUtf8_messageMethod hbody
  have hpv : ∀ v, req.headers (ascii "mcp-protocol-version") = some v → isUtf8 (trimCopy v) = true := by
    intro v hv
    rw [hversion] at hv
    cases hv
    exact hutf8
  cases hmm : req.headers (ascii "mcp-method") with
  | none =>
    have hnone : ¬ MethodAgrees req body := by
      rintro ⟨m, hm, -⟩
      rw [hmm] at hm
      cases hm
    refine iff_of_true ?_ ⟨hpv, fun _ m hm => (nomatch hmm.symm.trans hm), fun _ h => absurd h hnone⟩
    intro r hr
    cases hr
    exact literal_printable (all_append (all_literal (by decide)) (all_literal (by decide)))
  | some mm =>
    dsimp only
    split_ifs with hdiffer
    · have hnone : ¬ MethodAgrees req body := by
        rintro ⟨m, hm, heq⟩
        rw [hmm] at hm
        cases hm
        exact hdiffer heq
      have hmessage : isUtf8 (ascii "header and body disagree about the method: header says '" ++ trimCopy mm ++
          ascii "', body says '" ++ messageMethod body ++ ascii "'") = isUtf8 (trimCopy mm) := by
        rw [List.append_assoc _ (messageMethod body)]
        refine isUtf8_disagreement (isUtf8_literal (by decide)) (by decide) (by decide) _ ?_
        rw [isUtf8_append hmethod, isUtf8_literal (by decide)]
      constructor
      · intro h
        refine ⟨hpv, fun _ m hm => ?_, fun _ ha => absurd ha hnone⟩
        rw [hmm] at hm
        cases hm
        exact hmessage ▸ (h _ rfl).1
      · intro h r hr
        cases hr
        exact ⟨hmessage.trans (h.method hagrees mm hmm), rfl⟩
    · rw [not_not] at hdiffer
      rw [checkName_printable p req hbody hmethod]
      constructor
      · intro h
        refine ⟨hpv, fun _ m hm => ?_, fun _ _ => h⟩
        rw [hmm] at hm
        cases hm
        rw [hdiffer, hmethod]
      · exact fun h => h.name hagrees ⟨mm, hmm, hdiffer⟩

/-- The refusals can be sent exactly where the compared headers are UTF-8. -/
theorem validateModernRequest_printable (req : HttpRequest) {body : JsonValue} (hbody : body.utf8 = true) :
    (∀ r, validateModernRequest p req body (messageMethod body) = some r → r.Printable) ↔ Comparable p req body := by
  rw [validateModernRequest]
  cases hversion : req.headers (ascii "mcp-protocol-version") with
  | none =>
    have hnone : ¬ VersionAgrees req body := by
      rintro ⟨v, hv, -⟩
      rw [hversion] at hv
      cases hv
    rw [comparable_of_not_agrees p hnone, hversion]
    refine iff_of_true ?_ nofun
    intro r hr
    cases hr
    exact literal_printable (all_append (all_literal (by decide)) (all_literal (by decide)))
  | some pv =>
    -- a version that is known is ASCII
    have hknown_utf8 : trimCopy pv ∈ modernProtocolVersions → isUtf8 (trimCopy pv) = true :=
      fun h => (modernProtocolVersions_utf8 h).1
    have hagrees_iff : VersionAgrees req body ↔
        trimCopy pv ∈ modernProtocolVersions ∧ modernMetaVersion body = trimCopy pv := by
      simp [VersionAgrees, hversion]
    dsimp only
    split_ifs with hknown hempty hdiffer
    · have hmem : trimCopy pv ∉ modernProtocolVersions := by simpa using hknown
      rw [comparable_of_not_agrees p fun h => hmem (hagrees_iff.mp h).1]
      simp [hversion, unsupported_printable]
    · have hmem : trimCopy pv ∈ modernProtocolVersions := by simpa using hknown
      rw [comparable_of_not_agrees p fun h =>
        (modernProtocolVersions_utf8 hmem).2 ((hagrees_iff.mp h).2.symm.trans hempty)]
      refine iff_of_true ?_ ?_
      · intro r hr
        cases hr
        exact literal_printable (all_append (all_literal (by decide)) (all_literal (by decide)))
      · simpa [hversion] using hknown_utf8 hmem
    · have hmem : trimCopy pv ∈ modernProtocolVersions := by simpa using hknown
      rw [comparable_of_not_agrees p fun h => hdiffer (hagrees_iff.mp h).2]
      refine iff_of_true ?_ ?_
      · intro r hr
        cases hr
        refine ⟨?_, rfl⟩
        dsimp only
        rw [List.append_assoc, List.append_assoc, isUtf8_append (isUtf8_literal (by decide)),
          isUtf8_append (hknown_utf8 hmem), isUtf8_append (isUtf8_literal (by decide)), isUtf8_modernMetaVersion hbody]
      · simpa [hversion] using hknown_utf8 hmem
    · have hmem : trimCopy pv ∈ modernProtocolVersions := by simpa using hknown
      rw [not_not] at hdiffer
      exact agreed_printable p hbody hversion (hknown_utf8 hmem) (hagrees_iff.mpr ⟨hmem, hdiffer⟩)

/-- A POST whose body is a message of the modern era. -/
structure ModernMessage (req : HttpRequest) (text : Bytes) (body : JsonValue) : Prop where
  unchunked : req.chunked = false
  post : req.method = ascii "POST"
  shallow : jsonNestsTooDeep text = false
  parsed : p.parse text = some body
  isObject : body.isObject = true
  modern : isModern req body = true

theorem modernFlow_printable (req : HttpRequest) {body : JsonValue} (hbody : body.utf8 = true) :
    (modernFlow p req body (messageMethod body)).Printable ↔ Comparable p req body := by
  rw [← validateModernRequest_printable p req hbody, modernFlow]
  cases hcheck : validateModernRequest p req body (messageMethod body) with
  | some refusal =>
    dsimp only
    rw [p.dump_isSome]
    split_ifs with hdump
    · refine iff_of_true hdump ?_
      intro r hr
      cases hr
      rw [utf8_rpcErrorBody] at hdump
      exact Bool.and_eq_true_iff.mp hdump
    · refine iff_of_false id ?_
      intro h
      obtain ⟨hmessage, hdata⟩ := h refusal rfl
      exact hdump (by rw [utf8_rpcErrorBody, hmessage, hdata]; rfl)
  | none =>
    refine iff_of_true ?_ nofun
    dsimp only
    split_ifs
    · refine (utf8_rpcErrorBody ..).trans ?_
      rw [isUtf8_append (isUtf8_literal (by decide)), isUtf8_messageMethod hbody]
      rfl
    all_goals trivial

theorem rpcErrorBody_printable {status : ℕ} {code : ℤ} {message : String}
    (h : (message.toList.all fun c => c.toNat < 128) = true) :
    Flow.Printable (.answered (.reply status none (some (rpcErrorBody code (ascii message) .null)))) := by
  refine (utf8_rpcErrorBody ..).trans ?_
  rw [isUtf8_ascii h]
  rfl

theorem sendJsonError_flow {status : ℕ} {message : String} (h : (message.toList.all fun c => c.toNat < 128) = true) :
    Flow.Printable (.answered (sendJsonError status message)) := @sendJsonError_printable status message h

theorem postFlow_printable (modernEraOnly : Bool) {req : HttpRequest} (text : Bytes) (hchunked : req.chunked = false)
    (hpost : req.method = ascii "POST") :
    (postFlow p modernEraOnly req text).Printable ↔ ∀ body, ModernMessage p req text body → Comparable p req body := by
  rw [postFlow]
  by_cases hdeep : jsonNestsTooDeep text = true
  · rw [if_pos hdeep]
    exact iff_of_true trivial fun body h => absurd (h.shallow.symm.trans hdeep) Bool.false_ne_true
  rw [if_neg hdeep]
  rw [Bool.not_eq_true] at hdeep
  cases hparse : p.parse text with
  | none =>
    exact iff_of_true (rpcErrorBody_printable (all_literal (by decide))) fun body h => (nomatch hparse.symm.trans h.parsed)
  | some body =>
    have hne : text ≠ [] := by
      rintro rfl
      rw [p.parse_nil] at hparse
      cases hparse
    have hmessage : (∀ body', ModernMessage p req text body' → Comparable p req body') ↔
        (body.isObject = true → isModern req body = true → Comparable p req body) := by
      constructor
      · exact fun h hobject hmodern => h body ⟨hchunked, hpost, hdeep, hparse, hobject, hmodern⟩
      · intro h body' hbody'
        obtain rfl : body' = body := Option.some.inj (hbody'.parsed.symm.trans hparse)
        exact h hbody'.isObject hbody'.modern
    rw [hmessage]
    dsimp only
    by_cases hobject : body.isObject = true
    · rw [if_neg (by simp [hobject, hne])]
      cases hmodern : isModern req body with
      | true =>
        rw [if_neg (by simp), if_pos rfl, modernFlow_printable p req (p.parse_utf8 hparse)]
        exact ⟨fun h _ _ => h, fun h => h hobject rfl⟩
      | false =>
        refine iff_of_true ?_ nofun
        simp only [Bool.false_eq_true, if_false]
        split_ifs
        · exact rpcErrorBody_printable (all_append (all_append (all_literal (by decide)) (all_literal (by decide))) (all_literal (by decide)))
        · exact sendJsonError_flow (all_literal (by decide))
        all_goals trivial
    · rw [if_pos (.inl (by simpa using hobject))]
      exact iff_of_true (rpcErrorBody_printable (all_literal (by decide))) fun h => absurd h hobject

theorem flow_printable (modernEraOnly : Bool) (req : HttpRequest) (text : Bytes) :
    (flow p modernEraOnly req text).Printable ↔ ∀ body, ModernMessage p req text body → Comparable p req body := by
  rw [flow]
  cases hchunked : req.chunked with
  | true =>
    rw [if_pos rfl]
    exact iff_of_true (sendJsonError_flow (all_literal (by decide))) fun body h => (nomatch hchunked.symm.trans h.unchunked)
  | false =>
    rw [if_neg Bool.false_ne_true]
    by_cases hpost : req.method = ascii "POST"
    · have hget : ¬ (req.method = ascii "GET" ∨ req.method = ascii "DELETE") := by
        rw [hpost]
        decide
      rw [if_neg hget, if_neg (not_not_intro hpost)]
      exact postFlow_printable p modernEraOnly text hchunked hpost
    · refine iff_of_true ?_ fun body h => absurd h.post hpost
      split_ifs <;> first | exact sendJsonError_flow (all_literal (by decide)) | trivial

/-! ### A connection that returns -/

/-- A request on the path of the server, which is not one of the two open endpoints. -/
structure Listener.Receives (l : Listener) (s : Bytes) (req : HttpRequest) (rest : Bytes) : Prop where
  head : readRequestHead s = .ok (req, rest)
  running : l.signalled = false
  healthz : req.path ≠ ascii "/healthz"
  readyz : req.path ≠ ascii "/readyz"
  path : req.path = l.path

/-- What a request says back to its peer is UTF-8, and the readiness probe answers. -/
structure Harmless (s : Bytes) : Prop where
  probe : ∀ req rest, readRequestHead s = .ok (req, rest) → l.signalled = false → req.path = ascii "/readyz" →
    l.readinessProbe.isOk = true
  origin : ∀ req rest, l.Receives s req rest → originAllowed req.origin l.allowedOrigins = false →
    isUtf8 req.origin = true
  message : ∀ req rest text body, l.Receives s req rest → originAllowed req.origin l.allowedOrigins = true →
    (authenticate p l req).ok = true → readRequestBody req rest = some text → ModernMessage p req text body →
    Comparable p req body

theorem unauthorized_ne_threw (presented : Bytes) : unauthorized p presented ≠ .threw := by
  rw [unauthorized, deliver_ne_threw]
  intro j hj
  cases hj
  split_ifs <;> decide

theorem utf8_originRefused (origin : Bytes) : (originRefused origin).utf8 = isUtf8 origin := by
  have hrefused : ascii " is not a loopback origin and is not listed in FSQL_MCP_ALLOWED_ORIGINS" =
      32 :: ascii "is not a loopback origin and is not listed in FSQL_MCP_ALLOWED_ORIGINS" := by
    rw [ascii_ofList, ascii_ofList]
    rfl
  rw [originRefused, utf8_rpcErrorBody, isUtf8_append (isUtf8_literal (by decide)), hrefused]
  cases horigin : isUtf8 origin with
  | true =>
    rw [isUtf8_append horigin, ← hrefused, isUtf8_literal (by decide)]
    rfl
  | false =>
    rw [Bool.eq_false_iff] at horigin ⊢
    exact fun h => horigin (isUtf8_of_append (by decide) (Bool.and_eq_true_iff.mp h).1)

/-- The body of a modern message is read, and of any other only what is no message is left. -/
theorem bodyOf_ok {req : HttpRequest} {rest text : Bytes} {body : JsonValue} (hm : ModernMessage p req text body) :
    bodyOf p req rest = .ok text ↔ readRequestBody req rest = some text := by
  rw [bodyOf, if_neg (by simp [hm.unchunked, hm.post])]
  by_cases hcap : bodyMax < req.contentLength
  · have hnone : readRequestBody req rest = none := by
      rw [readRequestBody, if_pos (Nat.zero_lt_of_lt hcap), if_pos (.inl hcap)]
    simp [hcap, hnone]
  · rw [if_neg hcap]
    cases readRequestBody req rest <;> simp

theorem bodyOf_error_ne_threw {req : HttpRequest} {rest : Bytes} {outcome : Outcome}
    (h : bodyOf p req rest = .error outcome) : outcome ≠ .threw := by
  rw [bodyOf] at h
  split_ifs at h
  · cases h
    exact ((sendStatus 413).deliver_ne_threw p).mpr trivial
  · cases hread : readRequestBody req rest with
    | none =>
      rw [hread] at h
      cases h
      nofun
    | some text =>
      rw [hread] at h
      cases h

theorem serveRequest_returns_iff (req : HttpRequest) (rest : Bytes) :
    (serveRequest p l w t req rest).2 ≠ .threw ↔
      (originAllowed req.origin l.allowedOrigins = false → isUtf8 req.origin = true) ∧
        (originAllowed req.origin l.allowedOrigins = true → (authenticate p l req).ok = true → ∀ text body,
          readRequestBody req rest = some text → ModernMessage p req text body → Comparable p req body) := by
  rw [serveRequest]
  cases horigin : originAllowed req.origin l.allowedOrigins with
  | false =>
    rw [if_pos (by decide)]
    dsimp only
    rw [deliver_ne_threw]
    simp [utf8_originRefused]
  | true =>
    rw [if_neg (by decide)]
    simp only [Bool.true_eq_false, false_imp_iff, true_and, forall_const]
    cases hok : (authenticate p l req).ok with
    | false =>
      rw [if_pos (by decide)]
      exact iff_of_true (unauthorized_ne_threw p _) nofun
    | true =>
      rw [if_neg (by decide)]
      simp only [forall_const]
      cases hbody : bodyOf p req rest with
      | error outcome =>
        refine iff_of_true (bodyOf_error_ne_threw p hbody) ?_
        intro text body hread hm
        rw [← bodyOf_ok p hm, hbody] at hread
        cases hread
      | ok text =>
        dsimp only
        rw [Answer.deliver_ne_threw, serve_printable, flow_printable]
        constructor
        · intro h text' body hread hm
          rw [← bodyOf_ok p hm, hbody] at hread
          cases hread
          exact h body hm
        · exact fun h body hm => h text body ((bodyOf_ok p hm).mp hbody) hm

theorem harmless_iff {s : Bytes} {req : HttpRequest} {rest : Bytes} (hhead : readRequestHead s = .ok (req, rest))
    (hrunning : l.signalled = false) :
    Harmless p l s ↔ (req.path = ascii "/readyz" → l.readinessProbe.isOk = true) ∧
      (l.Receives s req rest → (serveRequest p l w t req rest).2 ≠ .threw) := by
  have hreq : ∀ req' rest', readRequestHead s = .ok (req', rest') → req' = req ∧ rest' = rest := by
    intro req' rest' h
    cases hhead.symm.trans h
    exact ⟨rfl, rfl⟩
  constructor
  · intro h
    refine ⟨h.probe req rest hhead hrunning, fun hr => ?_⟩
    rw [serveRequest_returns_iff]
    exact ⟨h.origin req rest hr, fun ho hok text body => h.message req rest text body hr ho hok⟩
  · rintro ⟨hprobe, hserve⟩
    simp only [serveRequest_returns_iff] at hserve
    constructor
    · intro req' rest' h _
      obtain ⟨rfl, rfl⟩ := hreq req' rest' h
      exact hprobe
    · intro req' rest' h
      obtain ⟨rfl, rfl⟩ := hreq req' rest' h.head
      exact (hserve h).1
    · intro req' rest' text body h ho hok
      obtain ⟨rfl, rfl⟩ := hreq req' rest' h.head
      exact (hserve h).2 ho hok text body

/-- `serveConnection` returns exactly where the request says nothing to repeat that is no
UTF-8, whatever the registry holds. -/
theorem serveConnection_returns_iff (s : Bytes) : (serveConnection p l w t s).2 ≠ .threw ↔ Harmless p l s := by
  rw [serveConnection]
  cases hhead : readRequestHead s with
  | error e =>
    have hharmless : Harmless p l s :=
      ⟨fun _ _ h => (nomatch hhead.symm.trans h), fun _ _ h => (nomatch hhead.symm.trans h.head),
        fun _ _ _ _ h => (nomatch hhead.symm.trans h.head)⟩
    cases e with
    | closed => exact iff_of_true nofun hharmless
    | malformed => exact iff_of_true (((sendStatus 400).deliver_ne_threw p).mpr trivial) hharmless
  | ok r =>
    obtain ⟨req, rest⟩ := r
    cases hsignalled : l.signalled with
    | true =>
      exact iff_of_true nofun ⟨fun _ _ _ h => (nomatch hsignalled.symm.trans h),
        fun _ _ h => (nomatch hsignalled.symm.trans h.running), fun _ _ _ _ h => (nomatch hsignalled.symm.trans h.running)⟩
    | false =>
      rw [harmless_iff p l w t hhead hsignalled]
      dsimp only
      rw [if_neg Bool.false_ne_true, handleUnauthenticatedGet]
      by_cases hhealthz : req.path = ascii "/healthz"
      · rw [if_pos hhealthz]
        refine iff_of_true (((sendStatus 200).deliver_ne_threw p).mpr trivial) ⟨?_, fun h => absurd hhealthz h.healthz⟩
        rw [hhealthz]
        exact fun h => absurd h (by decide)
      rw [if_neg hhealthz]
      by_cases hreadyz : req.path = ascii "/readyz"
      · rw [if_pos hreadyz]
        have hother : l.Receives s req rest → (serveRequest p l w t req rest).2 ≠ .threw :=
          fun h => absurd hreadyz h.readyz
        cases l.readinessProbe with
        | ok ready => exact iff_of_true (((sendStatus _).deliver_ne_threw p).mpr trivial) ⟨fun _ => rfl, hother⟩
        | error e => exact iff_of_false (fun h => h rfl) fun h => (nomatch h.1 hreadyz)
      rw [if_neg hreadyz]
      by_cases hpath : req.path = l.path
      · rw [if_neg (not_not_intro hpath)]
        exact ⟨fun h => ⟨fun hr => absurd hr hreadyz, fun _ => h⟩,
          fun h => h.2 ⟨hhead, hsignalled, hhealthz, hreadyz, hpath⟩⟩
      · rw [if_pos hpath]
        exact iff_of_true (((sendStatus 404).deliver_ne_threw p).mpr trivial)
          ⟨fun hr => absurd hr hreadyz, fun h => absurd h.path hpath⟩

/-- A listener with a deployment token. -/
def guarded : Listener where
  readinessProbe := .ok true
  tokenConfig := ⟨ascii "t", false, false⟩
  tokens := { store := { token := ascii "t" }, files := ⟨none, none⟩ }
  seen := ⟨none, none⟩
  time := 0
  hash := fun _ => Block.zero 32

/-- Servers that no request reaches. -/
def unreached : Surroundings where
  server := fun _ => { tools := [] }
  handling := fun _ => ⟨fun _ => none, fun _ _ => .threw, false, fun _ _ => .error .other⟩

/-- A request without a credential, whose origin is one byte that is no UTF-8. -/
def strangeOrigin : Bytes := ascii "GET /mcp\nOrigin: " ++ [255, 10, 10]

theorem strangeOrigin_threw :
    (serveConnection (.oneDocument [] .null rfl) guarded unreached {} strangeOrigin).2 = .threw := by decide +kernel

/-! ### The server -/

/-- The server after some connections; `none` once the process has ended. -/
def serveConnections : Transport → List (Listener × Surroundings × Bytes) → Option Transport
  | t, [] => some t
  | t, (l, w, s) :: more =>
    if (serveConnection p l w t s).2 = .threw then none
    else serveConnections (serveConnection p l w t s).1 more

/-- The process outlives the connections exactly where each of them is harmless. -/
theorem serveConnections_isSome_iff (connections : List (Listener × Surroundings × Bytes)) (t : Transport) :
    (serveConnections p t connections).isSome = true ↔ ∀ c ∈ connections, Harmless p c.1 c.2.2 := by
  induction connections generalizing t with
  | nil => simp [serveConnections]
  | cons c more ih =>
    obtain ⟨l, w, s⟩ := c
    have hreturns := serveConnection_returns_iff p l w t s
    rw [serveConnections, List.forall_mem_cons, ← hreturns]
    by_cases hthrew : (serveConnection p l w t s).2 = .threw
    · simp [hthrew]
    · rw [if_neg hthrew, ih]
      simp [hthrew]

end FractalSQL.Mcp.Http
