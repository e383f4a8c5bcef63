import FractalSQL.Lib.JsonValue

/-!
# The JSON-RPC dispatch core

`JsonRpcServer::handleLine`: a line is parsed, its shape is checked, and its method is
answered. A tool call passes the server's refusals, the concurrency gate and the tool
itself before it has a result.
-/
namespace FractalSQL.Mcp.Rpc
open Lib

inductive ErrorClass where
  | schema
  | engine
  | connectivity
  | cancelled
  | serverInternal
deriving DecidableEq

/-- `errorClassName`. -/
def ErrorClass.name : ErrorClass → String
  | .schema => "schema"
  | .engine => "engine"
  | .connectivity => "connectivity"
  | .cancelled => "cancelled"
  | .serverInternal => "server"

structure ToolError where
  errorClass : ErrorClass
  message : Bytes

/-- The client never sees the detail of an internal error. -/
def ToolError.clientMessage (e : ToolError) : Bytes :=
  if e.errorClass = .serverInternal then
    ascii "internal server error (server-side log carries the detail); retry later or alert the operator"
  else e.message

def ToolError.clientPayload (e : ToolError) : JsonValue :=
  .obj [("error_class", .text e.errorClass.name), ("message", .string e.clientMessage)]

inductive Thrown where
  | tool (e : ToolError)
  /-- Any other exception. -/
  | other

structure ToolSpec where
  name : Bytes
  destructiveHint : Bool

inductive ProtocolEra where
  | legacy
  | modern
deriving DecidableEq

structure CallOptions where
  era : ProtocolEra := .legacy
  contextId : Bytes := []
  /-- The tools the credential is limited to. -/
  toolAllow : Option (List Bytes) := none

structure JsonRpcServer where
  tools : List ToolSpec
  readOnlyMode : Bool := false
  modernOnly : Bool := false
  /-- `FSQL_MCP_ALLOW_AUTO_EXECUTE`. -/
  autoExecuteAllowed : Bool := false
  shuttingDown : Bool := false

/-- `byName_`, where the last of several tools with one name stands. -/
def JsonRpcServer.byName (s : JsonRpcServer) (name : Bytes) : Option ToolSpec :=
  s.tools.reverse.find? fun t => t.name = name

inductive RunOutcome where
  | returned (result : JsonValue)
  | toolError (e : ToolError)
  | threw

/-- What a call meets: the gate, the tool, a cancel by the time the tool is done, and the
handlers of the methods that are no tool call. -/
structure Handling where
  acquire : ToolSpec → Option ToolError
  runTool : ToolSpec → JsonValue → RunOutcome
  cancelledAfter : Bool
  handle : Bytes → JsonValue → Except Thrown JsonValue

def makeError (id : JsonValue) (code : ℤ) (message : Bytes) : JsonValue :=
  .obj [("jsonrpc", .text "2.0"), ("id", id), ("error", .obj [("code", .int code), ("message", .string message)])]

def makeResult (id result : JsonValue) : JsonValue :=
  .obj [("jsonrpc", .text "2.0"), ("id", id), ("result", result)]

/-- `kMaxJsonDepth`. -/
def maxJsonDepth : ℕ := 128

def nestsFrom : Bool → ℕ → Bytes → Bool
  | _, _, [] => false
  | true, _, [_] => false
  | true, depth, c :: d :: s =>
    if c = 92 then nestsFrom true depth s else nestsFrom (c ≠ 34) depth (d :: s)
  | false, depth, c :: s =>
    if c = 34 then nestsFrom true depth s
    else if c = 91 ∨ c = 123 then maxJsonDepth < depth + 1 || nestsFrom false (depth + 1) s
    else if c = 93 ∨ c = 125 then nestsFrom false (depth - 1) s
    else nestsFrom false depth s

def jsonNestsTooDeep (s : Bytes) : Bool := nestsFrom false 0 s

def schemaError (message : Bytes) : Except Thrown JsonValue := .error (.tool ⟨.schema, message⟩)

def takesAutoExecute (name : Bytes) : Bool :=
  name = ascii "fractal_sql_agent" || name = ascii "fractal_agent_data_analyst"

variable (lib : JsonLibrary) (srv : JsonRpcServer) (h : Handling) (opts : CallOptions)

/-- The result of a tool call, with the handle of its context. -/
def toolResult (content : Bytes) (isError : Bool) (structured : JsonValue) : JsonValue :=
  let out := JsonValue.obj
    [("content", .array [.obj [("type", .text "text"), ("text", .string content)]]), ("isError", .bool isError),
      ("structuredContent", structured)]
  if opts.contextId = [] then out else out.set (ascii "context_id") (.string opts.contextId)

/-- The end of `handleToolsCall`, once the tool is done. -/
def finishCall (outcome : RunOutcome) : Except Thrown JsonValue :=
  match outcome with
  | .threw => .error .other
  | .toolError e =>
    if h.cancelledAfter then .error (.tool ⟨.cancelled, ascii "call was cancelled; result discarded"⟩)
    else .ok (toolResult opts e.clientMessage true e.clientPayload)
  | .returned result =>
    if h.cancelledAfter then .error (.tool ⟨.cancelled, ascii "call was cancelled; result discarded"⟩)
    else
      match lib.dump result with
      | some text => .ok (toolResult opts text false result)
      | none => .error .other

def handleToolsCall (params : JsonValue) : Except Thrown JsonValue :=
  let name := (params.stringMember (ascii "name")).getD []
  match srv.byName name with
  | none => schemaError (ascii "unknown tool '" ++ name ++ ascii "' (see tools/list)")
  | some spec =>
    if srv.readOnlyMode && spec.destructiveHint then
      schemaError (ascii "server is running in read-only mode (FSQL_MCP_READ_ONLY=true); '" ++ name ++
        ascii "' is destructive and was refused before reaching the engine")
    else if opts.toolAllow.any fun allow => !allow.contains name then
      schemaError (ascii "tool '" ++ name ++ ascii ("' is not in this client's tool allowlist; the credential that " ++
        "made this request may only call: ") ++ (ascii ", ").intercalate (opts.toolAllow.getD []))
    else
      let args := (params.find (ascii "arguments")).getD (.obj [])
      if !args.isObject then schemaError (ascii "arguments must be a JSON object")
      else
        -- the context handle is the transport's, not the engine's
        let args := args.erase (ascii "context_id")
        if takesAutoExecute spec.name && (args.find (ascii "auto_execute")).bind JsonValue.asBool == some true &&
            !srv.autoExecuteAllowed then
          schemaError (ascii ("auto_execute is refused: this server runs with FSQL_MCP_ALLOW_AUTO_EXECUTE unset, " ++
            "so a generated statement is never executed without an operator turning that switch on " ++
            "(FSQL_MCP_ALLOW_AUTO_EXECUTE=true). Generate the SQL and run it yourself instead."))
        else
          match h.acquire spec with
          | some e => .error (.tool e)
          | none => finishCall lib h opts (h.runTool spec args)

/-- The methods that are answered. -/
def methods : List Bytes :=
  ["initialize", "server/discover", "ping", "tools/list", "tools/call", "resources/list", "resources/read",
    "resources/templates/list", "prompts/list", "prompts/get"].map ascii

/-- `listResult`. -/
def listMethods : List Bytes :=
  ["tools/list", "resources/list", "resources/read", "resources/templates/list", "prompts/list"].map ascii

/-- The modern era's envelope. -/
def envelope (method : Bytes) (result : JsonValue) : JsonValue :=
  if opts.era = .modern then
    let result := result.set (ascii "resultType") (.text "complete")
    if listMethods.contains method then
      (result.set (ascii "ttlMs") (.int 0)).set (ascii "cacheScope") (.text "session")
    else result
  else result

def internalServerError : Bytes :=
  ascii "internal server error (server-side log carries the detail); retry later"

/-- The answer to a request that has an id. -/
def answer (req id : JsonValue) (method : Bytes) : JsonValue :=
  let params := (req.find (ascii "params")).getD (.obj [])
  if srv.shuttingDown then makeError id (-32000) (ascii "server shutting down")
  else if method = ascii "initialize" ∧ srv.modernOnly then
    makeError id (-32000) (ascii ("this server speaks the modern protocol era only (FSQL_MCP_PROTOCOL_ERA=modern); " ++
      "the initialize handshake is part of the legacy era and is refused. Supported versions: 2025-11-25, 2026-07-28"))
  else if !methods.contains method then makeError id (-32601) (ascii "method not found: " ++ method)
  else
    let result := if method = ascii "tools/call" then handleToolsCall lib srv h opts params
      else if method = ascii "ping" then .ok (.obj [])
      else h.handle method params
    match result with
    | .ok result =>
      let reply := makeResult id (envelope opts method result)
      if (lib.dump reply).isSome then reply else makeError id (-32000) internalServerError
    | .error (.tool e) => makeError id (if e.errorClass = .schema then -32602 else -32000) e.message
    | .error .other => makeError id (-32000) internalServerError

/-- `handleLineImpl`; a notification has no reply. -/
def handleLineImpl (line : Bytes) : Option JsonValue :=
  if jsonNestsTooDeep line then some (makeError .null (-32700) (ascii "parse error: nesting too deep"))
  else
    match lib.parse line with
    | none => some (makeError .null (-32700) (ascii "parse error"))
    | some req =>
      let id := (req.find (ascii "id")).getD .null
      if !req.isObject then some (makeError .null (-32600) (ascii "invalid request (not a JSON object)"))
      else if (req.find (ascii "jsonrpc")).isNone ∨ (req.find (ascii "method")).isNone then
        some (makeError id (-32600) (ascii "invalid request"))
      else
        match req.stringMember (ascii "method") with
        | none => some (makeError id (-32600) (ascii "invalid request (method must be a string)"))
        | some method =>
          if (req.find (ascii "params")).any fun p => !p.isObject then
            some (makeError id (-32602) (ascii "invalid params (must be a JSON object)"))
          else if method = ascii "notifications/cancelled" ∨ (req.find (ascii "id")).isNone then none
          else some (answer lib srv h opts req id method)

/-- `handleLine`: nothing escapes it. -/
def handleLine (line : Bytes) : Option JsonValue :=
  (handleLineImpl lib srv h opts line).map fun reply =>
    if (lib.dump reply).isSome then reply
    else makeError .null (-32603) (ascii "internal error handling the request")

end FractalSQL.Mcp.Rpc
