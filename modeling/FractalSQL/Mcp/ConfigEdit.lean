import FractalSQL.Mcp.ConfFile

/-!
# The tools that edit the configuration

`fractalsql_set_config` replaces one key of the daemon's file, `fractalsql_configure_reasoning`
several. Both say in the log what they changed.
-/
namespace FractalSQL.Mcp.Admin
open Lib Rpc

/-! ### The config-writes switch -/

inductive ConfigWritesMode where
  | off
  | safe
  | all
deriving DecidableEq

/-- `configWritesModeName`. -/
def ConfigWritesMode.name : ConfigWritesMode → String
  | .off => "off"
  | .safe => "safe"
  | .all => "all"

def isSafeConfigKey (key : Bytes) : Bool := (["reasoning_model", "embed_model", "think"].map ascii).contains key

def configWriteAllowed (mode : ConfigWritesMode) (key : Bytes) : Bool :=
  match mode with
  | .off => false
  | .all => true
  | .safe => isSafeConfigKey key

/-! ### Log lines -/

def configChange (key oldValueRedacted newValueRedacted : Bytes) : JsonValue :=
  .obj [("event", .text "config_change"), ("key", .string key), ("old", .string oldValueRedacted),
    ("new", .string newValueRedacted)]

/-- What a value is logged as. -/
def redacted (key value : Bytes) : Bytes := if isSecretKey key then ascii "<redacted>" else value

/-- What an edit leaves: its log lines, the text it put in the file's place, its result. -/
structure Edit where
  lines : List JsonValue
  written : Option Bytes
  result : Except ToolError JsonValue

def Edit.refused (e : ToolError) : Edit := ⟨[], none, .error e⟩

section Handlers
variable (mode : ConfigWritesMode) (env : EditEnv) (client : Bytes)

/-! ### The refusal -/

def currentConfValue (key : Bytes) : Bytes :=
  match env.readConf with
  | .error _ => ascii "(unavailable)"
  | .ok conf => ((conf.lookup key).map (redacted key)).getD (ascii "(unset)")

def configWriteRefusalText (key current : Bytes) : Bytes :=
  ascii "config write refused: '" ++ key ++ ascii "' may not be written through this tool while FSQL_MCP_CONFIG_WRITES=" ++
    ascii mode.name ++ ascii (". The safe set is the " ++
    "chat model name (reasoning_model), the embedding model name (embed_model) and the think mode " ++
    "(think); the endpoint URLs, the plaintext flag, the plugin path, the token and the " ++
    "enterprise keys are not in it. '") ++ key ++ ascii "' is currently set to '" ++ current ++ ascii ("'. Set it in " ++
    "the daemon's own configuration file (fractalsqld.conf, the path FSQLCTL_CONF points at) or in " ++
    "the operator's environment instead of through this tool, or run the server with " ++
    "FSQL_MCP_CONFIG_WRITES=all if you really want this tool to write it.")

/-- The line of `refuseConfigWrite`. -/
def configWriteRefused (key : Bytes) : JsonValue :=
  .obj [("event", .text "config_write_refused"), ("key", .string key), ("mode", .text mode.name),
    ("client", .string client)]

def refuseConfigWrite (key : Bytes) : Edit :=
  ⟨[configWriteRefused mode client key], none,
    .error ⟨.schema, configWriteRefusalText mode key (currentConfValue env key)⟩⟩

/-! ### The reload -/

def reloadAndReport : JsonValue :=
  let out := JsonValue.obj [("changed_keys", .array [])]
  match env.refusal with
  | none =>
    (out.set (ascii "reloaded") (.bool true)).set (ascii "outcome")
      (.text ("reloaded into the daemon; the changed tier's NEXT call picks the new " ++
        "configuration up (a reload never performs a plugin/library load itself)"))
  | some message =>
    (out.set (ascii "reloaded") (.bool false)).set (ascii "outcome")
      (.string (ascii "the config file was updated, but the daemon did NOT accept the reload: " ++ message ++
        ascii " -- the daemon kept its previous configuration (all-or-nothing)"))

/-! ### `fractalsql_set_config` -/

def operatorText (key : Bytes) : Bytes :=
  ascii "'" ++ key ++ ascii ("' is operator territory: enabling/disabling the enterprise tier or touching " ++
    "its ledger/signature posture is taken directly against the daemon's config by the " ++
    "operator, never from an MCP tool call (the ledger HMAC key is likewise never read " ++
    "back or written through this surface)")

def notEditableText (key : Bytes) : Bytes :=
  ascii "'" ++ key ++ ascii ("' is not one of this surface's editable keys (reasoning_plugin, reasoning_url, " ++
    "reasoning_token, reasoning_model, reasoning_allow_plaintext, embed_url, embed_model, think, " ++
    "think_provider, think_native_url, think_num_ctx, t2s_max_attempts, t2s_allowed_statements, " ++
    "t2s_use_review); socket_path/hmac_key_file are startup-only by design, and the daemon " ++
    "would refuse them at reload anyway")

/-- The value is a number from 1 to `hi`. -/
def numberIn (hi : ℤ) (value : Bytes) : Bool :=
  match Provider.strtol (Provider.cstr value) with
  | some (n, []) => 1 ≤ n ∧ n ≤ hi
  | _ => false

/-- What a value is written as. -/
def storedValue (key value : Bytes) : Bytes :=
  if key = ascii "t2s_use_review" then
    if value ≠ ascii "0" ∧ value ≠ ascii "false" ∧ value ≠ ascii "no" then ascii "1" else ascii "0"
  else value

/-- Why a value is refused before the file is read. -/
def valueProblem (key value : Bytes) : Option Bytes :=
  if key = ascii "t2s_max_attempts" ∧ numberIn 10 value = false then
    some (ascii "t2s_max_attempts must be an integer in 1-10 (the daemon rejects out-of-range values by name)")
  else if key = ascii "t2s_allowed_statements" ∧ value ≠ ascii "select" ∧ value ≠ ascii "select_insert_update" then
    some (ascii ("t2s_allowed_statements must be 'select' or 'select_insert_update' (the daemon rejects other values)"))
  else if key = ascii "think_num_ctx" ∧ numberIn 10000000 value = false then
    some (ascii "think_num_ctx must be an integer in 1-10000000")
  else
    match pathProblem key (storedValue key value) with
    | some problem =>
      some (ascii "'" ++ key ++ ascii "' " ++ ascii problem ++ ascii (" (the daemon refuses such a path at load/reload " ++
        "time as well -- a relative path resolves differently depending on how the " ++
        "daemon was started, and a '..' segment makes the path's meaning depend on " ++
        "the operator's directory tree)"))
    | none =>
      if (storedValue key value).all isSpace then some (ascii "empty value: the daemon's config refuses empty values")
      else none

/-- The end of a `fractalsql_set_config` call that nothing refused. -/
def changeKey (key value : Bytes) : Edit :=
  match env.readConf with
  | .error e => .refused e
  | .ok confOld =>
    match env.writeConf (confOld.assign key value) with
    | .error e => .refused e
    | .ok text =>
      let oldR := redacted key ((confOld.lookup key).getD [])
      let newR := redacted key value
      let outcome := ((((reloadAndReport env).set (ascii "old_value") (.string oldR)).set (ascii "new_value")
        (.string newR)).set (ascii "config_path") (.string env.path)).set (ascii "changed_keys") (.array [.string key])
      ⟨[configChange key oldR newR], some text, .ok outcome⟩

def setConfig (key value : Bytes) : Edit :=
  if isOperatorOnlyKey key then .refused ⟨.schema, operatorText key⟩
  else if !isEditableKey key then .refused ⟨.schema, notEditableText key⟩
  else if !configWriteAllowed mode key then refuseConfigWrite mode env client key
  else
    match valueProblem key value with
    | some message => .refused ⟨.schema, message⟩
    | none => changeKey env key (storedValue key value)

/-! ### `fractalsql_configure_reasoning` -/

def kMapping : List (String × String) :=
  [("provider_url", "reasoning_url"), ("embed_url", "embed_url"), ("model", "reasoning_model"),
    ("embed_model", "embed_model"), ("allow_plaintext", "reasoning_allow_plaintext"), ("think_mode", "think")]

/-- The value of an argument, as the file stores it. -/
def argumentText (toolKey : String) (v : JsonValue) : Bytes :=
  if toolKey = "allow_plaintext" then if v.asBool = some true then ascii "1" else ascii "0"
  else v.asString.getD []

/-- The changes that are asked for. -/
def requested (a : JsonValue) : Conf :=
  kMapping.foldl
    (fun changes m =>
      match a.find (ascii m.1) with
      | none | some .null => changes
      | some v => changes.assign (ascii m.2) (argumentText m.1 v))
    []

def configureReasoning (a : JsonValue) : Edit :=
  let changes := requested a
  if changes = [] then
    .refused ⟨.schema, ascii ("nothing to configure: pass at least one of provider_url/embed_url/model/" ++
      "embed_model/allow_plaintext/think_mode")⟩
  else
    match env.readConf with
    | .error e => .refused e
    | .ok confOld =>
      match changes.find? fun e => !configWriteAllowed mode e.1 with
      | some e => refuseConfigWrite mode env client e.1
      | none =>
        let old := fun key => redacted key ((confOld.lookup key).getD [])
        let lines := changes.map fun e => configChange e.1 (old e.1) (redacted e.1 e.2)
        match env.writeConf (changes.foldl (fun conf e => conf.assign e.1 e.2) confOld) with
        | .error e => ⟨lines, none, .error e⟩
        | .ok text =>
          let outcome := (((reloadAndReport env).set (ascii "config_path") (.string env.path)).set
            (ascii "changed_keys") (.array (changes.map fun e => .string e.1))).set (ascii "old_new")
            (.object (changes.map fun e =>
              (e.1, .obj [("old", .string (old e.1)), ("new", .string (redacted e.1 e.2))])))
          ⟨lines, some text, .ok outcome⟩

end Handlers

end FractalSQL.Mcp.Admin
