import FractalSQL.Mcp.ToolArguments
import FractalSQL.Provider.Config

/-!
# The daemon's configuration file, as the admin tools edit it

The file is read into a map from keys to values, and written back one key a line.
-/
namespace FractalSQL.Mcp.Admin
open Lib Rpc

/-! ### Keys -/

def kSecretKeys : List Bytes := ["reasoning_token", "enterprise_ledger_key", "http_token"].map ascii

def kOperatorOnlyKeys : List Bytes :=
  ["enterprise_lib", "enterprise_ledger_path", "enterprise_ledger_key", "enterprise_require_signature"].map ascii

def kEditableKeys : List Bytes :=
  ["reasoning_plugin", "reasoning_url", "reasoning_token", "reasoning_model", "reasoning_allow_plaintext", "embed_url",
    "embed_model", "think", "think_provider", "think_native_url", "think_num_ctx", "t2s_max_attempts",
    "t2s_allowed_statements", "t2s_use_review"].map ascii

def kPathKeys : List Bytes := ["reasoning_plugin", "enterprise_lib", "enterprise_ledger_path"].map ascii

def isSecretKey (key : Bytes) : Bool := kSecretKeys.contains key
def isOperatorOnlyKey (key : Bytes) : Bool := kOperatorOnlyKeys.contains key
def isEditableKey (key : Bytes) : Bool := kEditableKeys.contains key
def isPathKey (key : Bytes) : Bool := kPathKeys.contains key

/-! ### Shapes -/

def isLineBreak (c : UInt8) : Bool := c = 10 ∨ c = 13 ∨ c = 0

def lineBreakProblem (s : Bytes) : Option String :=
  (s.find? isLineBreak).map fun c =>
    if c = 10 then "contains a line feed"
    else if c = 13 then "contains a carriage return"
    else "contains a NUL byte"

def pathProblem (key value : Bytes) : Option String :=
  if !isPathKey key then none
  else if value = [] then some "a path value must not be empty"
  else if value.head? ≠ some 47 ∨ (value.zip value.tail).contains (46, 46) then
    some "must be an absolute path with no '..' segments"
  else none

/-! ### Reading -/

/-- The map, its keys in order. -/
abbrev Conf := List (Bytes × Bytes)

def Conf.lookup (conf : Conf) (key : Bytes) : Option Bytes := (conf.find? fun e => e.1 = key).map Prod.snd

def Conf.insert (e : Bytes × Bytes) : Conf → Conf
  | [] => [e]
  | e' :: conf => if e.1 < e'.1 then e :: e' :: conf else e' :: Conf.insert e conf

/-- `conf[key] = value`. -/
def Conf.assign (conf : Conf) (key value : Bytes) : Conf :=
  if conf.any fun e => e.1 = key then conf.map fun e => if e.1 = key then (key, value) else e
  else Conf.insert (key, value) conf

/-- The text without the spaces at its ends. -/
def strip (s : Bytes) : Bytes := ((s.dropWhile isSpace).reverse.dropWhile isSpace).reverse

/-- What a line sets. -/
def readLine (line : Bytes) : Option (Bytes × Bytes) :=
  let body := strip line
  if body = [] ∨ body.head? = some 35 ∨ 61 ∉ body then none
  else
    let key := strip (body.takeWhile (· ≠ 61))
    if key = [] then none else some (key, strip ((body.dropWhile (· ≠ 61)).drop 1))

/-- The lines of `std::getline`. -/
def getLines (text : Bytes) : List Bytes :=
  let lines := text.splitOn 10
  if lines.getLast? = some [] then lines.dropLast else lines

def readConf (text : Bytes) : Conf :=
  ((getLines text).filterMap readLine).foldl (fun conf e => conf.assign e.1 e.2) []

/-! ### Writing -/

/-- Why the map cannot be written. -/
def confProblem (conf : Conf) : Option Bytes :=
  conf.findSome? fun e =>
    match lineBreakProblem e.1 with
    | some problem =>
      some (ascii "refusing to write the daemon's config file: the key '" ++ e.1 ++ ascii "' " ++ ascii problem ++
        ascii " (a config key cannot span lines)")
    | none =>
      (lineBreakProblem e.2).map fun problem =>
        ascii "refusing to write the daemon's config file: the value for '" ++ e.1 ++ ascii "' " ++ ascii problem ++
          ascii (" (a config value cannot span lines; a line break would end the key's line and start " ++
            "another one, injecting a config key)")

def confText (conf : Conf) : Bytes := conf.flatMap fun e => e.1 ++ ascii " = " ++ e.2 ++ [10]

/-- What a call finds on the host. -/
structure EditEnv where
  /-- `daemonConfPath`. -/
  path : Bytes
  /-- The content of the file, when it can be read. -/
  file : Option Bytes
  /-- The temporary file can be written and takes the file's place. -/
  replaceable : Bool
  /-- What the daemon says to a reload, when it does not do it. -/
  refusal : Option Bytes

def unreadable : ToolError :=
  ⟨.connectivity, ascii ("cannot read the daemon's config file (fractalsqld.conf); the config " ++
    "introspection tools need it. Set FSQLCTL_CONF to its path")⟩

def notReplaced : ToolError := ⟨.connectivity, ascii "cannot replace the daemon's config file on disk"⟩

/-- `readConf` of the daemon's file. -/
def EditEnv.readConf (env : EditEnv) : Except ToolError Conf :=
  match env.file with
  | none => .error unreadable
  | some text => .ok (Admin.readConf text)

/-- The text the file has afterwards. -/
def EditEnv.writeConf (env : EditEnv) (conf : Conf) : Except ToolError Bytes :=
  match confProblem conf with
  | some message => .error ⟨.schema, message⟩
  | none => if env.replaceable then .ok (confText conf) else .error notReplaced

end FractalSQL.Mcp.Admin
