import FractalSQL.Lib.Calendar
import FractalSQL.Lib.JsonValue
import FractalSQL.Lib.Machine
import FractalSQL.Mcp.HttpHead

/-!
# The credentials in force

`TokenStore`: the deployment token and the clients of the policy file, each read again when
`check` sees another modification time. What a read sees is up to the file system, so a
reader may meet a version that is still being written.
-/
namespace FractalSQL.Mcp.Tokens
open Lib Http

/-- The whole first line, without the carriage return of its end. -/
def firstLine (content : Bytes) : Bytes := dropCr (content.takeWhile (· ≠ 10))

structure PolicyEntry where
  name : Bytes
  sha256 : Bytes
  allTools : Bool
  tools : List Bytes
  /-- 0 for one that never expires. -/
  expiresAt : ℤ

def PolicyEntry.expired (e : PolicyEntry) (now : ℤ) : Bool := e.expiresAt ≠ 0 && e.expiresAt ≤ now

/-- `parseExpiry`; 0 where the text is no usable expiry. -/
def parseExpiry (text : Bytes) : ℤ :=
  if text.length < 10 then 0
  else
    let cStr := text.takeWhile (· ≠ 0)
    let fields := sscanf dateSeps cStr
    match if fields.length < 3 then sscanf [45, 45] cStr else fields with
    | y :: mo :: d :: more =>
      if y < 1970 ∨ mo < 1 ∨ 12 < mo ∨ d < 1 ∨ 31 < d then 0
      else timegm ⟨y, mo, d, more.getD 0 0, more.getD 1 0, more.getD 2 0⟩
    | _ => 0

inductive PolicyError where
  | unreadable
  | parse
  | invalid (what : String)
deriving DecidableEq

/-- The `tools` of an entry: all of them, or the names. -/
def loadTools : JsonValue → Except PolicyError (Bool × List Bytes)
  | .string s =>
    if s = ascii "*" then .ok (true, []) else .error (.invalid "tools must be \"*\" or an array of tool names")
  | .array items =>
    match items.mapM JsonValue.asString with
    | some names => .ok (false, names)
    | none => .error (.invalid "each tool name in \"tools\" must be a string")
  | _ => .error (.invalid "tools must be \"*\" or an array of tool names")

/-- An entry of `loadPolicyLocked`. -/
def loadEntry (t : JsonValue) : Except PolicyError PolicyEntry :=
  match t.stringMember (ascii "sha256") with
  | none => .error (.invalid "each token needs a \"sha256\" string")
  | some sha256 =>
    if sha256.length ≠ 64 then .error (.invalid "sha256 must be 64 hex digits")
    else
      match t.find (ascii "tools") with
      | none => .error (.invalid "each token needs a \"tools\" list")
      | some tools =>
        match loadTools tools with
        | .error e => .error e
        | .ok (allTools, names) =>
          let entry : PolicyEntry :=
            ⟨(t.stringMember (ascii "name")).getD [], lowerCopy sha256, allTools, names, 0⟩
          match t.stringMember (ascii "expires") with
          | none => .ok entry
          | some text =>
            if parseExpiry text = 0 then
              .error (.invalid "expires must be an ISO-8601 date/time (YYYY-MM-DD or YYYY-MM-DDTHH:MM:SSZ)")
            else .ok { entry with expiresAt := parseExpiry text }

/-- The tokens of a document. -/
def tokensOf (doc : JsonValue) : Option (List JsonValue) :=
  match doc.find (ascii "tokens") with
  | some (.array items) => some items
  | _ => none

def loadPolicy (lib : JsonLibrary) (text : Bytes) : Except PolicyError (List PolicyEntry) :=
  match lib.parse text with
  | none => .error .parse
  | some doc =>
    match tokensOf doc with
    | none => .error (.invalid "expected \x7b\"tokens\":[...]\x7d")
    | some items => items.mapM loadEntry

/-- Where the credentials come from: a fixed token or a token file, and a policy file. -/
structure Config where
  authToken : Bytes := []
  authTokenFile : Bool
  tokenPolicyFile : Bool

structure TokenStore where
  token : Bytes := []
  lastMtime : ℤ := 0
  policies : List PolicyEntry := []
  policyError : Option PolicyError := none
  lastPolicyMtime : ℤ := 0
  policyLoaded : Bool := false

/-- What is at a path, with its modification time in seconds. -/
structure Version where
  content : Bytes
  mtime : ℤ

variable (lib : JsonLibrary) (cfg : Config)

/-- `loadPolicyLocked`, with what the read sees. -/
def TokenStore.loadPolicy (s : TokenStore) (seen : Option Bytes) : TokenStore :=
  match seen with
  | none => { s with policyError := some .unreadable }
  | some text =>
    match Tokens.loadPolicy lib text with
    | .error e => { s with policyError := some e }
    | .ok next => { s with policies := next, policyError := none }

/-- The half of `reload` that concerns the token. -/
def TokenStore.reloadToken (s : TokenStore) (file : Option Version) (force : Bool) (seen : Option Bytes) : TokenStore :=
  if !cfg.authTokenFile then { s with token := cfg.authToken }
  else
    match file with
    | none => s
    | some v =>
      if force ∨ v.mtime ≠ s.lastMtime then
        match seen.map firstLine with
        | none => s
        -- an empty file never silently disables the token
        | some t => if t = [] then s else { s with token := t, lastMtime := v.mtime }
      else s

/-- The half of `reload` that concerns the policy. -/
def TokenStore.reloadPolicy (s : TokenStore) (file : Option Version) (force : Bool) (seen : Option Bytes) : TokenStore :=
  if !cfg.tokenPolicyFile then { s with policyLoaded := true }
  else
    match file with
    | some v =>
      if force ∨ v.mtime ≠ s.lastPolicyMtime then { s.loadPolicy lib seen with lastPolicyMtime := v.mtime } else s
    | none => if s.policyLoaded then s else { s.loadPolicy lib seen with policyLoaded := true }

structure Files where
  token : Option Version
  policy : Option Version

/-- What the two reads of a reload see. -/
structure Seen where
  token : Option Bytes
  policy : Option Bytes

def TokenStore.reload (s : TokenStore) (files : Files) (force : Bool) (seen : Seen) : TokenStore :=
  (s.reloadToken cfg files.token force seen.token).reloadPolicy lib cfg files.policy force seen.policy

structure Credential where
  ok : Bool := false
  expired : Bool := false
  clientName : Bytes := []
  allow : Option (List Bytes) := none

variable (hash : Bytes → Block 32)

def sha256Hex (v : Bytes) : Bytes := hexEncode (hash v).val

/-- What an entry of the presented token makes of the result. -/
def PolicyEntry.apply (e : PolicyEntry) (hex : Bytes) (now : ℤ) (c : Credential) : Credential :=
  if e.sha256 ≠ hex then c
  else if e.expired now then { c with expired := true }
  else { c with
    ok := true
    clientName := if e.name = [] then ascii "client:" ++ hex.take 8 else e.name
    allow := if e.allTools then none else some e.tools }

/-- `check`, after the reload. -/
def TokenStore.decide (s : TokenStore) (presented : Bytes) (now : ℤ) : Credential :=
  if presented = [] then {}
  else if s.token ≠ [] ∧ presented = s.token then
    { ok := true, clientName := ascii "token:" ++ (sha256Hex hash presented).take 8 }
  else s.policies.foldl (fun c e => e.apply (sha256Hex hash presented) now c) {}

/-! ### With the files -/

structure State where
  store : TokenStore
  files : Files
  /-- `g_sighupReload`. -/
  sighup : Bool := false

inductive Event where
  | checked (presented : Bytes) (now : ℤ) (c : Credential)

inductive Label where
  | writeToken (v : Option Version)
  | writePolicy (v : Option Version)
  | sighup
  | check (presented : Bytes) (now : ℤ) (seen : Seen)

/-- The constructor. -/
def State.construct (files : Files) (seen : Seen) : State where
  store := TokenStore.reload lib cfg {} files true seen
  files := files

/-- The store once `check` has reloaded it. -/
def State.reloaded (s : State) (seen : Seen) : TokenStore :=
  if s.sighup ∨ cfg.authTokenFile ∨ cfg.tokenPolicyFile then s.store.reload lib cfg s.files s.sighup seen else s.store

def State.step (s : State) : Label → Option (State × List Event)
  | .writeToken v => some ({ s with files := { s.files with token := v } }, [])
  | .writePolicy v => some ({ s with files := { s.files with policy := v } }, [])
  | .sighup => some ({ s with sighup := true }, [])
  | .check presented now seen =>
    let store := s.reloaded lib cfg seen
    some ({ s with store := store, sighup := false }, [.checked presented now (store.decide hash presented now)])

end FractalSQL.Mcp.Tokens
