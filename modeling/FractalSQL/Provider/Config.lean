import FractalSQL.Lib.Text

/-!
# The daemon's configuration file

`load_config` of the daemon: 1023 byte lines, a `#` in the first column comments a line
out, key and value are cut at the first `=` and trimmed, `allowed_uids` accumulates and
every other key keeps its last value. This is the POSIX build.
-/
namespace FractalSQL.Provider
open Lib

/-! ### The keys -/

/-- The keys whose value is copied into a fixed buffer. -/
inductive TextKey where
  | socketPath
  | hmacKeyFile
  | logFile
  | reasoningPlugin
  | reasoningUrl
  | reasoningToken
  | reasoningModel
  | embedUrl
  | embedModel
  | think
  | thinkProvider
  | thinkNativeUrl
  | t2sAllowedStatements
  | enterpriseLib
  | enterpriseLedgerPath
  | enterpriseLedgerKey
deriving DecidableEq

inductive FlagKey where
  | reasoningAllowPlaintext
  | t2sUseReview
  | enterpriseRequireSignature
deriving DecidableEq

/-- The keys read with `strtol`, garbage as -1. -/
inductive LongKey where
  | thinkNumCtx
  | t2sMaxAttempts
deriving DecidableEq

/-- The keys read with `atoi`. -/
inductive IntKey where
  | maxConnections
  | idleTimeoutSecs
deriving DecidableEq

inductive Key where
  | text (k : TextKey)
  | flag (k : FlagKey)
  | long (k : LongKey)
  | int (k : IntKey)
  | allowedUids
deriving DecidableEq

/-- The key as the file spells it. -/
def Key.name : Key → String
  | .text .socketPath => "socket_path"
  | .text .hmacKeyFile => "hmac_key_file"
  | .text .logFile => "log_file"
  | .int .maxConnections => "max_connections"
  | .int .idleTimeoutSecs => "idle_timeout_secs"
  | .allowedUids => "allowed_uids"
  | .text .reasoningPlugin => "reasoning_plugin"
  | .text .reasoningUrl => "reasoning_url"
  | .text .reasoningToken => "reasoning_token"
  | .text .reasoningModel => "reasoning_model"
  | .flag .reasoningAllowPlaintext => "reasoning_allow_plaintext"
  | .text .embedUrl => "embed_url"
  | .text .embedModel => "embed_model"
  | .text .think => "think"
  | .text .thinkProvider => "think_provider"
  | .text .thinkNativeUrl => "think_native_url"
  | .long .thinkNumCtx => "think_num_ctx"
  | .long .t2sMaxAttempts => "t2s_max_attempts"
  | .text .t2sAllowedStatements => "t2s_allowed_statements"
  | .flag .t2sUseReview => "t2s_use_review"
  | .text .enterpriseLib => "enterprise_lib"
  | .text .enterpriseLedgerPath => "enterprise_ledger_path"
  | .text .enterpriseLedgerKey => "enterprise_ledger_key"
  | .flag .enterpriseRequireSignature => "enterprise_require_signature"

/-- The keys in the order of the parser's comparisons. -/
def Key.all : List Key :=
  [.text .socketPath, .text .hmacKeyFile, .text .logFile, .int .maxConnections, .int .idleTimeoutSecs,
    .allowedUids, .text .reasoningPlugin, .text .reasoningUrl, .text .reasoningToken, .text .reasoningModel,
    .flag .reasoningAllowPlaintext, .text .embedUrl, .text .embedModel, .text .think, .text .thinkProvider,
    .text .thinkNativeUrl, .long .thinkNumCtx, .long .t2sMaxAttempts, .text .t2sAllowedStatements,
    .flag .t2sUseReview, .text .enterpriseLib, .text .enterpriseLedgerPath, .text .enterpriseLedgerKey,
    .flag .enterpriseRequireSignature]

def Key.ofName (name : Bytes) : Option Key := Key.all.find? fun k => ascii k.name = name

theorem Key.names_nodup : (Key.all.map fun k => ascii k.name).Nodup := by
  simp only [Key.all, List.map_cons, List.map_nil, Key.name]
  repeat rw [ascii_ofList]
  decide

theorem Key.mem_all (key : Key) : key ∈ Key.all := by
  rcases key with k | k | k | k | _
  case allowedUids => decide
  all_goals cases k <;> decide

theorem ofName_name (key : Key) : Key.ofName (ascii key.name) = some key := by
  rw [Key.ofName]
  cases hfind : Key.all.find? fun k => ascii k.name = ascii key.name with
  | none => exact absurd (decide_eq_true rfl) (List.find?_eq_none.mp hfind key key.mem_all)
  | some k =>
    have hfound := List.find?_some hfind
    have hname : ascii k.name = ascii key.name := of_decide_eq_true hfound
    rw [List.inj_on_of_nodup_map Key.names_nodup (List.mem_of_find?_eq_some hfind) key.mem_all hname]

theorem name_of_ofName {name : Bytes} {key : Key} (h : Key.ofName name = some key) : name = ascii key.name := by
  rw [Key.ofName] at h
  have hfound := List.find?_some h
  exact (of_decide_eq_true hfound).symm

/-- The size of the key's buffer in `struct fsq_config`. -/
def TextKey.size : TextKey → ℕ
  | .socketPath => 256
  | .hmacKeyFile => 512
  | .logFile => 512
  | .reasoningPlugin => 512
  | .reasoningUrl => 512
  | .reasoningToken => 1024
  | .reasoningModel => 128
  | .embedUrl => 512
  | .embedModel => 128
  | .think => 64
  | .thinkProvider => 64
  | .thinkNativeUrl => 512
  | .t2sAllowedStatements => 32
  | .enterpriseLib => 512
  | .enterpriseLedgerPath => 1024
  | .enterpriseLedgerKey => 1024

/-- The keys with a bit in `prov_present`. -/
def Key.provider : Key → Bool
  | .text .socketPath | .text .hmacKeyFile | .text .logFile => false
  | .int _ | .allowedUids => false
  | _ => true

/-! ### The parsed file -/

/-- `FSQ_MAX_ALLOWED_UIDS`. -/
def maxAllowedUids : ℕ := 16

/-- `struct fsq_config`, without the derived number text, which nothing writes. -/
structure Config where
  text : TextKey → Bytes := fun _ => []
  flag : FlagKey → Bool := fun _ => false
  long : LongKey → ℤ := fun _ => 0
  int : IntKey → ℤ := fun
    | .maxConnections => 64
    | .idleTimeoutSecs => 300
  /-- `allowed_uids` up to `n_allowed`. -/
  allowed : List ℕ := []
  /-- `prov_present`. -/
  present : Key → Bool := fun _ => false
  key : Bytes := []

/-- `long` and `unsigned long` have 64 bits. -/
def longMin : ℤ := -2 ^ 63
def longMax : ℤ := 2 ^ 63 - 1

def strtol (v : Bytes) : Option (ℤ × Bytes) := strtoInt longMin longMax v

/-- The C library's `atoi` is a cast of `strtol`'s result. -/
def atoi (v : Bytes) : ℤ := ((strtol v).map fun p => Int.bmod p.1 (2 ^ 32)).getD 0

/-- `(uid_t) strtoul(tok, NULL, 10)`: the digits saturate, a minus sign negates them. -/
def uidOf (tok : Bytes) : ℕ :=
  let (neg, text) := signOf (tok.dropWhile isSpace)
  let n := digitsValue (text.takeWhile isDigit)
  if 2 ^ 64 ≤ n then 2 ^ 32 - 1
  else if neg then (2 ^ 64 - n) % 2 ^ 32
  else n % 2 ^ 32

/-- A value that ends with its number, else -1. -/
def longOf (v : Bytes) : ℤ :=
  match strtol v with
  | some (n, []) => n
  | _ => -1

def lower (b : UInt8) : UInt8 := if 65 ≤ b ∧ b ≤ 90 then b + 32 else b

/-- `cfg_word_is`. -/
def cfgWordIs (v : Bytes) (word : String) : Bool := v.map lower = ascii word

/-- `cfg_bool_true`. -/
def cfgBoolTrue (v : Bytes) : Bool :=
  if v = [] ∨ v = ascii "0" then false
  else !(cfgWordIs v "false" || cfgWordIs v "off" || cfgWordIs v "no")

/-- The tokens `strtok_r` finds between commas. -/
def commaTokens (v : Bytes) : List Bytes := (v.splitOnP (· = 44)).filter (· ≠ [])

/-- The list with one more uid, if there is room. -/
def addUid (uids : List ℕ) (tok : Bytes) : Option (List ℕ) :=
  if uids.length < maxAllowedUids then some (uids ++ [uidOf tok]) else none

/-- What the parser does with the value of a key. -/
def Config.set (c : Config) : Key → Bytes → Option Config
  | .text k, v =>
    if v.length < k.size then
      some { c with
        text := Function.update c.text k v
        present := Function.update c.present (.text k) (Key.provider (.text k)) }
    else none
  | .flag k, v =>
    some { c with
      flag := Function.update c.flag k (cfgBoolTrue v)
      present := Function.update c.present (.flag k) true }
  | .long k, v =>
    some { c with
      long := Function.update c.long k (longOf v)
      present := Function.update c.present (.long k) true }
  | .int k, v => some { c with int := Function.update c.int k (atoi v) }
  | .allowedUids, v => ((commaTokens v).foldlM addUid c.allowed).map fun uids => { c with allowed := uids }

/-! ### Lines -/

/-- What `fgets` returns from a text, with room for `room` more bytes on the line
begun by `cur` (last byte first). -/
def fgetsFrom (cap : ℕ) : ℕ → Bytes → Bytes → List Bytes
  | _, [], [] => []
  | _, cur, [] => [cur.reverse]
  | room, cur, b :: text =>
    if b = 10 ∨ room ≤ 1 then (b :: cur).reverse :: fgetsFrom cap cap [] text
    else fgetsFrom cap (room - 1) (b :: cur) text

/-- `char line[1024]`. -/
def lineCap : ℕ := 1023

def fgetsLines (text : Bytes) : List Bytes := fgetsFrom lineCap lineCap [] text

/-- What the string functions see of a buffer. -/
def cstr (bs : Bytes) : Bytes := bs.takeWhile (· ≠ 0)

def isBlank (b : UInt8) : Bool := b = 32 ∨ b = 9

/-- What follows a value that is cut off. -/
def isValueEnd (b : UInt8) : Bool := b = 10 ∨ b = 13 ∨ b = 32

def trimEnd (p : UInt8 → Bool) (bs : Bytes) : Bytes := (bs.reverse.dropWhile p).reverse

/-- Key and value of a line that has an `=` and is no comment. -/
def splitLine (line : Bytes) : Option (Bytes × Bytes) :=
  let s := cstr line
  if 61 ∈ s ∧ line.head? ≠ some 35 then
    some (trimEnd isBlank ((s.takeWhile (· ≠ 61)).dropWhile isBlank),
      trimEnd isValueEnd (((s.dropWhile (· ≠ 61)).drop 1).dropWhile isBlank))
  else none

/-- One turn of the parser's loop. -/
def Config.line (c : Config) (line : Bytes) : Option Config :=
  match splitLine line with
  | none => some c
  | some (k, v) =>
    match Key.ofName k with
    | none => some c
    | some key => c.set key v

/-! ### The whole file -/

/-- What the daemon reads of its host. -/
structure Site where
  /-- The content of a file that can be opened. -/
  readFile : Bytes → Option Bytes
  /-- `stat(path).st_mode & 0007` is set. -/
  worldAccess : Bytes → Bool
  /-- `g_config_path`. -/
  configPath : Bytes
  euid : ℕ

/-- `sizeof sun_path`. -/
def sunPathSize : ℕ := 108

/-- `load_key` on the content of the key file. -/
def loadKey (content : Bytes) : Option Bytes :=
  let s := (content.filter fun b => !(b = 10 ∨ b = 13 ∨ b = 32 ∨ b = 9)).take 256
  if s = [] ∨ s.length % 2 ≠ 0 ∨ 64 < s.length / 2 then none
  else (hexDecode (s.length / 2) s).map Prod.fst

/-- The checks after the last line. -/
def Config.finish (site : Site) (c : Config) : Option Config :=
  if c.text .socketPath = [] ∨ c.text .hmacKeyFile = [] then none
  else if sunPathSize ≤ (c.text .socketPath).length then none
  else if c.int .maxConnections ≤ 0 ∨ 1024 < c.int .maxConnections then none
  else if c.int .idleTimeoutSecs ≤ 0 then none
  else
    ((site.readFile (c.text .hmacKeyFile)).bind loadKey).map fun key =>
      { c with key := key, allowed := if c.allowed = [] then [site.euid] else c.allowed }

/-- `load_config` on the text of the file. -/
def loadConfig (site : Site) (text : Bytes) : Option Config :=
  ((fgetsLines text).foldlM Config.line {}).bind (Config.finish site)

/-- The value of a key, as a line gives it. -/
def Config.setGiven (c : Config) (given : Key × Bytes) : Option Config := c.set given.1 given.2

theorem foldlM_line_of_given {lines : List Bytes} {given : List (Key × Bytes)} (c : Config)
    (h : lines.filterMap splitLine = given.map fun g => (ascii g.1.name, g.2)) :
    lines.foldlM Config.line c = given.foldlM Config.setGiven c := by
  induction lines generalizing given c with
  | nil =>
    obtain rfl : given = [] := List.map_eq_nil_iff.mp h.symm
    rfl
  | cons line lines ih =>
    rw [List.foldlM_cons]
    cases hsplit : splitLine line with
    | none =>
      rw [List.filterMap_cons_none hsplit] at h
      simp only [Config.line, hsplit]
      exact ih c h
    | some p =>
      rw [List.filterMap_cons_some hsplit] at h
      cases given with
      | nil => cases h
      | cons g given =>
        obtain ⟨rfl, hrest⟩ := List.cons.inj h
        simp only [Config.line, hsplit, ofName_name, List.foldlM_cons]
        exact congrArg _ (funext fun c => ih c hrest)

/-- A file whose lines give keys only is loaded as the values say. -/
theorem loadConfig_of_given {site : Site} {text : Bytes} {given : List (Key × Bytes)}
    (h : (fgetsLines text).filterMap splitLine = given.map fun g => (ascii g.1.name, g.2)) :
    loadConfig site text = (given.foldlM Config.setGiven {}).bind (Config.finish site) := by
  rw [loadConfig, foldlM_line_of_given _ h]

/-! ### Validation -/

/-- `validate_cfg`: neither file is open to other users. -/
def validateCfg (site : Site) (c : Config) : Bool :=
  !site.worldAccess site.configPath && !site.worldAccess (c.text .hmacKeyFile)

/-- `fractal_config_validate_path`. -/
def validatePath (path : Bytes) : Bool :=
  path.length < 8192 && path.head? = some 47 && !(path.zip path.tail).contains (46, 46)

/-- The keys that may not be empty when present. -/
def nonEmptyKeys : List TextKey :=
  [.reasoningPlugin, .reasoningUrl, .reasoningToken, .reasoningModel, .embedUrl, .embedModel, .think,
    .thinkProvider, .thinkNativeUrl, .t2sAllowedStatements, .enterpriseLib, .enterpriseLedgerPath,
    .enterpriseLedgerKey]

def pathKeys : List TextKey := [.reasoningPlugin, .enterpriseLib, .enterpriseLedgerPath]

/-- `validate_provider_cfg`. -/
def validateProviderCfg (c : Config) : Bool :=
  (nonEmptyKeys.all fun k => !c.present (.text k) || c.text k ≠ []) &&
    (pathKeys.all fun k => !c.present (.text k) || validatePath (c.text k)) &&
    (!c.present (.long .thinkNumCtx) || (1 ≤ c.long .thinkNumCtx && c.long .thinkNumCtx ≤ 10000000)) &&
    (!c.present (.long .t2sMaxAttempts) || (1 ≤ c.long .t2sMaxAttempts && c.long .t2sMaxAttempts ≤ 10)) &&
    (!c.present (.text .t2sAllowedStatements) ||
      c.text .t2sAllowedStatements = ascii "select" ||
      c.text .t2sAllowedStatements = ascii "select_insert_update")

end FractalSQL.Provider
