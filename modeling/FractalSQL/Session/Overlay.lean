import FractalSQL.Lib.Text

/-!
# The session overlay

The overrides of the sessions stand in a fixed table. A session gets a slot at its first
override, and with no slot free it takes the slot that was touched longest ago. A slot is
touched when an override is set, unset or read, with a stamp from one counter. Values are C
strings, so they have no NUL byte.
-/
namespace FractalSQL.Session
open Lib

/-! ### The key table -/

/-- `fsq_cfg_type`. -/
inductive CfgType where
  | str
  | path
  | int
  | bool
  | enum

/-- The keys, in the order of the table. -/
inductive CfgKey where
  | reasoningPlugin
  | reasoningUrl
  | reasoningToken
  | reasoningModel
  | reasoningAllowPlaintext
  | embedUrl
  | embedModel
  | think
  | thinkProvider
  | thinkNativeUrl
  | thinkNumCtx
  | t2sMaxAttempts
  | t2sAllowedStatements
  | t2sUseReview
  | enterpriseLib
  | enterpriseLedgerPath
  | enterpriseLedgerKey
  | enterpriseRequireSignature
deriving DecidableEq

def cfgKeys : List CfgKey :=
  [.reasoningPlugin, .reasoningUrl, .reasoningToken, .reasoningModel, .reasoningAllowPlaintext, .embedUrl, .embedModel,
    .think, .thinkProvider, .thinkNativeUrl, .thinkNumCtx, .t2sMaxAttempts, .t2sAllowedStatements, .t2sUseReview,
    .enterpriseLib, .enterpriseLedgerPath, .enterpriseLedgerKey, .enterpriseRequireSignature]

/-- A row of `g_keys`: what the overlay reads of it. -/
structure CfgRow where
  key : String
  type : CfgType
  min : ℤ := 0
  max : ℤ := 0
  enumVals : String := ""
  sessionOk : Bool := false

/-- `g_keys`. -/
def CfgKey.row : CfgKey → CfgRow
  | reasoningPlugin => { key := "reasoning_plugin", type := .path }
  | reasoningUrl => { key := "reasoning_url", type := .str }
  | reasoningToken => { key := "reasoning_token", type := .str }
  | reasoningModel => { key := "reasoning_model", type := .str, sessionOk := true }
  | reasoningAllowPlaintext => { key := "reasoning_allow_plaintext", type := .bool }
  | embedUrl => { key := "embed_url", type := .str }
  | embedModel => { key := "embed_model", type := .str, sessionOk := true }
  | think => { key := "think", type := .str, sessionOk := true }
  | thinkProvider => { key := "think_provider", type := .str }
  | thinkNativeUrl => { key := "think_native_url", type := .str }
  | thinkNumCtx => { key := "think_num_ctx", type := .int, min := 1, max := 10000000, sessionOk := true }
  | t2sMaxAttempts => { key := "t2s_max_attempts", type := .int, min := 1, max := 10, sessionOk := true }
  | t2sAllowedStatements =>
    { key := "t2s_allowed_statements", type := .enum, enumVals := "select|select_insert_update" }
  | t2sUseReview => { key := "t2s_use_review", type := .bool, sessionOk := true }
  | enterpriseLib => { key := "enterprise_lib", type := .path }
  | enterpriseLedgerPath => { key := "enterprise_ledger_path", type := .path }
  | enterpriseLedgerKey => { key := "enterprise_ledger_key", type := .str }
  | enterpriseRequireSignature => { key := "enterprise_require_signature", type := .bool }

/-- `fractal_config_key_by_name`. -/
def keyByName (name : Option Bytes) : Option CfgKey :=
  name.bind fun name =>
    let name := (dropLit (ascii "fractalsql.") name).getD name
    cfgKeys.find? fun k => ascii k.row.key = name

/-! ### Validation -/

/-- `FSQL_CFG_MAX_VALUE`. -/
def cfgMaxValue : ℕ := 8192

/-- `fractal_config_validate_path` on POSIX. -/
def checkPath (path : Bytes) : Except Bytes Unit :=
  if path = [] then .error (ascii "path must not be empty")
  else if cfgMaxValue ≤ path.length then .error (ascii "path is too long")
  else if path.head? ≠ some 47 then .error (ascii "must be an absolute path with no '..' segments")
  else if (path.zip path.tail).contains (46, 46) then
    .error (ascii "must be an absolute path with no '..' segments")
  else .ok ()

/-- `parse_bool`. -/
def parseBool (v : Option Bytes) : Option Bool :=
  match v with
  | none => some false
  | some v =>
    if v ∈ [ascii "true", ascii "on", ascii "1", ascii "yes"] then some true
    else if v ∈ [ascii "false", ascii "off", ascii "0", ascii "no", []] then some false
    else none

/-- `parse_long`, with a 64-bit `long`. -/
def parseLong (v : Bytes) : Option ℤ :=
  match strtoInt (-2 ^ 63) (2 ^ 63 - 1) v with
  | some (n, []) => some n
  | _ => none

/-- `enum_has`, on a value that is not empty. -/
def enumHas (list value : Bytes) : Bool := (list.splitOn 124).contains value

/-- `validate_value`; an empty value unsets the override. -/
def validateValue (k : CfgRow) (value : Option Bytes) : Except Bytes Unit :=
  match value with
  | none => .ok ()
  | some value =>
    if value = [] then .ok ()
    else match k.type with
      | .path => checkPath value
      | .int =>
        match parseLong value with
        | none => .error (ascii ("'" ++ k.key ++ "' expects an integer"))
        | some n =>
          if n < k.min ∨ k.max < n then
            .error (ascii ("'" ++ k.key ++ "' must be " ++ toString k.min ++ ".." ++ toString k.max))
          else .ok ()
      | .bool =>
        if (parseBool (some value)).isNone then .error (ascii ("'" ++ k.key ++ "' expects true/false/on/off/1/0"))
        else .ok ()
      | .enum =>
        if enumHas (ascii k.enumVals) value then .ok ()
        else .error (ascii ("'" ++ k.key ++ "' must be one of: " ++ k.enumVals))
      | .str =>
        if cfgMaxValue ≤ value.length then .error (ascii ("'" ++ k.key ++ "' is too long")) else .ok ()

/-! ### The table -/

/-- `FSQL_CFG_MAX_SESSIONS`. -/
def cfgMaxSessions : ℕ := 256

abbrev Overrides := CfgKey → Option Bytes

def noOverrides : Overrides := fun _ => none

/-- `fsq_cfg_entry`. -/
structure Slot where
  sessionId : UInt64 := 0
  used : Bool := false
  touched : ℕ := 0
  values : Overrides := noOverrides

/-- `g_entries`, `g_entry_count` and `g_clock`. -/
structure Overlay where
  slots : List Slot := List.replicate cfgMaxSessions {}
  count : ℕ := 0
  clock : ℕ := 0

def Slot.owns (sid : UInt64) (s : Slot) : Bool := s.used ∧ s.sessionId = sid

/-- `find_entry`. -/
def Overlay.find (o : Overlay) (sid : UInt64) : Option ℕ := o.slots.findIdx? (Slot.owns sid)

/-- The first slot with the least stamp. -/
def oldest : List Slot → Option (ℕ × Slot)
  | [] => none
  | s :: slots =>
    match oldest slots with
    | none => some (0, s)
    | some (i, s') => if s'.touched < s.touched then some (i + 1, s') else some (0, s)

/-- `new_entry`. -/
def Overlay.newEntry (o : Overlay) (sid : UInt64) : Option (Overlay × ℕ) :=
  match o.find sid with
  | some i => some (o, i)
  | none =>
    match o.slots.findIdx? fun s => !s.used with
    | some i => some ({ o with slots := o.slots.set i { used := true, sessionId := sid }, count := o.count + 1 }, i)
    | none =>
      (oldest o.slots).map fun (i, s) =>
        ({ o with
            slots := o.slots.set i { s with sessionId := sid, touched := o.clock + 1, values := noOverrides }
            clock := o.clock + 1 }, i)

/-- A slot is touched, and its values may change. -/
def Overlay.touch (o : Overlay) (i : ℕ) (f : Overrides → Overrides) : Overlay :=
  { o with
    slots := o.slots.modify i fun s => { s with touched := o.clock + 1, values := f s.values }
    clock := o.clock + 1 }

def nonEmpty : Option Bytes → Option Bytes
  | some (b :: v) => some (b :: v)
  | _ => none

/-- `fractal_config_set_value`, with the outcome of its allocation. -/
def setValue (o : Overlay) (sid : UInt64) (name value : Option Bytes) (mallocOk : Bool) :
    Overlay × Except Bytes Unit :=
  match keyByName name with
  | none => (o, .error (ascii "unknown configuration key '" ++ (name.getD (ascii "(null)") ++ ascii "'")))
  | some k =>
    if k.row.sessionOk = false then
      (o, .error (ascii ("'" ++ k.row.key ++ "' is a daemon-wide setting and cannot be changed by a session; " ++
        "edit fractalsqld.conf and run `fsqlctl reload`")))
    else match validateValue k.row value with
      | .error reason => (o, .error reason)
      | .ok _ =>
        match nonEmpty value with
        | none =>
          match o.find sid with
          | none => (o, .ok ())
          | some i => (o.touch i fun values => Function.update values k none, .ok ())
        | some v =>
          if mallocOk = false then (o, .error (ascii "out of memory"))
          else match o.newEntry sid with
            | none => (o, .error (ascii "the per-session configuration table is full"))
            | some (o, i) => (o.touch i fun values => Function.update values k (some v), .ok ())

/-- `fractal_config_lookup_str`: what was found, as far as the buffer takes it. -/
def lookupStr (o : Overlay) (sid : UInt64) (name : Option Bytes) (outcap : ℕ) : Overlay × Option Bytes :=
  match keyByName name with
  | none => (o, none)
  | some k =>
    match o.find sid with
    | none => (o, none)
    | some i =>
      match (o.slots[i]?).bind fun s => s.values k with
      | none => (o, none)
      | some v => (o.touch i id, some (v.take (outcap - 1)))

/-- `json_append_string`. -/
def jsonString (s : Bytes) : Bytes :=
  34 :: (s.flatMap (fun c =>
    if c = 34 ∨ c = 92 then [92, c]
    else if c < 32 then ascii "\\u00" ++ [hexDigit (c.toNat / 16), hexDigit (c.toNat % 16)]
    else [c]) ++ [34])

/-- `fractal_config_session_json`; `none` out of memory. -/
def sessionJson (o : Overlay) (sid : UInt64) (allocOk : Bool) : Option Bytes :=
  let values := ((o.find sid).bind fun i => o.slots[i]?).map Slot.values |>.getD noOverrides
  let members := cfgKeys.filterMap fun k => (values k).map fun v => jsonString (ascii k.row.key) ++ 58 :: jsonString v
  if allocOk then some (123 :: (List.intercalate [44] members ++ [125])) else none

/-- `free_entry`. -/
def Slot.free (s : Slot) : Slot := { s with values := noOverrides, used := false, sessionId := 0 }

/-- `fractal_config_reset_session`, and how many overrides it dropped. -/
def resetSession (o : Overlay) (sid : UInt64) : Overlay × ℕ :=
  ({ o with
      slots := o.slots.map fun s => if s.owns sid then s.free else s
      count := o.count - o.slots.countP (Slot.owns sid) },
    (o.slots.map fun s => if s.owns sid then cfgKeys.countP fun k => (s.values k).isSome else 0).sum)

end FractalSQL.Session
