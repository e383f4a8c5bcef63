import FractalSQL.Lib.Lines
import FractalSQL.Lib.NamedValues
import FractalSQL.Provider.Settings
import Mathlib.Data.List.TakeWhile

/-!
# What the environment fingerprint hashes

`fractal_config_env_fingerprint` feeds the name and the value of every bridge variable to FNV-1a, each
closed by a zero byte. A variable that is not set feeds its name alone, so a value that is the name of
the next variable can stand at either of two of them.
-/
namespace FractalSQL.Provider
open Lib

/-! ### The hash -/

/-- The name of a bridge variable, as `fsq_cfg_bridge_vars` has it. -/
def BridgeVar.envName : BridgeVar → String
  | .url => "FSQL_REASONING_HTTP_URL"
  | .token => "FSQL_REASONING_HTTP_TOKEN"
  | .model => "FSQL_REASONING_HTTP_MODEL"
  | .allowPlaintext => "FSQL_REASONING_HTTP_ALLOW_PLAINTEXT"
  | .mode => "FSQL_REASONING_HTTP_MODE"
  | .responseMode => "FSQL_REASONING_HTTP_RESPONSE_MODE"
  | .systemTag => "FSQL_REASONING_HTTP_SYSTEM_TAG"
  | .think => "FSQL_REASONING_HTTP_THINK"
  | .thinkProvider => "FSQL_REASONING_HTTP_THINK_PROVIDER"
  | .nativeUrl => "FSQL_REASONING_HTTP_NATIVE_URL"
  | .numCtx => "FSQL_REASONING_HTTP_NUM_CTX"

def fnvOffsetBasis : UInt64 := 1469598103934665603

def fnvPrime : UInt64 := 1099511628211

def fnvByte (h : UInt64) (b : UInt8) : UInt64 := (h ^^^ b.toUInt64) * fnvPrime

/-- `fnv_bytes`: nothing for no string, else its bytes and a zero byte. -/
def fnvBytes (h : UInt64) (s : Option Bytes) : UInt64 :=
  match s with
  | none => h
  | some s => fnvByte ((cstr s).foldl fnvByte h) 0

/-- `fractal_config_env_fingerprint`. -/
def envFingerprint (env : Environment) : UInt64 :=
  bridgeVars.foldl (fun h v =>
    if v = .systemTag then h else fnvBytes (fnvBytes h (some (ascii v.envName))) (env v)) fnvOffsetBasis

/-! ### The stream -/

/-- The bytes that are fed for one string. -/
def fedBytes (s : Option Bytes) : Bytes :=
  match s with
  | none => []
  | some s => cstr s ++ [0]

/-- The bytes that are fed for an environment. -/
def envStream (env : Environment) : Bytes :=
  hashedVars.flatMap fun v => fedBytes (some (ascii v.envName)) ++ fedBytes (env v)

theorem fnvBytes_eq (h : UInt64) (s : Option Bytes) : fnvBytes h s = (fedBytes s).foldl fnvByte h := by
  cases s with
  | none => rfl
  | some s => rw [fnvBytes, fedBytes, List.foldl_append, List.foldl_cons, List.foldl_nil]

/-- The fingerprint is the hash of the stream. -/
theorem envFingerprint_eq (env : Environment) : envFingerprint env = (envStream env).foldl fnvByte fnvOffsetBasis := by
  rw [envFingerprint, envStream, hashedVars]
  generalize fnvOffsetBasis = h
  induction bridgeVars generalizing h with
  | nil => rfl
  | cons v vs ih =>
    rw [List.foldl_cons, ih]
    by_cases hv : v = .systemTag
    · rw [if_pos hv, List.filter_cons_of_neg (by simp [hv])]
    · rw [if_neg hv, List.filter_cons_of_pos (by simp [hv]), List.flatMap_cons, List.foldl_append, List.foldl_append,
        fnvBytes_eq, fnvBytes_eq]

/-- The values are C strings. -/
def Environment.NulFree (env : Environment) : Prop := ∀ v s, env v = some s → 0 ∉ s

def hashedNames : List Bytes := hashedVars.map fun v => ascii v.envName

def hashedValues (env : Environment) : List (Option Bytes) := hashedVars.map env

theorem hashedNames_nodup : hashedNames.Nodup := by
  rw [hashedNames, show hashedVars = [.url, .token, .model, .allowPlaintext, .mode, .responseMode, .think, .thinkProvider,
    .nativeUrl, .numCtx] from rfl]
  simp only [List.map_cons, List.map_nil, BridgeVar.envName]
  repeat rw [ascii_ofList]
  decide

theorem cstr_of_nulFree {s : Bytes} (h : 0 ∉ s) : cstr s = s := by
  rw [cstr, List.takeWhile_eq_self_iff]
  intro b hb
  have hne : b ≠ 0 := fun hzero => h (hzero ▸ hb)
  simpa using hne

theorem envName_nulFree (v : BridgeVar) : 0 ∉ ascii v.envName := by
  cases v
  all_goals
    rw [BridgeVar.envName, ascii_ofList]
    decide

/-- The stream is names and values, each closed by a zero byte. -/
theorem envStream_eq {env : Environment} (h : env.NulFree) :
    envStream env = unlines 0 (named hashedNames (hashedValues env)) := by
  rw [envStream, hashedNames, hashedValues]
  induction hashedVars with
  | nil => rfl
  | cons v vs ih =>
    rw [List.flatMap_cons, List.map_cons, List.map_cons, named_cons, ih, unlines, unlines, List.flatMap_cons,
      List.flatMap_append, fedBytes, cstr_of_nulFree (envName_nulFree v), List.append_assoc]
    congr 2
    cases hv : env v with
    | none => rfl
    | some s =>
      rw [fedBytes, cstr_of_nulFree (h v s hv)]
      simp

theorem named_nulFree {env : Environment} (h : env.NulFree) : ∀ s ∈ named hashedNames (hashedValues env), 0 ∉ s := by
  rw [hashedNames, hashedValues]
  induction hashedVars with
  | nil => nofun
  | cons v vs ih =>
    rw [List.map_cons, List.map_cons, named_cons, List.forall_mem_cons, List.forall_mem_append]
    refine ⟨envName_nulFree v, fun s hs => ?_, ih⟩
    exact h v s (Option.mem_toList.mp hs)

/-- Two streams are the same exactly when the values are shifted against each other. -/
theorem envStream_eq_iff {env env' : Environment} (h : env.NulFree) (h' : env'.NulFree) :
    envStream env = envStream env' ↔ Shifted hashedNames (hashedValues env) (hashedValues env') := by
  rw [← named_eq_iff hashedNames_nodup rfl rfl, envStream_eq h, envStream_eq h']
  constructor
  · exact unlines_injective (named_nulFree h) (named_nulFree h')
  · exact congrArg (unlines 0)

theorem hashedValues_ne_iff {env env' : Environment} :
    hashedValues env ≠ hashedValues env' ↔ ∃ v, v ≠ .systemTag ∧ env v ≠ env' v := by
  have hmem (v : BridgeVar) : v ∈ hashedVars ↔ v ≠ .systemTag := by
    cases v <;> decide
  rw [hashedValues, hashedValues, ne_eq, List.map_inj_left]
  push Not
  exact exists_congr fun v => and_congr_left' (hmem v)

/-- Two settings that differ, but in shifted runs of variables only. -/
def ShiftedApart (env env' : Environment) : Prop :=
  hashedValues env ≠ hashedValues env' ∧ Shifted hashedNames (hashedValues env) (hashedValues env')

/-- Settings that differ are told apart by their streams, exactly when they are not shifted against each other. -/
theorem env_streams_differ_iff {env env' : Environment} (h : env.NulFree) (h' : env'.NulFree) :
    ((∃ v, v ≠ .systemTag ∧ env v ≠ env' v) → envStream env ≠ envStream env') ↔ ¬ ShiftedApart env env' := by
  rw [← hashedValues_ne_iff, ShiftedApart, not_and, ne_eq (envStream env), envStream_eq_iff h h']

/-- A setting of one variable. -/
def onlySet (v : BridgeVar) (s : Bytes) : Environment := fun u => if u = v then some s else none

theorem onlySet_nulFree {v : BridgeVar} {s : Bytes} (h : 0 ∉ s) : (onlySet v s).NulFree := by
  intro u t ht
  rw [onlySet] at ht
  split_ifs at ht
  obtain rfl := Option.some.inj ht
  exact h

/-- Two models are told apart. -/
theorem models_differ : envStream (onlySet .model (ascii "a")) ≠ envStream (onlySet .model (ascii "b")) := by
  refine (env_streams_differ_iff (onlySet_nulFree (by decide)) (onlySet_nulFree (by decide))).mpr ?_
    ⟨.model, by decide, by decide⟩
  rintro ⟨-, hshifted⟩
  exact absurd hshifted.named_eq (by decide +kernel)

/-- The name of the model is taken as the token, and as the model. -/
theorem token_taken_for_model :
    onlySet .token (ascii "FSQL_REASONING_HTTP_MODEL") .token ≠ onlySet .model (ascii "FSQL_REASONING_HTTP_MODEL") .token ∧
      (onlySet .token (ascii "FSQL_REASONING_HTTP_MODEL")).NulFree ∧
      (onlySet .model (ascii "FSQL_REASONING_HTTP_MODEL")).NulFree ∧
      envStream (onlySet .token (ascii "FSQL_REASONING_HTTP_MODEL")) =
        envStream (onlySet .model (ascii "FSQL_REASONING_HTTP_MODEL")) ∧
      envFingerprint (onlySet .token (ascii "FSQL_REASONING_HTTP_MODEL")) =
        envFingerprint (onlySet .model (ascii "FSQL_REASONING_HTTP_MODEL")) := by
  have hfree : 0 ∉ ascii "FSQL_REASONING_HTTP_MODEL" := envName_nulFree .model
  have hstream : envStream (onlySet .token (ascii "FSQL_REASONING_HTTP_MODEL")) =
      envStream (onlySet .model (ascii "FSQL_REASONING_HTTP_MODEL")) := by
    simp [envStream, hashedVars, bridgeVars, onlySet, fedBytes, BridgeVar.envName]
  refine ⟨by decide, onlySet_nulFree hfree, onlySet_nulFree hfree, hstream, ?_⟩
  rw [envFingerprint_eq, envFingerprint_eq, hstream]

end FractalSQL.Provider
