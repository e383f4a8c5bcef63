import FractalSQL.Provider.Config

/-!
# The consumers of the provider settings

The cognition, text-to-SQL and enterprise files each hold their effective settings: per
key the value of the configuration file, else the one captured from the environment at
boot. `apply_provider` swaps them and clears the loaded flags of the consumer's tiers.
All allocations succeed.
-/
namespace FractalSQL.Provider
open Lib

/-! ### The bridge environment -/

/-- `fsq_cfg_bridge_vars`, the variables the reasoning plugin reads when it is loaded. -/
inductive BridgeVar where
  | url
  | token
  | model
  | allowPlaintext
  | mode
  | responseMode
  | systemTag
  | think
  | thinkProvider
  | nativeUrl
  | numCtx
deriving DecidableEq

/-- The bridge variables of the process environment. -/
abbrev Environment := BridgeVar → Option Bytes

/-- The variables in the order of the table. -/
def bridgeVars : List BridgeVar :=
  [.url, .token, .model, .allowPlaintext, .mode, .responseMode, .systemTag, .think, .thinkProvider,
    .nativeUrl, .numCtx]

/-- The variables that are hashed. -/
def hashedVars : List BridgeVar := bridgeVars.filter (· ≠ .systemTag)

/-- A 64 bit hash of the values, taken as injective. -/
abbrev Fingerprint := List (Option Bytes)

/-- `fractal_config_env_fingerprint`. -/
def fingerprint (env : Environment) : Fingerprint := hashedVars.map env

inductive Tier where
  | reason
  | embed
  | t2s
  | review
deriving DecidableEq

/-- `g_tier_loaded` of a tier and the fingerprint of its instance, if that is valid. -/
structure TierState where
  loaded : Bool := false
  fp : Option Fingerprint := none

/-! ### Settings -/

/-- `cognition_config`. -/
structure CognitionConfig where
  reasoningPlugin : Option Bytes := none
  httpUrl : Option Bytes := none
  httpToken : Option Bytes := none
  httpModel : Option Bytes := none
  httpAllowPlaintext : Bool := false
  httpEmbedUrl : Option Bytes := none
  httpEmbedModel : Option Bytes := none
  httpThink : Option Bytes := none
  httpThinkProvider : Option Bytes := none
  httpNativeUrl : Option Bytes := none
  httpNumCtx : Option Bytes := none
  httpResponseMode : Option Bytes := none
deriving DecidableEq

/-- `t2s_config`. -/
structure T2sConfig where
  reasoningPlugin : Option Bytes := none
  httpUrl : Option Bytes := none
  httpToken : Option Bytes := none
  httpModel : Option Bytes := none
  httpAllowPlaintext : Bool := false
  maxAttempts : ℤ := 2
  allowedStatements : Bytes := ascii "select"
  useReview : Bool := false
  httpThink : Option Bytes := none
  httpThinkProvider : Option Bytes := none
  httpNativeUrl : Option Bytes := none
  httpNumCtx : Option Bytes := none
deriving DecidableEq

/-- The enterprise tier's effective values. -/
structure EnterpriseConfig where
  lib : Option Bytes
  ledgerPath : Option Bytes
  ledgerKey : Option Bytes
  requireSig : Bool
deriving DecidableEq

/-! ### The boot environment -/

section Boot

variable (getenv : String → Option Bytes)

/-- `dup_env_into`: unset and empty are the same. -/
def dupEnv (name : String) : Option Bytes := (getenv name).filter (· ≠ [])

/-- `dup_env_pref_into`. -/
def dupEnvPref (preferred legacy : String) : Option Bytes := dupEnv getenv preferred <|> dupEnv getenv legacy

/-- A variable that is neither unset, empty nor `0`. -/
def envOn (v : Option Bytes) : Bool := v.any (· ≠ ascii "0")

/-- `capture_env_fb`. -/
def captureEnvFb : CognitionConfig where
  reasoningPlugin := dupEnv getenv "FRACTALSQL_REASONING_PLUGIN"
  httpUrl := dupEnvPref getenv "FSQL_REASONING_HTTP_URL" "FRACTALSQL_HTTP_URL"
  httpToken := dupEnvPref getenv "FSQL_REASONING_HTTP_TOKEN" "FRACTALSQL_HTTP_TOKEN"
  httpModel := dupEnvPref getenv "FSQL_REASONING_HTTP_MODEL" "FRACTALSQL_HTTP_MODEL"
  httpEmbedUrl := dupEnv getenv "FRACTALSQL_HTTP_EMBED_URL"
  httpEmbedModel := dupEnv getenv "FRACTALSQL_HTTP_EMBED_MODEL"
  httpAllowPlaintext :=
    envOn (dupEnvPref getenv "FSQL_REASONING_HTTP_ALLOW_PLAINTEXT" "FRACTALSQL_HTTP_ALLOW_PLAINTEXT")
  httpThink := dupEnvPref getenv "FSQL_REASONING_HTTP_THINK" "FRACTALSQL_HTTP_THINK"
  httpThinkProvider := dupEnvPref getenv "FSQL_REASONING_HTTP_THINK_PROVIDER" "FRACTALSQL_HTTP_THINK_PROVIDER"
  httpNativeUrl := dupEnvPref getenv "FSQL_REASONING_HTTP_NATIVE_URL" "FRACTALSQL_HTTP_NATIVE_URL"
  httpNumCtx := dupEnvPref getenv "FSQL_REASONING_HTTP_NUM_CTX" "FRACTALSQL_HTTP_NUM_CTX"
  httpResponseMode := dupEnv getenv "FSQL_REASONING_HTTP_RESPONSE_MODE"

/-- `capture_t2s_env_fb`. -/
def captureT2sEnvFb : T2sConfig where
  reasoningPlugin := dupEnv getenv "FRACTALSQL_REASONING_PLUGIN"
  httpUrl := dupEnvPref getenv "FSQL_REASONING_HTTP_URL" "FRACTALSQL_HTTP_URL"
  httpToken := dupEnvPref getenv "FSQL_REASONING_HTTP_TOKEN" "FRACTALSQL_HTTP_TOKEN"
  httpModel := dupEnvPref getenv "FSQL_REASONING_HTTP_MODEL" "FRACTALSQL_HTTP_MODEL"
  httpAllowPlaintext :=
    envOn (dupEnvPref getenv "FSQL_REASONING_HTTP_ALLOW_PLAINTEXT" "FRACTALSQL_HTTP_ALLOW_PLAINTEXT")
  httpThink := dupEnvPref getenv "FSQL_REASONING_HTTP_THINK" "FRACTALSQL_HTTP_THINK"
  httpThinkProvider := dupEnvPref getenv "FSQL_REASONING_HTTP_THINK_PROVIDER" "FRACTALSQL_HTTP_THINK_PROVIDER"
  httpNativeUrl := dupEnvPref getenv "FSQL_REASONING_HTTP_NATIVE_URL" "FRACTALSQL_HTTP_NATIVE_URL"
  httpNumCtx := dupEnvPref getenv "FSQL_REASONING_HTTP_NUM_CTX" "FRACTALSQL_HTTP_NUM_CTX"
  maxAttempts :=
    match dupEnv getenv "FRACTALSQL_TEXT_TO_SQL_MAX_ATTEMPTS" with
    | some v => if 1 ≤ atoi v ∧ atoi v ≤ 10 then atoi v else 2
    | none => 2
  allowedStatements :=
    if getenv "FRACTALSQL_TEXT_TO_SQL_ALLOWED_STATEMENTS" = some (ascii "select_insert_update") then
      ascii "select_insert_update"
    else ascii "select"
  useReview := envOn (dupEnv getenv "FRACTALSQL_TEXT_TO_SQL_USE_REVIEW")

/-- The snapshot of `ent_env_capture_locked`. Here an empty variable is a value. -/
def entEnvCapture : EnterpriseConfig where
  lib := getenv "FRACTALSQL_ENTERPRISE_LIB"
  ledgerPath := getenv "FRACTALSQL_ENTERPRISE_LEDGER_PATH"
  ledgerKey := getenv "FRACTALSQL_ENTERPRISE_LEDGER_KEY"
  requireSig := (dupEnv getenv "FRACTALSQL_ENTERPRISE_REQUIRE_SIGNATURE").all (·.head? ≠ some 48)

end Boot

/-! ### Applying a configuration -/

/-- `struct fsq_provider_cfg`: the value of each key whose presence bit is set. -/
structure ProviderCfg where
  text : TextKey → Option Bytes
  flag : FlagKey → Option Bool
  long : LongKey → Option ℤ

def Config.provider (c : Config) : ProviderCfg where
  text k := if c.present (.text k) then some (c.text k) else none
  flag k := if c.present (.flag k) then some (c.flag k) else none
  long k := if c.present (.long k) then some (c.long k) else none

/-- The settings `fractalsql_cognition_apply_provider` installs. -/
def ProviderCfg.cognition (c : ProviderCfg) (env : CognitionConfig) : CognitionConfig where
  reasoningPlugin := c.text .reasoningPlugin <|> env.reasoningPlugin
  httpUrl := c.text .reasoningUrl <|> env.httpUrl
  httpToken := c.text .reasoningToken <|> env.httpToken
  httpModel := c.text .reasoningModel <|> env.httpModel
  httpAllowPlaintext := (c.flag .reasoningAllowPlaintext).getD env.httpAllowPlaintext
  httpEmbedUrl := c.text .embedUrl <|> env.httpEmbedUrl
  httpEmbedModel := c.text .embedModel <|> env.httpEmbedModel
  httpThink := c.text .think <|> env.httpThink
  httpThinkProvider := c.text .thinkProvider <|> env.httpThinkProvider
  httpNativeUrl := c.text .thinkNativeUrl <|> env.httpNativeUrl
  httpNumCtx := (c.long .thinkNumCtx).map decimalInt <|> env.httpNumCtx
  httpResponseMode := env.httpResponseMode

/-- The settings `fractalsql_textsql_apply_provider` installs. -/
def ProviderCfg.textsql (c : ProviderCfg) (env : T2sConfig) : T2sConfig where
  reasoningPlugin := c.text .reasoningPlugin <|> env.reasoningPlugin
  httpUrl := c.text .reasoningUrl <|> env.httpUrl
  httpToken := c.text .reasoningToken <|> env.httpToken
  httpModel := c.text .reasoningModel <|> env.httpModel
  httpAllowPlaintext := (c.flag .reasoningAllowPlaintext).getD env.httpAllowPlaintext
  maxAttempts := (c.long .t2sMaxAttempts).getD env.maxAttempts
  allowedStatements := (c.text .t2sAllowedStatements).getD env.allowedStatements
  useReview := (c.flag .t2sUseReview).getD env.useReview
  httpThink := c.text .think <|> env.httpThink
  httpThinkProvider := c.text .thinkProvider <|> env.httpThinkProvider
  httpNativeUrl := c.text .thinkNativeUrl <|> env.httpNativeUrl
  httpNumCtx := (c.long .thinkNumCtx).map decimalInt <|> env.httpNumCtx

/-- The settings `fractalsql_enterprise_apply_provider` installs. -/
def ProviderCfg.enterprise (c : ProviderCfg) (env : EnterpriseConfig) : EnterpriseConfig where
  lib := c.text .enterpriseLib <|> env.lib
  ledgerPath := c.text .enterpriseLedgerPath <|> env.ledgerPath
  ledgerKey := c.text .enterpriseLedgerKey <|> env.ledgerKey
  requireSig := (c.flag .enterpriseRequireSignature).getD env.requireSig

/-- A path that names something. -/
def Named (path : Option Bytes) : Prop := path.getD [] ≠ []

instance (path : Option Bytes) : Decidable (Named path) := inferInstanceAs (Decidable (_ ≠ _))

/-- The enterprise tier. Only a library that has a path is ever loaded. -/
structure Enterprise where
  config : EnterpriseConfig
  loaded : Bool := false
  attempted : Bool := false
  loaded_lib : loaded = true → Named config.lib

/-- `fractalsql_enterprise_check_provider` accepts. -/
def Enterprise.checkProvider (e : Enterprise) (c : ProviderCfg) : Bool :=
  !(e.loaded && (c.text .enterpriseLib).any fun lib =>
    e.config.lib.any fun current => current ≠ [] && lib ≠ current)

/-- `fractalsql_enterprise_apply_provider`, `none` when it refuses. -/
def Enterprise.applyProvider (e : Enterprise) (env : EnterpriseConfig) (c : ProviderCfg) : Option Enterprise :=
  if h : e.loaded = true ∧ (c.enterprise env).lib ≠ e.config.lib then none
  else some {
    config := c.enterprise env
    loaded := e.loaded
    attempted := e.loaded && e.attempted
    loaded_lib hl := by
      have heq : (c.enterprise env).lib = e.config.lib := not_not.mp fun hne => h ⟨hl, hne⟩
      exact heq ▸ e.loaded_lib hl }

/-- `ensure_enterprise_lib`; `ok` is the outcome of the signature gate, the load and the
symbol resolution. -/
def Enterprise.ensureLib (e : Enterprise) (ok : Bool) : Enterprise :=
  if e.loaded || e.attempted then e
  else if h : Named e.config.lib then { e with loaded := ok, attempted := true, loaded_lib := fun _ => h }
  else { e with attempted := true }

/-- What the three consumers hold. -/
structure Consumers where
  cognition : CognitionConfig
  textsql : T2sConfig
  enterprise : Enterprise
  tiers : Tier → TierState := fun _ => {}

/-- The tier without its loaded flag and fingerprint. -/
def Consumers.forget (s : Consumers) (t : Tier) : Tier → TierState := Function.update s.tiers t {}

/-- `fractalsql_cognition_apply_provider`. -/
def Consumers.applyCognition (s : Consumers) (env : CognitionConfig) (c : ProviderCfg) : Consumers :=
  { s with
    cognition := c.cognition env
    tiers := Function.update (s.forget .reason) .embed {} }

/-- `fractalsql_textsql_apply_provider`. -/
def Consumers.applyTextsql (s : Consumers) (env : T2sConfig) (c : ProviderCfg) : Consumers :=
  { s with
    textsql := c.textsql env
    tiers := Function.update (s.forget .t2s) .review {} }

end FractalSQL.Provider
