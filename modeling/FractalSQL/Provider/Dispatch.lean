import FractalSQL.Lib.Machine
import FractalSQL.Provider.Settings

/-!
# Plugin loads and dispatches

`fractal_reason`, `fractal_embed`, `fractal_t2s_generate` and `fractal_t2s_review` on any
number of threads. Each publishes its tier's settings and its session's overrides into the
bridge variables of the process, loads the plugin when their fingerprint is not that of
the tier's instance, and dispatches. A step is one access to the environment, one load,
or one lock operation; provider applies come in between.
-/
namespace FractalSQL.Provider
open Lib

/-! ### What a tier publishes -/

/-- One `setenv`, or `unsetenv` where there is no value. -/
abbrev Write := BridgeVar × Option Bytes

def plaintext (on : Bool) : Option Bytes := if on then some (ascii "1") else none

/-- `apply_reason_env_locked`. -/
def CognitionConfig.reasonEnv (c : CognitionConfig) : List Write :=
  [(.url, c.httpUrl), (.token, c.httpToken), (.model, c.httpModel),
    (.allowPlaintext, plaintext c.httpAllowPlaintext), (.think, c.httpThink),
    (.thinkProvider, c.httpThinkProvider), (.nativeUrl, c.httpNativeUrl), (.numCtx, c.httpNumCtx),
    (.mode, none), (.responseMode, c.httpResponseMode), (.systemTag, none)]

/-- `apply_embed_env_locked`. Its first `setenv` relies on the endpoint being there. -/
def CognitionConfig.embedEnv (c : CognitionConfig) : List Write :=
  [(.url, c.httpEmbedUrl), (.token, c.httpToken), (.model, c.httpEmbedModel),
    (.allowPlaintext, plaintext c.httpAllowPlaintext), (.mode, some (ascii "embedding")),
    (.responseMode, none), (.systemTag, none), (.think, none), (.thinkProvider, none),
    (.nativeUrl, none), (.numCtx, none)]

/-- What the generate and the review tier have in common. -/
def T2sConfig.chatEnv (c : T2sConfig) : List Write :=
  [(.url, c.httpUrl), (.token, c.httpToken), (.model, c.httpModel),
    (.allowPlaintext, plaintext c.httpAllowPlaintext), (.think, c.httpThink),
    (.thinkProvider, c.httpThinkProvider), (.nativeUrl, c.httpNativeUrl), (.numCtx, c.httpNumCtx),
    (.mode, none)]

/-- `apply_generate_env_locked`. -/
def T2sConfig.generateEnv (c : T2sConfig) (tag : Option Bytes) : List Write :=
  c.chatEnv ++ [(.responseMode, some (ascii "code")), (.systemTag, tag.filter (· ≠ []))]

/-- `apply_review_env_locked`. -/
def T2sConfig.reviewEnv (c : T2sConfig) : List Write :=
  c.chatEnv ++ [(.responseMode, none), (.systemTag, none)]

/-- The keys a session may override that are bridged. -/
inductive OverrideKey where
  | reasoningModel
  | embedModel
  | think
  | thinkNumCtx
deriving DecidableEq

/-- The bridge variable of a key and whether the calling tier is in its mask, in the
order of the key table. -/
def overrideVars : Tier → List (OverrideKey × BridgeVar)
  | .embed => [(.embedModel, .model)]
  | .reason | .t2s | .review => [(.reasoningModel, .model), (.think, .think), (.thinkNumCtx, .numCtx)]

/-- `fractal_config_apply_env_overrides` for a session that holds `o`. -/
def overrideWrites (t : Tier) (o : OverrideKey → Option Bytes) : List Write :=
  (overrideVars t).filterMap fun p => (o p.1).map fun v => (p.2, some v)

/-- The environment after a list of writes. -/
def publish (ws : List Write) (env : Environment) : Environment :=
  ws.foldl (fun env w => Function.update env w.1 w.2) env

/-! ### Calls -/

/-- Two files have a `g_load_lock` of their own. -/
inductive LoadLock where
  | cognition
  | textsql
deriving DecidableEq

def Tier.lock : Tier → LoadLock
  | .reason | .embed => .cognition
  | .t2s | .review => .textsql

/-- The two places a call publishes at: in `ensure_*_loaded`, and before its dispatch. -/
inductive Round where
  | ensure
  | dispatch
deriving DecidableEq

/-- What a call does next. -/
inductive Pc where
  | acquire
  /-- The presence test of `ensure_*_loaded`. -/
  | test
  | lockLoad
  | lockEnv
  /-- `embed_env_save`, and what is left of it. -/
  | save (todo : List BridgeVar)
  | publish (todo : List Write)
  /-- The fingerprint of what was published, and what has been read of it. -/
  | compare (todo : List BridgeVar) (seen : Fingerprint)
  /-- `checked_load_reasoning`. -/
  | load
  /-- The fingerprint after the load. -/
  | record (todo : List BridgeVar) (seen : Fingerprint)
  | unlockEnv (ok : Bool)
  | dispatch
  /-- `embed_env_close`, and what is left of it. -/
  | restore (ok : Bool) (todo : List Write)
  | unlockLoad (ok : Bool)
  | mark
  | done
deriving DecidableEq

structure Call where
  tier : Tier
  session : ℕ
  /-- The system tag of a generate call. -/
  tag : Option Bytes := none
  round : Round := .ensure
  /-- The variables `embed_env_save` copied. -/
  saved : List Write := []
  pc : Pc := .acquire

structure DispatchState where
  env : Environment
  consumers : Consumers
  /-- The environment each tier's instance was loaded under. -/
  inst : Tier → Option Environment := fun _ => none
  /-- The holders of the load locks and of the environment lock. -/
  loadLock : LoadLock → Option ℕ := fun _ => none
  envLock : Option ℕ := none
  calls : ℕ → Option Call := fun _ => none
  nextCall : ℕ := 0

def DispatchState.setCall (s : DispatchState) (n : ℕ) (call : Call) : DispatchState :=
  { s with calls := Function.update s.calls n (some call) }

/-- The tier's plugin path and, for the embed tier, its endpoint are there. -/
def Consumers.hasKeys (s : Consumers) : Tier → Bool
  | .reason => s.cognition.reasoningPlugin.isSome
  | .embed => s.cognition.reasoningPlugin.isSome && s.cognition.httpEmbedUrl.isSome
  | .t2s | .review => s.textsql.reasoningPlugin.isSome

/-- The path `checked_load_reasoning` reads. -/
def Consumers.pluginPath (s : Consumers) (t : Tier) : Option Bytes :=
  match t.lock with
  | .cognition => s.cognition.reasoningPlugin
  | .textsql => s.textsql.reasoningPlugin

section Machine

variable (getenv : String → Option Bytes) (overrides : ℕ → OverrideKey → Option Bytes)

/-- The writes of the tier's apply and of the session's overrides. -/
def Call.writes (s : Consumers) (call : Call) : List Write :=
  (match call.tier with
    | .reason => s.cognition.reasonEnv
    | .embed => s.cognition.embedEnv
    | .t2s => s.textsql.generateEnv call.tag
    | .review => s.textsql.reviewEnv) ++ overrideWrites call.tier (overrides call.session)

/-- The next step of a call; `ok` is the outcome of the load, if that is the step. -/
def DispatchState.advance (s : DispatchState) (n : ℕ) (call : Call) (ok : Bool) : Option DispatchState :=
  match call.pc with
  | .acquire =>
    if (s.consumers.tiers call.tier).loaded then
      some (s.setCall n { call with round := .dispatch, pc := .lockLoad })
    else some (s.setCall n { call with round := .ensure, pc := .test })
  | .test =>
    if s.loadLock call.tier.lock ≠ none then none
    else some (s.setCall n { call with pc := if s.consumers.hasKeys call.tier then .lockLoad else .done })
  | .lockLoad =>
    if s.loadLock call.tier.lock ≠ none then none
    else some ({ s with loadLock := Function.update s.loadLock call.tier.lock (some n) }.setCall n
      { call with pc := .lockEnv })
  | .lockEnv =>
    if s.envLock ≠ none then none
    else some ({ s with envLock := some n }.setCall n { call with
      saved := []
      pc := if call.tier = Tier.embed then .save bridgeVars else .publish (call.writes overrides s.consumers) })
  | .save (v :: todo) =>
    some (s.setCall n { call with saved := call.saved ++ [(v, s.env v)], pc := .save todo })
  | .save [] => some (s.setCall n { call with pc := .publish (call.writes overrides s.consumers) })
  | .publish (w :: todo) =>
    some ({ s with env := Function.update s.env w.1 w.2 }.setCall n { call with pc := .publish todo })
  | .publish [] => some (s.setCall n { call with pc := .compare hashedVars [] })
  | .compare (v :: todo) seen => some (s.setCall n { call with pc := .compare todo (seen ++ [s.env v]) })
  | .compare [] seen =>
    some (s.setCall n { call with
      pc := if (s.consumers.tiers call.tier).fp = some seen then .unlockEnv true else .load })
  | .load =>
    if ok then
      some ({ s with inst := Function.update s.inst call.tier (some s.env) }.setCall n
        { call with pc := .record hashedVars [] })
    else some (s.setCall n { call with pc := .unlockEnv false })
  | .record (v :: todo) seen => some (s.setCall n { call with pc := .record todo (seen ++ [s.env v]) })
  | .record [] seen =>
    some ({ s with consumers := { s.consumers with
        tiers := Function.update s.consumers.tiers call.tier
          { s.consumers.tiers call.tier with fp := some seen } } }.setCall n
      { call with pc := .unlockEnv true })
  | .unlockEnv ok =>
    some ({ s with envLock := none }.setCall n { call with
      pc := if ok ∧ call.round = Round.dispatch then .dispatch
        else if call.tier = Tier.embed then .restore ok call.saved else .unlockLoad ok })
  | .dispatch =>
    some (s.setCall n { call with
      pc := if call.tier = Tier.embed then .restore true call.saved else .unlockLoad true })
  | .restore ok (w :: todo) =>
    some ({ s with env := Function.update s.env w.1 w.2 }.setCall n { call with pc := .restore ok todo })
  | .restore ok [] => some (s.setCall n { call with pc := .unlockLoad ok })
  | .unlockLoad ok =>
    some ({ s with loadLock := Function.update s.loadLock call.tier.lock none }.setCall n { call with
      pc := if ok ∧ call.round = Round.ensure then .mark else .done })
  | .mark =>
    some ({ s with consumers := { s.consumers with
        tiers := Function.update s.consumers.tiers call.tier
          { s.consumers.tiers call.tier with loaded := true } } }.setCall n
      { call with round := .dispatch, pc := .lockLoad })
  | .done => none

inductive DispatchLabel where
  | start (tier : Tier) (session : ℕ) (tag : Option Bytes)
  | applyCognition (c : ProviderCfg)
  | applyTextsql (c : ProviderCfg)
  | advance (n : ℕ) (ok : Bool)

def DispatchState.step (s : DispatchState) : DispatchLabel → Option (DispatchState × List Empty)
  | .start tier session tag =>
    some ({ s with
      calls := Function.update s.calls s.nextCall (some { tier := tier, session := session, tag := tag })
      nextCall := s.nextCall + 1 }, [])
  | .applyCognition c =>
    if s.loadLock .cognition ≠ none then none
    else some ({ s with consumers := s.consumers.applyCognition (captureEnvFb getenv) c }, [])
  | .applyTextsql c =>
    if s.loadLock .textsql ≠ none then none
    else some ({ s with consumers := s.consumers.applyTextsql (captureT2sEnvFb getenv) c }, [])
  | .advance n ok =>
    (s.calls n).bind fun call => (s.advance overrides n call ok).map fun s' => (s', [])

end Machine

/-- After the startup, before any call. -/
def DispatchState.initial (consumers : Consumers) (env : Environment) : DispatchState :=
  { env := env, consumers := { consumers with tiers := fun _ => {} } }

end FractalSQL.Provider
