import FractalSQL.Provider.Settings
import FractalSQL.Service.Protocol

/-!
# RELOAD

`handle_reload` on the POSIX build: parse, compare, validate, check every consumer, apply
to every consumer, publish. The enterprise consumer looks at the library path when it
checks only if the new file names one, when it applies in every case.
-/
namespace FractalSQL.Provider
open Lib Service

structure Reply where
  status : Status
  text : String
deriving DecidableEq

/-- The published snapshot and the consumers. -/
structure Daemon where
  snapshot : Config
  consumers : Consumers

section Reload

variable (site : Site) (getenv : String → Option Bytes)

/-- `handle_reload` up to the provider settings, on the content of the file. -/
def reparse (cur : Config) (file : Option Bytes) : Except String Config :=
  match file.bind (loadConfig site) with
  | none => .error "reload failed: config file unreadable"
  | some next =>
    if next.text .socketPath ≠ cur.text .socketPath ∨ next.text .hmacKeyFile ≠ cur.text .hmacKeyFile then
      .error "socket_path and hmac_key_file changes require a restart"
    else if validateCfg site next then .ok next
    else .error "reload failed: key/config file permissions rejected"

/-- `daemon_check_provider`. The cognition and text-to-SQL checks accept everything. -/
def Consumers.checkProvider (s : Consumers) (next : Config) : Bool :=
  validateProviderCfg next && s.enterprise.checkProvider next.provider

/-- `daemon_apply_provider`: the consumers afterwards, and whether all of them accepted. -/
def Consumers.applyProvider (s : Consumers) (next : Config) : Consumers × Bool :=
  let s := s.applyCognition (captureEnvFb getenv) next.provider
  let s := s.applyTextsql (captureT2sEnvFb getenv) next.provider
  match s.enterprise.applyProvider (entEnvCapture getenv) next.provider with
  | none => (s, false)
  | some e => ({ s with enterprise := e }, true)

/-- `handle_reload` of a connection that borrowed the snapshot `cur`. -/
def Daemon.handleReload (s : Daemon) (cur : Config) (file : Option Bytes) : Daemon × Reply :=
  match reparse site cur file with
  | .error text => (s, ⟨.args, text⟩)
  | .ok next =>
    if s.consumers.checkProvider next then
      match s.consumers.applyProvider getenv next with
      | (consumers, false) =>
        ({ s with consumers := consumers },
          ⟨.args, "reload failed: applying provider settings (see the daemon log)"⟩)
      | (consumers, true) => (⟨next, consumers⟩, ⟨.ok, "reloaded"⟩)
    else (s, ⟨.args, "reload failed: provider settings rejected (see the daemon log)"⟩)

/-- The daemon once `main` has read its file. -/
def Daemon.start (file : Bytes) : Option Daemon :=
  (loadConfig site file).bind fun cfg =>
    let consumers : Consumers := {
      cognition := {}
      textsql := {}
      enterprise := { config := entEnvCapture getenv, loaded_lib := by rintro ⟨⟩ } }
    if validateCfg site cfg && consumers.checkProvider cfg then
      match consumers.applyProvider getenv cfg with
      | (consumers, true) => some ⟨cfg, consumers⟩
      | (_, false) => none
    else none

/-- The observable configuration of `s'` is that of `s`. -/
structure Unchanged (s s' : Daemon) : Prop where
  snapshot : s'.snapshot = s.snapshot
  cognition : s'.consumers.cognition = s.consumers.cognition
  textsql : s'.consumers.textsql = s.consumers.textsql
  enterprise : s'.consumers.enterprise = s.consumers.enterprise
  tiers : ∀ t, (s'.consumers.tiers t).loaded = (s.consumers.tiers t).loaded

theorem Unchanged.refl (s : Daemon) : Unchanged s s := ⟨rfl, rfl, rfl, rfl, fun _ => rfl⟩

/-- The file parses and passes every check. -/
def Accepted (s : Daemon) (cur : Config) (file : Option Bytes) (next : Config) : Prop :=
  reparse site cur file = .ok next ∧ s.consumers.checkProvider next = true

/-- A library is loaded, the file names none, and the boot environment does not name
that one. -/
structure DropsLoadedLib (s : Consumers) (next : Config) : Prop where
  loaded : s.enterprise.loaded = true
  absent : next.present (.text .enterpriseLib) = false
  other : getenv "FRACTALSQL_ENTERPRISE_LIB" ≠ s.enterprise.config.lib

/-- The cognition and text-to-SQL settings of a file are in force already, and none of
their tiers has loaded its plugin. -/
structure InForce (s : Consumers) (next : Config) : Prop where
  cognition : next.provider.cognition (captureEnvFb getenv) = s.cognition
  textsql : next.provider.textsql (captureT2sEnvFb getenv) = s.textsql
  tiers : ∀ t, (s.tiers t).loaded = false

variable {site getenv}

/-- After its check has accepted, the enterprise consumer refuses to apply exactly when
the new file names no library and the fallback is not the loaded one. -/
theorem Enterprise.applyProvider_eq_none {e : Enterprise} {env : EnterpriseConfig} {c : ProviderCfg}
    (hcheck : e.checkProvider c = true) :
    e.applyProvider env c = none ↔
      e.loaded = true ∧ c.text .enterpriseLib = none ∧ env.lib ≠ e.config.lib := by
  have hiff : e.applyProvider env c = none ↔ e.loaded = true ∧ (c.enterprise env).lib ≠ e.config.lib := by
    unfold Enterprise.applyProvider
    split <;> simp_all
  rw [hiff]
  refine and_congr_right fun hl => ?_
  cases hlib : c.text .enterpriseLib with
  | none => simp [ProviderCfg.enterprise, hlib]
  | some lib =>
    have hnamed := e.loaded_lib hl
    cases hcur : e.config.lib with
    | none => simp [Named, hcur] at hnamed
    | some current =>
      have hne : current ≠ [] := by simpa [Named, hcur] using hnamed
      have heq : lib = current := by simpa [Enterprise.checkProvider, hl, hlib, hcur, hne] using hcheck
      simp [ProviderCfg.enterprise, hlib, heq]

theorem Consumers.checkProvider_enterprise {s : Consumers} {next : Config}
    (h : s.checkProvider next = true) : s.enterprise.checkProvider next.provider = true :=
  (Bool.and_eq_true_iff.mp h).2

theorem Config.provider_text_eq_none {c : Config} {k : TextKey} :
    c.provider.text k = none ↔ c.present (.text k) = false := by
  simp [Config.provider]

/-- The consumers when the last of them refuses. -/
def Consumers.applyFirst (s : Consumers) (getenv : String → Option Bytes) (next : Config) : Consumers :=
  (s.applyCognition (captureEnvFb getenv) next.provider).applyTextsql (captureT2sEnvFb getenv) next.provider

theorem Consumers.applyProvider_cases (s : Consumers) {next : Config} (hcheck : s.checkProvider next = true) :
    (DropsLoadedLib getenv s next ∧ s.applyProvider getenv next = (s.applyFirst getenv next, false)) ∨
    (¬ DropsLoadedLib getenv s next ∧ (s.applyProvider getenv next).2 = true) := by
  have hiff := @Enterprise.applyProvider_eq_none _ (entEnvCapture getenv) _
    (Consumers.checkProvider_enterprise hcheck)
  rw [Config.provider_text_eq_none] at hiff
  by_cases hdrop : DropsLoadedLib getenv s next
  · have hnone := hiff.mpr ⟨hdrop.loaded, hdrop.absent, hdrop.other⟩
    exact .inl ⟨hdrop, by simp only [Consumers.applyProvider, Consumers.applyTextsql, Consumers.applyCognition,
      Consumers.applyFirst, hnone]⟩
  · refine .inr ⟨hdrop, ?_⟩
    have hsome : s.enterprise.applyProvider (entEnvCapture getenv) next.provider ≠ none :=
      fun hnone => hdrop ⟨(hiff.mp hnone).1, (hiff.mp hnone).2.1, (hiff.mp hnone).2.2⟩
    obtain ⟨e, he⟩ := Option.ne_none_iff_exists'.mp hsome
    simp only [Consumers.applyProvider, Consumers.applyTextsql, Consumers.applyCognition, he]

theorem applyFirst_loaded (s : Consumers) (next : Config) (t : Tier) :
    ((s.applyFirst getenv next).tiers t).loaded = false := by
  cases t <;> rfl

/-- A refused reload leaves the configuration as it was exactly when it is refused before
the first consumer applies, or that consumer and the next had nothing to change. -/
theorem handleReload_unchanged_iff (s : Daemon) (cur : Config) (file : Option Bytes) :
    ((s.handleReload site getenv cur file).2.status ≠ .ok →
      Unchanged s (s.handleReload site getenv cur file).1) ↔
    ∀ next, Accepted site s cur file next → DropsLoadedLib getenv s.consumers next →
      InForce getenv s.consumers next := by
  cases hparse : reparse site cur file with
  | error text => simp [Daemon.handleReload, Accepted, hparse, Unchanged.refl]
  | ok next =>
    by_cases hcheck : s.consumers.checkProvider next = true
    · obtain ⟨hdrop, heq⟩ | ⟨hdrop, hok⟩ := @Consumers.applyProvider_cases getenv s.consumers _ hcheck
      · have hreload : s.handleReload site getenv cur file =
            ({ s with consumers := s.consumers.applyFirst getenv next },
              ⟨.args, "reload failed: applying provider settings (see the daemon log)"⟩) := by
          simp only [Daemon.handleReload, hparse, hcheck, if_true, heq]
        rw [hreload]
        constructor
        · rintro hkept next' ⟨hparse', -⟩ -
          obtain rfl : next = next' := Except.ok.inj (hparse.symm.trans hparse')
          obtain ⟨-, hcog, ht2s, -, htiers⟩ := hkept (by simp)
          exact ⟨hcog, ht2s, fun t => (htiers t).symm.trans (applyFirst_loaded _ _ t)⟩
        · intro hforce _
          obtain ⟨hcog, ht2s, htiers⟩ := hforce next ⟨hparse, hcheck⟩ hdrop
          exact ⟨rfl, hcog, ht2s, rfl, fun t => (applyFirst_loaded _ _ t).trans (htiers t).symm⟩
      · obtain ⟨consumers, heq⟩ : ∃ consumers, s.consumers.applyProvider getenv next = (consumers, true) :=
          ⟨_, Prod.ext rfl hok⟩
        have hstatus : (s.handleReload site getenv cur file).2.status = .ok := by
          simp only [Daemon.handleReload, hparse, hcheck, if_true, heq]
        refine iff_of_true (fun hne => absurd hstatus hne) fun next' hacc hd => ?_
        obtain rfl : next = next' := Except.ok.inj (hparse.symm.trans hacc.1)
        exact absurd hd hdrop
    · have hreload : s.handleReload site getenv cur file =
          (s, ⟨.args, "reload failed: provider settings rejected (see the daemon log)"⟩) := by
        simp only [Daemon.handleReload, hparse, if_neg hcheck]
      rw [hreload]
      refine iff_of_true (fun _ => Unchanged.refl s) fun next' hacc _ => ?_
      obtain rfl : next = next' := Except.ok.inj (hparse.symm.trans hacc.1)
      exact absurd hacc.2 hcheck

/-- The file of a daemon whose enterprise library is loaded, and the same file without
its last line and with another endpoint. -/
def plainSite : Site where
  readFile path := if path = ascii "/k" then some (ascii "00ff") else none
  worldAccess _ := false
  configPath := ascii "/c"
  euid := 0

def fileWithLib : Bytes :=
  ascii "socket_path=/s\nhmac_key_file=/k\nreasoning_url=http://a\nenterprise_lib=/e.so\n"

def fileWithoutLib : Bytes := ascii "socket_path=/s\nhmac_key_file=/k\nreasoning_url=http://b\n"

theorem loadConfig_fileWithLib (site : Site) :
    loadConfig site fileWithLib = ([(Key.text .socketPath, ascii "/s"), (.text .hmacKeyFile, ascii "/k"),
      (.text .reasoningUrl, ascii "http://a"), (.text .enterpriseLib, ascii "/e.so")].foldlM
        Config.setGiven {}).bind (Config.finish site) := by
  refine loadConfig_of_given ?_
  rw [fileWithLib, List.map_cons, List.map_cons, List.map_cons, List.map_cons]
  simp only [Key.name]
  repeat rw [ascii_ofList]
  decide

theorem loadConfig_fileWithoutLib (site : Site) :
    loadConfig site fileWithoutLib = ([(Key.text .socketPath, ascii "/s"), (.text .hmacKeyFile, ascii "/k"),
      (.text .reasoningUrl, ascii "http://b")].foldlM Config.setGiven {}).bind (Config.finish site) := by
  refine loadConfig_of_given ?_
  rw [fileWithoutLib, List.map_cons, List.map_cons, List.map_cons]
  simp only [Key.name]
  repeat rw [ascii_ofList]
  decide

/-- The daemon after its start and the first enterprise call. -/
def libLoaded : Option Daemon :=
  (Daemon.start plainSite (fun _ => none) fileWithLib).map fun s =>
    { s with consumers := { s.consumers with enterprise := s.consumers.enterprise.ensureLib true } }

/-- The reload that takes the library out of the file is refused with the new endpoint
in force. -/
theorem dropped_lib_half_applied :
    ¬ ∀ (site : Site) (getenv : String → Option Bytes) (s : Daemon) (cur : Config) (file : Option Bytes),
      (s.handleReload site getenv cur file).2.status ≠ .ok →
        Unchanged s (s.handleReload site getenv cur file).1 := by
  intro h
  have hany : libLoaded.any (fun s =>
      let after := s.handleReload plainSite (fun _ => none) s.snapshot (some fileWithoutLib)
      after.2.status = .args ∧ s.consumers.cognition.httpUrl = some (ascii "http://a") ∧
        after.1.consumers.cognition.httpUrl = some (ascii "http://b")) = true := by
    have hparse (s : Daemon) := reparse.eq_1 plainSite s.snapshot (some fileWithoutLib)
    rw [Option.bind_some, loadConfig_fileWithoutLib] at hparse
    have hreload (s : Daemon) :=
      Daemon.handleReload.eq_1 plainSite (fun _ => none) s s.snapshot (some fileWithoutLib)
    simp only [hparse] at hreload
    rw [libLoaded, Daemon.start, loadConfig_fileWithLib]
    simp only [hreload]
    decide
  obtain ⟨s, -, hrun⟩ := (Option.any_eq_true _ _).mp hany
  rw [decide_eq_true_eq] at hrun
  obtain ⟨hstatus, hbefore, hafter⟩ := hrun
  have hkept := h plainSite (fun _ => none) s s.snapshot (some fileWithoutLib) (by rw [hstatus]; decide)
  rw [hkept.cognition, hbefore, ascii_ofList, ascii_ofList] at hafter
  exact absurd hafter (by decide)

end Reload

end FractalSQL.Provider
