import FractalSQL.Provider.Dispatch

/-!
# Configuration keys in use

A dispatch tests its keys once, or takes a set loaded flag as the proof of an earlier
test, and reads them in later critical sections. They are there exactly as long as no
provider apply removes them in between.
-/
namespace FractalSQL.Provider
open Lib

/-- The call relies on its keys: it has tested them, or read a set loaded flag. -/
def Pc.committed : Pc → Bool
  | .acquire | .test | .done => false
  | _ => true

/-- Every load has a plugin path, and every embed publication an endpoint. -/
structure KeysPresent (s : DispatchState) : Prop where
  load : ∀ n call, s.calls n = some call → call.pc = .load → s.consumers.pluginPath call.tier ≠ none
  embed : ∀ n call todo, s.calls n = some call → call.tier = .embed → call.pc = .publish todo →
    s.consumers.cognition.httpEmbedUrl ≠ none

/-- Calls in flight keep the keys they rely on. -/
def keepsInFlight (s : DispatchState) (consumers : Consumers) : Prop :=
  ∀ n < s.nextCall, (s.calls n).all (fun call => !call.pc.committed || consumers.hasKeys call.tier) = true

instance (s : DispatchState) (consumers : Consumers) : Decidable (keepsInFlight s consumers) :=
  inferInstanceAs (Decidable (∀ n < s.nextCall, _))

/-- A provider apply removes no key that a call in flight relies on. -/
def KeepsKeys (getenv : String → Option Bytes) (s : DispatchState) (_ : List Empty) : DispatchLabel → Prop
  | .applyCognition c => keepsInFlight s (s.consumers.applyCognition (captureEnvFb getenv) c)
  | .applyTextsql c => keepsInFlight s (s.consumers.applyTextsql (captureT2sEnvFb getenv) c)
  | _ => True

instance (getenv : String → Option Bytes) (s : DispatchState) (log : List Empty) :
    ∀ a, Decidable (KeepsKeys getenv s log a)
  | .applyCognition _ | .applyTextsql _ => inferInstanceAs (Decidable (keepsInFlight _ _))
  | .start _ _ _ | .advance _ _ => isTrue trivial

variable {getenv : String → Option Bytes} {overrides : ℕ → OverrideKey → Option Bytes}

/-- What a step of a call can do to the keys, the flags and the call's commitment. -/
structure Advanced (s s' : DispatchState) (n : ℕ) (call : Call) : Prop where
  cognition : s'.consumers.cognition = s.consumers.cognition
  textsql : s'.consumers.textsql = s.consumers.textsql
  next : s'.nextCall = s.nextCall
  flag : ∀ t, (s'.consumers.tiers t).loaded = true →
    (s.consumers.tiers t).loaded = true ∨ t = call.tier ∧ call.pc.committed = true
  call : ∃ call', s'.calls = Function.update s.calls n (some call') ∧ call'.tier = call.tier ∧
    (call'.pc.committed = true → call.pc.committed = true ∨ (s.consumers.tiers call.tier).loaded = true ∨
      s.consumers.hasKeys call.tier = true)

theorem Advanced.of_setCall {s : DispatchState} {n : ℕ} {call call' : Call} (htier : call'.tier = call.tier)
    (hpc : call'.pc.committed = true → call.pc.committed = true ∨ (s.consumers.tiers call.tier).loaded = true ∨
      s.consumers.hasKeys call.tier = true) : Advanced s (s.setCall n call') n call :=
  ⟨rfl, rfl, rfl, fun _ h => .inl h, call', rfl, htier, hpc⟩

theorem DispatchState.advance_advanced {s s' : DispatchState} {n : ℕ} {call : Call} {ok : Bool}
    (h : s.advance overrides n call ok = some s') : Advanced s s' n call := by
  unfold DispatchState.advance at h
  split at h
  case h_1 =>
    split at h
    · rename_i hl
      cases h
      exact .of_setCall rfl fun _ => .inr (.inl hl)
    · cases h
      exact .of_setCall rfl (by simp [Pc.committed])
  case h_2 =>
    split at h
    · cases h
    · cases h
      refine .of_setCall rfl fun hc => .inr (.inr ?_)
      by_contra hk
      simp [hk, Pc.committed] at hc
  case h_3 | h_4 =>
    rename_i hpc
    split at h
    · cases h
    · cases h
      exact ⟨rfl, rfl, rfl, fun _ hl => .inl hl, _, rfl, rfl, fun _ => .inl (by rw [hpc]; rfl)⟩
  case h_13 =>
    rename_i hpc
    cases h
    refine ⟨rfl, rfl, rfl, fun t hl => ?_, _, rfl, rfl, fun _ => .inl (by rw [hpc]; rfl)⟩
    by_cases ht : t = call.tier
    · exact .inr ⟨ht, by rw [hpc]; rfl⟩
    · exact .inl (by simpa [DispatchState.setCall, ht] using hl)
  case h_19 =>
    rename_i hpc
    cases h
    refine ⟨rfl, rfl, rfl, fun t hl => ?_, _, rfl, rfl, fun _ => .inl (by rw [hpc]; rfl)⟩
    by_cases ht : t = call.tier
    · exact .inr ⟨ht, by rw [hpc]; rfl⟩
    · exact .inl (by simpa [DispatchState.setCall, ht] using hl)
  case h_20 => cases h
  case h_11 =>
    rename_i hpc
    split at h
    all_goals
      cases h
      exact ⟨rfl, rfl, rfl, fun _ hl => .inl hl, _, rfl, rfl, fun _ => .inl (by rw [hpc]; rfl)⟩
  all_goals
    rename_i hpc
    cases h
    exact ⟨rfl, rfl, rfl, fun _ hl => .inl hl, _, rfl, rfl, fun _ => .inl (by rw [hpc]; rfl)⟩

theorem Consumers.hasKeys_congr {s s' : Consumers} (hc : s'.cognition = s.cognition) (ht : s'.textsql = s.textsql)
    (t : Tier) : s'.hasKeys t = s.hasKeys t := by
  cases t <;> simp only [Consumers.hasKeys, hc, ht]

/-- A set flag, and a call that relies on its keys, has them. -/
structure KeysKept (s : DispatchState) : Prop where
  known : ∀ n call, s.calls n = some call → n < s.nextCall
  flag : ∀ t, (s.consumers.tiers t).loaded = true → s.consumers.hasKeys t = true
  call : ∀ n call, s.calls n = some call → call.pc.committed = true → s.consumers.hasKeys call.tier = true

theorem KeysKept.initial (consumers : Consumers) (env : Environment) : KeysKept (.initial consumers env) where
  known n call hcall := by simp [DispatchState.initial] at hcall
  flag t hl := by simp [DispatchState.initial] at hl
  call n call hcall := by simp [DispatchState.initial] at hcall

theorem keepsInFlight.hasKeys {s : DispatchState} {consumers : Consumers} (h : keepsInFlight s consumers)
    (hs : KeysKept s) {n : ℕ} {call : Call} (hcall : s.calls n = some call) (hpc : call.pc.committed = true) :
    consumers.hasKeys call.tier = true := by
  simpa [hcall, hpc] using h n (hs.known n call hcall)

theorem KeysKept.advance {s s' : DispatchState} {n : ℕ} {call : Call} (h : KeysKept s)
    (hcall : s.calls n = some call) (ha : Advanced s s' n call) : KeysKept s' := by
  have hkeys := Consumers.hasKeys_congr ha.cognition ha.textsql
  obtain ⟨call', hupd, htier, hpc⟩ := ha.call
  refine ⟨fun m callm hm => ?_, fun t hl => ?_, fun m callm hm hcom => ?_⟩
  · rw [ha.next]
    rw [hupd] at hm
    by_cases hmn : m = n
    · exact hmn ▸ h.known n call hcall
    · rw [Function.update_of_ne hmn] at hm
      exact h.known m callm hm
  · rw [hkeys]
    obtain hl | ⟨rfl, hcom⟩ := ha.flag t hl
    · exact h.flag t hl
    · exact h.call n call hcall hcom
  · rw [hkeys]
    rw [hupd] at hm
    by_cases hmn : m = n
    · subst hmn
      rw [Function.update_self, Option.some.injEq] at hm
      subst hm
      rw [htier]
      obtain hcom | hl | hk := hpc hcom
      · exact h.call m call hcall hcom
      · exact h.flag _ hl
      · exact hk
    · rw [Function.update_of_ne hmn] at hm
      exact h.call m callm hm hcom

theorem KeysKept.step {s s' : DispatchState} {log es : List Empty} {a : DispatchLabel} (h : KeysKept s)
    (hkeep : KeepsKeys getenv s log a) (hstep : s.step getenv overrides a = some (s', es)) : KeysKept s' := by
  cases a with
  | start tier session tag =>
    cases hstep
    refine ⟨fun m callm hm => ?_, h.flag, fun m callm hm hcom => ?_⟩ <;> dsimp only at hm
    · by_cases hmn : m = s.nextCall
      · exact hmn ▸ Nat.lt_succ_self _
      · rw [Function.update_of_ne hmn] at hm
        exact Nat.lt_succ_of_lt (h.known m callm hm)
    · by_cases hmn : m = s.nextCall
      · subst hmn
        rw [Function.update_self, Option.some.injEq] at hm
        subst hm
        cases hcom
      · rw [Function.update_of_ne hmn] at hm
        exact h.call m callm hm hcom
  | applyCognition c =>
    obtain ⟨hlock, heq⟩ := Option.ite_none_left_eq_some.mp hstep
    cases heq
    refine ⟨h.known, fun t hl => ?_, fun n call hcall hcom => keepsInFlight.hasKeys hkeep h hcall hcom⟩
    cases t with
    | reason | embed => cases hl
    | t2s | review => exact h.flag _ hl
  | applyTextsql c =>
    obtain ⟨hlock, heq⟩ := Option.ite_none_left_eq_some.mp hstep
    cases heq
    refine ⟨h.known, fun t hl => ?_, fun n call hcall hcom => keepsInFlight.hasKeys hkeep h hcall hcom⟩
    cases t with
    | reason | embed => exact h.flag _ hl
    | t2s | review => cases hl
  | advance n ok =>
    obtain ⟨call, hcall, hmap⟩ := Option.bind_eq_some_iff.mp hstep
    obtain ⟨s'', hadv, heq⟩ := Option.map_eq_some_iff.mp hmap
    cases heq
    exact h.advance hcall (DispatchState.advance_advanced hadv)

theorem KeysKept.keysPresent {s : DispatchState} (h : KeysKept s) : KeysPresent s where
  load n call hcall hpc := by
    have hkeys := h.call n call hcall (by rw [hpc]; rfl)
    cases ht : call.tier with
    | embed =>
      simp only [Consumers.hasKeys, ht, Bool.and_eq_true] at hkeys
      exact Option.isSome_iff_ne_none.mp hkeys.1
    | reason | t2s | review =>
      simp only [Consumers.hasKeys, ht] at hkeys
      exact Option.isSome_iff_ne_none.mp hkeys
  embed n call todo hcall ht hpc := by
    have hkeys := h.call n call hcall (by rw [hpc]; rfl)
    simp only [Consumers.hasKeys, ht, Bool.and_eq_true] at hkeys
    exact Option.isSome_iff_ne_none.mp hkeys.2

/-- Provider applies that spare the calls in flight never let a call use a missing key. -/
theorem keepsKeys_keysPresent {consumers : Consumers} {env : Environment} {as : List DispatchLabel}
    {c : Lib.Config DispatchState Empty}
    (hmeet : StepsMeet (DispatchState.step getenv overrides) (KeepsKeys getenv) ⟨.initial consumers env, []⟩ as)
    (hrun : exec (DispatchState.step getenv overrides) ⟨.initial consumers env, []⟩ as = some c) :
    KeysPresent c.state := by
  have hkept : KeysKept c.state := by
    refine exec_invariant_of (I := fun s _ => KeysKept s) ?_ hmeet (.initial consumers env) hrun
    exact fun hi hkeep hs => hi.step hkeep hs
  exact hkept.keysPresent

/-! ### One call and one apply -/

/-- A file that names a plugin, and one that names none. -/
def pluginCfg (path : Option Bytes) : ProviderCfg where
  text k := if k = .reasoningPlugin then path else none
  flag _ := none
  long _ := none

def pluginSet : Consumers where
  cognition := { reasoningPlugin := some (ascii "/p.so") }
  textsql := {}
  enterprise := { config := ⟨none, none, none, true⟩, loaded_lib := by rintro ⟨⟩ }

/-- A `fractal_reason` up to its load, with an apply after its presence test. -/
def applyAfterTest (path : Option Bytes) : List DispatchLabel :=
  [DispatchLabel.start .reason 1 none, .advance 0 true, .advance 0 true, .applyCognition (pluginCfg path)] ++
    List.replicate 25 (DispatchLabel.advance 0 true)

def runDispatch (as : List DispatchLabel) : Option (Lib.Config DispatchState Empty) :=
  exec (DispatchState.step (fun _ => none) fun _ _ => none) ⟨.initial pluginSet fun _ => none, []⟩ as

theorem applyAfterTest_keysPresent :
    ∃ c call, runDispatch (applyAfterTest (some (ascii "/q.so"))) = some c ∧ c.state.calls 0 = some call ∧
      call.pc = .load ∧ KeysPresent c.state := by
  have hmeet : StepsMeet (DispatchState.step (fun _ => none) fun _ _ => none) (KeepsKeys fun _ => none)
      ⟨.initial pluginSet fun _ => none, []⟩ (applyAfterTest (some (ascii "/q.so"))) := by
    decide
  have hsome : (runDispatch (applyAfterTest (some (ascii "/q.so")))).any (fun c =>
      (c.state.calls 0).any fun call => call.pc = .load) = true := by
    decide
  obtain ⟨c, hrun, hc⟩ := (Option.any_eq_true _ _).mp hsome
  obtain ⟨call, hcall, hpc⟩ := (Option.any_eq_true _ _).mp hc
  exact ⟨c, call, hrun, hcall, of_decide_eq_true hpc, keepsKeys_keysPresent hmeet hrun⟩

/-- The apply removes the plugin between the presence test and the load. -/
theorem load_without_plugin :
    ¬ ∀ (getenv : String → Option Bytes) (overrides : ℕ → OverrideKey → Option Bytes) (consumers : Consumers)
      (env : Environment) (as : List DispatchLabel) (c : Lib.Config DispatchState Empty),
      exec (DispatchState.step getenv overrides) ⟨.initial consumers env, []⟩ as = some c → KeysPresent c.state := by
  intro h
  have hsome : (runDispatch (applyAfterTest none)).any (fun c => (c.state.calls 0).any fun call =>
      call.pc = .load && c.state.consumers.pluginPath call.tier = none) = true := by
    decide
  obtain ⟨c, hrun, hc⟩ := (Option.any_eq_true _ _).mp hsome
  obtain ⟨call, hcall, hpc⟩ := (Option.any_eq_true _ _).mp hc
  rw [Bool.and_eq_true, decide_eq_true_eq, decide_eq_true_eq] at hpc
  exact (h _ _ _ _ _ c hrun).load 0 call hcall hpc.1 hpc.2

end FractalSQL.Provider
