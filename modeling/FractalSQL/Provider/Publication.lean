import FractalSQL.Provider.Presence

/-!
# What a load sees

The embed tier puts the saved variables back after it has released the environment lock,
holding only the load lock it shares with the reason tier. While no thread stands between
its publication and its release of the environment lock, or the variable has its saved
value anyway, a restoring step does no harm, and then every load sees exactly what its
tier published.
-/
namespace FractalSQL.Provider
open Lib

variable {getenv : String → Option Bytes} {overrides : ℕ → OverrideKey → Option Bytes}

/-! ### Publications -/

@[simp] theorem publish_nil (env : Environment) : publish [] env = env := rfl

theorem publish_cons (w : Write) (ws : List Write) (env : Environment) :
    publish (w :: ws) env = publish ws (Function.update env w.1 w.2) := rfl

theorem publish_congr {ws : List Write} {env env' : Environment}
    (h : ∀ v, v ∈ ws.map Prod.fst ∨ env v = env' v) : publish ws env = publish ws env' := by
  induction ws generalizing env env' with
  | nil =>
    funext v
    simpa using h v
  | cons w ws ih =>
    rw [publish_cons, publish_cons]
    refine ih fun v => ?_
    by_cases hv : v = w.1
    · exact .inr (by rw [hv, Function.update_self, Function.update_self])
    · rw [Function.update_of_ne hv, Function.update_of_ne hv]
      simpa [hv] using h v

/-- Every tier writes every bridge variable. -/
theorem Call.writes_cover (s : Consumers) (call : Call) (v : BridgeVar) :
    v ∈ (call.writes overrides s).map Prod.fst := by
  rw [Call.writes, List.map_append, List.mem_append]
  left
  cases call.tier <;> cases v <;>
    simp [CognitionConfig.reasonEnv, CognitionConfig.embedEnv, T2sConfig.generateEnv, T2sConfig.reviewEnv,
      T2sConfig.chatEnv]

variable (overrides) in
/-- The environment that the tier's apply and the session's overrides publish. -/
def Call.target (s : Consumers) (call : Call) : Environment :=
  publish (call.writes overrides s) fun _ => none

theorem Call.publish_writes (s : Consumers) (call : Call) (env : Environment) :
    publish (call.writes overrides s) env = call.target overrides s :=
  publish_congr fun v => .inl (call.writes_cover s v)

theorem fingerprint_eq_iff {env env' : Environment} :
    fingerprint env = fingerprint env' ↔ ∀ v, v ≠ .systemTag → env v = env' v := by
  rw [fingerprint, fingerprint, List.map_inj_left]
  refine forall_congr' fun v => imp_congr_left ?_
  cases v <;> simp [hashedVars, bridgeVars]

/-! ### The property and the condition -/

/-- Every load sees what its call published, and every dispatch runs on an instance
loaded under that environment, up to the system tag. -/
structure LoadsPublished (overrides : ℕ → OverrideKey → Option Bytes) (s : DispatchState) : Prop where
  load : ∀ n call, s.calls n = some call → call.pc = .load → s.env = call.target overrides s.consumers
  dispatch : ∀ n call, s.calls n = some call → call.pc = .dispatch →
    ∃ env, s.inst call.tier = some env ∧ ∀ v, v ≠ .systemTag → env v = call.target overrides s.consumers v

/-- A restoring step is taken while the environment lock is free, or changes nothing. -/
def RestoresAlone (s : DispatchState) (_ : List Empty) : DispatchLabel → Prop
  | .advance n _ =>
    (s.calls n).all (fun call => match call.pc with
      | .restore _ (w :: _) => s.envLock = none || s.env w.1 = w.2
      | _ => true) = true
  | _ => True

instance (s : DispatchState) (log : List Empty) : ∀ a, Decidable (RestoresAlone s log a)
  | .advance _ _ => inferInstanceAs (Decidable (_ = true))
  | .start _ _ _ | .applyCognition _ | .applyTextsql _ => isTrue trivial

/-! ### The invariant -/

def Pc.holdsLoad : Pc → Bool
  | .acquire | .test | .lockLoad | .mark | .done => false
  | _ => true

def Pc.holdsEnv : Pc → Bool
  | .save _ | .publish _ | .compare _ _ | .load | .record _ _ | .unlockEnv _ => true
  | _ => false

theorem Pc.holdsLoad_of_holdsEnv {pc : Pc} (h : pc.holdsEnv = true) : pc.holdsLoad = true := by
  cases pc <;> first | rfl | cases h

/-- The tier's instance was loaded under what the call published. -/
def DispatchState.Fresh (s : DispatchState) (call : Call) (target : Environment) : Prop :=
  ∃ env, s.inst call.tier = some env ∧ fingerprint env = fingerprint target

/-- What a call knows of the environment and of its instance. -/
def DispatchState.Knows (s : DispatchState) (call : Call) (target : Environment) : Prop :=
  match call.pc with
  | .publish todo => Provider.publish todo s.env = target
  | .compare todo seen => s.env = target ∧ seen ++ todo.map s.env = fingerprint s.env
  | .load => s.env = target
  | .record todo seen => s.env = target ∧ seen ++ todo.map s.env = fingerprint s.env ∧ s.Fresh call target
  | .unlockEnv true => s.Fresh call target
  | .dispatch => s.Fresh call target
  | _ => True

def Pc.recording : Pc → Bool
  | .record _ _ => true
  | _ => false

structure Published (overrides : ℕ → OverrideKey → Option Bytes) (s : DispatchState) : Prop where
  loadLock : ∀ n call, s.calls n = some call → call.pc.holdsLoad = true → s.loadLock call.tier.lock = some n
  envLock : ∀ n call, s.calls n = some call → call.pc.holdsEnv = true → s.envLock = some n
  knows : ∀ n call, s.calls n = some call → s.Knows call (call.target overrides s.consumers)
  /-- A valid fingerprint is that of the instance, save while a new one is recorded. -/
  fp : ∀ t f, (s.consumers.tiers t).fp = some f → (∃ env, s.inst t = some env ∧ fingerprint env = f) ∨
    ∃ n call, s.calls n = some call ∧ call.tier = t ∧ call.pc.recording = true

theorem DispatchState.Knows.frame {s s' : DispatchState} {call : Call} {target : Environment}
    (h : s.Knows call target) (henv : call.pc.holdsEnv = true → s'.env = s.env)
    (hinst : call.pc.holdsLoad = true → s'.inst call.tier = s.inst call.tier) : s'.Knows call target := by
  unfold DispatchState.Knows DispatchState.Fresh at *
  cases hpc : call.pc with
  | publish todo | compare todo seen | load =>
    have he := henv (by rw [hpc]; rfl)
    simp only [hpc] at h ⊢
    rw [he]
    exact h
  | record todo seen =>
    have he := henv (by rw [hpc]; rfl)
    have hi := hinst (by rw [hpc]; rfl)
    simp only [hpc] at h ⊢
    rw [he, hi]
    exact h
  | unlockEnv ok =>
    have hi := hinst (by rw [hpc]; rfl)
    cases ok with
    | false => trivial
    | true =>
      simp only [hpc] at h ⊢
      rw [hi]
      exact h
  | dispatch =>
    have hi := hinst (by rw [hpc]; rfl)
    simp only [hpc] at h ⊢
    rw [hi]
    exact h
  | _ => trivial

/-- A call that holds no load lock knows nothing. -/
theorem DispatchState.Knows.of_outside {s : DispatchState} {call : Call} (h : call.pc.holdsLoad = false)
    (target : Environment) : s.Knows call target := by
  unfold DispatchState.Knows
  cases hpc : call.pc <;> simp_all [Pc.holdsLoad]

theorem Published.initial (consumers : Consumers) (env : Environment) :
    Published overrides (.initial consumers env) where
  loadLock n call hcall := by simp [DispatchState.initial] at hcall
  envLock n call hcall := by simp [DispatchState.initial] at hcall
  knows n call hcall := by simp [DispatchState.initial] at hcall
  fp t f hf := by simp [DispatchState.initial] at hf

/-- What a step of a call touches besides the call itself. -/
structure Touches (s s' : DispatchState) (n : ℕ) (call : Call) : Prop where
  cognition : s'.consumers.cognition = s.consumers.cognition
  textsql : s'.consumers.textsql = s.consumers.textsql
  loadLock : ∀ l, s'.loadLock l = s.loadLock l ∨ s.loadLock l = none ∨ s.loadLock l = some n
  envLock : s'.envLock = s.envLock ∨ s.envLock = none ∨ s.envLock = some n
  env : s'.env = s.env ∨ call.pc.holdsEnv = true ∨ s.envLock = none
  inst : ∀ t, s'.inst t = s.inst t ∨ t = call.tier ∧ call.pc.holdsLoad = true

theorem Call.target_congr {s s' : Consumers} (hc : s'.cognition = s.cognition) (ht : s'.textsql = s.textsql)
    (call : Call) : call.target overrides s' = call.target overrides s := by
  rw [Call.target, Call.target, Call.writes, Call.writes, hc, ht]

/-- A step keeps the invariant if it keeps it for its own call and for the fingerprints. -/
theorem Published.advance {s s' : DispatchState} {n : ℕ} {call call' : Call} (h : Published overrides s)
    (hcall : s.calls n = some call) (hupd : s'.calls = Function.update s.calls n (some call'))
    (ht : Touches s s' n call)
    (hload : call'.pc.holdsLoad = true → s'.loadLock call'.tier.lock = some n)
    (henv : call'.pc.holdsEnv = true → s'.envLock = some n)
    (hknows : s'.Knows call' (call'.target overrides s.consumers))
    (hfp : ∀ t f, (s'.consumers.tiers t).fp = some f → (∃ env, s'.inst t = some env ∧ fingerprint env = f) ∨
      ∃ n call, s'.calls n = some call ∧ call.tier = t ∧ call.pc.recording = true) :
    Published overrides s' := by
  have hother : ∀ m callm, s'.calls m = some callm → m ≠ n → s.calls m = some callm := fun m callm hm hmn => by
    rwa [hupd, Function.update_of_ne hmn] at hm
  have hself : ∀ callm, s'.calls n = some callm → callm = call' := fun callm hm => by
    rw [hupd, Function.update_self] at hm
    exact (Option.some.inj hm).symm
  refine ⟨fun m callm hm hpc => ?_, fun m callm hm hpc => ?_, fun m callm hm => ?_, hfp⟩
  · by_cases hmn : m = n
    · subst hmn
      rw [hself callm hm] at hpc ⊢
      exact hload hpc
    · have hlock := h.loadLock m callm (hother m callm hm hmn) hpc
      obtain heq | hnone | hn := ht.loadLock callm.tier.lock
      · exact heq.trans hlock
      · rw [hlock] at hnone
        cases hnone
      · exact absurd (Option.some.inj (hlock.symm.trans hn)) hmn
  · by_cases hmn : m = n
    · subst hmn
      rw [hself callm hm] at hpc
      exact henv hpc
    · have hlock := h.envLock m callm (hother m callm hm hmn) hpc
      obtain heq | hnone | hn := ht.envLock
      · exact heq.trans hlock
      · rw [hlock] at hnone
        cases hnone
      · exact absurd (Option.some.inj (hlock.symm.trans hn)) hmn
  · rw [Call.target_congr ht.cognition ht.textsql]
    by_cases hmn : m = n
    · subst hmn
      rw [hself callm hm]
      exact hknows
    · have hcallm := hother m callm hm hmn
      refine (h.knows m callm hcallm).frame (fun hpc => ?_) fun hpc => ?_
      · have hlock := h.envLock m callm hcallm hpc
        obtain heq | hholds | hnone := ht.env
        · exact heq
        · exact absurd (Option.some.inj (hlock.symm.trans (h.envLock n call hcall hholds))) hmn
        · rw [hlock] at hnone
          cases hnone
      · have hlock := h.loadLock m callm hcallm hpc
        obtain heq | ⟨htier, hholds⟩ := ht.inst callm.tier
        · exact heq
        · rw [htier] at hlock
          exact absurd (Option.some.inj (hlock.symm.trans (h.loadLock n call hcall hholds))) hmn

/-- The fingerprints, when a step changes neither them nor an instance and its call was
recording none. -/
theorem Published.fp_keep {s s' : DispatchState} {n : ℕ} {call call' : Call} (h : Published overrides s)
    (hcall : s.calls n = some call) (hupd : s'.calls = Function.update s.calls n (some call'))
    (hfp : ∀ t, (s'.consumers.tiers t).fp = (s.consumers.tiers t).fp) (hinst : s'.inst = s.inst)
    (htier : call'.tier = call.tier) (hrec : call.pc.recording = true → call'.pc.recording = true)
    (t : Tier) (f : Fingerprint) (hf : (s'.consumers.tiers t).fp = some f) :
    (∃ env, s'.inst t = some env ∧ fingerprint env = f) ∨
      ∃ n call, s'.calls n = some call ∧ call.tier = t ∧ call.pc.recording = true := by
  rw [hfp] at hf
  rw [hinst, hupd]
  obtain hinst | ⟨m, callm, hm, ht, hpc⟩ := h.fp t f hf
  · exact .inl hinst
  · refine .inr ⟨m, ?_⟩
    by_cases hmn : m = n
    · subst hmn
      obtain rfl : call = callm := Option.some.inj (hcall.symm.trans hm)
      exact ⟨call', Function.update_self .., htier.trans ht, hrec hpc⟩
    · exact ⟨callm, by rw [Function.update_of_ne hmn]; exact hm, ht, hpc⟩

/-- A step that only moves its own call on, without taking a lock. -/
theorem Published.setCall {s : DispatchState} {n : ℕ} {call call' : Call} (h : Published overrides s)
    (hcall : s.calls n = some call) (htier : call'.tier = call.tier)
    (hload : call'.pc.holdsLoad = true → call.pc.holdsLoad = true)
    (henv : call'.pc.holdsEnv = true → call.pc.holdsEnv = true)
    (hrec : call.pc.recording = true → call'.pc.recording = true)
    (hknows : s.Knows call' (call'.target overrides s.consumers)) : Published overrides (s.setCall n call') := by
  refine h.advance hcall rfl ⟨rfl, rfl, fun _ => .inl rfl, .inl rfl, .inl rfl, fun _ => .inl rfl⟩
    (fun hpc => ?_) (fun hpc => ?_) hknows
    (h.fp_keep hcall rfl (fun _ => rfl) rfl htier hrec)
  · rw [htier]
    exact h.loadLock n call hcall (hload hpc)
  · exact h.envLock n call hcall (henv hpc)

theorem Published.lockLoad {s : DispatchState} {n : ℕ} {call : Call} (h : Published overrides s)
    (hcall : s.calls n = some call) (hpc : call.pc = .lockLoad) (hfree : s.loadLock call.tier.lock = none) :
    Published overrides ({ s with loadLock := Function.update s.loadLock call.tier.lock (some n) }.setCall n
      { call with pc := .lockEnv }) := by
  refine h.advance hcall rfl ⟨rfl, rfl, fun l => ?_, .inl rfl, .inl rfl, fun _ => .inl rfl⟩
    (fun _ => Function.update_self ..) (by simp [Pc.holdsEnv]) trivial
    (h.fp_keep hcall rfl (fun _ => rfl) rfl rfl (by simp [hpc, Pc.recording]))
  by_cases hl : l = call.tier.lock
  · exact .inr (.inl (hl ▸ hfree))
  · exact .inl (Function.update_of_ne hl ..)

theorem Published.lockEnv {s : DispatchState} {n : ℕ} {call : Call} (h : Published overrides s)
    (hcall : s.calls n = some call) (hpc : call.pc = .lockEnv) (hfree : s.envLock = none) :
    Published overrides ({ s with envLock := some n }.setCall n { call with
      saved := []
      pc := if call.tier = Tier.embed then .save bridgeVars else .publish (call.writes overrides s.consumers) }) := by
  have hlock := h.loadLock n call hcall (by rw [hpc]; rfl)
  refine h.advance hcall rfl ⟨rfl, rfl, fun _ => .inl rfl, .inr (.inl hfree), .inl rfl, fun _ => .inl rfl⟩
    (fun _ => hlock) (fun _ => rfl) ?_
    (h.fp_keep hcall rfl (fun _ => rfl) rfl rfl (by simp [hpc, Pc.recording]))
  by_cases ht : call.tier = .embed
  · rw [if_pos ht]
    trivial
  · rw [if_neg ht]
    exact call.publish_writes s.consumers s.env

theorem Published.write {s : DispatchState} {n : ℕ} {call : Call} {w : Write} {todo : List Write}
    (h : Published overrides s) (hcall : s.calls n = some call) (hpc : call.pc = .publish (w :: todo)) :
    Published overrides ({ s with env := Function.update s.env w.1 w.2 }.setCall n
      { call with pc := .publish todo }) := by
  have hholds : call.pc.holdsEnv = true := by rw [hpc]; rfl
  have hknows := h.knows n call hcall
  refine h.advance hcall rfl ⟨rfl, rfl, fun _ => .inl rfl, .inl rfl, .inr (.inl hholds), fun _ => .inl rfl⟩
    (fun _ => h.loadLock n call hcall (Pc.holdsLoad_of_holdsEnv hholds)) (fun _ => h.envLock n call hcall hholds) ?_
    (h.fp_keep hcall rfl (fun _ => rfl) rfl rfl (by simp [hpc, Pc.recording]))
  rw [DispatchState.Knows, hpc] at hknows
  exact hknows

theorem Published.load {s : DispatchState} {n : ℕ} {call : Call} (h : Published overrides s)
    (hcall : s.calls n = some call) (hpc : call.pc = .load) :
    Published overrides ({ s with inst := Function.update s.inst call.tier (some s.env) }.setCall n
      { call with pc := .record hashedVars [] }) := by
  have hholds : call.pc.holdsEnv = true := by rw [hpc]; rfl
  have hload := Pc.holdsLoad_of_holdsEnv hholds
  have hknows := h.knows n call hcall
  rw [DispatchState.Knows, hpc] at hknows
  refine h.advance hcall rfl ⟨rfl, rfl, fun _ => .inl rfl, .inl rfl, .inl rfl, fun t => ?_⟩
    (fun _ => h.loadLock n call hcall hload) (fun _ => h.envLock n call hcall hholds)
    ⟨hknows, by rw [List.nil_append]; rfl, s.env, Function.update_self .., congrArg fingerprint hknows⟩
    fun t f hf => ?_
  · by_cases ht : t = call.tier
    · exact .inr ⟨ht, hload⟩
    · exact .inl (Function.update_of_ne ht ..)
  · by_cases ht : t = call.tier
    · exact .inr ⟨n, { call with pc := .record hashedVars [] }, Function.update_self .., ht.symm, rfl⟩
    · obtain ⟨env, hinst, hfp⟩ | ⟨m, callm, hm, htm, hrec⟩ := h.fp t f hf
      · exact .inl ⟨env, (Function.update_of_ne ht ..).trans hinst, hfp⟩
      · have hmn : m ≠ n := by
          rintro rfl
          obtain rfl : call = callm := Option.some.inj (hcall.symm.trans hm)
          exact ht htm.symm
        exact .inr ⟨m, callm, (Function.update_of_ne hmn ..).trans hm, htm, hrec⟩

theorem Published.recorded {s : DispatchState} {n : ℕ} {call : Call} {seen : Fingerprint}
    (h : Published overrides s) (hcall : s.calls n = some call) (hpc : call.pc = .record [] seen) :
    Published overrides ({ s with consumers := { s.consumers with
        tiers := Function.update s.consumers.tiers call.tier
          { s.consumers.tiers call.tier with fp := some seen } } }.setCall n
      { call with pc := .unlockEnv true }) := by
  have hholds : call.pc.holdsEnv = true := by rw [hpc]; rfl
  have hknows := h.knows n call hcall
  rw [DispatchState.Knows, hpc] at hknows
  obtain ⟨henv, hseen, hfresh⟩ := hknows
  rw [List.map_nil, List.append_nil] at hseen
  refine h.advance hcall rfl ⟨rfl, rfl, fun _ => .inl rfl, .inl rfl, .inl rfl, fun _ => .inl rfl⟩
    (fun _ => h.loadLock n call hcall (Pc.holdsLoad_of_holdsEnv hholds)) (fun _ => h.envLock n call hcall hholds)
    hfresh fun t f hf => ?_
  by_cases ht : t = call.tier
  · subst ht
    obtain ⟨env, hinst, hfp⟩ := hfresh
    simp only [DispatchState.setCall, Function.update_self, Option.some.injEq] at hf
    exact .inl ⟨env, hinst, by rw [hfp, ← hf, hseen, henv]⟩
  · simp only [DispatchState.setCall, Function.update_of_ne ht] at hf
    obtain hinst | ⟨m, callm, hm, htm, hrec⟩ := h.fp t f hf
    · exact .inl hinst
    · have hmn : m ≠ n := by
        rintro rfl
        obtain rfl : call = callm := Option.some.inj (hcall.symm.trans hm)
        exact ht htm.symm
      exact .inr ⟨m, callm, (Function.update_of_ne hmn ..).trans hm, htm, hrec⟩

theorem Published.unlockEnv {s : DispatchState} {n : ℕ} {call : Call} {ok : Bool} (h : Published overrides s)
    (hcall : s.calls n = some call) (hpc : call.pc = .unlockEnv ok) :
    Published overrides ({ s with envLock := none }.setCall n { call with
      pc := if ok ∧ call.round = Round.dispatch then .dispatch
        else if call.tier = Tier.embed then .restore ok call.saved else .unlockLoad ok }) := by
  have hholds : call.pc.holdsEnv = true := by rw [hpc]; rfl
  have hlock := h.envLock n call hcall hholds
  have hknows := h.knows n call hcall
  refine h.advance hcall rfl ⟨rfl, rfl, fun _ => .inl rfl, .inr (.inr hlock), .inl rfl, fun _ => .inl rfl⟩
    (fun _ => h.loadLock n call hcall (Pc.holdsLoad_of_holdsEnv hholds)) (fun hpc' => ?_) ?_
    (h.fp_keep hcall rfl (fun _ => rfl) rfl rfl (by simp [hpc, Pc.recording]))
  · revert hpc'
    dsimp only
    split
    · simp [Pc.holdsEnv]
    · split <;> simp [Pc.holdsEnv]
  · rw [DispatchState.Knows, hpc] at hknows
    by_cases hd : ok = true ∧ call.round = Round.dispatch
    · rw [if_pos hd]
      obtain ⟨rfl, -⟩ := hd
      exact hknows
    · rw [if_neg hd]
      split <;> trivial

theorem Published.restore {s : DispatchState} {n : ℕ} {call : Call} {ok : Bool} {w : Write} {todo : List Write}
    (h : Published overrides s) (hcall : s.calls n = some call) (hpc : call.pc = .restore ok (w :: todo))
    (halone : s.envLock = none ∨ s.env w.1 = w.2) :
    Published overrides ({ s with env := Function.update s.env w.1 w.2 }.setCall n
      { call with pc := .restore ok todo }) := by
  refine h.advance hcall rfl ⟨rfl, rfl, fun _ => .inl rfl, .inl rfl, ?_, fun _ => .inl rfl⟩
    (fun _ => h.loadLock n call hcall (by rw [hpc]; rfl)) (by simp [Pc.holdsEnv]) trivial
    (h.fp_keep hcall rfl (fun _ => rfl) rfl rfl (by simp [hpc, Pc.recording]))
  obtain hfree | heq := halone
  · exact .inr (.inr hfree)
  · exact .inl (Function.update_eq_self_iff.mpr heq.symm)

theorem Published.unlockLoad {s : DispatchState} {n : ℕ} {call : Call} {ok : Bool} (h : Published overrides s)
    (hcall : s.calls n = some call) (hpc : call.pc = .unlockLoad ok) :
    Published overrides ({ s with loadLock := Function.update s.loadLock call.tier.lock none }.setCall n
      { call with pc := if ok ∧ call.round = Round.ensure then .mark else .done }) := by
  have hlock := h.loadLock n call hcall (by rw [hpc]; rfl)
  have hout : (if ok ∧ call.round = Round.ensure then Pc.mark else .done).holdsLoad = false := by
    split <;> rfl
  refine h.advance hcall rfl ⟨rfl, rfl, fun l => ?_, .inl rfl, .inl rfl, fun _ => .inl rfl⟩
    (fun hpc' => ?_) (fun hpc' => ?_) (.of_outside hout _)
    (h.fp_keep hcall rfl (fun _ => rfl) rfl rfl (by simp [hpc, Pc.recording]))
  · by_cases hl : l = call.tier.lock
    · exact .inr (.inr (hl ▸ hlock))
    · exact .inl (Function.update_of_ne hl ..)
  · rw [hout] at hpc'
    cases hpc'
  · rw [Pc.holdsLoad_of_holdsEnv hpc'] at hout
    cases hout

theorem Published.mark {s : DispatchState} {n : ℕ} {call : Call} (h : Published overrides s)
    (hcall : s.calls n = some call) (hpc : call.pc = .mark) :
    Published overrides ({ s with consumers := { s.consumers with
        tiers := Function.update s.consumers.tiers call.tier
          { s.consumers.tiers call.tier with loaded := true } } }.setCall n
      { call with round := .dispatch, pc := .lockLoad }) := by
  refine h.advance hcall rfl ⟨rfl, rfl, fun _ => .inl rfl, .inl rfl, .inl rfl, fun _ => .inl rfl⟩
    (by simp [Pc.holdsLoad]) (by simp [Pc.holdsEnv]) trivial
    (h.fp_keep hcall rfl (fun t => ?_) rfl rfl (by simp [hpc, Pc.recording]))
  by_cases ht : t = call.tier
  · subst ht
    simp [DispatchState.setCall]
  · simp [DispatchState.setCall, ht]

/-- The fingerprint of the instance is that of the environment: it need not be loaded. -/
theorem Published.compared {s : DispatchState} {n : ℕ} {call : Call} {seen : Fingerprint}
    (h : Published overrides s) (hcall : s.calls n = some call) (hpc : call.pc = .compare [] seen) :
    Published overrides (s.setCall n { call with
      pc := if (s.consumers.tiers call.tier).fp = some seen then .unlockEnv true else .load }) := by
  have hholds : call.pc.holdsEnv = true := by rw [hpc]; rfl
  have hload := Pc.holdsLoad_of_holdsEnv hholds
  have hknows := h.knows n call hcall
  rw [DispatchState.Knows, hpc] at hknows
  obtain ⟨henv, hseen⟩ := hknows
  rw [List.map_nil, List.append_nil] at hseen
  refine h.setCall hcall rfl (fun _ => hload) (fun _ => hholds) (by simp [hpc, Pc.recording]) ?_
  by_cases hfp : (s.consumers.tiers call.tier).fp = some seen
  · rw [if_pos hfp]
    obtain ⟨env, hinst, hf⟩ | ⟨m, callm, hm, htier, hrec⟩ := h.fp _ _ hfp
    · exact ⟨env, hinst, by rw [hf, hseen, henv]; rfl⟩
    · -- whoever records for the tier holds its load lock
      have hm' := h.loadLock m callm hm (by revert hrec; cases callm.pc <;> simp [Pc.recording, Pc.holdsLoad])
      rw [htier, h.loadLock n call hcall hload] at hm'
      obtain rfl := Option.some.inj hm'
      obtain rfl : call = callm := Option.some.inj (hcall.symm.trans hm)
      rw [hpc] at hrec
      cases hrec
  · rw [if_neg hfp]
    exact henv

theorem Published.advance_step {s s' : DispatchState} {n : ℕ} {call : Call} {ok : Bool} (h : Published overrides s)
    (hcall : s.calls n = some call)
    (halone : ∀ ok w todo, call.pc = .restore ok (w :: todo) → s.envLock = none ∨ s.env w.1 = w.2)
    (hstep : s.advance overrides n call ok = some s') : Published overrides s' := by
  have hknows := h.knows n call hcall
  cases hpc : call.pc with
  | acquire =>
    simp only [DispatchState.advance, hpc] at hstep
    split at hstep <;> cases hstep <;>
      exact h.setCall hcall rfl (by simp [Pc.holdsLoad]) (by simp [Pc.holdsEnv]) (by simp [hpc, Pc.recording]) trivial
  | test =>
    simp only [DispatchState.advance, hpc] at hstep
    obtain ⟨-, heq⟩ := Option.ite_none_left_eq_some.mp hstep
    cases heq
    cases s.consumers.hasKeys call.tier <;>
      exact h.setCall hcall rfl (by simp [Pc.holdsLoad]) (by simp [Pc.holdsEnv]) (by simp [hpc, Pc.recording]) trivial
  | lockLoad =>
    simp only [DispatchState.advance, hpc] at hstep
    obtain ⟨hfree, heq⟩ := Option.ite_none_left_eq_some.mp hstep
    cases heq
    exact h.lockLoad hcall hpc (not_not.mp hfree)
  | lockEnv =>
    simp only [DispatchState.advance, hpc] at hstep
    obtain ⟨hfree, heq⟩ := Option.ite_none_left_eq_some.mp hstep
    cases heq
    exact h.lockEnv hcall hpc (not_not.mp hfree)
  | save todo =>
    have hload : call.pc.holdsLoad = true := by rw [hpc]; rfl
    have hholds : call.pc.holdsEnv = true := by rw [hpc]; rfl
    cases todo with
    | nil =>
      simp only [DispatchState.advance, hpc] at hstep
      cases hstep
      exact h.setCall hcall rfl (fun _ => hload) (fun _ => hholds) (by simp [hpc, Pc.recording])
        (call.publish_writes s.consumers s.env)
    | cons v todo =>
      simp only [DispatchState.advance, hpc] at hstep
      cases hstep
      exact h.setCall hcall rfl (fun _ => hload) (fun _ => hholds) (by simp [hpc, Pc.recording]) trivial
  | publish todo =>
    cases todo with
    | nil =>
      simp only [DispatchState.advance, hpc] at hstep
      cases hstep
      rw [DispatchState.Knows, hpc] at hknows
      exact h.setCall hcall rfl (fun _ => by rw [hpc]; rfl) (fun _ => by rw [hpc]; rfl) (by simp [hpc, Pc.recording])
        ⟨hknows, List.nil_append _⟩
    | cons w todo =>
      simp only [DispatchState.advance, hpc] at hstep
      cases hstep
      exact h.write hcall hpc
  | compare todo seen =>
    cases todo with
    | nil =>
      simp only [DispatchState.advance, hpc] at hstep
      cases hstep
      exact h.compared hcall hpc
    | cons v todo =>
      simp only [DispatchState.advance, hpc] at hstep
      cases hstep
      rw [DispatchState.Knows, hpc] at hknows
      exact h.setCall hcall rfl (fun _ => by rw [hpc]; rfl) (fun _ => by rw [hpc]; rfl) (by simp [hpc, Pc.recording])
        ⟨hknows.1, (List.append_assoc ..).trans hknows.2⟩
  | load =>
    simp only [DispatchState.advance, hpc] at hstep
    split at hstep
    · cases hstep
      exact h.load hcall hpc
    · cases hstep
      exact h.setCall hcall rfl (fun _ => by rw [hpc]; rfl) (fun _ => by rw [hpc]; rfl) (by simp [hpc, Pc.recording])
        trivial
  | record todo seen =>
    cases todo with
    | nil =>
      simp only [DispatchState.advance, hpc] at hstep
      cases hstep
      exact h.recorded hcall hpc
    | cons v todo =>
      simp only [DispatchState.advance, hpc] at hstep
      cases hstep
      rw [DispatchState.Knows, hpc] at hknows
      exact h.setCall hcall rfl (fun _ => by rw [hpc]; rfl) (fun _ => by rw [hpc]; rfl) (fun _ => rfl)
        ⟨hknows.1, (List.append_assoc ..).trans hknows.2.1, hknows.2.2⟩
  | unlockEnv ok =>
    simp only [DispatchState.advance, hpc] at hstep
    cases hstep
    exact h.unlockEnv hcall hpc
  | dispatch =>
    simp only [DispatchState.advance, hpc] at hstep
    cases hstep
    by_cases ht : call.tier = .embed
    · rw [if_pos ht]
      exact h.setCall hcall rfl (fun _ => by rw [hpc]; rfl) (by simp [Pc.holdsEnv]) (by simp [hpc, Pc.recording])
        trivial
    · rw [if_neg ht]
      exact h.setCall hcall rfl (fun _ => by rw [hpc]; rfl) (by simp [Pc.holdsEnv]) (by simp [hpc, Pc.recording])
        trivial
  | restore ok todo =>
    cases todo with
    | nil =>
      simp only [DispatchState.advance, hpc] at hstep
      cases hstep
      exact h.setCall hcall rfl (fun _ => by rw [hpc]; rfl) (by simp [Pc.holdsEnv]) (by simp [hpc, Pc.recording])
        trivial
    | cons w todo =>
      simp only [DispatchState.advance, hpc] at hstep
      cases hstep
      exact h.restore hcall hpc (halone ok w todo hpc)
  | unlockLoad ok =>
    simp only [DispatchState.advance, hpc] at hstep
    cases hstep
    exact h.unlockLoad hcall hpc
  | mark =>
    simp only [DispatchState.advance, hpc] at hstep
    cases hstep
    exact h.mark hcall hpc
  | done => simp [DispatchState.advance, hpc] at hstep

/-- An apply takes its file's load lock, so no call of its tiers is publishing. -/
theorem Published.apply {s : DispatchState} {consumers : Consumers} {l : LoadLock} (h : Published overrides s)
    (hfree : s.loadLock l = none) (hwrites : ∀ call : Call, call.tier.lock ≠ l →
      call.target overrides consumers = call.target overrides s.consumers)
    (hfp : ∀ t f, (consumers.tiers t).fp = some f → (s.consumers.tiers t).fp = some f) :
    Published overrides { s with consumers := consumers } := by
  refine ⟨h.loadLock, h.envLock, fun n call hcall => ?_, fun t f hf => h.fp t f (hfp t f hf)⟩
  by_cases hload : call.pc.holdsLoad = true
  · have hlock := h.loadLock n call hcall hload
    rw [hwrites call fun heq => by rw [heq, hfree] at hlock; cases hlock]
    exact h.knows n call hcall
  · exact .of_outside (Bool.eq_false_iff.mpr hload) _

theorem Published.start {s : DispatchState} (h : Published overrides s) {call : Call} (hpc : call.pc = .acquire)
    (hfresh : ∀ n call, s.calls n = some call → n < s.nextCall) :
    Published overrides { s with
      calls := Function.update s.calls s.nextCall (some call)
      nextCall := s.nextCall + 1 } := by
  have hcases : ∀ m callm, Function.update s.calls s.nextCall (some call) m = some callm →
      s.calls m = some callm ∨ callm = call := fun m callm hm => by
    by_cases hmn : m = s.nextCall
    · rw [hmn, Function.update_self] at hm
      exact .inr (Option.some.inj hm).symm
    · rw [Function.update_of_ne hmn] at hm
      exact .inl hm
  refine ⟨fun m callm hm hload => ?_, fun m callm hm henv => ?_, fun m callm hm => ?_, fun t f hf => ?_⟩
  · obtain hm | rfl := hcases m callm hm
    · exact h.loadLock m callm hm hload
    · rw [hpc] at hload
      cases hload
  · obtain hm | rfl := hcases m callm hm
    · exact h.envLock m callm hm henv
    · rw [hpc] at henv
      cases henv
  · obtain hm | rfl := hcases m callm hm
    · exact h.knows m callm hm
    · exact .of_outside (by rw [hpc]; rfl) _
  · obtain hinst | ⟨m, callm, hm, ht, hrec⟩ := h.fp t f hf
    · exact .inl hinst
    · exact .inr ⟨m, callm, (Function.update_of_ne (hfresh m callm hm).ne ..).trans hm, ht, hrec⟩

/-- The invariant with the numbering of the calls. -/
structure Running (overrides : ℕ → OverrideKey → Option Bytes) (s : DispatchState) : Prop where
  known : ∀ n call, s.calls n = some call → n < s.nextCall
  published : Published overrides s

theorem Running.step {s s' : DispatchState} {log es : List Empty} {a : DispatchLabel} (h : Running overrides s)
    (halone : RestoresAlone s log a) (hstep : s.step getenv overrides a = some (s', es)) :
    Running overrides s' := by
  cases a with
  | start tier session tag =>
    cases hstep
    refine ⟨fun m callm hm => ?_, h.published.start rfl h.known⟩
    dsimp only at hm ⊢
    by_cases hmn : m = s.nextCall
    · exact hmn ▸ Nat.lt_succ_self _
    · rw [Function.update_of_ne hmn] at hm
      exact Nat.lt_succ_of_lt (h.known m callm hm)
  | applyCognition c =>
    obtain ⟨hfree, heq⟩ := Option.ite_none_left_eq_some.mp hstep
    cases heq
    refine ⟨h.known, h.published.apply (not_not.mp hfree) (fun call hl => ?_) fun t f hf => ?_⟩
    · cases ht : call.tier with
      | reason | embed => simp [ht, Tier.lock] at hl
      | t2s | review => simp only [Call.target, Call.writes, ht, Consumers.applyCognition]
    · cases t with
      | reason | embed => cases hf
      | t2s | review => exact hf
  | applyTextsql c =>
    obtain ⟨hfree, heq⟩ := Option.ite_none_left_eq_some.mp hstep
    cases heq
    refine ⟨h.known, h.published.apply (not_not.mp hfree) (fun call hl => ?_) fun t f hf => ?_⟩
    · cases ht : call.tier with
      | reason | embed => simp only [Call.target, Call.writes, ht, Consumers.applyTextsql]
      | t2s | review => simp [ht, Tier.lock] at hl
    · cases t with
      | reason | embed => exact hf
      | t2s | review => cases hf
  | advance n ok =>
    obtain ⟨call, hcall, hmap⟩ := Option.bind_eq_some_iff.mp hstep
    obtain ⟨s'', hadv, heq⟩ := Option.map_eq_some_iff.mp hmap
    cases heq
    have hmoved := DispatchState.advance_advanced hadv
    refine ⟨fun m callm hm => ?_, h.published.advance_step hcall (fun ok' w todo hpc => ?_) hadv⟩
    · obtain ⟨call', hupd, -⟩ := hmoved.call
      rw [hmoved.next]
      rw [hupd] at hm
      by_cases hmn : m = n
      · exact hmn ▸ h.known n call hcall
      · rw [Function.update_of_ne hmn] at hm
        exact h.known m callm hm
    · simpa [RestoresAlone, hcall, hpc] using halone

theorem Published.loadsPublished {s : DispatchState} (h : Published overrides s) : LoadsPublished overrides s where
  load n call hcall hpc := by
    have hknows := h.knows n call hcall
    rw [DispatchState.Knows, hpc] at hknows
    exact hknows
  dispatch n call hcall hpc := by
    have hknows := h.knows n call hcall
    rw [DispatchState.Knows, hpc] at hknows
    obtain ⟨env, hinst, hfp⟩ := hknows
    exact ⟨env, hinst, fingerprint_eq_iff.mp hfp⟩

/-- While restoring steps meet no thread inside the environment lock, every load sees its
own tier's environment. -/
theorem restoresAlone_loadsPublished {consumers : Consumers} {env : Environment} {as : List DispatchLabel}
    {c : Lib.Config DispatchState Empty}
    (hmeet : StepsMeet (DispatchState.step getenv overrides) RestoresAlone ⟨.initial consumers env, []⟩ as)
    (hrun : exec (DispatchState.step getenv overrides) ⟨.initial consumers env, []⟩ as = some c) :
    LoadsPublished overrides c.state := by
  have hrunning : Running overrides c.state := by
    refine exec_invariant_of (I := fun s _ => Running overrides s) ?_ hmeet
      ⟨fun n call hcall => ?_, .initial consumers env⟩ hrun
    · exact fun hi hp hs => hi.step hp hs
    · simp [DispatchState.initial] at hcall
  exact hrunning.published.loadsPublished

/-! ### An embed call and a generate call -/

def embedSet : Consumers :=
  { pluginSet with cognition := {
      reasoningPlugin := some (ascii "/p.so"), httpEmbedUrl := some (ascii "http://e") }
                   textsql := { reasoningPlugin := some (ascii "/p.so") } }

/-- An embed call up to its first restoring step, and a generate call up to its load. -/
def embedSteps : List DispatchLabel := .start .embed 1 none :: List.replicate 52 (.advance 0 true)
def generateSteps : List DispatchLabel := .start .t2s 2 none :: List.replicate 27 (.advance 1 true)

def runEmbed (as : List DispatchLabel) : Option (Lib.Config DispatchState Empty) :=
  exec (DispatchState.step (fun _ => none) fun _ _ => none) ⟨.initial embedSet fun _ => none, []⟩ as

theorem generate_after_embed_loadsPublished :
    ∃ c call, runEmbed (embedSteps ++ List.replicate 12 (.advance 0 true) ++ generateSteps) = some c ∧
      c.state.calls 1 = some call ∧ call.pc = .load ∧ LoadsPublished (fun _ _ => none) c.state := by
  have hmeet : StepsMeet (DispatchState.step (fun _ => none) fun _ _ => none) RestoresAlone
      ⟨.initial embedSet fun _ => none, []⟩ (embedSteps ++ List.replicate 12 (.advance 0 true) ++ generateSteps) := by
    decide +kernel
  have hsome : (runEmbed (embedSteps ++ List.replicate 12 (.advance 0 true) ++ generateSteps)).any (fun c =>
      (c.state.calls 1).any fun call => call.pc = .load) = true := by
    decide +kernel
  obtain ⟨c, hrun, hc⟩ := (Option.any_eq_true _ _).mp hsome
  obtain ⟨call, hcall, hpc⟩ := (Option.any_eq_true _ _).mp hc
  exact ⟨c, call, hrun, hcall, of_decide_eq_true hpc, restoresAlone_loadsPublished hmeet hrun⟩

/-- The embed call restores the response mode between the generate call's publication and
its load. -/
theorem embed_restores_into_generate :
    ¬ ∀ (getenv : String → Option Bytes) (overrides : ℕ → OverrideKey → Option Bytes) (consumers : Consumers)
      (env : Environment) (as : List DispatchLabel) (c : Lib.Config DispatchState Empty),
      exec (DispatchState.step getenv overrides) ⟨.initial consumers env, []⟩ as = some c →
        LoadsPublished overrides c.state := by
  intro h
  have hsome : (runEmbed (embedSteps ++ generateSteps ++ List.replicate 6 (.advance 0 true))).any (fun c =>
      (c.state.calls 1).any fun call => call.pc = .load && c.state.env .responseMode = none &&
        call.target (fun _ _ => none) c.state.consumers .responseMode = some (ascii "code")) = true := by
    decide
  obtain ⟨c, hrun, hc⟩ := (Option.any_eq_true _ _).mp hsome
  obtain ⟨call, hcall, hpc⟩ := (Option.any_eq_true _ _).mp hc
  simp only [Bool.and_eq_true, decide_eq_true_eq] at hpc
  have henv := congrFun ((h _ _ _ _ _ c hrun).load 1 call hcall hpc.1.1) .responseMode
  rw [hpc.1.2, hpc.2] at henv
  cases henv

end FractalSQL.Provider
