import FractalSQL.Service.Moves

/-!
# How often a body runs under one token

Between the lookup that misses and the start of the body a thread is pending.
While each lookup of a token is either the first to get past the cache or is
answered from it, the token has at most one pending thread, and none once its
body has started; so the body starts at most once.
-/
namespace FractalSQL.Service
open Lib

/-- Past its lookup under the token, before the start of the body. -/
def pendingAt (token : UInt64) : Option Phase → Bool
  | some (.find t _) | some (.checkpoint t _ _) | some (.marshal t _ _) => t = token
  | _ => false

def DaemonEvent.starts (token : UInt64) : DaemonEvent → Bool
  | .started _ t _ => t = token
  | _ => false

/-- How many bodies were started under the token. -/
def startCount (token : UInt64) (log : List DaemonEvent) : ℕ := log.countP (DaemonEvent.starts token)

/-- Nothing was started under the token and no thread is about to. -/
def firstUse (token : UInt64) (d : Daemon) (log : List DaemonEvent) : Bool :=
  startCount token log = 0 ∧ ∀ c < d.nextConn, ¬ pendingAt token (d.threads c)

/-- A lookup under the token is the first to get past the cache, or the cache holds
the reply and the clone is allocated. A request without a token has no lookup. -/
def lookupInTime (token : UInt64) (d : Daemon) (log : List DaemonEvent) : DaemonLabel → Bool
  | .lookup conn cloneOk =>
    match d.threads conn with
    | some (.lookup t call) =>
      t ≠ token ∨ firstUse token d log ∨ cacheReplay d.cache token call.name cloneOk ≠ none
    | _ => true
  | .receive _ (.call t _) => t ≠ token ∨ t ≠ 0 ∨ firstUse token d log
  | _ => true

/-- The invariant: one pending thread before the start, none after it. -/
def RunsOnce (token : UInt64) (d : Daemon) (log : List DaemonEvent) : Prop :=
  (startCount token log = 0 ∧
      ∀ c c', pendingAt token (d.threads c) → pendingAt token (d.threads c') → c = c') ∨
    (startCount token log = 1 ∧ ∀ c, ¬ pendingAt token (d.threads c))

theorem RunsOnce.startCount_le {token : UInt64} {d : Daemon} {log : List DaemonEvent}
    (h : RunsOnce token d log) : startCount token log ≤ 1 := by
  rcases h with ⟨h0, -⟩ | ⟨h1, -⟩ <;> omega

theorem firstUse_spec {token : UInt64} {d : Daemon} {log : List DaemonEvent} (hb : ThreadsBelow d)
    (h : firstUse token d log) :
    startCount token log = 0 ∧ ∀ c, ¬ pendingAt token (d.threads c) := by
  rw [firstUse, decide_eq_true_eq] at h
  refine ⟨h.1, fun c hc => ?_⟩
  by_cases hlt : c < d.nextConn
  · exact h.2 c hlt hc
  · rw [hb c (not_lt.mp hlt)] at hc
    cases hc

theorem startCount_append (token : UInt64) (log es : List DaemonEvent) :
    startCount token (log ++ es) = startCount token log + startCount token es :=
  List.countP_append

section Step
variable {token : UInt64} {d d' d₁ : Daemon} {log es : List DaemonEvent}

/-- A step that starts nothing and makes no thread pending. -/
theorem RunsOnce.keep (h : RunsOnce token d log) (hes : startCount token es = 0)
    (hpend : ∀ c, pendingAt token (d'.threads c) → pendingAt token (d.threads c)) :
    RunsOnce token d' (log ++ es) := by
  rw [RunsOnce, startCount_append, hes]
  rcases h with ⟨h0, huniq⟩ | ⟨h1, hnone⟩
  · exact .inl ⟨h0, fun c c' hc hc' => huniq c c' (hpend c hc) (hpend c' hc')⟩
  · exact .inr ⟨h1, fun c hc => hnone c (hpend c hc)⟩

/-- One thread moves to a phase that is pending only if its old phase was. -/
theorem RunsOnce.setPhase (h : RunsOnce token d log) {conn : ℕ} {phase : Phase}
    (hthreads : d₁.threads = d.threads) (hes : startCount token es = 0)
    (hphase : pendingAt token (some phase) → pendingAt token (d.threads conn)) :
    RunsOnce token (d₁.setPhase conn phase) (log ++ es) := by
  refine h.keep hes fun c hc => ?_
  rw [setPhase_threads, hthreads] at hc
  split at hc
  · rename_i hcc
    exact hcc ▸ hphase hc
  · exact hc

theorem RunsOnce.answer (h : RunsOnce token d log) {conn : ℕ} {reply : Reply}
    (hthreads : d₁.threads = d.threads) (hes : startCount token es = 0) :
    RunsOnce token (d₁.answer conn reply) (log ++ es) :=
  h.setPhase hthreads hes nofun

/-- The first thread becomes pending. -/
theorem runsOnce_of_firstUse (hb : ThreadsBelow d) (hfirst : firstUse token d log) (conn : ℕ)
    (phase : Phase) : RunsOnce token (d.setPhase conn phase) (log ++ []) := by
  have h := firstUse_spec hb hfirst
  rw [List.append_nil]
  have hconn (c : ℕ) (hc : pendingAt token ((d.setPhase conn phase).threads c)) : c = conn := by
    rw [setPhase_threads] at hc
    split at hc
    · assumption
    · exact absurd hc (h.2 c)
  exact .inl ⟨h.1, fun c c' hc hc' => (hconn c hc).trans (hconn c' hc').symm⟩

/-- The pending thread starts its body; under another token nothing changes. -/
theorem RunsOnce.start (h : RunsOnce token d log) {conn : ℕ} {t : UInt64} {call : CallRequest}
    {hd : Handle} (hphase : d.threads conn = some (.marshal t call hd)) :
    RunsOnce token (d.setPhase conn (.running t hd)) (log ++ [.started conn t hd.fn.name]) := by
  by_cases ht : t = token
  · have hpend : pendingAt token (d.threads conn) := by
      simp [hphase, pendingAt, ht]
    have hcount : startCount token [DaemonEvent.started conn t hd.fn.name] = 1 := by
      simp [startCount, DaemonEvent.starts, ht]
    rcases h with ⟨h0, huniq⟩ | ⟨-, hnone⟩
    · refine .inr ⟨by rw [startCount_append, h0, hcount], fun c hc => ?_⟩
      rw [setPhase_threads] at hc
      split at hc
      · cases hc
      · rename_i hne
        exact hne (huniq c conn hc hpend)
    · exact absurd hpend (hnone conn)
  · refine h.setPhase rfl ?_ nofun
    simp [startCount, DaemonEvent.starts, ht]

theorem RunsOnce.move {l : DaemonLabel} (hb : ThreadsBelow d) (h : RunsOnce token d log)
    (hl : lookupInTime token d log l) (hm : Move d l d' es) : RunsOnce token d' (log ++ es) := by
  cases hm with
  | accept => exact h.setPhase rfl rfl nofun
  | refuse => exact h.answer rfl rfl
  | beginInit => exact h.setPhase rfl rfl nofun
  | beginCall => exact h.setPhase rfl rfl nofun
  | beginUntokened =>
    by_cases ht : token = 0
    · subst ht
      exact runsOnce_of_firstUse hb (by simpa [lookupInTime] using hl) _ _
    · exact h.setPhase rfl rfl (by simp [pendingAt, Ne.symm ht])
  | deinit _ _ hes =>
    refine h.answer rfl ?_
    rcases hes with rfl | rfl <;> rfl
  | cancel => exact h.answer rfl rfl
  | takeId => exact h.setPhase rfl rfl nofun
  | link => exact h.answer rfl rfl
  | replay => exact h.answer rfl rfl
  | @miss conn cloneOk t call hphase hmiss =>
    by_cases ht : t = token
    · subst ht
      have hfirst : firstUse t d log = true := by simpa [lookupInTime, hphase, hmiss] using hl
      exact runsOnce_of_firstUse hb hfirst _ _
    · exact h.setPhase rfl rfl (by simp [pendingAt, ht])
  | found hphase => exact h.setPhase rfl rfl fun hp => by rwa [hphase]
  | sawMark => exact h.setPhase rfl rfl nofun
  | unmarked hphase => exact h.setPhase rfl rfl fun hp => by rwa [hphase]
  | clearMark => exact h.answer rfl rfl
  | start hphase => exact h.start hphase
  | bodyFailed => exact h.setPhase rfl rfl nofun
  | coreMarked => exact h.setPhase rfl rfl nofun
  | kept => exact h.setPhase rfl rfl nofun
  | unkept _ _ hd => exact h.answer (by rcases hd with rfl | rfl <;> rfl) rfl
  | store => exact h.answer rfl rfl
  | sent => exact h.setPhase rfl rfl nofun
  | close =>
    refine h.keep rfl fun c hc => ?_
    rw [release_threads] at hc
    split at hc
    · cases hc
    · exact hc

end Step

theorem runsOnce_init (token : UInt64) : RunsOnce token {} [] :=
  .inl ⟨rfl, nofun⟩

end FractalSQL.Service
