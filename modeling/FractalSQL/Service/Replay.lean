import FractalSQL.Service.Moves

/-!
# Replays are faithful

Over every run of the daemon, an entry of the cache is the reply of the last
execution under its token and name whose reply was stored. So a call that is
answered from the cache gets that reply, and the step that answers it runs no
body and touches no handle.
-/
namespace FractalSQL.Service
open Lib

/-- The reply a completed execution of `name` under `token` contributes, if its
status is one the cache keeps; with `storedOnly`, if it was in fact stored. -/
def DaemonEvent.replyFor (storedOnly : Bool) (token : UInt64) (name : Bytes) : DaemonEvent → Option Reply
  | .completed _ t n reply stored =>
    if t = token ∧ n = name ∧ (reply.status = .ok ∨ reply.status = .core) ∧ (storedOnly → stored) then
      some reply
    else none
  | _ => none

/-- The reply of the most recent such execution. -/
def lastCompleted (storedOnly : Bool) (token : UInt64) (name : Bytes) (log : List DaemonEvent) :
    Option Reply :=
  log.reverse.findSome? (DaemonEvent.replyFor storedOnly token name)

theorem lastCompleted_append (storedOnly : Bool) (token : UInt64) (name : Bytes)
    (log es : List DaemonEvent) :
    lastCompleted storedOnly token name (log ++ es) =
      (lastCompleted storedOnly token name es).or (lastCompleted storedOnly token name log) := by
  rw [lastCompleted, List.reverse_append, List.findSome?_append]
  rfl

/-- Events by which nothing is added to the cache. -/
def DaemonEvent.StoresNothing (e : DaemonEvent) : Prop :=
  ∀ token name, e.replyFor true token name = none

theorem completed_unstored (conn : ℕ) (token : UInt64) (name : Bytes) (reply : Reply) :
    (DaemonEvent.completed conn token name reply false).StoresNothing := by
  intro t n
  simp [DaemonEvent.replyFor]

theorem lastCompleted_storesNothing {es : List DaemonEvent} (h : ∀ e ∈ es, e.StoresNothing)
    (token : UInt64) (name : Bytes) : lastCompleted true token name es = none := by
  rw [lastCompleted, List.findSome?_eq_none_iff]
  intro e he
  exact h e (List.mem_reverse.mp he) token name

/-! ### One step -/

/-- What the cache says about the executions so far. -/
structure CacheHistory (d : Daemon) (log : List DaemonEvent) : Prop where
  distinct : d.cache.TokensDistinct
  entries : ∀ (i : ℕ) (e : CacheEntry), d.cache.slots[i]? = some (some e) →
    lastCompleted true e.token e.name log = some e.reply
  storing : ∀ (conn : ℕ) (token : UInt64) (name : Bytes) (reply : Reply),
    d.threads conn = some (.storing token name reply) → reply.status = .ok ∨ reply.status = .core

section Step
variable {fns : List Fn} {d d₁ : Daemon} {log es : List DaemonEvent}

theorem lastCompleted_keep (hes : ∀ e ∈ es, e.StoresNothing) (token : UInt64) (name : Bytes) :
    lastCompleted true token name (log ++ es) = lastCompleted true token name log := by
  rw [lastCompleted_append, lastCompleted_storesNothing hes, Option.none_or]

/-- A move of one thread that leaves the cache alone. -/
theorem CacheHistory.setPhase (hc : CacheHistory d log) {conn : ℕ} {phase : Phase}
    (hcache : d₁.cache = d.cache) (hthreads : d₁.threads = d.threads)
    (hphase : ∀ token name reply, phase = .storing token name reply →
      reply.status = .ok ∨ reply.status = .core)
    (hes : ∀ e ∈ es, e.StoresNothing) : CacheHistory (d₁.setPhase conn phase) (log ++ es) where
  distinct := by
    rw [Daemon.setPhase, hcache]
    exact hc.distinct
  entries i e he := by
    rw [Daemon.setPhase, hcache] at he
    rw [lastCompleted_keep hes]
    exact hc.entries i e he
  storing c token name reply h := by
    rw [setPhase_threads] at h
    split at h
    · exact hphase token name reply (Option.some.inj h)
    · exact hc.storing c token name reply (hthreads ▸ h)

theorem CacheHistory.answer (hc : CacheHistory d log) {conn : ℕ} {reply : Reply}
    (hcache : d₁.cache = d.cache) (hthreads : d₁.threads = d.threads)
    (hes : ∀ e ∈ es, e.StoresNothing) : CacheHistory (d₁.answer conn reply) (log ++ es) :=
  hc.setPhase hcache hthreads (by simp) hes

theorem CacheHistory.release (hc : CacheHistory d log) (conn : ℕ) :
    CacheHistory (d.release conn) (log ++ []) where
  distinct := hc.distinct
  entries i e he := by
    rw [List.append_nil]
    exact hc.entries i e he
  storing c token name reply h := by
    rw [release_threads] at h
    split at h
    · cases h
    · exact hc.storing c token name reply h

/-- An insertion makes its own execution the last one under its token and name, and
the entries it leaves have other tokens. -/
theorem CacheHistory.store (hc : CacheHistory d log) {conn : ℕ} {copyOk : Bool} {token : UInt64}
    {name : Bytes} {reply : Reply} (hphase : d.threads conn = some (.storing token name reply)) :
    CacheHistory ({ d with cache := (cachePut d.cache token reply name copyOk).1 }.answer conn reply)
      (log ++ [.completed conn token name reply (cachePut d.cache token reply name copyOk).2]) where
  distinct := cachePut_tokensDistinct hc.distinct token reply name copyOk
  entries i e he := by
    replace he : (cachePut d.cache token reply name copyOk).1.slots[i]? = some (some e) := he
    rcases cachePut_cases hc.distinct token reply name copyOk with ⟨hnot, hold⟩ | ⟨hstored, j, hnew⟩
    · rw [hnot, lastCompleted_keep (by simp [completed_unstored])]
      exact hc.entries i e (hold i e he)
    · rw [hstored, lastCompleted_append]
      rcases hnew i e he with ⟨-, rfl⟩ | ⟨-, hin, hne⟩
      · simp [lastCompleted, DaemonEvent.replyFor, hc.storing conn token name reply hphase]
      · have hother : lastCompleted true e.token e.name
            [.completed conn token name reply true] = none := by
          simp [lastCompleted, DaemonEvent.replyFor, Ne.symm hne]
        rw [hother, Option.none_or]
        exact hc.entries i e hin
  storing c t n r h := by
    rw [Daemon.answer, setPhase_threads] at h
    split at h
    · cases h
    · exact hc.storing c t n r h

theorem CacheHistory.move {l : DaemonLabel} {d' : Daemon} (hc : CacheHistory d log)
    (h : Move d l d' es) : CacheHistory d' (log ++ es) := by
  cases h with
  | accept => exact hc.setPhase rfl rfl (by simp) (by simp)
  | refuse => exact hc.answer rfl rfl (by simp)
  | beginInit => exact hc.setPhase rfl rfl (by simp) (by simp)
  | beginCall => exact hc.setPhase rfl rfl (by simp) (by simp)
  | beginUntokened => exact hc.setPhase rfl rfl (by simp) (by simp)
  | deinit _ _ hes =>
    refine hc.answer rfl rfl ?_
    rcases hes with rfl | rfl <;> simp [DaemonEvent.StoresNothing, DaemonEvent.replyFor]
  | cancel => exact hc.answer rfl rfl (by simp)
  | takeId => exact hc.setPhase rfl rfl (by simp) (by simp)
  | link => exact hc.answer rfl rfl (by simp [DaemonEvent.StoresNothing, DaemonEvent.replyFor])
  | replay => exact hc.answer rfl rfl (by simp [DaemonEvent.StoresNothing, DaemonEvent.replyFor])
  | miss => exact hc.setPhase rfl rfl (by simp) (by simp)
  | found => exact hc.setPhase rfl rfl (by simp) (by simp)
  | sawMark => exact hc.setPhase rfl rfl (by simp) (by simp)
  | unmarked => exact hc.setPhase rfl rfl (by simp) (by simp)
  | clearMark => exact hc.answer rfl rfl (by simp)
  | start => exact hc.setPhase rfl rfl (by simp) (by simp [DaemonEvent.StoresNothing, DaemonEvent.replyFor])
  | bodyFailed => exact hc.setPhase rfl rfl (by simp) (by simp)
  | coreMarked => exact hc.setPhase rfl rfl (by simp) (by simp)
  | kept _ _ _ hstatus => exact hc.setPhase rfl rfl (by simp [hstatus]) (by simp)
  | unkept _ _ hd =>
    refine hc.answer ?_ ?_ (by simp [completed_unstored]) <;> rcases hd with rfl | rfl <;> rfl
  | store hphase => exact hc.store hphase
  | sent => exact hc.setPhase rfl rfl (by simp) (by simp)
  | close => exact hc.release _

/-- The step that answers from the cache only moves its thread to its reply. -/
theorem move_replayed {l : DaemonLabel} {d' : Daemon} {conn : ℕ} {token : UInt64} {name : Bytes}
    {reply : Reply} (h : Move d l d' es) (hmem : .replayed conn token name reply ∈ es) :
    d' = d.answer conn reply ∧ es = [.replayed conn token name reply] ∧
      ∃ cloneOk, cacheReplay d.cache token name cloneOk = some reply := by
  cases h with
  | replay hphase hreply =>
    cases List.mem_singleton.mp hmem
    exact ⟨rfl, rfl, _, hreply⟩
  | deinit _ _ hes => rcases hes with rfl | rfl <;> simp at hmem
  | _ => simp at hmem

end Step

/-! ### Whole runs -/

theorem cacheHistory_init : CacheHistory {} [] where
  distinct i j e e' hi := by
    simp [List.getElem?_replicate] at hi
  entries i e he := by
    simp [List.getElem?_replicate] at he
  storing conn token name reply h := by cases h

theorem cacheHistory_reachable {fns : List Fn} {labels : List DaemonLabel}
    {cfg : Config Daemon DaemonEvent} (hrun : exec (Daemon.step fns) ⟨{}, []⟩ labels = some cfg) :
    CacheHistory cfg.state cfg.log :=
  exec_invariant (fun hc hs => hc.move (step_move hs)) cacheHistory_init hrun

theorem lastCompleted_mem {token : UInt64} {name : Bytes} {reply : Reply} {log : List DaemonEvent}
    (h : lastCompleted true token name log = some reply) :
    (∃ conn, .completed conn token name reply true ∈ log) ∧ (reply.status = .ok ∨ reply.status = .core) := by
  rw [lastCompleted] at h
  obtain ⟨e, he, hreply⟩ := List.exists_of_findSome?_eq_some h
  cases e with
  | completed conn t n r stored =>
    simp only [DaemonEvent.replyFor, Option.ite_none_right_eq_some, Option.some.injEq] at hreply
    obtain ⟨⟨rfl, rfl, hstatus, hstored⟩, rfl⟩ := hreply
    obtain rfl : stored = true := by simpa using hstored
    exact ⟨⟨conn, by simpa using he⟩, hstatus⟩
  | _ => simp [DaemonEvent.replyFor] at hreply

/-- A connection with one statement, whose handle is 1. -/
def sampleOpen : List DaemonLabel :=
  [.accept, .receive 1 (.init (1 :: (ascii "f" ++ leBytes 4 0))), .initialise 1 (.accepted [] 0 false),
    .link 1 true, .reply 1 true]

/-- A call under the token 7, up to its lookup. -/
def sampleCall : DaemonLabel := .receive 1 (.call 7 (callPayload (ascii "f") 1 0 []))

/-- From a missed lookup to the end of the call, with the number the body returns. -/
def sampleBody (bits : UInt64) (copyOk : Bool) : List DaemonLabel :=
  [.find 1, .checkpoint 1, .marshal 1 [] true, .finish 1 ⟨false, false, [], bits⟩ true, .store 1 copyOk,
    .reply 1 true]

def sampleReply (bits : UInt64) : Reply := tlvResult true .int false (leBytes 8 bits.toNat)

end FractalSQL.Service
