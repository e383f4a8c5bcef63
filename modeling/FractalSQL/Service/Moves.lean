import FractalSQL.Service.Daemon

/-!
# What a step of the daemon can do

The step function read backwards, once: each step moves one thread, and this is
the list of the moves with what each finds and leaves. Invariants of the daemon
are proved by cases on it.
-/
namespace FractalSQL.Service
open Lib

theorem setPhase_threads (d : Daemon) (conn c : ℕ) (phase : Phase) :
    (d.setPhase conn phase).threads c = if c = conn then some phase else d.threads c := by
  simp [Daemon.setPhase, Function.update_apply]

theorem release_threads (d : Daemon) (conn c : ℕ) :
    (d.release conn).threads c = if c = conn then none else d.threads c := by
  simp [Daemon.release, Function.update_apply]

/-- The moves of the daemon. -/
inductive Move (d : Daemon) : DaemonLabel → Daemon → List DaemonEvent → Prop
  | accept : Move d .accept d.accept []
  /-- A request is turned down before any body ran. -/
  | refuse {l : DaemonLabel} {phase : Phase} {reply : Reply} (hphase : d.threads (l.conn d) = some phase)
      (hstatus : reply.status ≠ .ok) : Move d l (d.answer (l.conn d) reply) []
  | beginInit {conn : ℕ} {payload : Bytes} {req : InitRequest} {fn : Fn}
      (hphase : d.threads conn = some .reading) :
      Move d (.receive conn (.init payload)) (d.setPhase conn (.initialising req fn)) []
  | beginCall {conn : ℕ} {token : UInt64} {payload : Bytes} {call : CallRequest}
      (hphase : d.threads conn = some .reading) (htoken : token ≠ 0) :
      Move d (.receive conn (.call token payload)) (d.setPhase conn (.lookup token call)) []
  | beginUntokened {conn : ℕ} {payload : Bytes} {call : CallRequest}
      (hphase : d.threads conn = some .reading) :
      Move d (.receive conn (.call 0 payload)) (d.setPhase conn (.find 0 call)) []
  | deinit {conn : ℕ} {payload : Bytes} {id : UInt64} {es : List DaemonEvent}
      (hphase : d.threads conn = some .reading) (hid : parseHandle payload = some id)
      (hes : es = [.removed conn id] ∨ es = []) :
      Move d (.receive conn (.deinit payload))
        ({ d with handles := d.handles.eraseP (fun h => h.id = id ∧ h.owner = conn) }.answer conn
          (setText .ok "")) es
  | cancel {conn : ℕ} {payload : Bytes} {id : UInt64} (hphase : d.threads conn = some .reading) :
      Move d (.receive conn (.cancel payload))
        ({ d with handles := setMark (fun h => h.id = id) true d.handles }.answer conn
          (setText .ok "")) []
  | takeId {conn : ℕ} {outcome : InitOutcome} {req : InitRequest} {fn : Fn} {types : List ItemResult}
      {maxLength : ℕ} {maybeNull : Bool} (hphase : d.threads conn = some (.initialising req fn)) :
      Move d (.initialise conn outcome)
        ({ d with nextHandle := d.nextHandle + 1 }.setPhase conn
          (.linking ⟨UInt64.ofNat d.nextHandle, fn, types, maxLength, conn, false⟩ maybeNull)) []
  | link {conn : ℕ} {h : Handle} {maybeNull : Bool}
      (hphase : d.threads conn = some (.linking h maybeNull)) :
      Move d (.link conn true)
        ({ d with handles := h :: d.handles }.answer conn ⟨.ok, 0, initBody h maybeNull⟩)
        [.minted conn h.id]
  | replay {conn : ℕ} {cloneOk : Bool} {token : UInt64} {call : CallRequest} {reply : Reply}
      (hphase : d.threads conn = some (.lookup token call))
      (hreply : cacheReplay d.cache token call.name cloneOk = some reply) :
      Move d (.lookup conn cloneOk) (d.answer conn reply) [.replayed conn token call.name reply]
  | miss {conn : ℕ} {cloneOk : Bool} {token : UInt64} {call : CallRequest}
      (hphase : d.threads conn = some (.lookup token call))
      (hmiss : cacheReplay d.cache token call.name cloneOk = none) :
      Move d (.lookup conn cloneOk) (d.setPhase conn (.find token call)) []
  | found {conn : ℕ} {token : UInt64} {call : CallRequest} {h : Handle}
      (hphase : d.threads conn = some (.find token call)) (hname : h.fn.name = call.name) :
      Move d (.find conn) (d.setPhase conn (.checkpoint token call h)) []
  | sawMark {conn : ℕ} {token : UInt64} {call : CallRequest} {h : Handle}
      (hphase : d.threads conn = some (.checkpoint token call h)) :
      Move d (.checkpoint conn) (d.setPhase conn (.clearMark h)) []
  | unmarked {conn : ℕ} {token : UInt64} {call : CallRequest} {h : Handle}
      (hphase : d.threads conn = some (.checkpoint token call h)) :
      Move d (.checkpoint conn) (d.setPhase conn (.marshal token call h)) []
  | clearMark {conn : ℕ} {h : Handle} (hphase : d.threads conn = some (.clearMark h)) :
      Move d (.clearMark conn) ((d.unmark conn h.id).answer conn (setText .busy "cancelled")) []
  | start {conn : ℕ} {argAllocs : List Bool} {resultOk : Bool} {token : UInt64} {call : CallRequest}
      {h : Handle} (hphase : d.threads conn = some (.marshal token call h)) :
      Move d (.marshal conn argAllocs resultOk) (d.setPhase conn (.running token h))
        [.started conn token h.fn.name]
  | bodyFailed {conn : ℕ} {outcome : BodyOutcome} {replyOk : Bool} {token : UInt64} {h : Handle}
      (hphase : d.threads conn = some (.running token h)) :
      Move d (.finish conn outcome replyOk) (d.setPhase conn (.coreFail token h)) []
  | coreMarked {conn : ℕ} {token : UInt64} {h : Handle}
      (hphase : d.threads conn = some (.coreFail token h)) :
      Move d (.coreFail conn) (d.setPhase conn (.coreClear token h)) []
  /-- A body ended with a reply the cache keeps. -/
  | kept {l : DaemonLabel} {phase : Phase} {token : UInt64} {h : Handle} {reply : Reply}
      (hphase : d.threads (l.conn d) = some phase)
      (hbody : phase = .running token h ∨ phase = .coreFail token h) (htoken : token ≠ 0)
      (hstatus : reply.status = .ok ∨ reply.status = .core) :
      Move d l (d.setPhase (l.conn d) (.storing token h.fn.name reply)) []
  /-- A body ended with a reply that is not put in the cache. -/
  | unkept {l : DaemonLabel} {d₀ : Daemon} {phase : Phase} {token : UInt64} {h : Handle} {reply : Reply}
      (hphase : d.threads (l.conn d) = some phase)
      (hbody : phase = .running token h ∨ phase = .coreFail token h ∨ phase = .coreClear token h)
      (hd : d₀ = d ∨ d₀ = d.unmark (l.conn d) h.id) :
      Move d l (d₀.answer (l.conn d) reply) [.completed (l.conn d) token h.fn.name reply false]
  | store {conn : ℕ} {copyOk : Bool} {token : UInt64} {name : Bytes} {reply : Reply}
      (hphase : d.threads conn = some (.storing token name reply)) :
      Move d (.store conn copyOk)
        ({ d with cache := (cachePut d.cache token reply name copyOk).1 }.answer conn reply)
        [.completed conn token name reply (cachePut d.cache token reply name copyOk).2]
  | sent {conn : ℕ} {reply : Reply} (hphase : d.threads conn = some (.replying reply)) :
      Move d (.reply conn true) (d.setPhase conn .reading) []
  /-- The end of a connection. -/
  | close {l : DaemonLabel} {phase : Phase} (hphase : d.threads (l.conn d) = some phase)
      (hend : phase = .reading ∨ ∃ reply, phase = .replying reply) :
      Move d l (d.release (l.conn d)) []

section Inversion
variable {fns : List Fn} {d d' : Daemon} {es : List DaemonEvent}

theorem setText_status (status : Status) (text : String) : (setText status text).status = status := rfl

theorem receive_move {conn : ℕ} {req : Request} (hphase : d.threads conn = some .reading) :
    Move d (.receive conn req) (d.receive fns conn req).1 (d.receive fns conn req).2 := by
  have hrefuse (status : Status) (text : String) (hs : status ≠ .ok) :
      Move d (.receive conn req) (d.answer conn (setText status text)) [] :=
    .refuse (l := .receive conn req) hphase hs
  cases req with
  | init payload =>
    simp only [Daemon.receive]
    split
    · exact hrefuse _ _ (by simp)
    · split
      · exact hrefuse _ _ (by simp)
      · exact .beginInit hphase
  | call token payload =>
    simp only [Daemon.receive]
    split
    · exact hrefuse _ _ (by simp)
    · split
      · rename_i htoken
        exact .beginCall hphase htoken
      · rename_i htoken
        obtain rfl : token = 0 := not_not.mp htoken
        exact .beginUntokened hphase
  | deinit payload =>
    simp only [Daemon.receive, handleDeinit]
    split
    · exact hrefuse _ _ (by simp)
    · rename_i id hid
      refine .deinit hphase hid ?_
      split
      · exact .inl rfl
      · exact .inr rfl
  | cancel payload =>
    simp only [Daemon.receive, handleCancel]
    split
    · exact hrefuse _ _ (by simp)
    · split
      · exact .cancel hphase
      · exact hrefuse _ _ (by simp)

theorem initialise_move {conn : ℕ} {req : InitRequest} {fn : Fn} {outcome : InitOutcome}
    (hphase : d.threads conn = some (.initialising req fn))
    (h : d.initialise conn req fn outcome = some (d', es)) : Move d (.initialise conn outcome) d' es := by
  have hrefuse {reply : Reply} (hs : reply.status ≠ .ok) :
      Move d (.initialise conn outcome) (d.answer conn reply) [] :=
    .refuse (l := .initialise conn outcome) hphase hs
  cases outcome with
  | noMemory =>
    cases h
    exact hrefuse (by simp [setText_status])
  | refused msg =>
    simp only [Daemon.initialise] at h
    split at h <;> cases h
    · apply hrefuse
      split <;> simp [setText_status]
    · exact hrefuse (by simp [setText_status])
  | accepted types maxLength maybeNull =>
    simp only [Daemon.initialise] at h
    split at h
    · split at h <;> cases h
      exact .takeId hphase
    · cases h
      exact hrefuse (by simp [setText_status])

theorem marshal_move {conn : ℕ} {token : UInt64} {call : CallRequest} {h : Handle}
    {argAllocs : List Bool} {resultOk : Bool} (hphase : d.threads conn = some (.marshal token call h)) :
    Move d (.marshal conn argAllocs resultOk) (d.marshal conn token call h argAllocs resultOk).1
      (d.marshal conn token call h argAllocs resultOk).2 := by
  have hrefuse (status : Status) (hs : status ≠ .ok) :
      Move d (.marshal conn argAllocs resultOk) (d.answer conn (setText status "")) [] :=
    .refuse (l := .marshal conn argAllocs resultOk) hphase hs
  unfold Daemon.marshal
  split
  · rename_i status hstatus
    apply hrefuse
    rcases marshalArgs_status hstatus with rfl | rfl <;> simp
  · split
    · exact hrefuse _ (by simp)
    · split
      · exact hrefuse _ (by simp)
      · exact .start hphase

theorem findHandle_move {conn : ℕ} {token : UInt64} {call : CallRequest}
    (hphase : d.threads conn = some (.find token call)) :
    Move d (.find conn) (d.findHandle conn token call) [] := by
  have hrefuse : Move d (.find conn) (d.answer conn (setText .args "")) [] :=
    .refuse (l := .find conn) hphase (by simp [setText_status])
  unfold Daemon.findHandle
  split
  · exact hrefuse
  · split
    · rename_i hmatch
      exact .found hphase hmatch.1
    · exact hrefuse

/-- A body's end, whichever label it is reached by. -/
theorem afterBody_move {l : DaemonLabel} {phase : Phase} {token : UInt64} {h : Handle} {reply : Reply}
    (hphase : d.threads (l.conn d) = some phase)
    (hbody : phase = .running token h ∨ phase = .coreFail token h) :
    Move d l (afterBody d (l.conn d) token h reply).1 (afterBody d (l.conn d) token h reply).2 := by
  unfold afterBody
  split
  · rename_i hkept
    exact .kept hphase hbody hkept.1 hkept.2
  · exact .unkept hphase (hbody.imp_right .inl) (.inl rfl)

/-- Every step is one of the moves. -/
theorem step_move {l : DaemonLabel} (h : d.step fns l = some (d', es)) : Move d l d' es := by
  cases l with
  | accept =>
    cases h
    exact .accept
  | receive conn req =>
    simp only [Daemon.step] at h
    split at h
    · rename_i hphase
      obtain ⟨rfl, rfl⟩ := Prod.mk.inj (Option.some.inj h)
      exact receive_move hphase
    · cases h
  | initialise conn outcome =>
    simp only [Daemon.step] at h
    split at h
    · rename_i hphase
      exact initialise_move hphase h
    · cases h
  | link conn bodyOk =>
    simp only [Daemon.step] at h
    split at h
    · rename_i hphase
      split at h <;> rename_i hok <;> cases h
      · subst hok
        exact .link hphase
      · exact .refuse (l := .link conn bodyOk) hphase (by simp [setText_status])
    · cases h
  | lookup conn cloneOk =>
    simp only [Daemon.step] at h
    split at h
    · rename_i hphase
      split at h <;> rename_i hcache <;> cases h
      · exact .replay hphase hcache
      · exact .miss hphase hcache
    · cases h
  | find conn =>
    simp only [Daemon.step] at h
    split at h <;> rename_i hphase <;> cases h
    exact findHandle_move hphase
  | checkpoint conn =>
    simp only [Daemon.step] at h
    split at h
    · rename_i hphase
      split at h <;> cases h
      · exact .sawMark hphase
      · exact .unmarked hphase
    · cases h
  | clearMark conn =>
    simp only [Daemon.step] at h
    split at h <;> rename_i hphase <;> cases h
    exact .clearMark hphase
  | marshal conn argAllocs resultOk =>
    simp only [Daemon.step] at h
    split at h
    · rename_i hphase
      obtain ⟨rfl, rfl⟩ := Prod.mk.inj (Option.some.inj h)
      exact marshal_move hphase
    · cases h
  | finish conn outcome replyOk =>
    simp only [Daemon.step] at h
    split at h
    · rename_i hphase
      split at h
      · cases h
        exact .bodyFailed hphase
      · obtain ⟨rfl, rfl⟩ := Prod.mk.inj (Option.some.inj h)
        exact afterBody_move (l := .finish conn outcome replyOk) hphase (.inl rfl)
    · cases h
  | coreFail conn =>
    simp only [Daemon.step] at h
    split at h
    · rename_i hphase
      split at h
      · cases h
        exact .coreMarked hphase
      · obtain ⟨rfl, rfl⟩ := Prod.mk.inj (Option.some.inj h)
        exact afterBody_move (l := .coreFail conn) hphase (.inr rfl)
    · cases h
  | coreClear conn =>
    simp only [Daemon.step] at h
    split at h
    · rename_i hphase
      rw [afterBody, if_neg (by simp [setText_status])] at h
      cases h
      exact .unkept (l := .coreClear conn) hphase (.inr (.inr rfl)) (.inr rfl)
    · cases h
  | store conn copyOk =>
    simp only [Daemon.step] at h
    split at h <;> rename_i hphase <;> cases h
    exact .store hphase
  | reply conn sent =>
    simp only [Daemon.step] at h
    split at h
    · rename_i hphase
      split at h <;> rename_i hsent <;> cases h
      · subst hsent
        exact .sent hphase
      · exact .close (l := .reply conn sent) hphase (.inr ⟨_, rfl⟩)
    · cases h
  | hangUp conn =>
    simp only [Daemon.step] at h
    split at h <;> rename_i hphase <;> cases h
    exact .close (l := .hangUp conn) hphase (.inl rfl)

end Inversion

/-! ### Frame -/

section Frame
variable {d d' : Daemon} {l : DaemonLabel} {es : List DaemonEvent}

/-- A move touches the thread of its own connection only. -/
theorem move_threads_of_ne (h : Move d l d' es) {c : ℕ} (hc : c ≠ l.conn d) :
    d'.threads c = d.threads c := by
  have hset (d₁ : Daemon) (conn : ℕ) (phase : Phase) (hthreads : d₁.threads = d.threads) (hne : c ≠ conn) :
      (d₁.setPhase conn phase).threads c = d.threads c := by
    rw [setPhase_threads, if_neg hne, hthreads]
  cases h with
  | unkept _ _ hd => exact hset _ _ _ (by rcases hd with rfl | rfl <;> rfl) hc
  | close => rw [release_threads, if_neg hc]
  | _ => exact hset _ _ _ rfl hc

/-- Every move but an accept is made by a thread there is. -/
theorem move_thread (h : Move d l d' es) :
    (l = .accept ∧ d' = d.accept) ∨
      ((∃ phase, d.threads (l.conn d) = some phase) ∧ d'.nextConn = d.nextConn) := by
  cases h with
  | accept => exact .inl ⟨rfl, rfl⟩
  | unkept hphase _ hd => exact .inr ⟨⟨_, hphase⟩, by rcases hd with rfl | rfl <;> rfl⟩
  | refuse hphase | beginInit hphase | beginCall hphase | beginUntokened hphase | deinit hphase
  | cancel hphase | takeId hphase | link hphase | replay hphase | miss hphase | found hphase
  | sawMark hphase | unmarked hphase | clearMark hphase | start hphase | bodyFailed hphase
  | coreMarked hphase | kept hphase | store hphase | sent hphase | close hphase =>
    exact .inr ⟨⟨_, hphase⟩, rfl⟩

/-- Threads are numbered below the counter of connections. -/
def ThreadsBelow (d : Daemon) : Prop := ∀ c, d.nextConn ≤ c → d.threads c = none

theorem ThreadsBelow.move (hb : ThreadsBelow d) (h : Move d l d' es) : ThreadsBelow d' := by
  intro c hc
  rcases move_thread h with ⟨rfl, rfl⟩ | ⟨⟨phase, hphase⟩, hnext⟩
  · have hlt : d.nextConn < c := hc
    rw [move_threads_of_ne h (Nat.ne_of_gt hlt)]
    exact hb c hlt.le
  · rw [hnext] at hc
    have hne : c ≠ l.conn d := by
      rintro rfl
      rw [hb _ hc] at hphase
      cases hphase
    rw [move_threads_of_ne h hne]
    exact hb c hc

end Frame

end FractalSQL.Service
