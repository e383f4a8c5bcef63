import FractalSQL.Service.Execution
import FractalSQL.Service.Transitions

/-!
# Resent calls

A call of a retried class is resent with its token on a new connection, on which
another thread of the daemon serves it. The cache keeps the body from running
twice only if the first execution has been stored by then: the lookup and the
insertion are separate critical sections, and the shim's timeout can strike
between them.
-/
namespace FractalSQL.Service
open Lib

def SystemEvent.daemonEvent : SystemEvent → Option DaemonEvent
  | .served _ _ e => some e
  | _ => none

/-- What the daemon did in a run of the system. -/
def daemonLog (log : List SystemEvent) : List DaemonEvent := log.filterMap SystemEvent.daemonEvent

theorem daemonLog_append (log es : List SystemEvent) :
    daemonLog (log ++ es) = daemonLog log ++ daemonLog es :=
  List.filterMap_append

theorem daemonLog_served (k : Sock) (f : Option Frame) (es : List DaemonEvent) :
    daemonLog (es.map (.served k f)) = es := by
  rw [daemonLog, List.filterMap_map]
  exact List.filterMap_some

/-- The daemon is not restarted, and every lookup of the token is in time: the first
to get past the cache, or one that finds the stored reply. -/
def timelyStep (token : UInt64) (s : System) (log : List SystemEvent) (l : SystemLabel) : Bool :=
  match l, s.daemonLabel l with
  | .restart, _ => false
  | _, some dl => lookupInTime token s.daemon (daemonLog log) dl
  | _, none => true

/-- The daemon is not restarted, and the token's cache entry is not evicted. -/
def keepsEntry (fns : List Fn) (token : UInt64) (s : System) (l : SystemLabel) : Bool :=
  match l, s.step fns l with
  | .restart, _ => false
  | _, some (s', _) => (cacheFind s.daemon.cache token).isNone ∨ (cacheFind s'.daemon.cache token).isSome
  | _, none => true

section Step
variable {fns : List Fn} {s s' : System} {log es : List SystemEvent} {l : SystemLabel}

theorem timelyStep_lookup {token : UInt64} {dl : DaemonLabel} (h : timelyStep token s log l)
    (hl : s.daemonLabel l = some dl) : lookupInTime token s.daemon (daemonLog log) dl := by
  unfold timelyStep at h
  rw [hl] at h
  cases l with
  | restart => cases hl
  | _ => exact h

/-- What a run of timely steps keeps of the daemon. -/
structure TokenInv (token : UInt64) (d : Daemon) (log : List DaemonEvent) : Prop where
  below : ThreadsBelow d
  once : RunsOnce token d log

theorem TokenInv.move {token : UInt64} {d d' : Daemon} {dl : DaemonLabel} {dlog des : List DaemonEvent}
    (h : TokenInv token d dlog) (hl : lookupInTime token d dlog dl)
    (hstep : d.step fns dl = some (d', des)) : TokenInv token d' (dlog ++ des) :=
  ⟨h.below.move (step_move hstep), h.once.move h.below hl (step_move hstep)⟩

theorem TokenInv.systemMove {token : UInt64} (h : TokenInv token s.daemon (daemonLog log))
    (hl : timelyStep token s log l) (hm : SystemMove fns s l s' es) :
    TokenInv token s'.daemon (daemonLog (log ++ es)) := by
  rw [daemonLog_append]
  cases hm with
  | receive hrequest hstep =>
    rw [daemonLog_served]
    refine h.move (timelyStep_lookup hl ?_) hstep
    simp [System.daemonLabel, hrequest]
  | daemon hstep =>
    rw [daemonLog_served]
    exact h.move (timelyStep_lookup hl rfl) hstep
  | newConn =>
    have haccept : s.daemon.step fns .accept = some (s.daemon.accept, []) := rfl
    exact h.move rfl haccept
  | restart => cases hl
  | udfInit | udfCall | udfDeinit | forget | keepConn | retry | hook | write | writeFailed | recv =>
    exact (List.append_nil (daemonLog log)).symm ▸ h

end Step

/-- The first execution is stored while the shim still waits; the resent call is
answered from the cache. -/
def sampleReplayed : List SystemLabel :=
  sampleSentCall ++ sampleStart 1 ++
    [SystemLabel.daemon (.finish 1 ⟨false, false, [], 5⟩ true), .daemon (.store 1 true)] ++ sampleReopen ++ [SystemLabel.send true] ++
    [SystemLabel.receive 2, .daemon (.lookup 2 true)]

/-- Not a call of a function of another class than `s`. -/
def SystemLabel.stateful : SystemLabel → Bool
  | .udfCall _ .r _ | .udfCall _ .e _ => false
  | _ => true

end FractalSQL.Service
