import FractalSQL.Lib.Machine
import FractalSQL.Provider.Reload

/-!
# Concurrent reloads

Any number of `handle_reload` calls on any connections, interleaved at their critical
sections, while the file changes and enterprise calls load the library. Each swap of a
consumer and the publication is a critical section of its own, so two reloads can reach
the consumers in different orders.
-/
namespace FractalSQL.Provider
open Lib Service

/-- The places that hold a configuration, in the order a reload writes them. -/
inductive Swap where
  | cognition
  | textsql
  | enterprise
  | publish
deriving DecidableEq

/-- What a reload does next. -/
inductive Stage where
  | read
  | check
  | swap (k : Swap)
  | answered (reply : Reply)
deriving DecidableEq

/-- The thread of one request: the snapshot its connection borrowed and the local
configuration, which the read fills. -/
structure Reload where
  cur : Config
  next : Config := {}
  stage : Stage := .read

structure Event where
  reload : ℕ
  swap : Swap
deriving DecidableEq

structure State where
  file : Option Bytes
  daemon : Daemon
  borrowed : ℕ → Option Config := fun _ => none
  nextConn : ℕ := 0
  reloads : ℕ → Option Reload := fun _ => none
  nextReload : ℕ := 0

inductive Label where
  | setFile (file : Option Bytes)
  | connect
  | request (conn : ℕ)
  | advance (r : ℕ)
  /-- An enterprise call, and how the load ends if it attempts one. -/
  | ensureLib (ok : Bool)

def State.answer (s : State) (r : ℕ) (rl : Reload) (status : Status) (text : String) : State :=
  { s with reloads := Function.update s.reloads r (some { rl with stage := .answered ⟨status, text⟩ }) }

section Machine

variable (site : Site) (getenv : String → Option Bytes)

/-- The consumers' part of a swap, `none` when the consumer refuses. -/
def Daemon.swap (d : Daemon) (next : Config) : Swap → Option Daemon
  | .cognition =>
    some { d with consumers := d.consumers.applyCognition (captureEnvFb getenv) next.provider }
  | .textsql =>
    some { d with consumers := d.consumers.applyTextsql (captureT2sEnvFb getenv) next.provider }
  | .enterprise =>
    (d.consumers.enterprise.applyProvider (entEnvCapture getenv) next.provider).map fun e =>
      { d with consumers := { d.consumers with enterprise := e } }
  | .publish => some { d with snapshot := next }

def Swap.then : Swap → Stage
  | .cognition => .swap .textsql
  | .textsql => .swap .enterprise
  | .enterprise => .swap .publish
  | .publish => .answered ⟨.ok, "reloaded"⟩

/-- The next critical section of a reload. -/
def State.advance (s : State) (r : ℕ) (rl : Reload) : Option (State × List Event) :=
  match rl.stage with
  | .read =>
    match reparse site rl.cur s.file with
    | .error text => some (s.answer r rl .args text, [])
    | .ok next =>
      some ({ s with reloads := Function.update s.reloads r (some { rl with next := next, stage := .check }) }, [])
  | .check =>
    if s.daemon.consumers.checkProvider rl.next then
      some ({ s with reloads := Function.update s.reloads r (some { rl with stage := .swap .cognition }) }, [])
    else some (s.answer r rl .args "reload failed: provider settings rejected (see the daemon log)", [])
  | .swap k =>
    match s.daemon.swap getenv rl.next k with
    | none => some (s.answer r rl .args "reload failed: applying provider settings (see the daemon log)", [])
    | some d =>
      some ({ s with
        daemon := d
        reloads := Function.update s.reloads r (some { rl with stage := k.then }) }, [⟨r, k⟩])
  | .answered _ => none

def State.step (s : State) : Label → Option (State × List Event)
  | .setFile file => some ({ s with file := file }, [])
  | .connect =>
    some ({ s with
      borrowed := Function.update s.borrowed s.nextConn (some s.daemon.snapshot)
      nextConn := s.nextConn + 1 }, [])
  | .request conn => (s.borrowed conn).map fun cur =>
    ({ s with
      reloads := Function.update s.reloads s.nextReload (some { cur := cur })
      nextReload := s.nextReload + 1 }, [])
  | .advance r => (s.reloads r).bind fun rl => s.advance site getenv r rl
  | .ensureLib ok =>
    some ({ s with daemon := { s.daemon with consumers := { s.daemon.consumers with
      enterprise := s.daemon.consumers.enterprise.ensureLib ok } } }, [])

/-- Just after `main` published its snapshot. -/
def State.initial (d : Daemon) : State := { file := none, daemon := d }

/-- The place `k` holds what a configuration gives it. -/
def Daemon.Holds (d : Daemon) (cfg : Config) : Swap → Prop
  | .cognition => d.consumers.cognition = cfg.provider.cognition (captureEnvFb getenv)
  | .textsql => d.consumers.textsql = cfg.provider.textsql (captureT2sEnvFb getenv)
  | .enterprise => d.consumers.enterprise.config = cfg.provider.enterprise (entEnvCapture getenv)
  | .publish => d.snapshot = cfg

end Machine

/-- Every request so far has been answered `FSQ_OK`. -/
def State.AllOk (s : State) : Prop :=
  ∀ r < s.nextReload, (s.reloads r).all (fun rl => rl.stage = .answered ⟨.ok, "reloaded"⟩) = true

instance (s : State) : Decidable s.AllOk := inferInstanceAs (Decidable (∀ r < s.nextReload, _))

/-- The startup's parse, or that of a reload. -/
def State.Parsed (s : State) (startup cfg : Config) : Prop :=
  cfg = startup ∨ ∃ r rl, s.reloads r = some rl ∧ rl.stage ≠ .read ∧ rl.next = cfg

/-- The snapshot and the three consumers come from one parse of the file. -/
def State.OneConfiguration (getenv : String → Option Bytes) (startup : Config) (s : State) : Prop :=
  ∃ cfg, s.Parsed startup cfg ∧ ∀ k, s.daemon.Holds getenv cfg k

/-- A reload whose first swap came after that of `r` has made the swap `k` already. -/
def overtaken (log : List Event) (r : ℕ) (k : Swap) : Bool :=
  log.any fun e => e.swap = k && decide (List.Sublist [⟨r, .cognition⟩, ⟨e.reload, .cognition⟩] log)

/-- No reload makes a swap that a later one has made before it. -/
def InOrder (s : State) (log : List Event) : Label → Prop
  | .advance r =>
    (s.reloads r).all (fun rl => match rl.stage with
      | .swap k => !overtaken log r k
      | _ => true) = true
  | _ => True

instance (s : State) (log : List Event) : ∀ a, Decidable (InOrder s log a)
  | .advance _ => inferInstanceAs (Decidable (_ = true))
  | .setFile _ | .connect | .request _ | .ensureLib _ => isTrue trivial

end FractalSQL.Provider
