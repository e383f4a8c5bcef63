import Mathlib.Data.Finset.Basic
import FractalSQL.Lib.Machine
import FractalSQL.Lib.Text

/-!
# Tool calls and their cancellation

`handleToolsCall` and `cancel` of one `JsonRpcServer`: the two sets of request ids under
`inflightMu_`, the concurrency gate, the connection behind the mutex of `Db`, and the
`KILL QUERY` that a cancel sends to that connection after it has let go of the sets.
-/
namespace FractalSQL.Mcp.Server
open Lib

/-- How a call ends. -/
inductive Outcome where
  /-- By a check before the admission: the tool, the read-only mode, the allowlist, the
  arguments. -/
  | refused
  /-- By the concurrency gate. -/
  | busy
  /-- `call was cancelled; result discarded`. -/
  | withheld
  | answered (isError : Bool)
deriving DecidableEq

/-- Where a call stands. -/
inductive Phase where
  | arrived
  | queued
  | turnedAway
  | admitted
  | handling (ctxCancelled : Bool)
  | returned (isError : Bool)
  | ended (o : Outcome)
deriving DecidableEq

/-- Between the admission and the end: the id is to be in `inflightIds_`. -/
def Phase.inFlight : Phase → Bool
  | .arrived | .ended _ => false
  | _ => true

/-- The client has no reply yet. -/
def Phase.live : Phase → Bool
  | .ended _ => false
  | _ => true

structure Call where
  id : Bytes
  phase : Phase
deriving DecidableEq

/-- The connection: the call that holds `mu_`, and whether its statement is executing. -/
structure Db where
  holder : Option ℕ := none
  executing : Bool := false

structure State where
  inflightIds : Finset Bytes := ∅
  cancelledIds : Finset Bytes := ∅
  calls : List Call := []
  db : Db := {}
  /-- The cancels on their way to `killQuery`, each with the call it named. -/
  kills : List (Option ℕ) := []

inductive Event where
  /-- A cancel has arrived, while that call was in flight under its id. -/
  | cancelled (named : Option ℕ)
  /-- The `KILL QUERY` of a cancel that named `named` has interrupted a statement of `victim`. -/
  | interrupted (victim : ℕ) (named : Option ℕ)
deriving DecidableEq

inductive Label where
  | arrive (id : Bytes)
  /-- The checks before the admission; `ok` whether the call passes them. -/
  | check (n : ℕ) (ok : Bool)
  /-- `acquire`, which waits, then grants a token or throws. -/
  | gate (n : ℕ) (ok : Bool)
  /-- The refusal's handler. -/
  | drop (n : ℕ)
  /-- The reading of `ctx.cancelled`. -/
  | enter (n : ℕ)
  | lock (n : ℕ)
  | execute (n : ℕ)
  | executed (n : ℕ)
  | unlock (n : ℕ)
  /-- `runTool` is over; `ok` whether the handler returned a result. -/
  | handled (n : ℕ) (ok : Bool)
  /-- The last look at the sets. -/
  | finish (n : ℕ)
  | cancel (id : Bytes)
  /-- `cancelInflight`; `ok` whether the control connection reaches the engine. -/
  | kill (k : ℕ) (ok : Bool)

def State.moveTo (s : State) (n : ℕ) (c : Call) (phase : Phase) : State :=
  { s with calls := s.calls.set n { c with phase := phase } }

/-- The call in flight under an id. -/
def State.named (s : State) (id : Bytes) : Option ℕ :=
  s.calls.findIdx? fun c => c.id = id ∧ c.phase.inFlight = true

/-- The steps of one call. -/
def State.advance (s : State) (n : ℕ) (c : Call) : Label → Option State
  | .check _ ok =>
    if c.phase = .arrived then
      if ok then some ({ s with inflightIds := insert c.id s.inflightIds }.moveTo n c .queued)
      else some (s.moveTo n c (.ended .refused))
    else none
  | .gate _ ok =>
    if c.phase = .queued then some (s.moveTo n c (if ok then .admitted else .turnedAway)) else none
  | .drop _ =>
    if c.phase = .turnedAway then
      some ({ s with inflightIds := s.inflightIds.erase c.id }.moveTo n c (.ended .busy))
    else none
  | .enter _ =>
    if c.phase = .admitted then some (s.moveTo n c (.handling (decide (c.id ∈ s.cancelledIds)))) else none
  | .lock _ =>
    match c.phase with
    | .handling _ => if s.db.holder = none then some { s with db := ⟨some n, false⟩ } else none
    | _ => none
  | .execute _ =>
    if s.db.holder = some n ∧ s.db.executing = false then some { s with db := ⟨some n, true⟩ } else none
  | .executed _ =>
    if s.db.holder = some n ∧ s.db.executing = true then some { s with db := ⟨some n, false⟩ } else none
  | .unlock _ =>
    if s.db.holder = some n ∧ s.db.executing = false then some { s with db := {} } else none
  | .handled _ ok =>
    match c.phase with
    | .handling ctxCancelled =>
      if s.db.holder = some n then none else some (s.moveTo n c (.returned (!ok || ctxCancelled)))
    | _ => none
  | .finish _ =>
    match c.phase with
    | .returned isError =>
      some ({ s with
        inflightIds := s.inflightIds.erase c.id
        cancelledIds := s.cancelledIds.erase c.id }.moveTo n c
          (.ended (if c.id ∈ s.cancelledIds then .withheld else .answered isError)))
    | _ => none
  | _ => none

/-- The call a label moves. -/
def Label.call : Label → Option ℕ
  | .check n _ | .gate n _ | .drop n | .enter n | .lock n | .execute n | .executed n | .unlock n
  | .handled n _ | .finish n => some n
  | _ => none

def State.step (s : State) (a : Label) : Option (State × List Event) :=
  match a with
  | .arrive id =>
    -- ids are unique among the calls without a reply
    if s.calls.any (fun c => c.id = id ∧ c.phase.live = true) then none
    else some ({ s with calls := s.calls ++ [⟨id, .arrived⟩] }, [])
  | .cancel id =>
    some ({ s with
      cancelledIds := insert id s.cancelledIds
      kills := if id ∈ s.inflightIds then s.kills ++ [s.named id] else s.kills }, [.cancelled (s.named id)])
  | .kill k ok =>
    (s.kills[k]?).map fun named =>
      ({ s with kills := s.kills.eraseIdx k },
        match s.db.holder with
        | some victim => if ok && s.db.executing then [.interrupted victim named] else []
        | none => [])
  | a =>
    a.call.bind fun n => (s.calls[n]?).bind fun c => (s.advance n c a).map fun s' => (s', [])

end FractalSQL.Mcp.Server
