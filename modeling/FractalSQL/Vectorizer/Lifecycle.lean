import FractalSQL.Vectorizer.Creation

/-!
# `fractal_vectorizer_drop` and the life of a vectorizer

Any number of calls of `fractal_vectorizer_create` and `fractal_vectorizer_drop`, each of them one
statement at a time, next to the clients that write the source tables and to the calls of
`fractal_vectorizer_process_queue`. A call may be killed between two of its statements.
-/
namespace FractalSQL.Vectorizer
open Lib

/-! ### The statements of the drop -/

inductive DropPoint where
  | check
  | dropTrigger (event : TriggerEvent)
  | deleteRow
  | returned
  | raised (r : Raise)
deriving DecidableEq

/-- The DELETE of the registry row. The foreign keys of the queue and of the rate windows cascade. -/
def Core.deleteRow (core : Core) (id : ℕ) : Core :=
  { core with
    system := { core.system with tables := { core.system.tables with
      queue := fun i => (core.system.tables.queue i).filter fun q => q.vectorizer ≠ id
      windows := Function.update core.system.tables.windows id none } }
    registry := Function.update core.registry id none }

/-- DROP TRIGGER IF EXISTS. -/
def Core.dropTrigger (core : Core) (id : ℕ) (event : TriggerEvent) : Core :=
  { core with triggers := core.triggers.filter fun t => t.name ≠ triggerName id event }

/-- The next statement of a drop; the server decides whether it succeeds. -/
def Core.drop (core : Core) (ok : Bool) (id : ℕ) : DropPoint → Option (Core × DropPoint)
  | .check =>
    if ¬ ok then some (core, .raised .server)
    else if (core.registry id).isNone then
      some (core, .raised (.signal "fractal_vectorizer_drop: no vectorizer with that id"))
    else some (core, .dropTrigger .insert)
  | .dropTrigger event =>
    if ok then some (core.dropTrigger id event, if event = .insert then .dropTrigger .update else .deleteRow)
    else some (core, .raised .server)
  | .deleteRow => if ok then some (core.deleteRow id, .returned) else some (core, .raised .server)
  | .returned | .raised _ => none

/-! ### The system -/

/-- A call of one of the two procedures. -/
inductive Routine where
  | create (user : String) (args : CreateArgs) (point : CreatePoint)
  | drop (id : ℕ) (point : DropPoint)

structure Life where
  core : Core
  /-- The registry rows that were deleted: a cursor that was opened before still has its copy. -/
  removed : ℕ → Option VectorizerRow := fun _ => none
  routines : ℕ → Option Routine := fun _ => none
  nextRoutine : ℕ := 0

inductive LifeLabel where
  | create (user : String) (args : CreateArgs)
  | drop (id : ℕ)
  /-- The next statement of a create or a drop. -/
  | routine (k : ℕ) (ch : CreateChoice)
  | kill (k : ℕ)
  /-- A statement of a client, or the start or the end of a worker. -/
  | client (l : Label)
  /-- The next statement of a worker, with the window that is left in its variables. -/
  | worker (c : ℕ) (ch : Choice) (vars : Option Window)

inductive LifeEvent where
  /-- A drop found a vectorizer whose triggers were still being created. -/
  | overtaken (id : ℕ)
deriving DecidableEq

section
variable (site : CreateSite) (s : Life)

/-- The vectorizer that a call is creating the triggers of. -/
def Routine.making : Routine → Option ℕ
  | .create _ _ (.createTrigger _ id) => some id
  | _ => none

def Life.making (id : ℕ) : Bool :=
  (List.range s.nextRoutine).any fun k => (s.routines k).any fun r => r.making = some id

/-- What a statement of a worker reads of the registry: behind its cursor the copy. -/
def Life.reads (point : Point) : Site :=
  { site.base with
    registry := fun v => match point with
      | .reclaim | .claim | .openCursor | .prune => s.core.registrations v
      | _ => (s.core.registry v <|> s.removed v).map VectorizerRow.registration }

/-- The foreign key of the rate windows. -/
def Core.keyed (core : Core) (e : Effect) : Effect :=
  { e with
    tables := { e.tables with
      windows := fun v => if (core.registry v).isSome then e.tables.windows v else none } }

/-- A SELECT that finds no window leaves the variables alone and reaches the handler of the cursor. -/
def Life.windowless (call : Call) (r : CursorRow) (vars : Option Window) : Effect where
  tables := s.core.system.tables
  call := some { call with
    done := true
    point := match vars with
      | none => .rateUpdate r s.core.system.tables.now 0
      | some w => rateDecision (s.reads site call.point) { s.core.system.tables with windows := fun _ => some w } r }

/-- The next statement of a worker. -/
def Life.statement (c : ℕ) (call : Call) (ch : Choice) (vars : Option Window) : Option Effect :=
  match call.point with
  | .rateSelect r =>
    if (s.core.system.tables.windows r.vectorizer).isNone then some (s.windowless site call r vars)
    else call.statement (s.reads site call.point) s.core.system.tables c ch
  | _ => (call.statement (s.reads site call.point) s.core.system.tables c ch).map s.core.keyed

/-- The foreign key of the queue: a backfill with rows fails behind a drop. -/
def Core.admits (core : Core) (ch : CreateChoice) : CreatePoint → CreateChoice
  | .backfill id => { ch with ok := ch.ok && ((core.registry id).isSome || ch.pks.isEmpty) }
  | _ => ch

/-- The state behind a statement of a call. -/
def Life.put (core : Core) (k : ℕ) (r : Routine) : Life where
  core := core
  removed v := s.removed v <|> if (core.registry v).isNone then s.core.registry v else none
  routines := Function.update s.routines k (some r)
  nextRoutine := s.nextRoutine

/-- The next statement of a create or a drop. -/
def Life.routine (k : ℕ) (ch : CreateChoice) : Routine → Option (Life × List LifeEvent)
  | .create user args point =>
    (s.core.create { site with user } args (s.core.admits ch point) point).map fun r =>
      (s.put r.1 k (.create user args r.2), [])
  | .drop id point =>
    (s.core.drop ch.ok id point).map fun r =>
      (s.put r.1 k (.drop id r.2), if r.2 = .dropTrigger .insert ∧ s.making id then [.overtaken id] else [])

/-- A new call. -/
def Life.call (r : Routine) : Life :=
  { s with routines := Function.update s.routines s.nextRoutine (some r), nextRoutine := s.nextRoutine + 1 }

def Life.step : LifeLabel → Option (Life × List LifeEvent)
  | .create user args => some (s.call (.create user args .check), [])
  | .drop id => some (s.call (.drop id .check), [])
  | .routine k ch => (s.routines k).bind (s.routine site k ch)
  | .kill k => some ({ s with routines := Function.update s.routines k none }, [])
  | .client (.call ..) => none
  | .client l => (s.core.other site l).map fun r => ({ s with core := r.1 }, [])
  | .worker c ch vars => (s.core.system.calls c).bind fun call =>
    (s.statement site c call ch vars).map fun e => ({ s with core := { s.core with system := s.core.system.apply c e } }, [])

end
end FractalSQL.Vectorizer
