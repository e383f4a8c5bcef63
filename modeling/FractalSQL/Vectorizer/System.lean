import FractalSQL.Lib.Machine
import FractalSQL.Vectorizer.Worker

/-!
# Source writes and workers together

Writes to the source tables, enqueues by hand, and any number of calls of
`fractal_vectorizer_process_queue`, interleaved statement by statement. A call may be
killed between two of its statements.
-/
namespace FractalSQL.Vectorizer
open Lib

structure State where
  tables : Tables
  calls : ℕ → Option Call := fun _ => none
  nextCall : ℕ := 0

/-- Just after the vectorizers were created. -/
def State.initial (rows : ℕ → Bytes → Option SourceRow) : State := { tables := { rows := rows } }

inductive Label where
  | insert (v : ℕ) (pk : Bytes) (text embedding : Option Bytes)
  | update (v : ℕ) (pk pk' : Bytes) (text : Option Bytes) (embedding : Option (Option Bytes))
  | delete (v : ℕ) (pk : Bytes)
  /-- `fractal_vectorizer_enqueue`, and the rows of the backfill. -/
  | enqueue (v : ℕ) (pk : Bytes)
  /-- `fractal_vectorizer_pause` and `fractal_vectorizer_resume`. -/
  | setEnabled (v : ℕ) (on : Bool)
  | tick (seconds : ℕ)
  | start (account : String) (batchSize : Option ℕ) (staleSecs : Option ℤ)
  | kill (c : ℕ)
  | call (c : ℕ) (ch : Choice)

/-- The effect of a call's statement. -/
def State.apply (s : State) (c : ℕ) (e : Effect) : State :=
  { s with tables := e.tables, calls := Function.update s.calls c e.call }

def State.step (site : Site) (s : State) : Label → Option (State × List Event)
  | .insert v pk text embedding =>
    (s.tables.insert site v pk text embedding).map fun d => ({ s with tables := d }, [])
  | .update v pk pk' text embedding =>
    (s.tables.update site v pk pk' text embedding).map fun d => ({ s with tables := d }, [])
  | .delete v pk => some ({ s with tables := s.tables.setRow v pk none }, [])
  | .enqueue v pk => some ({ s with tables := s.tables.enqueue site v pk }, [])
  | .setEnabled v on =>
    some ({ s with tables := { s.tables with enabled := Function.update s.tables.enabled v on } }, [])
  | .tick seconds => some ({ s with tables := { s.tables with now := s.tables.now + seconds } }, [])
  | .start account batchSize staleSecs =>
    some ({ s with
      calls := Function.update s.calls s.nextCall (some (.start account batchSize staleSecs))
      nextCall := s.nextCall + 1 }, [])
  | .kill c => some ({ s with calls := Function.update s.calls c none }, [])
  | .call c ch =>
    (s.calls c).bind fun call => (call.statement site s.tables c ch).map fun e => (s.apply c e, e.events)

end FractalSQL.Vectorizer
