import FractalSQL.Lib.Text
import Mathlib.Tactic

/-!
# The tables of the vectorizer

The registry, the work queue, the rate windows and the source rows that a vectorizer
keeps embedded. A queue row is named by its id. At most one active row may have a key;
an enqueue that meets one does nothing.
-/
namespace FractalSQL.Vectorizer
open Lib

/-- A row of `fractal_vectorizers`. -/
structure Registration where
  createdBy : String
  maxEmbedsPerWindow : Option ℤ := none
  rateWindowSecs : Option ℤ := none
  maxAttempts : Option ℤ := none

/-- What stays the same in a run: the registry, what `fractal_embed` answers, and what
the collations of `created_by`, of the queue's key and of the text column compare. -/
structure Site where
  registry : ℕ → Option Registration
  embed : Bytes → Bytes
  accountWeight : String → String
  keyWeight : Bytes → Bytes
  textWeight : Bytes → Bytes

/-- `created_by`. -/
def Site.owner (site : Site) (v : ℕ) : Option String := (site.registry v).map Registration.createdBy

/-- The comparison of `created_by` with the session's account. -/
def Site.owns (site : Site) (account : String) (v : ℕ) : Bool :=
  (site.owner v).any fun owner => site.accountWeight owner = site.accountWeight account

/-- `options.max_attempts`. -/
def Site.maxAttempts (site : Site) (v : ℕ) : ℤ := ((site.registry v).bind Registration.maxAttempts).getD 3

inductive Status where
  | pending
  | processing
  | done
  | failed
deriving DecidableEq

def Status.active : Status → Bool
  | .pending | .processing => true
  | .done | .failed => false

/-- A row of `fractal_vectorizer_queue`. -/
structure QueueRow where
  vectorizer : ℕ
  pk : Bytes
  status : Status := .pending
  attempts : ℕ := 0
  claimToken : Option ℕ := none
  createdAt : ℤ
  processingStartedAt : Option ℤ := none
  updatedAt : ℤ
deriving DecidableEq

/-- `active_key`, up to its collation. -/
def QueueRow.activeKey (site : Site) (q : QueueRow) : Option (ℕ × Bytes) :=
  if q.status.active then some (q.vectorizer, site.keyWeight q.pk) else none

/-- A source row, with whether it was inserted or its text changed since the vectorizer
was created. -/
structure SourceRow where
  text : Option Bytes
  embedding : Option Bytes
  touched : Bool
deriving DecidableEq

/-- A row of `fractal_vectorizer_rate_window`. -/
structure Window where
  start : ℤ
  calls : ℤ

/-- The tables. -/
structure Tables where
  now : ℤ := 0
  enabled : ℕ → Bool := fun _ => true
  rows : ℕ → Bytes → Option SourceRow
  queue : ℕ → Option QueueRow := fun _ => none
  nextId : ℕ := 0
  windows : ℕ → Option Window := fun _ => none

namespace Tables
variable (site : Site) (d : Tables)

/-- A row other than the given one has the key. -/
def taken (key : ℕ × Bytes) (but : Option ℕ) : Bool :=
  (List.range d.nextId).any fun i => some i ≠ but ∧ (d.queue i).any fun q => q.activeKey site = some key

/-- `_fractalsql_vectorizer_enqueue`. -/
def enqueue (v : ℕ) (pk : Bytes) : Tables :=
  if (site.registry v).isSome ∧ d.enabled v then
    if d.taken site (v, site.keyWeight pk) none then d
    else { d with
      queue := Function.update d.queue d.nextId (some { vectorizer := v, pk, createdAt := d.now, updatedAt := d.now })
      nextId := d.nextId + 1 }
  else d

def setRow (v : ℕ) (pk : Bytes) (row : Option SourceRow) : Tables :=
  { d with rows := Function.update d.rows v (Function.update (d.rows v) pk row) }

/-- An INSERT into the source table with its trigger. -/
def insert (v : ℕ) (pk : Bytes) (text embedding : Option Bytes) : Option Tables :=
  match d.rows v pk with
  | some _ => none
  | none => some ((d.setRow v pk (some ⟨text, embedding, true⟩)).enqueue site v pk)

/-- What an UPDATE makes of a source row; the embedding may be left alone. -/
def updatedRow (old : SourceRow) (text : Option Bytes) (embedding : Option (Option Bytes)) : SourceRow :=
  ⟨text, embedding.getD old.embedding, old.touched ∨ text ≠ old.text⟩

/-- The condition of the update trigger. -/
def textChanged (old text : Option Bytes) : Bool := old.map site.textWeight ≠ text.map site.textWeight

/-- An UPDATE of the source table with its trigger. -/
def update (v : ℕ) (pk pk' : Bytes) (text : Option Bytes) (embedding : Option (Option Bytes)) : Option Tables :=
  match d.rows v pk with
  | none => none
  | some old =>
    if pk' ≠ pk ∧ (d.rows v pk').isSome then none
    else
      let d := (d.setRow v pk none).setRow v pk' (some (updatedRow old text embedding))
      some (if textChanged site old.text text then d.enqueue site v pk' else d)

/-! ### Frames -/

@[simp] theorem setRow_queue (v : ℕ) (pk : Bytes) (row : Option SourceRow) : (d.setRow v pk row).queue = d.queue := rfl
@[simp] theorem setRow_nextId (v : ℕ) (pk : Bytes) (row : Option SourceRow) : (d.setRow v pk row).nextId = d.nextId := rfl
@[simp] theorem setRow_enabled (v : ℕ) (pk : Bytes) (row : Option SourceRow) :
    (d.setRow v pk row).enabled = d.enabled := rfl

@[simp] theorem setRow_self (v : ℕ) (pk : Bytes) (row : Option SourceRow) : (d.setRow v pk row).rows v pk = row := by
  simp [setRow]

theorem setRow_of_ne {v w : ℕ} {pk k : Bytes} (row : Option SourceRow) (h : w ≠ v ∨ k ≠ pk) :
    (d.setRow v pk row).rows w k = d.rows w k := by
  by_cases hw : w = v
  · subst hw
    simp [setRow, h.resolve_left (by simp)]
  · simp [setRow, hw]

@[simp] theorem enqueue_rows (v : ℕ) (pk : Bytes) : (d.enqueue site v pk).rows = d.rows := by
  unfold enqueue
  split_ifs <;> rfl

@[simp] theorem enqueue_enabled (v : ℕ) (pk : Bytes) : (d.enqueue site v pk).enabled = d.enabled := by
  unfold enqueue
  split_ifs <;> rfl

end Tables
end FractalSQL.Vectorizer
