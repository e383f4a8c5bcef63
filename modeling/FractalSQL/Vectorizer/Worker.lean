import FractalSQL.Vectorizer.Store

/-!
# `fractal_vectorizer_process_queue`

A call of the procedure, one statement at a time. A point of the program is where the
next statement on the tables stands; what the statement needs from the variables is
kept with it. The call's token is its number.
-/
namespace FractalSQL.Vectorizer
open Lib

/-- A row of the cursor, as it was when the cursor was opened. -/
structure CursorRow where
  id : ℕ
  vectorizer : ℕ
  pk : Bytes
  attempts : ℕ
deriving DecidableEq

/-- What the last UPDATE of a row records. -/
inductive Outcome where
  | done
  | readFailed
  | dispatchFailed
  | writeFailed
deriving DecidableEq

inductive Point where
  | reclaim
  | claim
  | openCursor
  | fetch
  | rateInsert (r : CursorRow)
  | rateSelect (r : CursorRow)
  | defer (r : CursorRow)
  | rateUpdate (r : CursorRow) (start calls : ℤ)
  | read (r : CursorRow)
  | embed (r : CursorRow)
  | writeBack (r : CursorRow)
  | settle (r : CursorRow) (outcome : Outcome)
  | prune

structure Call where
  account : String
  batchSize : ℕ
  staleSecs : ℤ
  point : Point := .reclaim
  /-- The rows that are still to be fetched. -/
  cursor : List CursorRow := []
  /-- `v_done`. -/
  done : Bool := false
  /-- `v_text`. -/
  text : Option Bytes := none
  /-- `v_vec`. -/
  vec : Option Bytes := none

/-- The arguments with their defaults. -/
def Call.start (account : String) (batchSize : Option ℕ) (staleSecs : Option ℤ) : Call where
  account := account
  batchSize := batchSize.getD 100
  staleSecs := staleSecs.getD 600

/-- What a statement does to a queue row, for the log of a run. -/
inductive Event where
  /-- An UPDATE of a row; `settling` for those behind the claim. -/
  | changed (call : ℕ) (account : String) (settling : Bool) (old new : QueueRow)
  | pruned (call : ℕ) (account : String) (old : QueueRow)
  /-- A failed dispatch is recorded for a row. -/
  | dispatchFailed (id : ℕ)
  /-- The call is aborted by a duplicate `active_key`. -/
  | duplicateKey (call : ℕ)
deriving DecidableEq

/-- What the server decides about a statement: the rows it takes or the order it gives
them in, whether it succeeds, and whether an empty read reaches the handler of the
cursor. -/
structure Choice where
  ids : List ℕ := []
  ok : Bool := true
  notFound : Bool := false

/-- The effect of a statement: the tables, the call behind it, and the events. -/
structure Effect where
  tables : Tables
  call : Option Call
  events : List Event := []

section Statements
variable (site : Site) (d : Tables) (c : ℕ) (call : Call)

/-- The rows that the reclaim takes. -/
def Call.isStale (q : QueueRow) : Bool :=
  q.status = .processing ∧ q.processingStartedAt.any (· < d.now - call.staleSecs)

/-- The row as the reclaim, or the deferral by the rate cap, leaves it. -/
def QueueRow.released (now : ℤ) (q : QueueRow) : QueueRow :=
  { q with status := .pending, processingStartedAt := none, claimToken := none, updatedAt := now }

def Call.reclaim : Effect where
  tables := { d with queue := fun i => (d.queue i).map fun q => if call.isStale d q then q.released d.now else q }
  call := some { call with point := .claim }
  events := (List.range d.nextId).filterMap fun i => (d.queue i).bind fun q =>
    if call.isStale d q then some (.changed c call.account false q (q.released d.now)) else none

/-- The rows that may be claimed. -/
def Call.eligible (i : ℕ) : Bool := (d.queue i).any fun q =>
  q.status = .pending ∧ d.enabled q.vectorizer ∧ site.owns call.account q.vectorizer

/-- Up to `batchSize` rows, the oldest first. -/
def Call.mayClaim (ids : List ℕ) : Bool :=
  ids.Nodup ∧ (∀ i ∈ ids, call.eligible site d i = true) ∧
    ids.length = min call.batchSize ((List.range d.nextId).filter (call.eligible site d)).length ∧
    ∀ i ∈ ids, ∀ j ∈ (List.range d.nextId).filter (call.eligible site d), j ∉ ids →
      ((d.queue i).map QueueRow.createdAt).getD 0 ≤ ((d.queue j).map QueueRow.createdAt).getD 0

def QueueRow.claimed (now : ℤ) (c : ℕ) (q : QueueRow) : QueueRow :=
  { q with status := .processing, processingStartedAt := some now, claimToken := some c, updatedAt := now }

def Call.claim (ids : List ℕ) : Effect where
  tables := { d with queue := fun i => if i ∈ ids then (d.queue i).map (QueueRow.claimed d.now c) else d.queue i }
  call := some { call with point := .openCursor }
  events := ids.filterMap fun i =>
    (d.queue i).map fun q => .changed c call.account false q (q.claimed d.now c)

/-- The rows with the call's token. -/
def holdsToken (i : ℕ) : Bool := (d.queue i).any fun q => q.claimToken = some c ∧ (site.registry q.vectorizer).isSome

def cursorRow (i : ℕ) : Option CursorRow :=
  (d.queue i).map fun q => ⟨i, q.vectorizer, q.pk, q.attempts⟩

/-- The cursor has the rows in some order. -/
def mayOpen (ids : List ℕ) : Bool :=
  ids.Nodup ∧ (∀ i ∈ ids, holdsToken site d c i = true) ∧
    ∀ i ∈ List.range d.nextId, holdsToken site d c i = true → i ∈ ids

/-- An UPDATE of one queue row by its id. A row that is gone is not updated; a key that
is taken aborts the call. -/
def Call.put (id : ℕ) (f : QueueRow → QueueRow) (next : Call) (events : List Event) : Effect :=
  match d.queue id with
  | none => { tables := d, call := some next }
  | some q =>
    if ((f q).activeKey site).any fun key => d.taken site key (some id) then
      { tables := d, call := none, events := [.duplicateKey c] }
    else
      { tables := { d with queue := Function.update d.queue id (some (f q)) }
        call := some next
        events := .changed c call.account true q (f q) :: events }

/-- Where the row goes once it is fetched. -/
def afterFetch (r : CursorRow) : Point :=
  if ((site.registry r.vectorizer).bind Registration.maxEmbedsPerWindow).isSome then .rateInsert r else .read r

/-- The rate window that counts, and whether its cap is hit. -/
def rateDecision (r : CursorRow) : Point :=
  let o := site.registry r.vectorizer
  let w := (d.windows r.vectorizer).getD ⟨d.now, 0⟩
  let w : Window := if ((o.bind Registration.rateWindowSecs).getD 3600) < d.now - w.start then ⟨d.now, 0⟩ else w
  if (o.bind Registration.maxEmbedsPerWindow).any (· ≤ w.calls) then .defer r else .rateUpdate r w.start w.calls

/-- The row as its last UPDATE leaves it. -/
def QueueRow.settled (now : ℤ) (r : CursorRow) : Outcome → QueueRow → QueueRow
  | .done, q => { q with status := .done, updatedAt := now }
  | .readFailed, q => { q with status := .failed, updatedAt := now }
  | .dispatchFailed, q =>
    if (r.attempts : ℤ) + 1 < site.maxAttempts r.vectorizer then
      { q with
        status := .pending, attempts := r.attempts + 1, processingStartedAt := none, claimToken := none, updatedAt := now }
    else { q with status := .failed, attempts := r.attempts + 1, updatedAt := now }
  | .writeFailed, q => { q with status := .failed, attempts := r.attempts + 1, updatedAt := now }

/-- What the retention deletes. -/
def Call.expired (q : QueueRow) : Bool :=
  site.owns call.account q.vectorizer ∧
    (q.status = .done ∧ q.updatedAt < d.now - 3600 ∨ q.status = .failed ∧ q.updatedAt < d.now - 86400)

def Call.prune : Effect where
  tables := { d with queue := fun i => (d.queue i).filter fun q => !call.expired site d q }
  call := none
  events := (List.range d.nextId).filterMap fun i => (d.queue i).bind fun q =>
    if call.expired site d q then some (.pruned c call.account q) else none

/-- The next statement of a call; `none` when the server could not decide so. -/
def Call.statement (ch : Choice) : Option Effect :=
  match call.point with
  | .reclaim => some (call.reclaim d c)
  | .claim => if call.mayClaim site d ch.ids then some (call.claim d c ch.ids) else none
  | .openCursor =>
    if mayOpen site d c ch.ids then
      some { tables := d, call := some { call with point := .fetch, cursor := ch.ids.filterMap (cursorRow d) } }
    else none
  | .fetch =>
    match call.cursor with
    | [] => some { tables := d, call := some { call with point := .prune } }
    | r :: rest =>
      if call.done then some { tables := d, call := some { call with point := .prune, cursor := [] } }
      else some { tables := d, call := some { call with point := afterFetch site r, cursor := rest } }
  | .rateInsert r =>
    some { tables := { d with
             windows := Function.update d.windows r.vectorizer (some ((d.windows r.vectorizer).getD ⟨d.now, 0⟩)) }
           call := some { call with point := .rateSelect r } }
  | .rateSelect r => some { tables := d, call := some { call with point := rateDecision site d r } }
  | .defer r => some (call.put site d c r.id (QueueRow.released d.now) { call with point := .fetch } [])
  | .rateUpdate r start calls =>
    some { tables := { d with windows := Function.update d.windows r.vectorizer (some ⟨start, calls + 1⟩) }
           call := some { call with point := .read r } }
  | .read r =>
    if ¬ ch.ok then some { tables := d, call := some { call with point := .settle r .readFailed, text := none } }
    else match d.rows r.vectorizer r.pk with
      | none =>
        some { tables := d
               call := some { call with point := .settle r .done, text := none, done := call.done || ch.notFound } }
      | some row =>
        some { tables := d
               call := some { call with point := if row.text.isSome then .embed r else .settle r .done, text := row.text } }
  | .embed r =>
    let vec := if ch.ok then call.text.map site.embed else none
    some { tables := d
           call := some { call with point := if vec.isSome then .writeBack r else .settle r .dispatchFailed, vec := vec } }
  | .writeBack r =>
    if ch.ok then
      some { tables := d.setRow r.vectorizer r.pk
               ((d.rows r.vectorizer r.pk).map fun row => { row with embedding := call.vec })
             call := some { call with point := .settle r .done } }
    else some { tables := d, call := some { call with point := .settle r .writeFailed } }
  | .settle r outcome =>
    some (call.put site d c r.id (QueueRow.settled site d.now r outcome) { call with point := .fetch }
      (if outcome = .dispatchFailed then [.dispatchFailed r.id] else []))
  | .prune => some (if ch.ok then call.prune site d c else { tables := d, call := none })

end Statements
end FractalSQL.Vectorizer
