import FractalSQL.Vectorizer.Freshness

/-!
# `fractal_vectorizer_create`

The registration of a vectorizer, one statement at a time, next to the rest of the system: clients
that write the source tables and the calls of `fractal_vectorizer_process_queue`. A write of a client
fires the triggers that exist when it is made. Each statement commits what it does.
-/
namespace FractalSQL.Vectorizer
open Lib

/-! ### What the procedure reads and writes -/

structure Column where
  name : String
  dataType : String

/-- A base table of the current database. -/
structure TableDef where
  columns : List Column
  primaryKey : List String

/-- The keys of `options` that the procedures read. -/
structure Options where
  maxEmbedsPerWindow : Option ℤ := none
  rateWindowSecs : Option ℤ := none
  maxAttempts : Option ℤ := none

/-- A row of `fractal_vectorizers`; whether it is enabled stands with the other tables. -/
structure VectorizerRow where
  sourceTable : String
  sourcePkCol : String
  textCol : String
  embeddingCol : String
  embeddingIsVector : Bool
  options : Options
  createdBy : String

/-- What the workers read of it. -/
def VectorizerRow.registration (row : VectorizerRow) : Registration where
  createdBy := row.createdBy
  maxEmbedsPerWindow := row.options.maxEmbedsPerWindow
  rateWindowSecs := row.options.rateWindowSecs
  maxAttempts := row.options.maxAttempts

inductive TriggerEvent where
  | insert
  | update
deriving DecidableEq

structure Trigger where
  name : String
  table : String
  event : TriggerEvent
  vectorizer : ℕ
deriving DecidableEq

/-- What stays the same: the functions and collations, the catalog, the names that the catalog and
the registry take for the same, and the account of the call. The registry of `base` is not used. -/
structure CreateSite where
  base : Site
  catalog : String → Option TableDef
  sameName : String → String → Bool
  user : String

structure CreateArgs where
  sourceTable : Option String
  textCol : Option String
  embeddingCol : Option String
  options : Option Options := none

/-- The system with the registry and the triggers. A vectorizer's source rows are there before it is
registered; `keys` has every primary key that occurs. -/
structure Core where
  system : State
  registry : ℕ → Option VectorizerRow := fun _ => none
  nextVectorizer : ℕ := 0
  triggers : List Trigger := []
  keys : List Bytes := []

/-! ### The other connections -/

/-- Whether a vectorizer has a trigger for the event. -/
def Core.fires (core : Core) (event : TriggerEvent) (v : ℕ) : Bool :=
  core.triggers.any fun t => t.vectorizer = v ∧ t.event = event

def Core.registrations (core : Core) (v : ℕ) : Option Registration := (core.registry v).map VectorizerRow.registration

/-- The vectorizers that a statement of another connection meets: for a write those that have a
trigger for it, for all others those that are registered. -/
def CreateSite.meets (site : CreateSite) (core : Core) (l : Label) : Site :=
  { site.base with
    registry := fun v => match l with
      | .insert .. => if core.fires .insert v then core.registrations v else none
      | .update .. => if core.fires .update v then core.registrations v else none
      | _ => core.registrations v }

/-- The primary keys that a statement may add. -/
def Label.keys : Label → List Bytes
  | .insert _ pk _ _ => [pk]
  | .update _ _ pk' _ _ => [pk']
  | _ => []

/-- A statement of another connection. -/
def Core.other (site : CreateSite) (core : Core) (l : Label) : Option (Core × List Event) :=
  (core.system.step (site.meets core l) l).map fun r => ({ core with system := r.1, keys := l.keys ++ core.keys }, r.2)

/-! ### The statements of the call -/

/-- What leaves the procedure: its own SIGNAL, or a condition of the server. -/
inductive Raise where
  | signal (message : String)
  | server
deriving DecidableEq

inductive CreatePoint where
  | check
  | insertRow (pkCol : String) (isVector : Bool)
  | createTrigger (event : TriggerEvent) (id : ℕ)
  | backfill (id : ℕ)
  | finish (id : ℕ)
  | returned (id : ℕ)
  | raised (r : Raise)
deriving DecidableEq

/-- What the server decides about a statement: whether it succeeds, and the rows of the SELECT in
the order in which they are queued. -/
structure CreateChoice where
  ok : Bool := true
  pks : List Bytes := []

section
variable (site : CreateSite) (args : CreateArgs) (core : Core)

def TableDef.column (table : TableDef) (name : String) : Option Column := table.columns.find? fun c => site.sameName c.name name

/-- A vectorizer for the same table and columns. -/
def Core.registered : Bool :=
  (List.range core.nextVectorizer).any fun v => (core.registry v).any fun row =>
    args.sourceTable.any (site.sameName row.sourceTable) ∧ args.textCol.any (site.sameName row.textCol) ∧
      args.embeddingCol.any (site.sameName row.embeddingCol)

/-- The statements in front of the INSERT: the column of the primary key and whether the embedding
column is a vector. -/
def Core.checks : Except String (String × Bool) :=
  if args.sourceTable.any fun name => '.' ∈ name.toList then
    .error ("fractal_vectorizer_create: schema-qualified source_table is not supported, " ++
      "pass a bare table name in the current database")
  else match args.sourceTable.bind site.catalog with
    | none => .error "fractal_vectorizer_create: source_table not found in the current database"
    | some table =>
      if (args.textCol.bind (table.column site)).isNone then
        .error "fractal_vectorizer_create: text_col not found on source_table"
      else match args.embeddingCol.bind (table.column site) with
        | none => .error "fractal_vectorizer_create: embedding_col not found on source_table"
        | some column =>
          match table.primaryKey with
          | [pkCol] =>
            if core.registered site args then
              .error "fractal_vectorizer_create: a vectorizer for this source_table/text_col/embedding_col already exists"
            else .ok (pkCol, decide (column.dataType.toLower = "vector"))
          | _ => .error ("fractal_vectorizer_create: source_table must have exactly one single-column PRIMARY KEY " ++
              "(composite and missing-PK tables are not supported)")

/-- The INSERT into the registry. -/
def Core.addRow (pkCol : String) (isVector : Bool) : Core :=
  { core with
    system := { core.system with tables := { core.system.tables with
      enabled := Function.update core.system.tables.enabled core.nextVectorizer true } }
    registry := Function.update core.registry core.nextVectorizer (some {
      sourceTable := args.sourceTable.getD ""
      sourcePkCol := pkCol
      textCol := args.textCol.getD ""
      embeddingCol := args.embeddingCol.getD ""
      embeddingIsVector := isVector
      options := args.options.getD {}
      createdBy := site.user })
    nextVectorizer := core.nextVectorizer + 1 }

/-- `v_ins_trg` and `v_upd_trg`. -/
def triggerName (id : ℕ) : TriggerEvent → String
  | .insert => "_fsql_vec_" ++ toString id ++ "_ins"
  | .update => "_fsql_vec_" ++ toString id ++ "_upd"

def CreateArgs.trigger (event : TriggerEvent) (id : ℕ) : Trigger := ⟨triggerName id event, args.sourceTable.getD "", event, id⟩

/-- A row of the backfill: as an enqueue, whether or not the vectorizer is enabled. -/
def Tables.fill (d : Tables) (v : ℕ) (pk : Bytes) : Tables :=
  if d.taken site.base (v, site.base.keyWeight pk) none then d
  else { d with
    queue := Function.update d.queue d.nextId (some { vectorizer := v, pk, createdAt := d.now, updatedAt := d.now })
    nextId := d.nextId + 1 }

/-- A row with a text and without an embedding. -/
def SourceRow.unembedded (row : SourceRow) : Bool := row.embedding.isNone && row.text.isSome

/-- The SELECT of the backfill gives the rows in some order. -/
def Core.mayScan (id : ℕ) (pks : List Bytes) : Bool :=
  pks.Nodup ∧ (∀ pk ∈ pks, (core.system.tables.rows id pk).any SourceRow.unembedded = true) ∧
    ∀ pk ∈ core.keys, (core.system.tables.rows id pk).any SourceRow.unembedded = true → pks.contains pk = true

/-- The INSERT … SELECT. -/
def Core.backfill (id : ℕ) (pks : List Bytes) : Core :=
  { core with system := { core.system with tables := pks.foldl (fun d pk => d.fill site id pk) core.system.tables } }

/-- The next statement of the call; `none` when the server could not decide so. -/
def Core.create (ch : CreateChoice) : CreatePoint → Option (Core × CreatePoint)
  | .check => match core.checks site args with
    | .error message => some (core, .raised (.signal message))
    | .ok (pkCol, isVector) => some (core, .insertRow pkCol isVector)
  | .insertRow pkCol isVector =>
    if ch.ok ∧ ¬ core.registered site args then
      some (core.addRow site args pkCol isVector, .createTrigger .insert core.nextVectorizer)
    else some (core, .raised .server)
  | .createTrigger event id =>
    if ch.ok ∧ triggerName id event ∉ core.triggers.map Trigger.name then
      some ({ core with triggers := args.trigger event id :: core.triggers },
        if event = .insert then .createTrigger .update id else .backfill id)
    else some (core, .raised .server)
  | .backfill id =>
    if ¬ ch.ok then some (core, .raised .server)
    else if core.mayScan id ch.pks then some (core.backfill site id ch.pks, .finish id)
    else none
  | .finish id => some (core, .returned id)
  | .returned _ | .raised _ => none

end

/-! ### The system -/

structure Creation where
  core : Core
  point : CreatePoint := .check

inductive CreateLabel where
  | create (ch : CreateChoice)
  | other (l : Label)

def Creation.step (site : CreateSite) (args : CreateArgs) (s : Creation) : CreateLabel → Option (Creation × List Event)
  | .create ch => (s.core.create site args ch s.point).map fun r => (⟨r.1, r.2⟩, [])
  | .other l => (s.core.other site l).map fun r => ({ s with core := r.1 }, r.2)

/-- The statements of the others. -/
def CreateLabel.toOther : CreateLabel → Option Label
  | .create _ => none
  | .other l => some l

end FractalSQL.Vectorizer
