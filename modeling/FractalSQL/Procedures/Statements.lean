import FractalSQL.Lib.SqlTemplate

/-!
# The statements that the procedures prepare

The SQL procedures read and write tables whose names they are given. Each of them puts its
statement together with `CONCAT`: names through `_fractalsql_quote_ident` or
`_fractalsql_quote_bare_table`, values through `QUOTE`, numbers as they are. The server then
lexes that text. What it finds are the tokens of the procedure with each name and each value
in its place, whatever bytes they are made of.

The procedures keep the SQL mode of the installation, in which a backslash escapes.
-/
namespace FractalSQL.Procedures
open Lib Lib.Sql

/-! ### Names and values -/

/-- What the collation of the call makes of a name: whether it is equal to the empty string, and
whether it is LIKE `%.%`. Characters of equal weight may be taken for a dot. -/
structure Collation where
  isEmpty : Bytes → Bool
  hasDot : Bytes → Bool
  isEmpty_nil : isEmpty [] = true
  hasDot_of_mem : ∀ name, 46 ∈ name → hasDot name = true

/-- The collation of bytes. -/
def Collation.binary : Collation where
  isEmpty name := name.isEmpty
  hasDot name := name.contains 46
  isEmpty_nil := rfl
  hasDot_of_mem _ h := List.contains_iff_mem.mpr h

/-- `_fractalsql_quote_ident`. -/
def quoteIdent (name : Option Bytes) : Option Bytes :=
  name.map fun n => [96] ++ n.flatMap (doubledByte 96) ++ [96]

/-- `_fractalsql_quote_bare_table`. -/
def quoteBareTable (c : Collation) (name : Option Bytes) : Option Bytes :=
  match name with
  | none => none
  | some n => if c.isEmpty n then none else if c.hasDot n then none else quoteIdent (some n)

/-- `QUOTE`, which gives the word NULL for no value. -/
def quote (value : Option Bytes) : Bytes :=
  match value with
  | none => ascii "NULL"
  | some v => [39] ++ v.flatMap escapedByte ++ [39]

/-- An integer as `CONCAT` spells it. -/
def integer : ℤ → Bytes
  | .ofNat n => decimal n
  | .negSucc n => 45 :: decimal (n + 1)

/-! ### `CONCAT` -/

/-- An argument of `CONCAT`. -/
inductive Arg where
  | lit (text : Bytes)
  | ident (name : Option Bytes)
  | bareTable (name : Option Bytes)
  | value (value : Option Bytes)
  | int (n : Option ℤ)

def Arg.text (c : Collation) : Arg → Option Bytes
  | lit text => some text
  | ident n => quoteIdent n
  | bareTable n => quoteBareTable c n
  | value v => some (quote v)
  | int n => n.map integer

/-- `CONCAT` is NULL when an argument is. -/
def concat (c : Collation) : List Arg → Option Bytes
  | [] => some []
  | a :: args => do
    let front ← a.text c
    let rest ← concat c args
    return front ++ rest

def text (s : String) : Arg := .lit (ascii s)

/-! ### The procedures -/

inductive TriggerEvent where
  | insert
  | update
deriving DecidableEq

/-- The name of the trigger of a vectorizer. -/
def triggerName (id : ℤ) : TriggerEvent → Bytes
  | .insert => ascii "_fsql_vec_" ++ integer id ++ ascii "_ins"
  | .update => ascii "_fsql_vec_" ++ integer id ++ ascii "_upd"

/-- A vector column, as a text. -/
def vectorExpr (isVector : Bool) (col : Option Bytes) : List Arg :=
  if isVector then [text "VEC_TOTEXT(", .ident col, text ")"] else [.ident col]

/-- `'col', col` for each column, with commas between. -/
def columnPairs (first : Bytes) : List Bytes → List Arg
  | [] => [.value (some first), text ", ", .ident (some first)]
  | next :: cols => [.value (some first), text ", ", .ident (some first), text ", "] ++ columnPairs next cols

/-- The quoted ids, with commas between. -/
def idList (first : Option Bytes) : List (Option Bytes) → List Arg
  | [] => [.value first]
  | next :: ids => [.value first, text ", "] ++ idList next ids

/-- A prepared statement with what the procedure puts in. -/
inductive Statement where
  | createInsertTrigger (id : ℤ) (table pkCol : Option Bytes)
  | createUpdateTrigger (id : ℤ) (table textCol pkCol : Option Bytes)
  | backfill (id : ℤ) (table pkCol textCol embeddingCol : Option Bytes)
  | dropTrigger (id : ℤ) (event : TriggerEvent)
  | readText (table textCol pkCol pk : Option Bytes)
  | writeEmbedding (table embeddingCol pkCol pk : Option Bytes) (isVector : Bool)
  | scanCorpus (table vectorCol pkCol : Option Bytes) (isVector : Bool)
  | fetchRowContext (table pkCol : Option Bytes) (col : Bytes) (cols : List Bytes) (id : Option Bytes)
      (ids : List (Option Bytes))
  | hybridClinicalSearch (table vectorCol pkCol : Option Bytes) (isVector : Bool)
  | cohort (table pkCol : Option Bytes)
  | cohortOf (table pkCol filterCol filterVal : Option Bytes)
  | anomalySeries (table metricCol timeCol filterCol filterVal : Option Bytes)
  | recallRows (table pkCol contentCol : Option Bytes)
  | feedbackWarmup (table vectorCol : Option Bytes) (count : Option ℤ)
  | trajectoryBaseline (table vectorCol pkCol : Option Bytes) (isVector : Bool) (baselineId : Option ℤ)
  | trajectoryCurrent (table vectorCol pkCol : Option Bytes) (isVector : Bool)
  | trajectoryPredicted (table vectorCol pkCol : Option Bytes) (isVector : Bool) (predictedId : Option Bytes)
  | planVector (table vectorCol pkCol : Option Bytes) (isVector : Bool) (docId : Option Bytes)

/-- The arguments of `CONCAT`, in the order of the procedure. -/
def Statement.args : Statement → List Arg
  | .createInsertTrigger id table pkCol =>
    [text "CREATE TRIGGER ", .ident (some (triggerName id .insert)), text " AFTER INSERT ON ", .bareTable table,
      text " FOR EACH ROW ", text "CALL _fractalsql_vectorizer_enqueue(", .int (some id), text ", NEW.", .ident pkCol,
      text ")"]
  | .createUpdateTrigger id table textCol pkCol =>
    [text "CREATE TRIGGER ", .ident (some (triggerName id .update)), text " AFTER UPDATE ON ", .bareTable table,
      text " FOR EACH ROW ", text "IF NOT (OLD.", .ident textCol, text " <=> NEW.", .ident textCol, text ") THEN ",
      text "CALL _fractalsql_vectorizer_enqueue(", .int (some id), text ", NEW.", .ident pkCol, text "); END IF"]
  | .backfill id table pkCol textCol embeddingCol =>
    [text "INSERT INTO fractal_vectorizer_queue (vectorizer_id, source_pk_value) ", text "SELECT ", .int (some id),
      text ", ", .ident pkCol, text " FROM ", .bareTable table, text " WHERE ", .ident embeddingCol, text " IS NULL",
      text "   AND ", .ident textCol, text " IS NOT NULL ",
      text "ON DUPLICATE KEY UPDATE fractal_vectorizer_queue.id = fractal_vectorizer_queue.id"]
  | .dropTrigger id event => [text "DROP TRIGGER IF EXISTS ", .ident (some (triggerName id event))]
  | .readText table textCol pkCol pk =>
    [text "SELECT ", .ident textCol, text " INTO @_fractalsql_vec_text", text " FROM ", .bareTable table, text " WHERE ",
      .ident pkCol, text " = ", .value pk]
  | .writeEmbedding table embeddingCol pkCol pk isVector =>
    [text "UPDATE ", .bareTable table, text " SET ", .ident embeddingCol, text " = ",
      if isVector then text "VEC_FROMTEXT(?)" else text "?", text " WHERE ", .ident pkCol, text " = ", .value pk]
  | .scanCorpus table vectorCol pkCol isVector =>
    [text "SELECT CONCAT('[', GROUP_CONCAT("] ++ vectorExpr isVector vectorCol ++
      [text " ORDER BY ", .ident pkCol, text " SEPARATOR ','), ']'), ", text "       JSON_ARRAYAGG(", .ident pkCol,
        text " ORDER BY ", .ident pkCol, text ") ", text "INTO @_fractalsql_sc_corpus, @_fractalsql_sc_ids ",
        text "FROM ", .ident table, text " WHERE ", .ident vectorCol, text " IS NOT NULL"]
  | .fetchRowContext table pkCol col cols id ids =>
    [text "SELECT JSON_ARRAYAGG(JSON_OBJECT("] ++ columnPairs col cols ++
      [text ")) INTO @_fractalsql_frc_ctx FROM ", .ident table, text " WHERE ", .ident pkCol, text " IN ("] ++
      idList id ids ++ [text ")"]
  | .hybridClinicalSearch table vectorCol pkCol isVector =>
    [text "SELECT CONCAT('[', GROUP_CONCAT("] ++
      (if isVector then [text "VEC_TOTEXT(t.", .ident vectorCol, text ")"] else [text "t.", .ident vectorCol]) ++
      [text " ORDER BY t.", .ident pkCol, text " SEPARATOR ','), ']'), ", text "       JSON_ARRAYAGG(t.", .ident pkCol,
        text " ORDER BY t.", .ident pkCol, text ") ", text "INTO @_fractalsql_hcs_corpus, @_fractalsql_hcs_ids ",
        text "FROM ", .ident table, text " t ", text "JOIN _fractalsql_hcs_cohort_ids c ON c.id = t.", .ident pkCol,
        text " ", text "WHERE t.", .ident vectorCol, text " IS NOT NULL"]
  | .cohort table pkCol =>
    [text "SELECT JSON_ARRAYAGG(", .ident pkCol, text ") INTO @_fractalsql_cohort FROM ", .ident table]
  | .cohortOf table pkCol filterCol filterVal =>
    [text "SELECT JSON_ARRAYAGG(", .ident pkCol, text ") INTO @_fractalsql_cohort FROM ", .ident table, text " WHERE ",
      .ident filterCol, text " = ", .value filterVal]
  | .anomalySeries table metricCol timeCol filterCol filterVal =>
    [text "SELECT CONCAT('[', GROUP_CONCAT(", .ident metricCol, text " ORDER BY ", .ident timeCol,
      text " SEPARATOR ','), ']') ", text "INTO @_fractalsql_at_series FROM ", .ident table, text " WHERE ",
      .ident filterCol, text " = ", .value filterVal]
  | .recallRows table pkCol contentCol =>
    [text "SELECT JSON_ARRAYAGG(JSON_OBJECT('mem_id', h.doc_id, 'content', t.", .ident contentCol,
      text ")) INTO @_fractalsql_rh_result ",
      text "FROM JSON_TABLE(@_fractalsql_rh_hits, '$[*]' COLUMNS (doc_id VARCHAR(255) PATH '$.doc_id', ord FOR ORDINALITY)) h ",
      text "JOIN ", .ident table, text " t ON t.", .ident pkCol, text " = h.doc_id ", text "ORDER BY h.ord"]
  | .feedbackWarmup table vectorCol count =>
    [text "INSERT INTO _fractalsql_fa_warmup (vc) SELECT ", .ident vectorCol, text " FROM ", .ident table,
      text " LIMIT ", .int (some (count.getD 8))]
  | .trajectoryBaseline table vectorCol pkCol isVector baselineId =>
    [text "SELECT "] ++ vectorExpr isVector vectorCol ++
      [text " INTO @_fractalsql_tp_baseline FROM ", .ident table, text " WHERE ", .ident pkCol, text " = ", .int baselineId]
  | .trajectoryCurrent table vectorCol pkCol isVector =>
    [text "SELECT "] ++ vectorExpr isVector vectorCol ++
      [text " INTO @_fractalsql_tp_current FROM ", .ident table, text " ORDER BY ", .ident pkCol, text " DESC LIMIT 1"]
  | .trajectoryPredicted table vectorCol pkCol isVector predictedId =>
    [text "SELECT "] ++ vectorExpr isVector vectorCol ++
      [text " INTO @_fractalsql_tp_predicted FROM ", .ident table, text " WHERE ", .ident pkCol, text " = ",
        .value predictedId]
  | .planVector table vectorCol pkCol isVector docId =>
    [text "SELECT "] ++ vectorExpr isVector vectorCol ++
      [text " INTO @_fractalsql_pe_vec FROM ", .ident table, text " WHERE ", .ident pkCol, text " = ", .value docId]

/-- The text that is prepared, or NULL. -/
def Statement.text (c : Collation) (s : Statement) : Option Bytes := concat c s.args

/-! ### What the server reads -/

/-- The argument without what is put in. -/
def Arg.shape : Arg → Part
  | lit text => .fixed text
  | ident _ | bareTable _ => .name []
  | value _ => .value none
  | int _ => .number 0

theorem closes_comma (args : List Arg) : ((args ++ [Procedures.text ", "]).map Arg.shape).getLast?.any Part.closesNeutral = true := by
  rw [List.map_append, List.map_singleton, List.getLast?_concat, Procedures.text, Arg.shape, ascii_ofList]
  decide

/-- The columns fit, whichever they are, and as many as there are. -/
theorem fits_columnPairs (first : Bytes) (cols : List Bytes) : fits ((columnPairs first cols).map Arg.shape) = true := by
  induction cols generalizing first with
  | nil =>
    simp only [columnPairs, List.map_cons, List.map_nil, Arg.shape, Procedures.text]
    rw [ascii_ofList]
    decide
  | cons next cols ih =>
    rw [columnPairs, List.map_append]
    have hpair : fits ([Arg.value (some first), Procedures.text ", ", .ident (some first), Procedures.text ", "].map
        Arg.shape) = true := by
      simp only [List.map_cons, List.map_nil, Arg.shape, Procedures.text]
      rw [ascii_ofList]
      decide
    have hseam := closes_comma [.value (some first), Procedures.text ", ", .ident (some first)]
    exact fits_append hpair (ih next) (Or.inl hseam)

theorem fits_idList (first : Option Bytes) (ids : List (Option Bytes)) : fits ((idList first ids).map Arg.shape) = true := by
  induction ids generalizing first with
  | nil => rfl
  | cons next ids ih =>
    rw [idList, List.map_append]
    have hid : fits ([Arg.value first, Procedures.text ", "].map Arg.shape) = true := by
      simp only [List.map_cons, List.map_nil, Arg.shape, Procedures.text]
      rw [ascii_ofList]
      decide
    exact fits_append hid (ih next) (Or.inl (closes_comma [.value first]))

/-- The parts of every statement can stand side by side. -/
theorem fits_shape (s : Statement) : fits (s.args.map Arg.shape) = true := by
  cases s with
  | fetchRowContext table pkCol col cols id ids =>
    simp only [Statement.args, List.map_append, List.append_assoc, Procedures.text, List.map_cons, List.map_nil, Arg.shape]
    repeat rw [ascii_ofList]
    apply fits_append (by decide +kernel) _ (Or.inl (by decide +kernel))
    refine fits_append (fits_columnPairs col cols) ?_ (Or.inr ?hinto)
    case hinto =>
      rw [List.cons_append, List.head?_cons, Option.any_some]
      decide +kernel
    apply fits_append (by decide +kernel) _ (Or.inl (by decide +kernel))
    exact fits_append (fits_idList id ids) (by decide +kernel) (Or.inr (by decide +kernel))
  | writeEmbedding table embeddingCol pkCol pk isVector | scanCorpus table vectorCol pkCol isVector
  | hybridClinicalSearch table vectorCol pkCol isVector | trajectoryBaseline table vectorCol pkCol isVector baselineId
  | trajectoryCurrent table vectorCol pkCol isVector | trajectoryPredicted table vectorCol pkCol isVector predictedId
  | planVector table vectorCol pkCol isVector docId =>
    cases isVector
    all_goals
      simp only [Statement.args, vectorExpr, Procedures.text, List.map_append, List.map_cons, List.map_nil, Arg.shape,
        Bool.false_eq_true, if_false, if_true]
      repeat rw [ascii_ofList]
      decide +kernel
  | _ =>
    simp only [Statement.args, Procedures.text, List.map_cons, List.map_nil, Arg.shape]
    repeat rw [ascii_ofList]
    decide +kernel

/-- The part that an argument is, when it is not NULL. -/
def Arg.part (c : Collation) : Arg → Option Part
  | lit text => some (.fixed text)
  | ident n => n.map .name
  | bareTable n => if n.any fun n => c.isEmpty n || c.hasDot n then none else n.map .name
  | value v => some (.value v)
  | int n => n.map .number

/-- What the argument says to the server. -/
def Arg.senses (a : Arg) : List Sense :=
  match a with
  | lit text => (Part.fixed text).senses true
  | ident n | bareTable n => n.toList.map .name
  | value v => (Part.value v).senses true
  | int n => n.toList.flatMap fun n => (numberTokens n).map .token

section
variable {c : Collation}

theorem integer_eq (n : ℤ) : integer n = (Part.number n).text := by
  cases n with
  | ofNat n => simp [integer, Part.text, Part.tokens, numberTokens, printed, Lexeme.raw]
  | negSucc n => simp [integer, Part.text, Part.tokens, numberTokens, printed, Lexeme.raw]

theorem Arg.text_eq (a : Arg) : a.text c = (a.part c).map Part.text := by
  cases a with
  | lit text => rfl
  | ident n => cases n <;> simp [Arg.text, Arg.part, quoteIdent, Part.text, Part.tokens, printed, backticked, Lexeme.raw]
  | bareTable n =>
    cases n with
    | none => rfl
    | some n =>
      by_cases hempty : c.isEmpty n <;> by_cases hdot : c.hasDot n <;>
        simp [Arg.text, Arg.part, quoteBareTable, quoteIdent, Part.text, Part.tokens, printed, backticked, Lexeme.raw,
          hempty, hdot]
  | value v => cases v <;> simp [Arg.text, Arg.part, quote, Part.text, Part.tokens, printed, quotedValue, Lexeme.raw]
  | int n => cases n <;> simp [Arg.text, Arg.part, integer_eq]

theorem Arg.part_cases {a : Arg} {p : Part} (h : a.part c = some p) : p.blank = a.shape ∧ p.senses true = a.senses := by
  cases a with
  | lit text | value v =>
    obtain rfl := Option.some.inj h
    exact ⟨rfl, rfl⟩
  | ident n =>
    obtain ⟨n, rfl, rfl⟩ := Option.map_eq_some_iff.mp h
    exact ⟨rfl, rfl⟩
  | int n =>
    obtain ⟨n, rfl, rfl⟩ := Option.map_eq_some_iff.mp h
    exact ⟨rfl, (List.append_nil _).symm⟩
  | bareTable n =>
    rw [Arg.part] at h
    split at h
    · cases h
    · obtain ⟨n, rfl, rfl⟩ := Option.map_eq_some_iff.mp h
      exact ⟨rfl, rfl⟩

/-- `CONCAT` of arguments that are not NULL is the text of their parts. -/
theorem concat_eq_some {args : List Arg} {sql : Bytes} (h : concat c args = some sql) :
    ∃ parts : List Part, sql = parts.flatMap Part.text ∧ parts.map Part.blank = args.map Arg.shape ∧
      parts.flatMap (Part.senses true) = args.flatMap Arg.senses := by
  induction args generalizing sql with
  | nil =>
    obtain rfl : [] = sql := Option.some.inj h
    exact ⟨[], rfl, rfl, rfl⟩
  | cons a args ih =>
    obtain ⟨front, hfront, hrest⟩ := Option.bind_eq_some_iff.mp h
    obtain ⟨rest, htail, hsql⟩ := Option.bind_eq_some_iff.mp hrest
    obtain rfl : front ++ rest = sql := Option.some.inj hsql
    rw [Arg.text_eq] at hfront
    obtain ⟨p, hp, rfl⟩ := Option.map_eq_some_iff.mp hfront
    obtain ⟨parts, rfl, hblank, hsenses⟩ := ih htail
    obtain ⟨hshape, hsay⟩ := Arg.part_cases hp
    apply Exists.intro (p :: parts)
    simp [hshape, hblank, hsay, hsenses]

theorem concat_eq_none {args : List Arg} : concat c args = none ↔ ∃ a ∈ args, a.text c = none := by
  induction args with
  | nil => simp [concat]
  | cons a args ih =>
    cases hfront : a.text c with
    | none => simp [concat, hfront]
    | some front => cases hrest : concat c args <;> simp_all [concat]

/-- The server reads every prepared statement as the procedure means it: the tokens of its fixed
text, and in the place of each name and each value one token that says that name or that value. -/
theorem statement_senses (s : Statement) {sql : Bytes} (h : s.text c = some sql) :
    (lex true sql).map (sense true) = s.args.flatMap Arg.senses := by
  obtain ⟨parts, rfl, hblank, hsenses⟩ := concat_eq_some h
  rw [senses_parts _ fun p _ => Part.readable_true p, hsenses]
  rw [← fits_blank, hblank]
  exact fits_shape s

end

/-- Names and a value that would close their quotes. -/
def closingNames : Statement :=
  .readText (some (ascii "a` b")) (some (ascii "`")) (some (ascii "id--")) (some (ascii "1' OR '1'='1"))

theorem statement_senses_closing : ∃ sql, closingNames.text .binary = some sql ∧
    (lex true sql).map (sense true) = closingNames.args.flatMap Arg.senses := by
  have hsql : (closingNames.text .binary).isSome = true := rfl
  obtain ⟨sql, h⟩ := Option.isSome_iff_exists.mp hsql
  exact ⟨sql, h, statement_senses closingNames h⟩

/-- An argument that makes the whole statement NULL. -/
def Arg.isNull (c : Collation) : Arg → Bool
  | lit _ | value _ => false
  | ident n => n.isNone
  | bareTable n => n.all fun n => c.isEmpty n || c.hasDot n
  | int n => n.isNone

/-- There is no statement when a name or a number is NULL, or when a table is not a bare name. -/
theorem Statement.text_eq_none {c : Collation} {s : Statement} :
    s.text c = none ↔ ∃ a ∈ s.args, a.isNull c = true := by
  have hnull (a : Arg) : a.text c = none ↔ a.isNull c = true := by
    cases a with
    | lit | value => simp [Arg.text, Arg.isNull]
    | ident n | int n => cases n <;> simp [Arg.text, Arg.isNull, quoteIdent]
    | bareTable n =>
      cases n with
      | none => simp [Arg.text, Arg.isNull, quoteBareTable]
      | some n =>
        by_cases hempty : c.isEmpty n <;> by_cases hdot : c.hasDot n <;>
          simp [Arg.text, Arg.isNull, quoteBareTable, quoteIdent, hempty, hdot]
  rw [Statement.text, concat_eq_none]
  simp only [hnull]

end FractalSQL.Procedures
