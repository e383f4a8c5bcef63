import FractalSQL.TextSql.Scanners

/-!
# `fractal_t2s_check_allowlist`

The gate in front of generated SQL: one verdict from five scans, in a fixed order.
A NULL result lets the statement pass.
-/
namespace FractalSQL.TextSql
open Lib Lib.Sql

/-- `FRACTAL_T2S_MAX_SQL_BYTES`. -/
def maxSqlBytes : ℕ := 256 * 1024

/-- What the process decides: the configuration loads, its mode, and whether the
result buffer can be grown. -/
structure AllowEnv where
  configOk : Bool
  allowedStatements : String
  resultOk : Bool

/-- `select_only`. -/
def AllowEnv.selectOnly (env : AllowEnv) : Bool := env.allowedStatements ≠ "select_insert_update"

inductive Verdict where
  | null
  | error
  | reason (text : String)
deriving DecidableEq

def execCommentReason : String :=
  "versioned (slash-star-bang) and optimizer-hint (slash-star-plus) " ++
    "comments are not allowed: the server executes their contents"

def countReason (n : ℕ) : String :=
  "expected exactly one SQL statement, found " ++ toString n ++
    ". fractal_text_to_sql only returns a single statement"

def keywordReason (kw : Keyword) (selectOnly : Bool) : String :=
  "statement type \"" ++ kw.text ++ "\" is not permitted. FRACTALSQL_TEXT_TO_SQL_ALLOWED_STATEMENTS is set to \"" ++
    (if selectOnly then "select" else "select_insert_update") ++ "\""

def deniedReason (name : String) : String :=
  "statement calls " ++ name ++ "(...), a function that changes state or " ++
    "reaches outside the database, which generated SQL may not do"

def outfileReason : String :=
  "statement embeds INTO OUTFILE/DUMPFILE, which writes to the filesystem and is never permitted regardless of " ++
    "FRACTALSQL_TEXT_TO_SQL_ALLOWED_STATEMENTS"

def Keyword.permitted (selectOnly : Bool) : Keyword → Bool
  | .select => true
  | .insert | .update => !selectOnly
  | _ => false

/-- The first objection to a statement. -/
def objection (selectOnly : Bool) (sql : Bytes) : Option String :=
  if hasExecComment sql then some execCommentReason
  else if countStatements sql = 0 then some "SQL is empty"
  else if countStatements sql ≠ 1 then some (countReason (countStatements sql))
  else match classifyLeadingStmt sql with
    | none => some "SQL does not parse: malformed WITH clause"
    | some kw =>
      if ¬ kw.permitted selectOnly then some (keywordReason kw selectOnly)
      else match hasDeniedCall sql with
        | some name => some (deniedReason name)
        | none => if hasIntoOutfile sql then some outfileReason else none

/-- `fractal_t2s_check_allowlist`. -/
def checkAllowlist (env : AllowEnv) : Option Bytes → Verdict
  | none => .null
  | some sql =>
    if maxSqlBytes < sql.length then .error
    else if ¬ env.configOk then .error
    else match objection env.selectOnly sql with
      | none => .null
      | some reason => if env.resultOk then .reason reason else .error

/-- Nothing fails around the scans. -/
def AllowEnv.Completes (env : AllowEnv) (sql : Bytes) : Prop :=
  sql.length ≤ maxSqlBytes ∧ env.configOk = true ∧ env.resultOk = true

/-- The text does not get past the gate: the call gives a reason, or fails where it
cannot complete. -/
def Rejected (env : AllowEnv) (sql : Bytes) : Prop :=
  checkAllowlist env (some sql) ≠ .null ∧
    (env.Completes sql → ∃ reason, checkAllowlist env (some sql) = .reason reason)

theorem rejected_of_objection {env : AllowEnv} {sql : Bytes} (h : objection env.selectOnly sql ≠ none) :
    Rejected env sql := by
  obtain ⟨reason, hr⟩ := Option.ne_none_iff_exists'.mp h
  constructor
  · simp only [checkAllowlist, hr]
    split_ifs <;> simp
  · rintro ⟨hlen, hcfg, hres⟩
    exact ⟨reason, by simp [checkAllowlist, hr, hcfg, hres, Nat.not_lt.mpr hlen]⟩

/-- What a text that passes has been checked for. -/
theorem objection_eq_none {selectOnly : Bool} {sql : Bytes} :
    objection selectOnly sql = none ↔ hasExecComment sql = false ∧ countStatements sql = 1 ∧
      (∃ kw, classifyLeadingStmt sql = some kw ∧ kw.permitted selectOnly = true) ∧
      hasDeniedCall sql = none ∧ hasIntoOutfile sql = false := by
  unfold objection
  constructor
  · intro h
    cases hexec : hasExecComment sql with
    | true => simp [hexec] at h
    | false =>
      by_cases hone : countStatements sql = 1
      · cases hkw : classifyLeadingStmt sql with
        | none => simp [hexec, hone, hkw] at h
        | some kw =>
          cases hperm : kw.permitted selectOnly with
          | false => simp [hexec, hone, hkw, hperm] at h
          | true =>
            cases hden : hasDeniedCall sql with
            | some name => simp [hexec, hone, hkw, hperm, hden] at h
            | none => simpa [hexec, hone, hkw, hperm, hden] using h
      · by_cases hzero : countStatements sql = 0 <;> simp [hexec, hzero, hone] at h
  · rintro ⟨hexec, hcount, ⟨kw, hkw, hperm⟩, hden, hout⟩
    simp [hexec, hcount, hkw, hperm, hden, hout]

end FractalSQL.TextSql
