import FractalSQL.TextSql.Release
import Mathlib.Data.List.DropRight

/-!
# How an accepted candidate is executed

Two classifiers look at a candidate. `t2s_classify_leading_stmt` knows comments,
parentheses and WITH clauses; the procedure takes the text up to the first space. What
the first calls a SELECT is wrapped when the second sees SELECT or WITH, and is executed
as it stands when the second sees anything else.
-/
namespace FractalSQL.TextSql
open Lib Lib.Sql

/-- The candidate inside the statement that counts its rows. -/
def wrapped (candidate : Bytes) : Bytes :=
  ascii "SELECT COUNT(*) INTO @_fractalsql_sa_rowcount FROM (" ++ candidate ++ ascii ") AS _fractalsql_sa_x"

/-- Only an INSERT or an UPDATE is executed as it stands, and a SELECT only wrapped. -/
structure RunsAsClassified (candidate stmt : Bytes) : Prop where
  direct : stmt = candidate → classifyLeadingStmt candidate = some .insert ∨ classifyLeadingStmt candidate = some .update
  query : classifyLeadingStmt candidate = some .select → stmt = wrapped candidate

/-- The text begins with SELECT or WITH, in any letter case, and a space or nothing
stands behind it. -/
def BeginsSpaced (candidate : Bytes) : Prop :=
  ∃ word rest, candidate = word ++ rest ∧ isQuery (word.map toUpper) = true ∧ ∀ b ∈ rest.head?, b = 32

/-- An assignment to `v_kw` keeps a word of up to 16 bytes; it refuses a longer one, or
keeps 16 characters of it. -/
structure World.StoresWords (w : World) : Prop where
  short : ∀ word, word.length ≤ kwSize → w.store kwSize word = some word
  long : ∀ word stored, w.store kwSize word = some stored → stored = word ∨ kwSize ≤ stored.length

/-! ### Trimmed text -/

theorem trim_eq (text : Bytes) : trim text = (text.dropWhile (· = 32)).rdropWhile (· = 32) := rfl

theorem trim_trim (text : Bytes) : trim (trim text) = trim text := by
  have hfront : (trim text).dropWhile (· = 32) = trim text := by
    rw [List.dropWhile_eq_self_iff]
    intro hpos
    have hpre : trim text <+: text.dropWhile (· = 32) := List.rdropWhile_prefix ..
    have hlen : 0 < (text.dropWhile (· = 32)).length := lt_of_lt_of_le hpos hpre.length_le
    rw [hpre.getElem hpos]
    exact List.dropWhile_eq_self_iff.mp (List.dropWhile_idempotent ..) hlen
  rw [trim_eq (trim text), hfront, trim_eq text, List.rdropWhile_idempotent]

/-- A candidate that passes an attempt is trimmed. -/
theorem AgentState.Passes.trimmed {w : World} {question schema : Bytes} {s : AgentState} {candidate : Bytes}
    (h : s.Passes w question schema candidate) : trim candidate = candidate := by
  have hcand := h.1
  unfold generate at hcand
  split at hcand
  · cases hcand
  · split at hcand
    · cases hcand
    · split at hcand
      · cases hcand
      · rename_i answer _
        split at hcand
        · cases hcand
        · rw [← Except.ok.inj hcand]
          unfold stripSemicolon
          split
          · exact trim_trim _
          · exact trim_trim _

/-! ### The two classifiers -/

theorem isQuery_iff {kw : Bytes} : isQuery kw = true ↔ kw = ascii "SELECT" ∨ kw = ascii "WITH" := decide_eq_true_iff

theorem isQuery_length {kw : Bytes} (h : isQuery kw = true) : kw.length < kwSize := by
  rcases isQuery_iff.mp h with rfl | rfl <;> decide

/-- A word in upper case that is a query keyword has no space. -/
theorem no_space {word : Bytes} (h : isQuery (word.map toUpper) = true) : ∀ b ∈ word, b ≠ 32 := by
  rintro b hb rfl
  have hmem : toUpper 32 ∈ word.map toUpper := List.mem_map_of_mem hb
  rcases isQuery_iff.mp h with hq | hq <;> rw [hq] at hmem <;> revert hmem <;> decide

/-- What the procedure sees is what the text begins with. -/
theorem isQuery_leadingWord {candidate : Bytes} (h : trim candidate = candidate) :
    isQuery (leadingWord candidate) = true ↔ BeginsSpaced candidate := by
  unfold leadingWord
  rw [h]
  constructor
  · intro hq
    refine ⟨_, candidate.dropWhile (· ≠ 32), (List.takeWhile_append_dropWhile ..).symm, hq, fun b hb => ?_⟩
    have hstop := List.head?_dropWhile_not (fun b : UInt8 => decide (b ≠ 32)) candidate
    rw [Option.mem_def.mp hb] at hstop
    simpa using hstop
  · rintro ⟨word, rest, rfl, hq, hend⟩
    have hword : (word ++ rest).takeWhile (· ≠ 32) = word := by
      rw [List.takeWhile_append_of_pos fun b hb => decide_eq_true (no_space hq b hb)]
      cases rest with
      | nil => simp
      | cons b rest => simp [hend b rfl]
    rw [hword]
    exact hq

/-- The assignment does not change what the comparison finds. -/
theorem World.StoresWords.isQuery_eq {w : World} (h : w.StoresWords) {word kw : Bytes} (hkw : w.store kwSize word = some kw) :
    isQuery kw = isQuery word := by
  rcases h.long word kw hkw with rfl | hlong
  · rfl
  · have hstored : isQuery kw = false := by
      by_contra hq
      have := isQuery_length (by simpa using hq)
      omega
    have hword : isQuery word = false := by
      by_contra hq
      have hlen := isQuery_length (by simpa using hq)
      obtain rfl := Option.some.inj ((h.short word hlen.le).symm.trans hkw)
      omega
    rw [hstored, hword]

theorem wrapped_ne (candidate : Bytes) : wrapped candidate ≠ candidate := by
  intro h
  have hlen := congrArg List.length h
  have hfront : (ascii "SELECT COUNT(*) INTO @_fractalsql_sa_rowcount FROM (").length = 52 := by
    rw [ascii_ofList]
    rfl
  simp only [wrapped, List.length_append, hfront] at hlen
  omega

/-- An accepted text is a SELECT, an INSERT or an UPDATE. -/
theorem classified_of_accepted {env : AllowEnv} {candidate : Bytes} (h : checkAllowlist env (some candidate) = .null) :
    classifyLeadingStmt candidate = some .select ∨ classifyLeadingStmt candidate = some .insert ∨
      classifyLeadingStmt candidate = some .update := by
  have hobj : objection env.selectOnly candidate = none := by
    by_contra hne
    exact (rejected_of_objection hne).1 h
  obtain ⟨-, -, ⟨kw, hkw, hperm⟩, -⟩ := objection_eq_none.mp hobj
  rw [hkw]
  cases kw with
  | select => exact .inl rfl
  | insert => exact .inr (.inl rfl)
  | update => exact .inr (.inr rfl)
  | delete | replace | other => cases hperm

/-- The statement that the procedure builds suits the classification when the two
classifiers agree on a SELECT. -/
theorem runsAsClassified_execSql {env : AllowEnv} {candidate kw : Bytes}
    (haccept : checkAllowlist env (some candidate) = .null) :
    RunsAsClassified candidate (execSql kw candidate) ↔ (classifyLeadingStmt candidate = some .select → isQuery kw = true) := by
  cases hq : isQuery kw with
  | true =>
    have hstmt : execSql kw candidate = wrapped candidate := if_pos hq
    rw [hstmt]
    exact iff_of_true ⟨fun h => absurd h (wrapped_ne candidate), fun _ => rfl⟩ fun _ => rfl
  | false =>
    have hstmt : execSql kw candidate = candidate := if_neg (by simp [hq])
    rw [hstmt]
    constructor
    · intro h hselect
      exact absurd (h.query hselect).symm (wrapped_ne candidate)
    · intro hagree
      have hnot : classifyLeadingStmt candidate ≠ some .select := fun h => absurd (hagree h) (by simp)
      exact ⟨fun _ => (classified_of_accepted haccept).resolve_left hnot, fun h => absurd h hnot⟩

theorem AgentState.finish_ran {w : World} {autoExecute : Option Bool} {s : AgentState} {r : AgentResult}
    {candidate stmt : Bytes} (h : s.finish w autoExecute = .ok r) (hran : r.ran = some (candidate, stmt)) :
    ∃ kw, w.store kwSize (leadingWord candidate) = some kw ∧ stmt = execSql kw candidate := by
  unfold finish at h
  split at h
  · cases h
    cases hran
  · split at h
    · cases h
      cases hran
    · dsimp only at h
      split at h
      · cases h
      · rename_i kw hkw
        cases h
        dsimp only at hran
        split at hran
        · obtain ⟨rfl, rfl⟩ := Prod.mk.inj (Option.some.inj hran)
          exact ⟨kw, hkw, rfl⟩
        · cases hran

/-- What was executed is a trimmed candidate in the statement built for its word. -/
theorem sqlAgent_ran {w : World} {question : Option Bytes} {maxRetries : Option ℤ} {autoExecute : Option Bool}
    {r : AgentResult} {candidate stmt : Bytes} (h : sqlAgent w question maxRetries autoExecute = .ok r)
    (hran : r.ran = some (candidate, stmt)) :
    trim candidate = candidate ∧ ∃ kw, w.store kwSize (leadingWord candidate) = some kw ∧ stmt = execSql kw candidate := by
  obtain ⟨q, schema, s, hquestion, hq, hschema, -, -, hpass, -⟩ := sqlAgent_reported h (.inr ⟨stmt, hran⟩)
  refine ⟨hpass.trimmed, ?_⟩
  rw [hquestion] at h
  simp only [sqlAgent, hq, hschema, if_false] at h
  split at h
  · cases h
  · exact AgentState.finish_ran h hran

/-- In every run that executes an accepted candidate, it is executed as it was
classified, exactly when a SELECT begins with its keyword or with WITH and a space. -/
theorem runs_as_classified_iff (w : World) (question : Option Bytes) (maxRetries : Option ℤ) (autoExecute : Option Bool)
    (r : AgentResult) (candidate stmt : Bytes) (env : AllowEnv) (hstore : w.StoresWords)
    (hrun : sqlAgent w question maxRetries autoExecute = .ok r) (hran : r.ran = some (candidate, stmt))
    (haccept : checkAllowlist env (some candidate) = .null) :
    RunsAsClassified candidate stmt ↔ (classifyLeadingStmt candidate = some .select → BeginsSpaced candidate) := by
  obtain ⟨htrim, kw, hkw, rfl⟩ := sqlAgent_ran hrun hran
  rw [runsAsClassified_execSql haccept, hstore.isQuery_eq hkw, isQuery_leadingWord htrim]

/-- A model that answers with one text, and a server on which everything succeeds. -/
def answering (answer : Bytes) : World where
  spelling := .digits
  config := some { maxAttempts := 2, allowedStatements := "select", useReview := false }
  store _ text := some text
  jsonQuote text := text
  systemTag := ascii "mariadb1011"
  schemaContext := some []
  generate _ _ _ _ := some answer
  allowlist _ := some { configOk := true, allowedStatements := "select", resultOk := true }
  review _ := none
  prepare _ _ := none
  execute _ := { savepoint := none, prepare := none, execute := none, settle := none, rows := some 1 }

theorem answering_storesWords (answer : Bytes) : (answering answer).StoresWords :=
  ⟨fun _ _ => rfl, fun _ _ h => .inl (Option.some.inj h).symm⟩

/-- The result when a candidate is executed at the first attempt. -/
def executedResult (candidate stmt : Bytes) : AgentResult where
  generatedSql := some candidate
  status := .executed
  rows := some 1
  ran := some (candidate, stmt)
  calls := [.allowlist 1 candidate]

theorem answering_run {a candidate : Bytes} (hne : trim a ≠ []) (hcand : stripSemicolon (trim a) = candidate)
    (haccept : checkAllowlist { configOk := true, allowedStatements := "select", resultOk := true } (some candidate) = .null) :
    sqlAgent (answering a) (some (ascii "q")) none (some true) =
      .ok (executedResult candidate (execSql (leadingWord candidate) candidate)) := by
  have hpass : ({} : AgentState).Passes (answering a) (ascii "q") [] candidate := by
    refine ⟨?_, ?_, rfl⟩
    · simp [AgentState.generate, answering, hne, hcand]
    · simp [allowlistCall, udfCall, answering, haccept, Verdict.answer, Answer.value]
  have hend : (agentLoop (answering a) 2 (ascii "q") []).run {} = ({} : AgentState).step (answering a) (ascii "q") [] := by
    rw [WhileLoop.run_of_guard rfl]
    refine WhileLoop.run_of_not_guard ?_
    change (({} : AgentState).step (answering a) (ascii "q") []).running 2 = false
    rw [AgentState.step_of_passes hpass]
    rfl
  have hquestion : trim (ascii "q") ≠ [] := by decide
  have hschema : (answering a).schemaContext = some [] := rfl
  have hmax : max (1 : ℤ) ((none : Option ℤ).getD 2) = 2 := rfl
  simp only [sqlAgent, if_neg hquestion, hschema, hmax, hend, AgentState.step_of_passes hpass]
  cases hq : isQuery (leadingWord candidate) <;>
    simp [AgentState.finish, answering, executedResult, Execution.before, Execution.messages, hq]

/-- A SELECT on one line is wrapped. -/
theorem plain_select_wrapped :
    RunsAsClassified (ascii "SELECT 1") (execSql (ascii "SELECT") (ascii "SELECT 1")) := by
  have haccept : checkAllowlist { configOk := true, allowedStatements := "select", resultOk := true }
      (some (ascii "SELECT 1")) = .null := by decide +kernel
  have hrun := answering_run (a := ascii "SELECT 1;") (by decide +kernel) (by decide +kernel) haccept
  have hkw : leadingWord (ascii "SELECT 1") = ascii "SELECT" := by decide +kernel
  rw [hkw] at hrun
  exact (runs_as_classified_iff (answering (ascii "SELECT 1;")) (some (ascii "q")) none (some true) _ _ _
    { configOk := true, allowedStatements := "select", resultOk := true } (answering_storesWords _) hrun rfl haccept).mpr
    fun _ => ⟨ascii "SELECT", ascii " 1", by decide, by decide, by decide +kernel⟩

/-- A newline behind SELECT, and the query is executed as it stands. -/
theorem newline_unwraps : ¬ ∀ w question maxRetries autoExecute r candidate stmt env, w.StoresWords →
    sqlAgent w question maxRetries autoExecute = .ok r → r.ran = some (candidate, stmt) →
      checkAllowlist env (some candidate) = .null → RunsAsClassified candidate stmt := by
  intro hall
  have haccept : checkAllowlist { configOk := true, allowedStatements := "select", resultOk := true }
      (some (ascii "SELECT\n1")) = .null := by decide +kernel
  have hrun := answering_run (a := ascii "SELECT\n1;") (by decide +kernel) (by decide +kernel) haccept
  have hruns := hall _ _ _ _ _ _ _ _ (answering_storesWords _) hrun rfl haccept
  have hselect : classifyLeadingStmt (ascii "SELECT\n1") = some .select := by decide +kernel
  have hplain : execSql (leadingWord (ascii "SELECT\n1")) (ascii "SELECT\n1") = ascii "SELECT\n1" := by decide +kernel
  exact absurd ((hruns.query hselect).symm.trans hplain) (wrapped_ne _)

end FractalSQL.TextSql
