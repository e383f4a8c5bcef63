import FractalSQL.TextSql.Allowlist

/-!
# The calls behind generated SQL

The gates are user-defined functions that answer NULL for a pass. The server gives the
same NULL to a statement whose function call failed, be it in the function or on the
way to the process that runs it.
-/
namespace FractalSQL.TextSql
open Lib Lib.Sql

/-- How a call of a function with a text result ends. -/
inductive Answer where
  | null
  | failed
  | text (b : Bytes)
deriving DecidableEq

/-- What the calling statement sees. -/
def Answer.value : Answer → Option Bytes
  | .null | .failed => none
  | .text b => some b

def Verdict.answer : Verdict → Answer
  | .null => .null
  | .error => .failed
  | .reason text => .text (ascii text)

/-- `fsq_udf_call`: the call reaches the function in some environment, or is lost. -/
def udfCall {ε : Type} (f : ε → Answer) : Option ε → Answer
  | none => .failed
  | some env => f env

def allowlistCall (call : Option AllowEnv) (sql : Bytes) : Answer :=
  udfCall (fun env => (checkAllowlist env (some sql)).answer) call

/-- A completed call that passes has accepted the text. -/
theorem allowlistCall_null {call : Option AllowEnv} {sql : Bytes} :
    allowlistCall call sql = .null ↔ ∃ env, call = some env ∧ checkAllowlist env (some sql) = .null := by
  cases call with
  | none => simp [allowlistCall, udfCall]
  | some env => cases h : checkAllowlist env (some sql) <;> simp [allowlistCall, udfCall, Verdict.answer, h]

/-! ### The review -/

/-- `FRACTAL_T2S_MAX_INPUT_BYTES`. -/
def maxInputBytes : ℕ := 4 * 1024 * 1024

/-- `FRACTAL_MAX_AI_RESPONSE_BYTES`. -/
def maxAiResponseBytes : ℕ := 16 * 1024 * 1024

/-- What decides a review: the steps up to the dispatch succeed, the reviewer's reply
to a prompt (`none` when the dispatch fails, `some none` for a missing summary), and
whether the result buffer can be grown. -/
structure ReviewEnv where
  acquireOk : Bool
  loadOk : Bool
  promptOk : Bool
  reloadOk : Bool
  dispatch : Bytes → Option (Option Bytes)
  resultOk : Bool

/-- `t2s_review_build_prompt`. -/
def reviewBuildPrompt (question sql : Bytes) : Bytes :=
  ascii "Original request: " ++ question ++ ascii "\n\nCandidate SQL:\n" ++ sql ++
    ascii ("\n\nDoes this candidate correctly and completely answer the request? " ++
      "Answer PASS or FAIL on the first line, then explain briefly.")

/-- The reply begins with PASS, after white space and in any case. -/
def beginsPass (summary : Bytes) : Bool := ((summary.dropWhile isSpace).take 4).map toLower = ascii "pass"

/-- `fractal_t2s_review`. -/
def review (env : ReviewEnv) : Option Bytes → Option Bytes → Answer
  | some question, some sql =>
    if maxInputBytes < question.length ∨ maxSqlBytes < sql.length then .failed
    else if ¬ (env.acquireOk ∧ env.loadOk ∧ env.promptOk ∧ env.reloadOk) then .failed
    else match env.dispatch (reviewBuildPrompt question sql) with
      | none | some none => .failed
      | some (some summary) =>
        if maxAiResponseBytes < summary.length then .failed
        else if beginsPass summary then .null
        else if env.resultOk then .text summary
        else .failed
  | _, _ => .null

def reviewCall (call : Option ReviewEnv) (question sql : Bytes) : Answer :=
  udfCall (fun env => review env (some question) (some sql)) call

/-- The reviewer's reply to the text begins with PASS. -/
def SaidPass (call : Option ReviewEnv) (question sql : Bytes) : Prop :=
  ∃ env summary, call = some env ∧ env.dispatch (reviewBuildPrompt question sql) = some (some summary) ∧
    beginsPass summary = true

/-- A completed review that passes was answered with PASS. -/
theorem saidPass_of_null {call : Option ReviewEnv} {question sql : Bytes} (h : reviewCall call question sql = .null) :
    SaidPass call question sql := by
  cases call with
  | none => cases h
  | some env =>
    simp only [reviewCall, udfCall, review] at h
    split at h
    · cases h
    · split at h
      · cases h
      · split at h
        · cases h
        · cases h
        · rename_i summary hs
          split at h
          · cases h
          · split at h
            · rename_i hpass
              exact ⟨env, summary, rfl, hs, hpass⟩
            · split at h <;> cases h

end FractalSQL.TextSql
