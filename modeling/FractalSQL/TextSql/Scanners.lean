import FractalSQL.Lib.SqlLexer

/-!
# The scanners of generated SQL

The hand-written scanners behind `fractal_t2s_check_allowlist`. A scan position is
the text from it to the end. Each scanner has its own idea of what a comment is.
-/
namespace FractalSQL.TextSql
open Lib Lib.Sql

/-- `t2s_is_ident_char`. -/
def isIdentChar (c : UInt8) : Bool := asciiIdent c

/-- The test for a line comment in `t2s_skip_ws_comments`. -/
def atLineComment : Bytes → Bool
  | [] => false
  | [c] => c = 35
  | [c, d] => c = 45 ∧ d = 45 ∨ c = 35
  | c :: d :: e :: _ => c = 45 ∧ d = 45 ∧ isSpace e ∨ c = 35

/-- `/*` stands here. -/
def atBlockComment : Bytes → Bool
  | c :: d :: _ => c = 47 ∧ d = 42
  | _ => false

/-- The loop that looks for the end of a block comment. -/
def skipBlock : Bytes → Bytes
  | c :: d :: text => if c = 42 ∧ d = 47 then text else skipBlock (d :: text)
  | _ => []

theorem skipBlock_length (text : Bytes) : (skipBlock text).length ≤ text.length := by
  fun_induction skipBlock text with
  | case1 c d text h =>
    simp only [List.length_cons]
    omega
  | case2 c d text h ih =>
    simp only [List.length_cons] at ih ⊢
    omega
  | case3 => exact Nat.zero_le _

theorem dropLine_length {text : Bytes} (h : atLineComment text = true) :
    (text.dropWhile notNewline).length < text.length := by
  cases text with
  | nil => cases h
  | cons c text =>
    have hc : c ≠ 10 := by
      rintro rfl
      cases text with
      | nil => cases h
      | cons d text => cases text <;> simp [atLineComment] at h
    have hle := List.length_dropWhile_le notNewline text
    have hdrop : (c :: text).dropWhile notNewline = text.dropWhile notNewline := by
      simp [notNewline, hc]
    rw [hdrop, List.length_cons]
    omega

/-- `t2s_skip_ws_comments`. When the spaces were all there was to skip, the next round
of the loop moves nothing. -/
def skipWsComments (text : Bytes) : Bytes :=
  let rest := text.dropWhile isSpace
  if atLineComment rest then skipWsComments (rest.dropWhile notNewline)
  else if atBlockComment rest then skipWsComments (skipBlock (rest.drop 2))
  else rest
termination_by text.length
decreasing_by
  · rename_i h
    have hline := dropLine_length h
    have hspace := List.length_dropWhile_le isSpace text
    exact Nat.lt_of_lt_of_le hline hspace
  · rename_i h
    have := List.length_dropWhile_le isSpace text
    have hpos : 2 ≤ (text.dropWhile isSpace).length := by
      cases hr : text.dropWhile isSpace with
      | nil => simp [rest, hr, atBlockComment] at h
      | cons c r =>
        cases r with
        | nil => simp [rest, hr, atBlockComment] at h
        | cons d r => simp
    have := skipBlock_length (rest.drop 2)
    simp only [List.length_drop, rest] at this ⊢
    omega

/-- `t2s_skip_quoted`, after the opening quote. -/
def skipQuoted (q : UInt8) : Bytes → Bytes
  | c :: d :: text =>
    if c = 92 ∧ q ≠ 96 then skipQuoted q text
    else if c = q then if d = q then skipQuoted q text else d :: text
    else skipQuoted q (d :: text)
  | _ => []

theorem skipQuoted_length (q : UInt8) (text : Bytes) : (skipQuoted q text).length ≤ text.length := by
  fun_induction skipQuoted q text <;> simp_all <;> omega

theorem skipWsComments_length (text : Bytes) : (skipWsComments text).length ≤ text.length := by
  fun_induction skipWsComments text with
  | case1 text rest h ih =>
    have hline := dropLine_length h
    have hspace : rest.length ≤ text.length := List.length_dropWhile_le isSpace text
    omega
  | case2 text rest h₁ h₂ ih =>
    have := List.length_dropWhile_le isSpace text
    have := skipBlock_length (rest.drop 2)
    simp only [List.length_drop, rest] at *
    omega
  | case3 text rest => exact List.length_dropWhile_le isSpace text

/-- `tolower` in the C locale. -/
def toLower (c : UInt8) : UInt8 := if 65 ≤ c ∧ c ≤ 90 then c + 32 else c

/-- `t2s_match_kw`: the text after the keyword. -/
def matchKw (kw : String) (text : Bytes) : Option Bytes :=
  if (text.take kw.length).map toLower = (ascii kw).map toLower then
    if ((text.drop kw.length).head?.any isIdentChar) then none else some (text.drop kw.length)
  else none

theorem matchKw_length {kw : String} {text rest : Bytes} (hkw : 0 < kw.length) (h : matchKw kw text = some rest) :
    rest.length < text.length := by
  unfold matchKw at h
  split at h
  · rename_i heq
    split at h
    · cases h
    · cases h
      have hlen := congrArg List.length heq
      simp only [List.length_map, List.length_take, ascii, String.length_toList] at hlen
      simp only [List.length_drop]
      omega
  · cases h

/-- `t2s_skip_paren_balanced`; `none` when the parentheses are never balanced. -/
def skipParenBalanced (depth : ℤ) (text : Bytes) : Option Bytes :=
  match text with
  | [] => none
  | c :: text =>
    if isQuote c then skipParenBalanced depth (skipQuoted c text)
    else if c = 40 then skipParenBalanced (depth + 1) text
    else if c = 41 then if depth - 1 = 0 then some text else skipParenBalanced (depth - 1) text
    else skipParenBalanced depth text
termination_by text.length
decreasing_by
  · have := skipQuoted_length c text
    simp only [List.length_cons]
    omega
  all_goals simp

/-- The test for something that looks like a comment in `t2s_count_statements` and
`t2s_has_into_outfile`: here any two dashes do. -/
def looksLikeComment : Bytes → Bool
  | [] => false
  | [c] => c = 35
  | c :: d :: _ => c = 45 ∧ d = 45 ∨ c = 35 ∨ c = 47 ∧ d = 42

/-- The loop of `t2s_count_statements`. -/
def countLoop (n : ℕ) (anyContent : Bool) (text : Bytes) : ℕ :=
  match text with
  | [] => if anyContent then n + 1 else n
  | c :: text =>
    if isQuote c then countLoop n true (skipQuoted c text)
    else if c = 40 ∨ c = 41 then countLoop n true text
    else if c = 59 then countLoop (if anyContent then n + 1 else n) false text
    else if isSpace c then countLoop n anyContent text
    else if looksLikeComment (c :: text) then
      -- A position that did not move is passed by.
      if (skipWsComments (c :: text)).length < text.length + 1 then
        countLoop n anyContent (skipWsComments (c :: text))
      else countLoop n anyContent text
    else countLoop n true text
termination_by text.length
decreasing_by
  · have := skipQuoted_length c text
    simp only [List.length_cons]
    omega
  all_goals simp_all

/-- `t2s_count_statements`. -/
def countStatements (sql : Bytes) : ℕ := countLoop 0 false sql

/-- `t2s_has_into_outfile`. -/
def hasIntoOutfile (text : Bytes) : Bool :=
  match text with
  | [] => false
  | c :: text =>
    if isQuote c then hasIntoOutfile (skipQuoted c text)
    else if looksLikeComment (c :: text) then
      if (skipWsComments (c :: text)).length < text.length + 1 then
        hasIntoOutfile (skipWsComments (c :: text))
      else hasIntoOutfile text
    else match h : matchKw "INTO" (c :: text) with
      | some rest =>
        have := matchKw_length (by decide) h
        if (matchKw "OUTFILE" (skipWsComments rest)).isSome ∨ (matchKw "DUMPFILE" (skipWsComments rest)).isSome then
          true
        else hasIntoOutfile rest
      | none => hasIntoOutfile text
termination_by text.length
decreasing_by
  · have := skipQuoted_length c text
    simp only [List.length_cons]
    omega
  · rename_i hlt
    exact hlt
  · simp
  · assumption
  · simp

/-- `t2s_has_exec_comment`. -/
def hasExecComment (text : Bytes) : Bool :=
  match text with
  | [] => false
  | c :: text =>
    if isQuote c then hasExecComment (skipQuoted c text)
    else if atBlockComment (c :: text) then
      if (text.drop 1).head? = some 33 ∨ (text.drop 1).head? = some 43 then true
      else hasExecComment (skipBlock (text.drop 1))
    else hasExecComment text
termination_by text.length
decreasing_by
  · have := skipQuoted_length c text
    simp only [List.length_cons]
    omega
  · have := skipBlock_length (text.drop 1)
    simp only [List.length_cons, List.length_drop] at *
    omega
  · simp

/-- `t2s_denied_call_prefixes`. -/
def deniedCallPrefixes : List String :=
  ["fractal_audit_log", "fractal_ledger_", "fractal_lock_destructive", "fractal_store_", "fractal_diversify_",
    "fractal_feedback_report", "fractal_isolate_background", "fractal_sql_agent", "fractal_agent_",
    "fractal_vectorizer_", "fractalsql_set_config", "load_file", "sleep", "benchmark", "get_lock", "release_lock",
    "sys_exec", "sys_eval", "master_pos_wait", "master_gtid_wait"]

/-- The bytes skipped between a name and its parenthesis. -/
def isCallBlank (c : UInt8) : Bool := c = 32 ∨ c = 9 ∨ c = 10 ∨ c = 13

/-- The denied prefix of a name; `name[64]` holds 63 bytes of it. -/
def deniedPrefix (name : Bytes) : Option String :=
  deniedCallPrefixes.find? fun p => (ascii p).isPrefixOf ((name.map toLower).take 63)

/-- `t2s_has_denied_call`; its loop over a quoted token ends where `t2s_skip_quoted`
ends, and any two dashes begin a comment. -/
def hasDeniedCall (text : Bytes) : Option String :=
  match text with
  | [] => none
  | c :: text =>
    if isQuote c then hasDeniedCall (skipQuoted c text)
    else if c = 35 ∨ c = 45 ∧ text.head? = some 45 then hasDeniedCall (text.dropWhile notNewline)
    else if atBlockComment (c :: text) then hasDeniedCall (skipBlock (text.drop 1))
    else if isLetter c ∨ c = 95 then
      let rest := text.dropWhile asciiIdent
      if (rest.dropWhile isCallBlank).head? = some 40 then
        match deniedPrefix ((c :: text).takeWhile asciiIdent) with
        | some p => some p
        | none => hasDeniedCall rest
      else hasDeniedCall rest
    else hasDeniedCall text
termination_by text.length
decreasing_by
  · have := skipQuoted_length c text
    simp only [List.length_cons]
    omega
  · have := List.length_dropWhile_le notNewline text
    simp only [List.length_cons]
    omega
  · have := skipBlock_length (text.drop 1)
    simp only [List.length_cons, List.length_drop] at *
    omega
  · have := List.length_dropWhile_le asciiIdent text
    simp only [List.length_cons]
    omega
  · have := List.length_dropWhile_le asciiIdent text
    simp only [List.length_cons]
    omega
  · simp

theorem skipParenBalanced_length {depth : ℤ} {text rest : Bytes} (h : skipParenBalanced depth text = some rest) :
    rest.length < text.length := by
  fun_induction skipParenBalanced depth text with
  | case1 => cases h
  | case2 depth c text hq ih =>
    have := skipQuoted_length c text
    have := ih h
    simp only [List.length_cons]
    omega
  | case4 depth text hq h40 h0 =>
    cases h
    simp
  | case3 depth text hq ih | case5 depth text hq h40 h0 ih | case6 depth c text hq h40 h41 ih =>
    have := ih h
    simp only [List.length_cons]
    omega

/-- The name of a common table expression. -/
def skipName : Bytes → Bytes
  | [] => []
  | c :: text => if c = 96 then skipQuoted 96 text else (c :: text).dropWhile isIdentChar

/-- The optional list of column names. -/
def skipColumns (text : Bytes) : Option Bytes :=
  if text.head? = some 40 then (skipParenBalanced 0 text).map skipWsComments else some text

/-- The query in parentheses. -/
def skipBody (text : Bytes) : Option Bytes :=
  if text.head? = some 40 then skipParenBalanced 0 text else none

/-- A comma in front of another expression. -/
def skipComma : Bytes → Bytes × Bool
  | [] => ([], false)
  | c :: text => if c = 44 then (skipWsComments text, true) else (c :: text, false)

/-- One round of the loop over common table expressions: what follows, and whether
another one does. -/
def skipCte (text : Bytes) : Option (Bytes × Bool) := do
  let text ← skipColumns (skipWsComments (skipName text))
  let text ← matchKw "AS" text
  let text ← skipBody (skipWsComments text)
  return skipComma (skipWsComments text)

theorem skipName_length (text : Bytes) : (skipName text).length ≤ text.length := by
  fun_cases skipName text with
  | case1 => exact le_rfl
  | case2 text =>
    have := skipQuoted_length 96 text
    simp only [List.length_cons]
    omega
  | case3 c text h => exact List.length_dropWhile_le ..

theorem skipComma_length (text : Bytes) : (skipComma text).1.length ≤ text.length := by
  fun_cases skipComma text with
  | case1 | case3 => exact le_rfl
  | case2 text =>
    have := skipWsComments_length text
    simp only [List.length_cons]
    omega

theorem skipCte_length {text rest : Bytes} {more : Bool} (h : skipCte text = some (rest, more)) :
    rest.length < text.length := by
  obtain ⟨t₁, h₁, h⟩ := Option.bind_eq_some_iff.mp h
  obtain ⟨t₂, h₂, h⟩ := Option.bind_eq_some_iff.mp h
  obtain ⟨t₃, h₃, h⟩ := Option.bind_eq_some_iff.mp h
  have hcols : t₁.length ≤ (skipWsComments (skipName text)).length := by
    unfold skipColumns at h₁
    split at h₁
    · obtain ⟨t, ht, rfl⟩ := Option.map_eq_some_iff.mp h₁
      have := skipParenBalanced_length ht
      have := skipWsComments_length t
      omega
    · cases h₁
      exact le_rfl
  have hbody : t₃.length ≤ (skipWsComments t₂).length := by
    unfold skipBody at h₃
    split at h₃
    · exact (skipParenBalanced_length h₃).le
    · cases h₃
  have hrest : rest = (skipComma (skipWsComments t₃)).1 := (congrArg Prod.fst (Option.some.inj h)).symm
  have := matchKw_length (by decide) h₂
  have := skipName_length text
  have := skipWsComments_length (skipName text)
  have := skipWsComments_length t₂
  have := skipWsComments_length t₃
  have := skipComma_length (skipWsComments t₃)
  rw [hrest]
  omega

/-- The loop over common table expressions; `none` when the clause is malformed. -/
def skipCtes (text : Bytes) : Option Bytes :=
  match h : skipCte text with
  | none => none
  | some (rest, false) => some rest
  | some (rest, true) =>
    have := skipCte_length h
    skipCtes rest
termination_by text.length

/-- The text after a leading WITH clause. -/
def skipWith (text : Bytes) : Option Bytes :=
  match matchKw "WITH" text with
  | none => some text
  | some rest =>
    let rest := skipWsComments rest
    skipCtes (skipWsComments ((matchKw "RECURSIVE" rest).getD rest))

/-- The answers of `t2s_classify_leading_stmt`. -/
inductive Keyword where
  | select
  | insert
  | update
  | delete
  | replace
  | other
deriving DecidableEq

def Keyword.text : Keyword → String
  | .select => "SELECT"
  | .insert => "INSERT"
  | .update => "UPDATE"
  | .delete => "DELETE"
  | .replace => "REPLACE"
  | .other => "OTHER"

/-- The keyword at the head of a statement without a WITH clause. -/
def leadingKeyword (text : Bytes) : Keyword :=
  if text.head? = some 40 then .select
  else (([.select, .insert, .update, .delete, .replace] : List Keyword).find? fun kw =>
    (matchKw kw.text text).isSome).getD .other

/-- `t2s_classify_leading_stmt`. -/
def classifyLeadingStmt (sql : Bytes) : Option Keyword :=
  let text := skipWsComments sql
  if text = [] then some .other else (skipWith text).map leadingKeyword

end FractalSQL.TextSql
