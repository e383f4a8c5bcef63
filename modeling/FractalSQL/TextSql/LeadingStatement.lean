import FractalSQL.TextSql.DeniedCall

/-!
# The leading statement

`t2s_classify_leading_stmt` skips a WITH clause and reads the keyword behind it. The
same clause is read here from tokens. The scanner's matcher of parentheses knows
quotes but no comments, so it agrees with the tokens as long as every comment inside
the parentheses is balanced; two smaller disagreements are a common table expression
without a name, and a keyword that a byte beyond ASCII continues.
-/
namespace FractalSQL.TextSql
open Lib Lib.Sql

/-! ### The clause in tokens -/

/-- Why no leading token is found: the clause is malformed, or, in a strict reading,
the scanner would misread the text. -/
inductive Fault where
  | malformed
  | misread
deriving DecidableEq

def dropTrivia (ts : List Lexeme) : List Lexeme := ts.dropWhile Lexeme.isTrivia

/-- A text read as the matcher of parentheses reads it: the depth at its end, or
`none` when it ends inside a quote or closes what it did not open. -/
def parenText (depth : ℕ) (text : Bytes) : Option ℕ :=
  match text with
  | [] => some depth
  | b :: text =>
    if isQuote b then
      match h : quotedEnd b text with
      | none => none
      | some rest =>
        have := quotedEnd_length h
        parenText depth rest
    else if b = 40 then parenText (depth + 1) text
    else if b = 41 then if depth = 0 then none else parenText (depth - 1) text
    else parenText depth text
termination_by text.length
decreasing_by
  all_goals simp_all
  all_goals omega

/-- A comment whose text is not balanced. -/
def unbalanced : Lexeme → Bool
  | .lineComment raw | .blockComment raw => parenText 0 raw ≠ some 0
  | _ => false

/-- The tokens behind the parenthesis that closes the `depth` open ones. -/
def closeParens (strict : Bool) (depth : ℕ) : List Lexeme → Except Fault (List Lexeme)
  | [] => .error .malformed
  | t :: ts =>
    if t = .symbol 40 then closeParens strict (depth + 1) ts
    else if t = .symbol 41 then if depth = 1 then .ok ts else closeParens strict (depth - 1) ts
    else if strict ∧ unbalanced t then .error .misread
    else closeParens strict depth ts

def parens (strict : Bool) : List Lexeme → Except Fault (List Lexeme)
  | [] => .error .malformed
  | t :: ts => if t = .symbol 40 then closeParens strict 1 ts else .error .malformed

/-- The name of a common table expression. -/
def cteName (strict : Bool) : List Lexeme → Except Fault (List Lexeme)
  | [] => .error .malformed
  | .word _ :: ts => .ok ts
  | .quoted q _ :: ts => if q = 96 then .ok ts else .error .malformed
  | t :: _ => .error (if strict ∧ t = .symbol 40 then .misread else .malformed)

def cteColumns (strict : Bool) (ts : List Lexeme) : Except Fault (List Lexeme) :=
  if ts.head? = some (.symbol 40) then (parens strict ts).map dropTrivia else .ok ts

def cteKeyword (kw : String) : List Lexeme → Except Fault (List Lexeme)
  | [] => .error .malformed
  | t :: ts => if isKeyword kw t then .ok (dropTrivia ts) else .error .malformed

def cteComma : List Lexeme → List Lexeme × Bool
  | [] => ([], false)
  | t :: ts => if t = .symbol 44 then (dropTrivia ts, true) else (t :: ts, false)

/-- One common table expression: what follows, and whether another one does. -/
def cte (strict : Bool) (ts : List Lexeme) : Except Fault (List Lexeme × Bool) := do
  let ts ← cteName strict ts
  let ts ← cteColumns strict (dropTrivia ts)
  let ts ← cteKeyword "AS" ts
  let ts ← parens strict ts
  return cteComma (dropTrivia ts)

theorem bind_eq_ok {α β : Type} {x : Except Fault α} {f : α → Except Fault β} {b : β} (h : x >>= f = .ok b) :
    ∃ a, x = .ok a ∧ f a = .ok b := by
  cases x with
  | error e => cases h
  | ok a => exact ⟨a, rfl, h⟩

theorem dropTrivia_length (ts : List Lexeme) : (dropTrivia ts).length ≤ ts.length := List.length_dropWhile_le ..

theorem closeParens_length {strict : Bool} {depth : ℕ} {ts rest : List Lexeme}
    (h : closeParens strict depth ts = .ok rest) : rest.length < ts.length := by
  fun_induction closeParens strict depth ts with
  | case1 | case5 => cases h
  | case3 =>
    cases h
    simp
  | case2 depth ts ih | case4 depth ts _ _ ih | case6 depth t ts _ _ _ ih =>
    have := ih h
    simp only [List.length_cons]
    omega

theorem parens_length {strict : Bool} {ts rest : List Lexeme} (h : parens strict ts = .ok rest) :
    rest.length < ts.length := by
  unfold parens at h
  split at h
  · cases h
  · split at h
    · have := closeParens_length h
      simp only [List.length_cons]
      omega
    · cases h

theorem cteName_length {strict : Bool} {ts rest : List Lexeme} (h : cteName strict ts = .ok rest) :
    rest.length < ts.length := by
  unfold cteName at h
  split at h
  · cases h
  · cases h
    simp
  · split at h <;> cases h
    simp
  · cases h

theorem cteColumns_length {strict : Bool} {ts rest : List Lexeme} (h : cteColumns strict ts = .ok rest) :
    rest.length ≤ ts.length := by
  unfold cteColumns at h
  split at h
  · cases hp : parens strict ts with
    | error e => simp [hp, Except.map] at h
    | ok r =>
      simp only [hp, Except.map, Except.ok.injEq] at h
      have := parens_length hp
      have := dropTrivia_length r
      rw [← h]
      omega
  · cases h
    exact le_rfl

theorem cteKeyword_length {kw : String} {ts rest : List Lexeme} (h : cteKeyword kw ts = .ok rest) :
    rest.length ≤ ts.length := by
  cases ts with
  | nil => cases h
  | cons t ts =>
    simp only [cteKeyword] at h
    split at h <;> cases h
    have := dropTrivia_length ts
    simp only [List.length_cons]
    omega

theorem cteComma_length (ts : List Lexeme) : (cteComma ts).1.length ≤ ts.length := by
  cases ts with
  | nil => exact le_rfl
  | cons t ts =>
    simp only [cteComma]
    split
    · have := dropTrivia_length ts
      simp only [List.length_cons]
      omega
    · exact le_rfl

theorem cte_length {strict : Bool} {ts rest : List Lexeme} {more : Bool} (h : cte strict ts = .ok (rest, more)) :
    rest.length < ts.length := by
  obtain ⟨t₁, h₁, h⟩ := bind_eq_ok h
  obtain ⟨t₂, h₂, h⟩ := bind_eq_ok h
  obtain ⟨t₃, h₃, h⟩ := bind_eq_ok h
  obtain ⟨t₄, h₄, h⟩ := bind_eq_ok h
  have hrest : rest = (cteComma (dropTrivia t₄)).1 := (congrArg Prod.fst (Except.ok.inj h)).symm
  have := cteName_length h₁
  have := cteColumns_length h₂
  have := cteKeyword_length h₃
  have := parens_length h₄
  have := cteComma_length (dropTrivia t₄)
  have := dropTrivia_length t₁
  have := dropTrivia_length t₄
  rw [hrest]
  omega

/-- Common table expressions, separated by commas. -/
def ctes (strict : Bool) (ts : List Lexeme) : Except Fault (List Lexeme) :=
  match h : cte strict ts with
  | .error e => .error e
  | .ok (rest, false) => .ok rest
  | .ok (rest, true) =>
    have := cte_length h
    ctes strict rest
termination_by ts.length

def dropRecursive : List Lexeme → List Lexeme
  | [] => []
  | t :: ts => if isKeyword "RECURSIVE" t then dropTrivia ts else t :: ts

/-- The tokens behind a leading WITH clause. -/
def withClause (strict : Bool) : List Lexeme → Except Fault (List Lexeme)
  | [] => .ok []
  | t :: ts => if isKeyword "WITH" t then ctes strict (dropRecursive (dropTrivia ts)) else .ok (t :: ts)

/-- A word that a keyword of the gate begins and a byte beyond ASCII continues. -/
def cutKeyword : Lexeme → Bool
  | .word raw => ["SELECT", "INSERT", "UPDATE"].any fun kw =>
    (raw.take kw.length).map toLower = (ascii kw).map toLower ∧ (raw.drop kw.length).head?.any (128 ≤ ·)
  | _ => false

/-- The token that leads the statement. -/
def leadingToken (strict : Bool) (ts : List Lexeme) : Except Fault Lexeme := do
  match ← withClause strict (dropTrivia ts) with
  | [] => .error .malformed
  | t :: _ => if strict ∧ cutKeyword t then .error .misread else .ok t

end FractalSQL.TextSql
