import FractalSQL.TextSql.Classification

/-!
# The leading statement of accepted SQL

The statement that leads an accepted text is one that its mode permits, as long as the
scanner reads the WITH clause in step with the tokens. One parenthesis in a comment
takes it out of step, and then any word may lead the statement.
-/
namespace FractalSQL.TextSql
open Lib Lib.Sql

/-- A statement behind a WITH clause, with a parenthesis in a comment of its body. -/
def hiddenStatement (raw : Bytes) : Bytes := ascii "WITH a AS (SELECT 1 /* ( */) " ++ (raw ++ ascii " -- ) SELECT")

/-- The tokens of `a AS (SELECT 1 /* ( */) `. -/
def hiddenCte : List Lexeme :=
  [.word (ascii "a"), .space 32, .word (ascii "AS"), .space 32, .symbol 40, .word (ascii "SELECT"), .space 32,
    .word (ascii "1"), .space 32, .blockComment (ascii "/* ( */"), .symbol 41, .space 32]

theorem lexes_hidden (s : Bytes) :
    Lexes true (ascii "WITH a AS (SELECT 1 /* ( */) " ++ s) (.word (ascii "WITH") :: .space 32 :: hiddenCte) s := by
  have hspace : next true (32 :: s) = some (.space 32, s) := by
    rw [next, if_neg (by decide), if_neg (by simp [opensLine_of_ne]), if_neg (by simp [opensBlock_of_ne]),
      if_pos (by decide)]
  have hclose : next true (41 :: 32 :: s) = some (.symbol 41, 32 :: s) := by
    rw [next, if_neg (by decide), if_neg (by simp [opensLine_of_ne]), if_neg (by simp [opensBlock_of_ne]),
      if_neg (by decide), if_neg (by decide)]
  exact .cons rfl (.cons rfl (.cons rfl (.cons rfl (.cons rfl (.cons rfl (.cons rfl (.cons rfl (.cons rfl (.cons rfl
    (.cons rfl (.cons rfl (.cons hclose (.cons hspace (.nil s))))))))))))))

theorem leadingToken_hidden {raw : Bytes} (hne : raw ≠ []) (hraw : ∀ b ∈ raw, identByte b = true) :
    leadingToken false (lex true (hiddenStatement raw)) = .ok (.word raw) := by
  have hword : next true (raw ++ ascii " -- ) SELECT") = some (.word raw, ascii " -- ) SELECT") :=
    next_word true hne hraw (by rintro b ⟨⟩; rfl)
  rw [hiddenStatement, lex_eq_append (lexes_hidden _), lex_cons hword]
  generalize lex true (ascii " -- ) SELECT") = ts
  have hwith : isKeyword "WITH" (.word (ascii "WITH")) = true := rfl
  have hrec : isKeyword "RECURSIVE" (.word (ascii "a")) = false := rfl
  have has : isKeyword "AS" (.word (ascii "AS")) = true := rfl
  have hcte : cte false (hiddenCte ++ .word raw :: ts) = .ok (.word raw :: ts, false) := by
    simp [hiddenCte, cte, cteName, dropTrivia, List.dropWhile_cons, Lexeme.isTrivia, cteColumns, cteKeyword, has,
      parens, closeParens, cteComma, bind, Except.bind, pure, Except.pure]
  have hclause : withClause false (dropTrivia ((.word (ascii "WITH") :: .space 32 :: hiddenCte) ++ .word raw :: ts)) =
      ctes false (hiddenCte ++ .word raw :: ts) := by
    simp [hiddenCte, dropTrivia, List.dropWhile_cons, Lexeme.isTrivia, withClause, hwith, dropRecursive, hrec]
  rw [leadingToken, hclause, ctes_eq, hcte]
  rfl

/-- The scanner behind `a AS `. -/
theorem skipCte_plain {text rest : Bytes} (h : skipParenBalanced 0 (40 :: text) = some rest) :
    skipCte ([97, 32, 65, 83, 32] ++ 40 :: text) = some (skipComma (skipWsComments rest)) := by
  have hparen : skipWsComments (40 :: text) = 40 :: text := skipWsComments_self (next_punct (.inl rfl) text) rfl
  have hname : skipName ([97, 32, 65, 83, 32] ++ 40 :: text) = [32, 65, 83, 32] ++ 40 :: text := rfl
  have hblank : skipWsComments ([32, 65, 83, 32] ++ 40 :: text) = [65, 83, 32] ++ 40 :: text := by
    rw [List.cons_append, skipWsComments_space (by decide), List.cons_append, skipWsComments_ident (by decide)]
  have hkw : matchKw "AS" ([65, 83, 32] ++ 40 :: text) = some (32 :: 40 :: text) := by
    have hlow : [65, 83].map toLower = (ascii "AS").map toLower := rfl
    have hend : ∀ b ∈ (32 :: 40 :: text).head?, asciiIdent b = false := by simp [show asciiIdent 32 = false by decide]
    exact matchKw_append hlow hend
  rw [skipCte, hname, hblank, skipColumns, if_neg (by simp)]
  simp only [Option.bind_eq_bind, Option.bind_some, hkw, skipWsComments_space (show isSpace 32 = true by decide), hparen,
    skipBody, List.head?_cons, if_true, h]
  rfl

/-- The scanner behind `WITH a AS `. -/
theorem classify_with {text rest : Bytes} (h : skipParenBalanced 0 (40 :: text) = some rest)
    (hrest : skipComma (skipWsComments rest) = (ascii "SELECT", false)) :
    classifyLeadingStmt ([87, 73, 84, 72, 32, 97, 32, 65, 83, 32] ++ 40 :: text) = some .select := by
  have hcte := skipCte_plain h
  rw [hrest] at hcte
  have hctes : skipCtes ([97, 32, 65, 83, 32] ++ 40 :: text) = some (ascii "SELECT") := by
    rw [skipCtes]
    split
    all_goals
      rename_i hc
      rw [hcte] at hc
      cases hc
    rfl
  have hwith : matchKw "WITH" ([87, 73, 84, 72, 32, 97, 32, 65, 83, 32] ++ 40 :: text) =
      some ([32, 97, 32, 65, 83, 32] ++ 40 :: text) := by
    have hlow : [87, 73, 84, 72].map toLower = (ascii "WITH").map toLower := rfl
    have hend : ∀ b ∈ ([32, 97, 32, 65, 83, 32] ++ 40 :: text).head?, asciiIdent b = false := by
      simp [show asciiIdent 32 = false by decide]
    exact matchKw_append hlow hend
  have hblank : skipWsComments ([32, 97, 32, 65, 83, 32] ++ 40 :: text) = [97, 32, 65, 83, 32] ++ 40 :: text := by
    rw [List.cons_append, skipWsComments_space (by decide), List.cons_append, skipWsComments_ident (by decide)]
  have hself : skipWsComments ([97, 32, 65, 83, 32] ++ 40 :: text) = [97, 32, 65, 83, 32] ++ 40 :: text :=
    skipWsComments_ident (by decide) _
  have hrec : matchKw "RECURSIVE" ([97, 32, 65, 83, 32] ++ 40 :: text) = none :=
    matchKw_ne (c := 114) rfl (by decide)
  have hskip : skipWith ([87, 73, 84, 72, 32, 97, 32, 65, 83, 32] ++ 40 :: text) = some (ascii "SELECT") := by
    simp only [skipWith, hwith, hblank, hrec, Option.getD_none, hself, hctes]
  have hstart : skipWsComments ([87, 73, 84, 72, 32, 97, 32, 65, 83, 32] ++ 40 :: text) =
      [87, 73, 84, 72, 32, 97, 32, 65, 83, 32] ++ 40 :: text := skipWsComments_ident (by decide) _
  have hselect : leadingKeyword (ascii "SELECT") = .select := rfl
  simp only [classifyLeadingStmt, hstart, hskip]
  rw [if_neg (by simp), Option.map_some, hselect]

theorem classify_hidden {raw : Bytes} (hraw : ∀ b ∈ raw, identByte b = true) :
    classifyLeadingStmt (hiddenStatement raw) = some .select := by
  have hfront : parenText 0 (ascii "SELECT 1 /* ( */) ") = some 0 := by decide +kernel
  have htext := skipParenBalanced_text hfront (s := raw ++ ascii " -- ) SELECT") (.inr (by rintro b ⟨⟩; rfl)) (le_refl 1)
  have hclose : skipParenBalanced (1 + (0 : ℕ)) (ascii " -- ) SELECT") = some (ascii " SELECT") := by decide +kernel
  rw [skipParenBalanced_word hraw, hclose] at htext
  have hhead : ascii "WITH a AS (SELECT 1 /* ( */) " =
      [87, 73, 84, 72, 32, 97, 32, 65, 83, 32] ++ 40 :: ascii "SELECT 1 /* ( */) " := by decide
  have hbody : skipParenBalanced 0 (40 :: (ascii "SELECT 1 /* ( */) " ++ (raw ++ ascii " -- ) SELECT"))) =
      some (ascii " SELECT") := by
    rw [skipParenBalanced, if_neg (by decide), if_pos rfl]
    exact htext
  rw [hiddenStatement, hhead, List.append_assoc, List.cons_append]
  exact classify_with hbody (by decide +kernel)

def recursiveSql : Bytes := ascii "WITH RECURSIVE a (n) AS (SELECT 1 /* (x) */), b AS (SELECT ')') SELECT n FROM a"

def hiddenDelete : Bytes := ascii "WITH a AS (SELECT 1 /* ( */) DELETE FROM t -- ) SELECT"

end FractalSQL.TextSql
