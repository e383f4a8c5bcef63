import FractalSQL.TextSql.Statements

/-!
# Texts for a session without backslash escapes

The scanners read a backslash in a quoted token as an escape. A session can turn
that off, and then a token that ends in a backslash ends earlier for the server than
for the scanners: what follows it is a string to them and SQL to the server.
-/
namespace FractalSQL.TextSql
open Lib Lib.Sql

/-- More than one statement, INTO OUTFILE or DUMPFILE, or an executable comment. -/
def Violates (ts : List Lexeme) : Prop := 2 ≤ statements ts ∨ HasInto ts ∨ ∃ t ∈ ts, isExec t = true

/-- The violation shows in tokens that are the same with escapes: two statements with
a token that counts, or INTO OUTFILE, or an executable comment behind line comments
that are closed. -/
def SeenWithEscapes (text : Bytes) : Prop :=
  ∃ ts rest, Lexes false text ts rest ∧ Lexes true text ts rest ∧
    (2 ≤ (sureTally {} ts).total ∨ HasInto ts ∨
      ∃ us t vs, ts = us ++ t :: vs ∧ isExec t = true ∧ ∀ u ∈ us, execSeen u ≠ none)

theorem objection_of_seen {text : Bytes} (h : SeenWithEscapes text) (selectOnly : Bool) :
    objection selectOnly text ≠ none := by
  obtain ⟨ts, rest, -, hlex, hseen⟩ := h
  rw [Ne, objection_eq_none]
  rintro ⟨hexec, hcount, -, -, hout⟩
  rcases hseen with htwo | hinto | ⟨us, t, vs, rfl, ht, hus⟩
  · have hle := sureTally_le hlex 0 false
    rw [← countStatements, hcount] at hle
    exact absurd (htwo.trans hle) (by decide)
  · rw [hasIntoOutfile_of_hasInto hlex hinto] at hout
    cases hout
  · have hstep : ExecInStep text := ⟨us, t, vs ++ lex true rest, by simp [lex_eq_append hlex], ht, hus⟩
    rw [hasExecComment_of_inStep hstep] at hexec
    cases hexec

/-! ### A string that ends in a backslash -/

theorem skipQuoted_plain {s : Bytes} (hq : (39 : UInt8) ∉ s) (hb : (92 : UInt8) ∉ s) : skipQuoted 39 (s ++ [39]) = [] := by
  induction s with
  | nil => simp [skipQuoted]
  | cons c s ih =>
    have hc39 : c ≠ 39 := fun h => hq (by simp [h])
    have hc92 : c ≠ 92 := fun h => hb (by simp [h])
    have ih := ih (fun h => hq (by simp [h])) fun h => hb (by simp [h])
    cases s with
    | nil => simp [skipQuoted, hc39, hc92]
    | cons d s => simpa [skipQuoted, hc39, hc92] using ih

theorem objection_string {body : Bytes} (h : skipQuoted 39 body = []) (selectOnly : Bool) :
    objection selectOnly (ascii "SELECT " ++ 39 :: body) = none := by
  have htext : ascii "SELECT " ++ 39 :: body = [83, 69, 76, 69, 67, 84, 32] ++ 39 :: body := by simp [ascii]
  rw [objection_eq_none]
  refine ⟨?_, ?_, ⟨.select, ?_, rfl⟩, ?_, ?_⟩
  · rw [htext]
    simp [hasExecComment, isQuote, atBlockComment, h]
  · rw [htext]
    simp [countStatements, countLoop, isQuote, isSpace, looksLikeComment, h]
  · have hn : next true (ascii "SELECT" ++ 32 :: 39 :: body) = some (.word (ascii "SELECT"), 32 :: 39 :: body) := by
      simp [next, ascii, isQuote, opensLine, opensBlock, isSpace, identByte, asciiIdent, isLetter, isDigit]
    have hself := skipWsComments_self hn rfl
    have hwith : matchKw "WITH" (ascii "SELECT" ++ 32 :: 39 :: body) = none :=
      matchKw_ne (show _ = some 119 by decide) (by decide)
    have hselect : matchKw "SELECT" (ascii "SELECT" ++ 32 :: 39 :: body) = some (32 :: 39 :: body) :=
      matchKw_append rfl fun b hb => by cases hb; decide
    have hsplit : ascii "SELECT " ++ 39 :: body = ascii "SELECT" ++ 32 :: 39 :: body := by simp [ascii]
    have hhead : (ascii "SELECT" ++ 32 :: 39 :: body).head? ≠ some 40 := by simp [ascii]
    rw [hsplit, classifyLeadingStmt]
    simp only [hself, skipWith, hwith, Option.map_some, leadingKeyword]
    rw [if_neg (by simp), if_neg hhead, List.find?_cons_of_pos (by simp [Keyword.text, hselect])]
    rfl
  · rw [htext]
    simp [hasDeniedCall, isQuote, atBlockComment, isLetter, asciiIdent, isCallBlank, isDigit, h]
  · rw [htext]
    simp only [List.cons_append, List.nil_append]
    iterate 7
      rw [hasIntoOutfile_plain (by decide) (by simp [looksLikeComment])
        (matchKw_ne (show _ = some 105 by decide) (by decide))]
    rw [hasIntoOutfile_quoted (by decide), h]
    simp [hasIntoOutfile]

/-- A SELECT of a string that ends in a backslash, and any text behind it. -/
def smuggled (text : Bytes) : Bytes := ascii "SELECT " ++ 39 :: 92 :: 39 :: (text ++ [39])

/-- To the server the text behind the string is SQL. -/
theorem lex_smuggled {text : Bytes} (hq : (39 : UInt8) ∉ text) (hne : text ≠ []) :
    lex false (smuggled text) =
      [Lexeme.word (ascii "SELECT"), Lexeme.space 32, Lexeme.quoted 39 [92, 39]] ++ lex false (text ++ [39]) := by
  cases text with
  | nil => exact absurd rfl hne
  | cons c text =>
    have hc : c ≠ 39 := fun h => hq (by simp [h])
    have hword : next false (smuggled (c :: text)) =
        some (.word (ascii "SELECT"), 32 :: 39 :: 92 :: 39 :: (c :: text ++ [39])) := by
      simp [next, smuggled, ascii, isQuote, opensLine, opensBlock, isSpace, identByte, asciiIdent, isLetter, isDigit]
    have hspace : next false (32 :: 39 :: 92 :: 39 :: (c :: text ++ [39])) =
        some (.space 32, 39 :: 92 :: 39 :: (c :: text ++ [39])) := by
      simp [next, isQuote, opensLine, opensBlock, isSpace]
    have hstring : next false (39 :: 92 :: 39 :: (c :: text ++ [39])) =
        some (.quoted 39 [92, 39], c :: text ++ [39]) := by
      simp [next, isQuote, splitQuoted, hc]
    exact lex_eq_append (.cons hword (.cons hspace (.cons hstring (.nil _))))

def twoStatements : Bytes := ascii "SELECT 'a'; DROP TABLE t"

end FractalSQL.TextSql
