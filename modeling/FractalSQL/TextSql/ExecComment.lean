import FractalSQL.TextSql.Allowlist
import FractalSQL.TextSql.InStep

/-!
# Executable comments

`t2s_has_exec_comment` knows quotes and block comments but no line comments: it
reads the text of a line comment as if it were SQL. It stays in step with the lexer
as long as that text closes every quote and every block comment it opens.
-/
namespace FractalSQL.TextSql
open Lib Lib.Sql

/-! ### Comments read as SQL -/

/-- The text after a quoted token that is closed. -/
def quotedEnd (q : UInt8) : Bytes → Option Bytes
  | [] => none
  | [c] => if c = q then some [] else none
  | c :: d :: text =>
    if c = 92 ∧ q ≠ 96 then quotedEnd q text
    else if c = q then if d = q then quotedEnd q text else some (d :: text)
    else quotedEnd q (d :: text)

/-- The text after a block comment that is closed. -/
def blockEnd : Bytes → Option Bytes
  | c :: d :: text => if c = 42 ∧ d = 47 then some text else blockEnd (d :: text)
  | _ => none

theorem quotedEnd_length {q : UInt8} {text rest : Bytes} (h : quotedEnd q text = some rest) :
    rest.length < text.length := by
  fun_induction quotedEnd q text with
  | case1 | case3 => cases h
  | case2 | case6 =>
    cases h
    simp
  | case4 c d text _ ih =>
    have := ih h
    simp only [List.length_cons]
    omega
  | case5 text _ ih =>
    have := ih h
    simp only [List.length_cons]
    omega
  | case7 c d text _ _ ih =>
    have := ih h
    simp only [List.length_cons] at *
    omega

theorem blockEnd_length {text rest : Bytes} (h : blockEnd text = some rest) : rest.length < text.length := by
  fun_induction blockEnd text with
  | case1 c d text =>
    cases h
    simp only [List.length_cons]
    omega
  | case2 c d text _ ih =>
    have := ih h
    simp only [List.length_cons] at *
    omega
  | case3 => cases h

/-- The mark that makes a comment executable. -/
def execMark (body : Bytes) : Bool := body.head? = some 33 ∨ body.head? = some 43

/-- A text read as SQL without line comments: `none` when it ends inside a quote or a
block comment, else whether there is an executable comment in it. -/
def execText (text : Bytes) : Option Bool :=
  match text with
  | [] => some false
  | b :: text =>
    if isQuote b then
      match h : quotedEnd b text with
      | none => none
      | some rest =>
        have := quotedEnd_length h
        execText rest
    else if opensBlock (b :: text) then
      if execMark (text.drop 1) then some true
      else match h : blockEnd (text.drop 1) with
        | none => none
        | some rest =>
          have := blockEnd_length h
          execText rest
    else execText text
termination_by text.length
decreasing_by
  all_goals simp_all
  all_goals omega

theorem quotedEnd_append {q : UInt8} {text rest : Bytes} (h : quotedEnd q text = some rest) (hq : isQuote q = true)
    {s : Bytes} (hs : rest = [] → ∀ b ∈ s.head?, isQuote b = false) : skipQuoted q (text ++ s) = rest ++ s := by
  have h92 : ¬ (q = 92 ∧ q ≠ 96) := by
    rintro ⟨rfl, -⟩
    cases hq
  fun_induction quotedEnd q text with
  | case1 | case3 => cases h
  | case2 =>
    cases h
    cases s with
    | nil => simp [skipQuoted]
    | cons d s =>
      have hd : d ≠ q := by
        rintro rfl
        simp [hs rfl d rfl] at hq
      rw [List.singleton_append, skipQuoted, if_neg h92, if_pos rfl, if_neg hd]
      rfl
  | case4 c d text hc ih =>
    rw [List.cons_append, List.cons_append, skipQuoted, if_pos hc, ih h]
  | case5 text _ ih =>
    rw [List.cons_append, List.cons_append, skipQuoted, if_neg h92, if_pos rfl, if_pos rfl, ih h]
  | case6 d text hd _ =>
    cases h
    rw [List.cons_append, List.cons_append, skipQuoted, if_neg h92, if_pos rfl, if_neg hd]
  | case7 c d text hc hcq ih =>
    rw [List.cons_append, List.cons_append, skipQuoted, if_neg hc, if_neg hcq]
    exact ih h

theorem skipQuoted_of_not_mem {q : UInt8} {s : Bytes} (hs : q ∉ s) : skipQuoted q s = [] := by
  fun_induction skipQuoted q s with
  | case1 c d text _ ih | case4 c d text _ _ ih => exact ih fun h => hs (by simp_all)
  | case2 text _ ih => simp at hs
  | case3 d text => simp at hs
  | case5 => rfl

/-- A quoted token that is left open takes what follows with it. -/
theorem skipQuoted_open {q : UInt8} {text s : Bytes} (h : quotedEnd q text = none) (hs : q ∉ s) :
    skipQuoted q (text ++ s) = [] := by
  fun_induction quotedEnd q text with
  | case1 => exact skipQuoted_of_not_mem hs
  | case2 => cases h
  | case3 c hc =>
    cases s with
    | nil => rfl
    | cons d s =>
      rw [List.singleton_append, skipQuoted]
      split
      · exact skipQuoted_of_not_mem fun hm => hs (List.mem_cons_of_mem d hm)
      · exact skipQuoted_of_not_mem hs
  | case4 c d text hc ih => rw [List.cons_append, List.cons_append, skipQuoted, if_pos hc, ih h]
  | case5 text hc ih =>
    rw [List.cons_append, List.cons_append, skipQuoted, if_neg hc, if_pos rfl, if_pos rfl, ih h]
  | case6 => cases h
  | case7 c d text hc hcq ih =>
    rw [List.cons_append, List.cons_append, skipQuoted, if_neg hc, if_neg hcq]
    exact ih h

theorem blockEnd_append {text rest : Bytes} (h : blockEnd text = some rest) (s : Bytes) :
    skipBlock (text ++ s) = rest ++ s := by
  fun_induction blockEnd text with
  | case1 c d text hc =>
    cases h
    simp [skipBlock, hc]
  | case2 c d text hc ih =>
    rw [List.cons_append, List.cons_append, skipBlock, if_neg hc]
    exact ih h
  | case3 => cases h

theorem skipBlock_open {text s : Bytes} (h : blockEnd text = none) (hhead : s.head? ≠ some 47)
    (hs : skipBlock s = []) : skipBlock (text ++ s) = [] := by
  fun_induction blockEnd text with
  | case1 => cases h
  | case2 c d text hc ih =>
    rw [List.cons_append, List.cons_append, skipBlock, if_neg hc]
    exact ih h
  | case3 text hshort =>
    rcases text with _ | ⟨c, _ | ⟨d, text⟩⟩
    · exact hs
    · cases s with
      | nil => rfl
      | cons d s =>
        rw [List.singleton_append, skipBlock, if_neg fun hc => hhead (by simp [hc.2])]
        exact hs
    · exact absurd rfl (hshort c d text)

/-! ### In step with the lexer -/

/-- What follows a text that does not open a comment with its last byte. -/
theorem opensBlock_append {b : UInt8} {text s : Bytes} (hs : ∀ c ∈ s.head?, c ≠ 42) :
    opensBlock (b :: (text ++ s)) = opensBlock (b :: text) := by
  cases text with
  | cons c text => rfl
  | nil =>
    cases s with
    | nil => rfl
    | cons c s => simp [opensBlock, hs c rfl]

theorem execMark_append {text s : Bytes} (hs : ∀ c ∈ s.head?, c = 10) : execMark (text ++ s) = execMark text := by
  cases text with
  | cons c text => rfl
  | nil =>
    cases s with
    | nil => rfl
    | cons c s =>
      rw [hs c rfl]
      rfl

theorem hasExecComment_plain {b : UInt8} {text : Bytes} (hq : isQuote b = false)
    (hb : opensBlock (b :: text) = false) : hasExecComment (b :: text) = hasExecComment text := by
  rw [hasExecComment, if_neg (by simp [hq]), if_neg (by simp [atBlockComment_eq, hb])]

theorem hasExecComment_quoted {q : UInt8} (hq : isQuote q = true) (text : Bytes) :
    hasExecComment (q :: text) = hasExecComment (skipQuoted q text) := by
  rw [hasExecComment, if_pos hq]

theorem hasExecComment_block (text : Bytes) :
    hasExecComment (47 :: 42 :: text) = (execMark text || hasExecComment (skipBlock text)) := by
  rw [hasExecComment, if_neg (by decide), if_pos (show atBlockComment (47 :: 42 :: text) = true from rfl)]
  by_cases h : execMark text = true
  · have hmark : text.head? = some 33 ∨ text.head? = some 43 := by simpa [execMark] using h
    simp [h, hmark]
  · have hmark : ¬ (text.head? = some 33 ∨ text.head? = some 43) := by simpa [execMark] using h
    simp only [List.drop_succ_cons, List.drop_zero, if_neg hmark, Bool.not_eq_true _ ▸ h, Bool.false_or]

/-- A line comment whose text is closed is passed over, or found to hold an
executable comment. -/
theorem hasExecComment_text {text s : Bytes} {found : Bool} (h : execText text = some found)
    (hs : ∀ b ∈ s.head?, b = 10) : hasExecComment (text ++ s) = (found || hasExecComment s) := by
  have hquote : ∀ b ∈ s.head?, isQuote b = false := fun b hb => by
    rw [hs b hb]
    decide
  have hstar : ∀ b ∈ s.head?, b ≠ 42 := fun b hb => by
    rw [hs b hb]
    decide
  fun_induction execText text with
  | case1 =>
    cases h
    rfl
  | case2 | case5 => cases h
  | case3 b text hq rest hr hlt ih =>
    rw [List.cons_append, hasExecComment_quoted hq, quotedEnd_append hr hq (fun _ => hquote), ih h]
  | case4 b text hq hb hmark =>
    cases h
    obtain ⟨rest, rfl, rfl⟩ := opensBlock_cons hb
    rw [List.cons_append, List.cons_append, hasExecComment_block, execMark_append hs]
    simp only [List.drop_succ_cons, List.drop_zero] at hmark
    rw [hmark]
    rfl
  | case6 b text hq hb hmark rest hr hlt ih =>
    obtain ⟨rest', rfl, rfl⟩ := opensBlock_cons hb
    simp only [List.drop_succ_cons, List.drop_zero, Bool.not_eq_true] at hmark hr
    rw [List.cons_append, List.cons_append, hasExecComment_block, execMark_append hs, hmark, blockEnd_append hr,
      Bool.false_or, ih h]
  | case7 b text hq hb ih =>
    rw [List.cons_append, hasExecComment_plain (by simpa using hq) (by simpa [opensBlock_append hstar] using hb),
      ih h]

/-- A line comment whose text is left open hides what follows. -/
theorem hasExecComment_open {text s : Bytes} (h : execText text = none) (hhead : s.head? = some 10)
    (hquote : ∀ b ∈ s, isQuote b = false) (hs : skipBlock s = []) : hasExecComment (text ++ s) = false := by
  have hs10 : ∀ b ∈ s.head?, b = 10 := fun b hb => by simpa [hhead] using hb.symm
  fun_induction execText text with
  | case1 => cases h
  | case2 b text hq hr =>
    have hmem : b ∉ s := fun hm => by simp [hquote b hm] at hq
    rw [List.cons_append, hasExecComment_quoted hq, skipQuoted_open hr hmem]
    simp [hasExecComment]
  | case3 b text hq rest hr hlt ih =>
    have hsq : ∀ b ∈ s.head?, isQuote b = false := fun b hb => hquote b (List.mem_of_mem_head? hb)
    rw [List.cons_append, hasExecComment_quoted hq, quotedEnd_append hr hq (fun _ => hsq), ih h]
  | case4 => cases h
  | case5 b text hq hb hmark hr =>
    obtain ⟨rest', rfl, rfl⟩ := opensBlock_cons hb
    simp only [List.drop_succ_cons, List.drop_zero, Bool.not_eq_true] at hmark hr
    rw [List.cons_append, List.cons_append, hasExecComment_block, execMark_append hs10, hmark,
      skipBlock_open hr (by simp [hhead]) hs]
    simp [hasExecComment]
  | case6 b text hq hb hmark rest hr hlt ih =>
    obtain ⟨rest', rfl, rfl⟩ := opensBlock_cons hb
    simp only [List.drop_succ_cons, List.drop_zero, Bool.not_eq_true] at hmark hr
    rw [List.cons_append, List.cons_append, hasExecComment_block, execMark_append hs10, hmark, blockEnd_append hr,
      Bool.false_or, ih h]
  | case7 b text hq hb ih =>
    have hstar : ∀ b ∈ s.head?, b ≠ 42 := fun b hb => by
      rw [hs10 b hb]
      decide
    rw [List.cons_append, hasExecComment_plain (by simpa using hq) (by simpa [opensBlock_append hstar] using hb),
      ih h]

/-- A block comment that the server executes. -/
def isExec : Lexeme → Bool
  | .blockComment raw => execMark (raw.drop 2)
  | _ => false

theorem hasExecComment_word {raw : Bytes} (h : ∀ b ∈ raw, identByte b = true) (rest : Bytes) :
    hasExecComment (raw ++ rest) = hasExecComment rest := by
  induction raw with
  | nil => rfl
  | cons b raw ih =>
    obtain ⟨hq, -, hne⟩ := identByte_plain (h b (by simp))
    have h47 : b ≠ 47 := fun hb => hne (by simp [hb])
    rw [List.cons_append, hasExecComment_plain hq (opensBlock_of_ne h47 _), ih fun c hc => h c (by simp [hc])]

/-- One token, other than a line comment. -/
theorem hasExecComment_next {text rest : Bytes} {t : Lexeme} (h : next true text = some (t, rest))
    (hline : ∀ raw, t ≠ .lineComment raw) : hasExecComment text = (isExec t || hasExecComment rest) := by
  cases next_cases h with
  | quoted hq hsplit =>
    rw [hasExecComment_quoted hq, skipQuoted_eq, hsplit]
    rfl
  | line => exact absurd rfl (hline _)
  | @block body rest hsplit =>
    have hmark : execMark (body ++ rest) = execMark body := by
      cases body with
      | cons c body => rfl
      | nil =>
        cases rest with
        | nil => rfl
        | cons c rest =>
          have hne : (splitBlock (c :: rest)).1 ≠ [] := splitBlock_ne_nil c rest
          rw [List.nil_append] at hsplit
          exact absurd (congrArg Prod.fst hsplit) hne
    rw [hasExecComment_block, skipBlock_eq, hsplit, hmark]
    rfl
  | @space b rest hs =>
    obtain ⟨hq, -, hne⟩ := isSpace_plain hs
    have h47 : b ≠ 47 := fun hb => hne (by simp [hb])
    rw [hasExecComment_plain hq (opensBlock_of_ne h47 _)]
    rfl
  | word hne hraw hend =>
    rw [hasExecComment_word hraw]
    rfl
  | symbol hq hl hb hs hi =>
    rw [hasExecComment_plain hq hb]
    rfl

/-- What the scanner makes of a token: a line comment is read as SQL. -/
def execSeen : Lexeme → Option Bool
  | .lineComment raw => execText raw
  | t => some (isExec t)

/-- One token that is closed for the scanner. -/
theorem hasExecComment_step {text rest : Bytes} {t : Lexeme} {found : Bool} (h : next true text = some (t, rest))
    (hseen : execSeen t = some found) : hasExecComment text = (found || hasExecComment rest) := by
  by_cases hline : ∃ raw, t = .lineComment raw
  · obtain ⟨raw, rfl⟩ := hline
    cases next_cases h with
    | line hopen hbytes hend hne => exact hasExecComment_text hseen hend
  · have hne (raw : Bytes) : t ≠ .lineComment raw := fun heq => hline ⟨raw, heq⟩
    have heq : execSeen t = some (isExec t) := by
      cases t with
      | lineComment raw => exact absurd rfl (hne raw)
      | _ => rfl
    obtain rfl := Option.some.inj (heq.symm.trans hseen)
    exact hasExecComment_next h hne

/-- Over tokens that are closed for it the scanner stays in step. -/
theorem hasExecComment_lexes {text rest : Bytes} {ts : List Lexeme} (h : Lexes true text ts rest)
    (hclosed : ∀ t ∈ ts, execSeen t ≠ none) :
    hasExecComment text = (ts.any (fun t => execSeen t = some true) || hasExecComment rest) := by
  induction h with
  | nil text => rfl
  | @cons text rest rest' t ts hn _ ih =>
    obtain ⟨found, hfound⟩ := Option.ne_none_iff_exists'.mp (hclosed t (by simp))
    rw [hasExecComment_step hn hfound, ih fun u hu => hclosed u (by simp [hu]), List.any_cons, hfound]
    cases found <;> simp

/-- The lexer meets an executable comment. -/
def MeetsExec (text : Bytes) : Prop := ∃ t ∈ lex true text, isExec t = true

/-- In front of some executable comment every line comment, read as SQL, closes the
quotes and the block comments it opens. -/
def ExecInStep (text : Bytes) : Prop :=
  ∃ ts t us, lex true text = ts ++ t :: us ∧ isExec t = true ∧ ∀ t ∈ ts, execSeen t ≠ none

theorem hasExecComment_of_inStep {text : Bytes} (h : ExecInStep text) : hasExecComment text = true := by
  obtain ⟨ts, t, us, hlex, hexec, hclosed⟩ := h
  obtain ⟨rest, hts, hrest⟩ := lexes_of_lex hlex
  obtain ⟨rest', ht, -⟩ := lexes_of_lex (show lex true rest = [t] ++ us from hrest)
  obtain ⟨mid, hn, -⟩ := ht.head
  have hseen : execSeen t = some true := by
    cases t <;> simp_all [execSeen, isExec]
  rw [hasExecComment_lexes hts hclosed, hasExecComment_step hn hseen]
  simp

/-- The gate is complete where the line comments are closed: a text in which the
lexer meets an executable comment behind closed line comments is found and
rejected. One line comment that is left open is enough to hide it. -/
theorem exec_comment_gate (env : AllowEnv) (text : Bytes) :
    ((MeetsExec text → ExecInStep text) → MeetsExec text → hasExecComment text = true ∧ Rejected env text) ∧
      ∀ ts raw, Lexes true text (ts ++ [.lineComment raw]) (10 :: ascii "/*!") →
        (∀ t ∈ ts, execSeen t = some false) → execText raw = none →
          MeetsExec text ∧ hasExecComment text = false := by
  constructor
  · intro hstep hmeets
    have hfound := hasExecComment_of_inStep (hstep hmeets)
    exact ⟨hfound, rejected_of_objection (by simp [objection, hfound])⟩
  · intro ts raw hlex hts hraw
    constructor
    · have hend : lex true (10 :: ascii "/*!") = [.space 10, .blockComment (ascii "/*!")] := by decide +kernel
      refine ⟨.blockComment (ascii "/*!"), ?_, by decide⟩
      rw [lex_eq_append hlex, hend]
      simp
    · obtain ⟨mid, hfront, hlast⟩ := hlex.split
      obtain ⟨rest, hn, hnil⟩ := hlast.head
      cases hnil
      have hnone : ts.any (fun t => execSeen t = some true) = false := by
        rw [List.any_eq_false]
        intro t ht
        simp [hts t ht]
      rw [hasExecComment_lexes hfront fun t ht => by simp [hts t ht], hnone, Bool.false_or]
      cases next_cases hn with
      | line => exact hasExecComment_open hraw rfl (by simp [ascii, isQuote]) (by decide)

/-- A configuration in its default mode. -/
def defaultEnv : AllowEnv where
  configOk := true
  allowedStatements := "select"
  resultOk := true

def hintedSql : Bytes := ascii "SELECT 1 # it's, isn't it\n/*+ hint */"

theorem hintedSql_gated : MeetsExec hintedSql ∧ hasExecComment hintedSql = true ∧ Rejected defaultEnv hintedSql := by
  have hmeets : MeetsExec hintedSql := ⟨.blockComment (ascii "/*+ hint */"), by decide +kernel, by decide⟩
  have hstep : ExecInStep hintedSql :=
    ⟨(lex true hintedSql).take 6, .blockComment (ascii "/*+ hint */"), [], by decide +kernel, by decide,
      by decide +kernel⟩
  exact ⟨hmeets, (exec_comment_gate defaultEnv hintedSql).1 (fun _ => hstep) hmeets⟩

def quoteInComment : Bytes := ascii "SELECT 1 # '\n/*! INTO OUTFILE 'x' */"

/-- A quote in a line comment hides the executable comment on the next line. -/
theorem quote_in_comment_hides : ¬ ∀ env text, MeetsExec text → hasExecComment text = true ∧ Rejected env text := by
  intro hall
  have hmeets : MeetsExec quoteInComment :=
    ⟨.blockComment (ascii "/*! INTO OUTFILE 'x' */"), by decide +kernel, by decide⟩
  have hpass : checkAllowlist defaultEnv (some quoteInComment) = .null := by decide +kernel
  exact (hall defaultEnv _ hmeets).2.1 hpass

end FractalSQL.TextSql
