import FractalSQL.TextSql.ExecComment

/-!
# Statements and INTO OUTFILE

`t2s_count_statements` and `t2s_has_into_outfile` keep step with the lexer that has
backslash escapes. The counter overlooks a dash that stands directly in front of
another dash, so a statement of such dashes alone does not count.
-/
namespace FractalSQL.TextSql
open Lib Lib.Sql

/-! ### What the lexer says -/

/-- Counted so far, and whether the current statement has a token. -/
structure Tally where
  count : ℕ := 0
  content : Bool := false
deriving DecidableEq

def Tally.total (s : Tally) : ℕ := if s.content then s.count + 1 else s.count

def Tally.step (s : Tally) (t : Lexeme) : Tally :=
  if t.isTrivia then s
  else if t = .symbol 59 then ⟨s.total, false⟩
  else ⟨s.count, true⟩

/-- The statements of a token list: what stands between semicolons and has a token. -/
def statements (ts : List Lexeme) : ℕ := (ts.foldl Tally.step {}).total

def isKeyword (kw : String) (t : Lexeme) : Bool :=
  match t with
  | .word raw => raw.map toLower = (ascii kw).map toLower
  | _ => false

/-- INTO OUTFILE or INTO DUMPFILE, with white space and comments between. -/
def HasInto (ts : List Lexeme) : Prop :=
  ∃ us t vs u ws, ts = us ++ t :: (vs ++ u :: ws) ∧ isKeyword "INTO" t = true ∧ (∀ v ∈ vs, v.isTrivia = true) ∧
    (isKeyword "OUTFILE" u = true ∨ isKeyword "DUMPFILE" u = true)

/-! ### Counting -/

theorem countLoop_le (n : ℕ) (content : Bool) (text : Bytes) : Tally.total ⟨n, content⟩ ≤ countLoop n content text := by
  have htrue (n : ℕ) (content : Bool) : Tally.total ⟨n, content⟩ ≤ Tally.total ⟨n, true⟩ := by
    cases content <;> simp [Tally.total]
  fun_induction countLoop n content text with
  | case1 => simp [Tally.total]
  | case2 n content h => simp [Tally.total, h]
  | case3 n content c text hq ih => exact (htrue n content).trans ih
  | case4 n content c text hq hp ih => exact (htrue n content).trans ih
  | case5 n content text hq hp ih => exact ih
  | case6 n content c text _ _ _ _ ih => exact ih
  | case7 n content c text _ _ _ _ _ _ ih => exact ih
  | case8 n content c text _ _ _ _ _ _ ih => exact ih
  | case9 n content c text _ _ _ _ _ ih => exact (htrue n content).trans ih

theorem countLoop_space {b : UInt8} (h : isSpace b = true) (n : ℕ) (content : Bool) (text : Bytes) :
    countLoop n content (b :: text) = countLoop n content text := by
  obtain ⟨hq, -, hne⟩ := isSpace_plain h
  have h40 : b ≠ 40 := fun hb => hne (by simp [hb])
  have h41 : b ≠ 41 := fun hb => hne (by simp [hb])
  have h59 : b ≠ 59 := fun hb => hne (by simp [hb])
  rw [countLoop]
  simp [hq, h40, h41, h59, h]

theorem looksLikeComment_iff {b : UInt8} {text : Bytes} : looksLikeComment (b :: text) = true ↔
    opensLine (b :: text) = true ∨ opensBlock (b :: text) = true ∨ b = 45 ∧ text.head? = some 45 := by
  cases text with
  | nil => simp [looksLikeComment, opensLine, opensBlock]
  | cons c text =>
    cases text with
    | nil =>
      simp only [looksLikeComment, opensLine, opensBlock, decide_eq_true_eq, List.head?_cons, Option.some.injEq]
      tauto
    | cons d text =>
      simp only [looksLikeComment, opensLine, opensBlock, decide_eq_true_eq, List.head?_cons, Option.some.injEq]
      tauto

theorem looksLikeComment_ident {b : UInt8} (h : identByte b = true) (text : Bytes) :
    looksLikeComment (b :: text) = false := by
  obtain ⟨-, -, hb⟩ := identByte_plain h
  by_contra hc
  rcases looksLikeComment_iff.mp (by simpa using hc) with hl | hl | ⟨rfl, -⟩
  · rcases opensLine_head hl with rfl | rfl <;> simp at hb
  · obtain ⟨_, rfl, -⟩ := opensBlock_cons hl
    simp at hb
  · simp at hb

/-- Skipping a comment gets further. -/
theorem skipWsComments_lt {bs : Bool} {text rest : Bytes} {t : Lexeme} (h : next bs text = some (t, rest))
    (ht : t.isTrivia = true) : (skipWsComments text).length < text.length := by
  rw [skipWsComments_trivia h ht]
  exact lt_of_le_of_lt (skipWsComments_length rest) (next_length h)

/-- The bytes at the head of a comment. -/
theorem comment_head {b : UInt8} {text : Bytes} (h : opensLine (b :: text) = true ∨ opensBlock (b :: text) = true) :
    isQuote b = false ∧ isSpace b = false ∧ b ≠ 40 ∧ b ≠ 41 ∧ b ≠ 59 := by
  have hb : b = 35 ∨ b = 45 ∨ b = 47 := by
    rcases h with h | h
    · exact (opensLine_head h).elim .inl fun h => .inr (.inl h)
    · obtain ⟨rest, rfl, -⟩ := opensBlock_cons h
      exact .inr (.inr rfl)
  rcases hb with rfl | rfl | rfl <;> decide

theorem next_comment (bs : Bool) {b : UInt8} {text : Bytes}
    (h : opensLine (b :: text) = true ∨ opensBlock (b :: text) = true) :
    ∃ t rest, next bs (b :: text) = some (t, rest) ∧ t.isTrivia = true := by
  obtain ⟨hq, -⟩ := comment_head h
  by_cases hline : opensLine (b :: text) = true
  · exact ⟨_, _, by rw [next, if_neg (by simp [hq]), if_pos hline], rfl⟩
  · exact ⟨_, _, by rw [next, if_neg (by simp [hq]), if_neg hline, if_pos (h.resolve_left hline)], rfl⟩

theorem countLoop_comment {b : UInt8} {text : Bytes}
    (h : opensLine (b :: text) = true ∨ opensBlock (b :: text) = true) (n : ℕ) (content : Bool) :
    countLoop n content (b :: text) = countLoop n content (skipWsComments (b :: text)) := by
  obtain ⟨hq, hs, h40, h41, h59⟩ := comment_head h
  obtain ⟨t, rest, hn, ht⟩ := next_comment true h
  have hlt := skipWsComments_lt hn ht
  have hlook : looksLikeComment (b :: text) = true := looksLikeComment_iff.mpr (h.imp_right .inl)
  rw [countLoop]
  simp only [hq, h40, h41, h59, hs, hlook, Bool.false_eq_true, or_self, if_false, if_true]
  exact if_pos hlt

/-- Skipping white space and comments changes nothing for the counter. -/
theorem countLoop_skip (n : ℕ) (content : Bool) (text : Bytes) :
    countLoop n content (skipWsComments text) = countLoop n content text := by
  induction text with
  | nil => simp [skipWsComments, atLineComment, atBlockComment]
  | cons b text ih =>
    by_cases hs : isSpace b = true
    · rw [skipWsComments_space hs, countLoop_space hs, ih]
    · by_cases hc : opensLine (b :: text) = true ∨ opensBlock (b :: text) = true
      · rw [countLoop_comment hc]
      · simp only [not_or, Bool.not_eq_true] at hc hs
        have hself : skipWsComments (b :: text) = b :: text := by
          rw [skipWsComments]
          simp [hs, atLineComment_eq, hc.1, atBlockComment_eq, hc.2]
        rw [hself]

theorem countLoop_trivia {text rest : Bytes} {t : Lexeme} (h : next true text = some (t, rest))
    (ht : t.isTrivia = true) (n : ℕ) (content : Bool) : countLoop n content text = countLoop n content rest := by
  rw [← countLoop_skip n content text, skipWsComments_trivia h ht, countLoop_skip]

/-- A byte that is content by itself. -/
theorem countLoop_content {b : UInt8} {text : Bytes} (hq : isQuote b = false) (hs : isSpace b = false) (h59 : b ≠ 59)
    (hlook : looksLikeComment (b :: text) = false) (n : ℕ) (content : Bool) :
    countLoop n content (b :: text) = countLoop n true text := by
  rw [countLoop]
  simp [hq, hs, h59, hlook]

theorem countLoop_word {raw : Bytes} (h : ∀ b ∈ raw, identByte b = true) (hne : raw ≠ []) (rest : Bytes) (n : ℕ)
    (content : Bool) : countLoop n content (raw ++ rest) = countLoop n true rest := by
  induction raw generalizing content with
  | nil => exact absurd rfl hne
  | cons b raw ih =>
    have hident := h b (by simp)
    obtain ⟨hq, hs, hb⟩ := identByte_plain hident
    rw [List.cons_append, countLoop_content hq hs (fun h59 => hb (by simp [h59])) (looksLikeComment_ident hident _)]
    cases raw with
    | nil => rfl
    | cons c raw => exact ih (fun d hd => h d (by simp [hd])) (by simp) true

/-- A dash counts when something other than a dash is known to follow it. -/
def dashCounts (ts : List Lexeme) : Bool := (ts.head?.bind (·.raw.head?)).any (· ≠ 45)

/-- The tally that the counter is sure to reach over these tokens. -/
def sureTally (s : Tally) : List Lexeme → Tally
  | [] => s
  | t :: ts => if t = .symbol 45 ∧ ¬ dashCounts ts then sureTally s ts else sureTally (s.step t) ts

theorem countLoop_symbol {b : UInt8} {text rest : Bytes} (hn : next true text = some (.symbol b, rest))
    (hdash : b = 45 → rest.head? ≠ some 45) (n : ℕ) (content : Bool) :
    countLoop n content text =
      countLoop (Tally.step ⟨n, content⟩ (.symbol b)).count (Tally.step ⟨n, content⟩ (.symbol b)).content rest := by
  cases next_cases hn with
  | symbol hq hline hblock hs hi =>
    by_cases h59 : b = 59
    · subst h59
      rw [countLoop]
      simp [hq, Tally.step, Lexeme.isTrivia, Tally.total]
    · have hlook : looksLikeComment (b :: rest) = false := by
        by_contra hc
        rcases looksLikeComment_iff.mp (by simpa using hc) with hl | hl | ⟨h45, hr⟩
        · simp [hline] at hl
        · simp [hblock] at hl
        · exact hdash h45 hr
      rw [countLoop_content hq hs h59 hlook]
      simp [Tally.step, Lexeme.isTrivia, h59]

/-- A dash in front of a dash is passed by. -/
theorem countLoop_dash {text rest : Bytes} (hn : next true text = some (.symbol 45, rest))
    (hdash : rest.head? = some 45) (n : ℕ) (content : Bool) : countLoop n content text = countLoop n content rest := by
  have hself : skipWsComments text = text := skipWsComments_self hn rfl
  cases next_cases hn with
  | symbol hq hline hblock hs hi =>
    have hlook : looksLikeComment (45 :: rest) = true := looksLikeComment_iff.mpr (.inr (.inr ⟨rfl, hdash⟩))
    rw [countLoop]
    simp [hq, hs, hlook, hself]

/-- The first byte of the next token. -/
theorem head_of_lexes {text rest : Bytes} {t : Lexeme} {ts : List Lexeme} (h : Lexes true text (t :: ts) rest) :
    text.head? = t.raw.head? := by
  obtain ⟨mid, hn, -⟩ := h.head
  obtain ⟨happ, hne⟩ := (next_cases hn).append
  rw [happ]
  cases hr : t.raw with
  | nil => exact absurd hr hne
  | cons b raw => rfl

/-- One token with content, unless it is a dash in front of a dash. -/
theorem countLoop_step {text rest : Bytes} {t : Lexeme} (hn : next true text = some (t, rest))
    (htriv : t.isTrivia = false) (hdash : t = .symbol 45 → rest.head? ≠ some 45) (n : ℕ) (content : Bool) :
    countLoop n content text =
      countLoop (Tally.step ⟨n, content⟩ t).count (Tally.step ⟨n, content⟩ t).content rest := by
  cases t with
  | space | lineComment | blockComment => cases htriv
  | symbol b => exact countLoop_symbol hn (fun hb => hdash (by rw [hb])) n content
  | quoted q body =>
    cases next_cases hn with
    | quoted hq hsplit =>
      rw [countLoop, if_pos hq, skipQuoted_eq, hsplit]
      simp [Tally.step, Lexeme.isTrivia]
  | word raw =>
    cases next_cases hn with
    | word hne hraw hend =>
      rw [countLoop_word hraw hne]
      simp [Tally.step, Lexeme.isTrivia]

/-- The counter reaches what is sure. -/
theorem sureTally_le {text rest : Bytes} {ts : List Lexeme} (h : Lexes true text ts rest) (n : ℕ) (content : Bool) :
    (sureTally ⟨n, content⟩ ts).total ≤ countLoop n content text := by
  induction h generalizing n content with
  | nil text => exact countLoop_le n content text
  | @cons text rest rest' t ts hn hts ih =>
    by_cases htriv : t.isTrivia = true
    · have hsure : sureTally ⟨n, content⟩ (t :: ts) = sureTally ⟨n, content⟩ ts := by
        have hne : t ≠ .symbol 45 := by
          rintro rfl
          cases htriv
        rw [sureTally, if_neg fun hc => hne hc.1, Tally.step, if_pos htriv]
      rw [hsure, countLoop_trivia hn htriv]
      exact ih n content
    · simp only [Bool.not_eq_true] at htriv
      by_cases hdash : t = .symbol 45 ∧ rest.head? = some 45
      · obtain ⟨rfl, hhead⟩ := hdash
        have hnot : dashCounts ts = false := by
          cases ts with
          | nil => rfl
          | cons u us =>
            rw [head_of_lexes hts] at hhead
            simp [dashCounts, hhead]
        rw [sureTally, if_pos ⟨rfl, by simp [hnot]⟩, countLoop_dash hn hhead]
        exact ih n content
      · rw [countLoop_step hn htriv (fun ht hr => hdash ⟨ht, hr⟩)]
        rw [sureTally]
        split
        · rename_i hc
          -- A dash at the end of the tokens: the counter has at least what it had.
          obtain ⟨rfl, hnot⟩ := hc
          cases hts with
          | nil text =>
            refine le_trans ?_ (countLoop_le _ _ _)
            cases content <;> simp [sureTally, Tally.step, Tally.total, Lexeme.isTrivia]
          | @cons _ mid _ u us hu hus =>
            have hhead := head_of_lexes (.cons hu hus)
            obtain ⟨-, hne⟩ := (next_cases hu).append
            refine absurd ⟨rfl, ?_⟩ hdash
            rw [hhead]
            cases hr : u.raw with
            | nil => exact absurd hr hne
            | cons b raw => simpa [dashCounts, hr] using hnot
        · exact ih _ _

/-! ### INTO OUTFILE -/

theorem matchKw_some {kw : String} {text rest : Bytes} (h : matchKw kw text = some rest) :
    ∃ raw, text = raw ++ rest ∧ raw.map toLower = (ascii kw).map toLower ∧
      ∀ b ∈ rest.head?, asciiIdent b = false := by
  unfold matchKw at h
  split at h
  · rename_i heq
    split at h
    · cases h
    · rename_i hnext
      cases h
      refine ⟨text.take kw.length, (List.take_append_drop ..).symm, heq, fun b hb => ?_⟩
      simpa [Option.mem_def.mp hb, isIdentChar] using hnext
  · cases h

theorem matchKw_append {kw : String} {raw rest : Bytes} (h : raw.map toLower = (ascii kw).map toLower)
    (hend : ∀ b ∈ rest.head?, asciiIdent b = false) : matchKw kw (raw ++ rest) = some rest := by
  have hlen : raw.length = kw.length := by
    have := congrArg List.length h
    simpa only [List.length_map, ascii, String.length_toList] using this
  unfold matchKw
  rw [← hlen, List.take_left, List.drop_left, if_pos h]
  cases rest with
  | nil => rfl
  | cons b rest => simp [isIdentChar, hend b rfl]

theorem asciiIdent_of_identByte {b : UInt8} (h : identByte b = false) : asciiIdent b = false := by
  cases hb : asciiIdent b with
  | false => rfl
  | true => simp [identByte, hb] at h

/-- No keyword begins with this byte. -/
theorem matchKw_ne {kw : String} {b c : UInt8} {text : Bytes} (hkw : ((ascii kw).map toLower).head? = some c)
    (hb : toLower b ≠ c) : matchKw kw (b :: text) = none := by
  cases h : matchKw kw (b :: text) with
  | none => rfl
  | some rest =>
    obtain ⟨raw, hraw, heq, -⟩ := matchKw_some h
    rw [← heq] at hkw
    cases raw with
    | nil => cases hkw
    | cons d raw =>
      obtain ⟨rfl, -⟩ := List.cons.inj hraw
      exact absurd (Option.some.inj hkw) hb

theorem hasIntoOutfile_quoted {q : UInt8} (hq : isQuote q = true) (text : Bytes) :
    hasIntoOutfile (q :: text) = hasIntoOutfile (skipQuoted q text) := by
  rw [hasIntoOutfile, if_pos hq]

theorem hasIntoOutfile_plain {b : UInt8} {text : Bytes} (hq : isQuote b = false)
    (hlook : looksLikeComment (b :: text) = false) (hkw : matchKw "INTO" (b :: text) = none) :
    hasIntoOutfile (b :: text) = hasIntoOutfile text := by
  rw [hasIntoOutfile, if_neg (by simp [hq]), if_neg (by simp [hlook])]
  split
  · rename_i hsome
    rw [hkw] at hsome
    cases hsome
  · rfl

theorem not_looksLikeComment {b : UInt8} {text : Bytes} (hline : opensLine (b :: text) = false)
    (hblock : opensBlock (b :: text) = false) (hdash : b = 45 → text.head? ≠ some 45) :
    looksLikeComment (b :: text) = false := by
  by_contra hc
  rcases looksLikeComment_iff.mp (by simpa using hc) with hl | hl | ⟨h45, hr⟩
  · simp [hline] at hl
  · simp [hblock] at hl
  · exact hdash h45 hr

theorem toLower_ne_of_not_identByte {b : UInt8} (h : identByte b = false) : toLower b ≠ 105 := by
  intro hb
  have hletter := not_letter_of_not_identByte h
  rw [hb] at hletter
  cases hletter

theorem hasIntoOutfile_space {b : UInt8} (h : isSpace b = true) (text : Bytes) :
    hasIntoOutfile (b :: text) = hasIntoOutfile text := by
  obtain ⟨hq, hident, hne⟩ := isSpace_plain h
  have hline : opensLine (b :: text) = false :=
    opensLine_of_ne (fun hb => hne (by simp [hb])) (fun hb => hne (by simp [hb])) text
  have hblock : opensBlock (b :: text) = false := opensBlock_of_ne (fun hb => hne (by simp [hb])) text
  have hi := toLower_ne_of_not_identByte hident
  exact hasIntoOutfile_plain hq (not_looksLikeComment hline hblock fun hb => absurd (by simp [hb]) hne)
    (matchKw_ne (by decide) hi)

theorem hasIntoOutfile_comment {b : UInt8} {text : Bytes}
    (h : opensLine (b :: text) = true ∨ opensBlock (b :: text) = true) :
    hasIntoOutfile (b :: text) = hasIntoOutfile (skipWsComments (b :: text)) := by
  obtain ⟨hq, -⟩ := comment_head h
  obtain ⟨t, rest, hn, ht⟩ := next_comment true h
  have hlt := skipWsComments_lt hn ht
  have hlook : looksLikeComment (b :: text) = true := looksLikeComment_iff.mpr (h.imp_right .inl)
  rw [hasIntoOutfile, if_neg (by simp [hq]), if_pos hlook]
  exact if_pos hlt

/-- Skipping white space and comments changes nothing for this scan either. -/
theorem hasIntoOutfile_skip (text : Bytes) : hasIntoOutfile (skipWsComments text) = hasIntoOutfile text := by
  induction text with
  | nil => simp [skipWsComments, atLineComment, atBlockComment]
  | cons b text ih =>
    by_cases hs : isSpace b = true
    · rw [skipWsComments_space hs, hasIntoOutfile_space hs, ih]
    · by_cases hc : opensLine (b :: text) = true ∨ opensBlock (b :: text) = true
      · rw [hasIntoOutfile_comment hc]
      · simp only [not_or, Bool.not_eq_true] at hc hs
        have hself : skipWsComments (b :: text) = b :: text := by
          rw [skipWsComments]
          simp [hs, atLineComment_eq, hc.1, atBlockComment_eq, hc.2]
        rw [hself]

/-- A keyword that is found at the head of a word lies inside it. -/
theorem keyword_in_word {kw : String} {raw rest r : Bytes}
    (hkw : ∀ c ∈ (ascii kw).map toLower, isLetter c = true) (hend : ∀ b ∈ rest.head?, identByte b = false)
    (h : matchKw kw (raw ++ rest) = some r) : ∃ raw', raw' <:+ raw ∧ r = raw' ++ rest := by
  obtain ⟨kwraw, happ, heq, -⟩ := matchKw_some h
  rcases List.append_eq_append_iff.mp happ with ⟨z, hkwraw, hrest⟩ | ⟨z, hraw, hr⟩
  · cases z with
    | nil => exact ⟨[], List.nil_suffix, by simpa using hrest.symm⟩
    | cons c z =>
      have hmem : toLower c ∈ (ascii kw).map toLower := by
        rw [← heq, hkwraw]
        simp
      have hident : identByte c = true := identByte_of_letter (hkw _ hmem)
      rw [hend c (by rw [hrest]; rfl)] at hident
      cases hident
  · exact ⟨z, ⟨kwraw, hraw.symm⟩, hr⟩

/-- A word in front does not hide what follows: the scan may find more in it. -/
theorem hasIntoOutfile_word {raw rest : Bytes} (h : ∀ b ∈ raw, identByte b = true)
    (hend : ∀ b ∈ rest.head?, identByte b = false) (hrest : hasIntoOutfile rest = true) :
    hasIntoOutfile (raw ++ rest) = true := by
  induction hn : raw.length using Nat.strong_induction_on generalizing raw with
  | _ n ih =>
  cases raw with
  | nil => exact hrest
  | cons b raw =>
    have hlen : raw.length + 1 = n := hn
    have hident := h b (by simp)
    obtain ⟨hq, -⟩ := identByte_plain hident
    have hlook := looksLikeComment_ident hident (raw ++ rest)
    rw [List.cons_append]
    cases hkw : matchKw "INTO" (b :: (raw ++ rest)) with
    | none =>
      rw [hasIntoOutfile_plain hq hlook hkw]
      exact ih raw.length (by omega) (fun c hc => h c (by simp [hc])) rfl
    | some r =>
      rw [hasIntoOutfile, if_neg (by simp [hq]), if_neg (by simp [hlook])]
      have hletters : ∀ c ∈ (ascii "INTO").map toLower, isLetter c = true := List.all_eq_true.mp rfl
      obtain ⟨raw', hraw', rfl⟩ := keyword_in_word hletters hend (show matchKw "INTO" ((b :: raw) ++ rest) = _ from hkw)
      have hlt := matchKw_length (by decide) hkw
      simp only [List.length_cons, List.length_append] at hlt
      split
      · rename_i r hsome
        obtain rfl := Option.some.inj (hkw.symm.trans hsome)
        dsimp only
        split
        · rfl
        · refine ih raw'.length (by omega) (fun c hc => h c ?_) rfl
          exact hraw'.subset hc
      · rename_i hnone
        rw [hkw] at hnone
        cases hnone

theorem hasIntoOutfile_step {text rest : Bytes} {t : Lexeme} (hn : next true text = some (t, rest))
    (hrest : hasIntoOutfile rest = true) : hasIntoOutfile text = true := by
  by_cases htriv : t.isTrivia = true
  · rw [← hasIntoOutfile_skip, skipWsComments_trivia hn htriv, hasIntoOutfile_skip, hrest]
  · have hself := skipWsComments_self hn (by simpa using htriv)
    cases next_cases hn with
    | space | line | block => exact absurd rfl htriv
    | quoted hq hsplit => rw [hasIntoOutfile_quoted hq, skipQuoted_eq, hsplit, hrest]
    | word hne hraw hend => exact hasIntoOutfile_word hraw hend hrest
    | @symbol b rest hq hline hblock hs hi =>
      by_cases hdash : b = 45 ∧ rest.head? = some 45
      · have hlook : looksLikeComment (b :: rest) = true := looksLikeComment_iff.mpr (.inr (.inr hdash))
        rw [hasIntoOutfile, if_neg (by simp [hq]), if_pos hlook, hself]
        simpa using hrest
      · have hi' := toLower_ne_of_not_identByte hi
        rw [hasIntoOutfile_plain hq (not_looksLikeComment hline hblock fun h45 hr => hdash ⟨h45, hr⟩)
          (matchKw_ne (by decide) hi'), hrest]

theorem hasIntoOutfile_lexes {text rest : Bytes} {ts : List Lexeme} (h : Lexes true text ts rest)
    (hrest : hasIntoOutfile rest = true) : hasIntoOutfile text = true := by
  induction h with
  | nil text => exact hrest
  | cons hn _ ih => exact hasIntoOutfile_step hn (ih hrest)

/-- A word that is a keyword is matched as one. -/
theorem matchKw_next {bs : Bool} {kw : String} {text rest : Bytes} {t : Lexeme} (hn : next bs text = some (t, rest))
    (ht : isKeyword kw t = true) : matchKw kw text = some rest := by
  cases t with
  | word raw =>
    cases next_cases hn with
    | word hne hraw hend =>
      exact matchKw_append (by simpa [isKeyword] using ht) fun b hb => asciiIdent_of_identByte (hend b hb)
  | _ => cases ht

/-- The scan finds what the lexer finds. -/
theorem hasIntoOutfile_of_hasInto {text rest : Bytes} {ts : List Lexeme} (h : Lexes true text ts rest)
    (hinto : HasInto ts) : hasIntoOutfile text = true := by
  obtain ⟨us, t, vs, u, ws, rfl, ht, hvs, hu⟩ := hinto
  obtain ⟨mid, hus, hlex⟩ := h.split
  obtain ⟨mid₁, hn₁, hlex⟩ := hlex.head
  obtain ⟨mid₂, hvs', hlex⟩ := hlex.split
  obtain ⟨mid₃, hn₂, -⟩ := hlex.head
  refine hasIntoOutfile_lexes hus ?_
  have hinto := matchKw_next hn₁ ht
  have hfile : (matchKw "OUTFILE" (skipWsComments mid₁)).isSome = true ∨
      (matchKw "DUMPFILE" (skipWsComments mid₁)).isSome = true := by
    have hu' : u.isTrivia = false := by
      cases u with
      | word raw => rfl
      | _ => simp [isKeyword] at hu
    rw [skipWsComments_lexes hvs' hvs, skipWsComments_self hn₂ hu']
    exact hu.imp (fun h => by simp [matchKw_next hn₂ h]) fun h => by simp [matchKw_next hn₂ h]
  cases next_cases hn₁ with
  | @word raw _ hne hraw hend =>
    cases raw with
    | nil => exact absurd rfl hne
    | cons b raw =>
      have hident := hraw b (by simp)
      obtain ⟨hq, -⟩ := identByte_plain hident
      have hlook := looksLikeComment_ident hident (raw ++ mid₁)
      rw [List.cons_append, hasIntoOutfile, if_neg (by simp [hq]), if_neg (by simp [hlook])]
      split
      · rename_i r hsome
        obtain rfl := Option.some.inj (hinto.symm.trans hsome)
        exact if_pos hfile
      · rename_i hnone
        exact absurd (hinto.symm.trans hnone) (by simp)
  | _ => cases ht

/-- INTO OUTFILE and INTO DUMPFILE are found in every text. -/
theorem into_outfile_gate (text : Bytes) (h : HasInto (lex true text)) : hasIntoOutfile text = true :=
  hasIntoOutfile_of_hasInto (lexes_lex true text) h

def writesFile : Bytes := ascii "(SELECT 1 into/* a */OutFile 'x')"

theorem writesFile_found : hasIntoOutfile writesFile = true := by
  have hlex : lex true writesFile =
      [Lexeme.symbol 40, Lexeme.word (ascii "SELECT"), Lexeme.space 32, Lexeme.word (ascii "1"), Lexeme.space 32] ++
        Lexeme.word (ascii "into") :: ([Lexeme.blockComment (ascii "/* a */")] ++ Lexeme.word (ascii "OutFile") ::
          [Lexeme.space 32, Lexeme.quoted 39 (ascii "x'"), Lexeme.symbol 41]) := by
    rw [writesFile]
    repeat rw [ascii_ofList]
    decide +kernel
  have hinto : HasInto (lex true writesFile) := by
    rw [hlex]
    refine ⟨_, _, _, _, _, rfl, ?_, ?_, .inl ?_⟩
    · decide +kernel
    · intro v hv
      rw [List.mem_singleton.mp hv]
      rfl
    · decide +kernel
  exact into_outfile_gate writesFile hinto

end FractalSQL.TextSql
