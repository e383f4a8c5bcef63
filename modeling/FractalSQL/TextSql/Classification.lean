import FractalSQL.TextSql.LeadingStatement

/-!
# Classification in step with the tokens

Where a strict reading of the tokens finds nothing that the scanner would misread,
the scanner's positions are token positions: it gets behind the same WITH clause and
reads the same leading token.
-/
namespace FractalSQL.TextSql
open Lib Lib.Sql

/-- Skipping white space and comments, in tokens. -/
theorem lex_skipWsComments (text : Bytes) : lex true (skipWsComments text) = dropTrivia (lex true text) := by
  induction hn : text.length using Nat.strong_induction_on generalizing text with
  | _ n ih =>
  cases text with
  | nil => simp [skipWsComments, atLineComment, atBlockComment, lex, next, dropTrivia]
  | cons b text =>
    obtain ⟨⟨t, rest⟩, hnext⟩ := Option.isSome_iff_exists.mp (next_isSome true b text)
    rw [lex_cons hnext]
    cases htriv : t.isTrivia with
    | true =>
      have hlt := next_length hnext
      rw [skipWsComments_trivia hnext htriv, ih rest.length (by omega) rest rfl]
      simp [dropTrivia, htriv]
    | false =>
      rw [skipWsComments_self hnext htriv, lex_cons hnext]
      simp [dropTrivia, htriv]

theorem skipWsComments_idem (text : Bytes) : skipWsComments (skipWsComments text) = skipWsComments text := by
  induction hn : text.length using Nat.strong_induction_on generalizing text with
  | _ n ih =>
  cases text with
  | nil => simp [skipWsComments, atLineComment, atBlockComment]
  | cons b text =>
    obtain ⟨⟨t, rest⟩, hnext⟩ := Option.isSome_iff_exists.mp (next_isSome true b text)
    cases htriv : t.isTrivia with
    | true =>
      have hlt := next_length hnext
      rw [skipWsComments_trivia hnext htriv, ih rest.length (by omega) rest rfl]
    | false => rw [skipWsComments_self hnext htriv, skipWsComments_self hnext htriv]

/-! ### Parentheses -/

theorem next_punct {b : UInt8} (h : b = 40 ∨ b = 44) (text : Bytes) :
    next true (b :: text) = some (.symbol b, text) := by
  have hb : isQuote b = false ∧ isSpace b = false ∧ identByte b = false ∧ b ≠ 35 ∧ b ≠ 45 ∧ b ≠ 47 := by
    rcases h with rfl | rfl <;> decide
  obtain ⟨hq, hs, hi, h35, h45, h47⟩ := hb
  rw [next, if_neg (by simp [hq]), if_neg (by simp [opensLine_of_ne h35 h45]), if_neg (by simp [opensBlock_of_ne h47]),
    if_neg (by simp [hs]), if_neg (by simp [hi])]

theorem quotedEnd_suffix {q : UInt8} {text rest : Bytes} (h : quotedEnd q text = some rest) :
    rest <:+ text ∧ (rest = [] → text.getLast? = some q) := by
  fun_induction quotedEnd q text with
  | case1 | case3 => cases h
  | case2 =>
    cases h
    exact ⟨List.nil_suffix, fun _ => rfl⟩
  | case4 c d text _ ih =>
    obtain ⟨hs, hl⟩ := ih h
    refine ⟨hs.trans ⟨[c, d], rfl⟩, fun hr => ?_⟩
    have := hl hr
    cases text with
    | nil => cases this
    | cons e text => simpa using this
  | case5 text _ ih =>
    obtain ⟨hs, hl⟩ := ih h
    refine ⟨hs.trans ⟨[q, q], rfl⟩, fun hr => ?_⟩
    have := hl hr
    cases text with
    | nil => cases this
    | cons e text => simpa using this
  | case6 d text =>
    cases h
    exact ⟨⟨[q], rfl⟩, by simp⟩
  | case7 c d text _ _ ih =>
    obtain ⟨hs, hl⟩ := ih h
    exact ⟨hs.trans ⟨[c], rfl⟩, fun hr => by simpa using hl hr⟩

/-- What may follow a text that is read on its own: it does not begin with a quote,
or the text does not end in one. -/
def Apart (text s : Bytes) : Prop :=
  (∀ b ∈ s.head?, isQuote b = false) ∨ ∀ b ∈ text.getLast?, isQuote b = false

theorem Apart.suffix {text rest s : Bytes} (h : Apart text s) (hs : rest <:+ text) : Apart rest s := by
  refine h.imp_right fun hl b hb => ?_
  obtain ⟨front, rfl⟩ := hs
  refine hl b ?_
  cases rest with
  | nil => cases hb
  | cons c rest => rwa [List.getLast?_append_of_ne_nil _ (List.cons_ne_nil c rest)]

/-- The matcher passes over a balanced text. -/
theorem skipParenBalanced_text {depth depth' : ℕ} {text s : Bytes} (h : parenText depth text = some depth')
    (hs : Apart text s) {outer : ℤ} (houter : 1 ≤ outer) :
    skipParenBalanced (outer + depth) (text ++ s) = skipParenBalanced (outer + depth') s := by
  fun_induction parenText depth text with
  | case1 =>
    cases h
    rfl
  | case2 => cases h
  | case3 depth b text hq rest hr hlt ih =>
    obtain ⟨hsuf, hlast⟩ := quotedEnd_suffix hr
    have hcut : rest = [] → ∀ c ∈ s.head?, isQuote c = false := by
      intro hnil
      rcases hs with hs | hs
      · exact hs
      · have hb : b ∈ (b :: text).getLast? := by
          have := hlast hnil
          cases text with
          | nil => cases this
          | cons c text => simpa using this
        simp [hs b hb] at hq
    rw [List.cons_append, skipParenBalanced, if_pos hq, quotedEnd_append hr hq hcut]
    exact ih h (hs.suffix (hsuf.trans (List.suffix_cons b text)))
  | case4 depth text hq ih =>
    rw [List.cons_append, skipParenBalanced, if_neg hq, if_pos rfl, add_assoc]
    exact ih h (hs.suffix (List.suffix_cons _ text))
  | case5 => cases h
  | case6 depth text hd hq h40 ih =>
    have hsub : outer + (depth : ℤ) - 1 = outer + ((depth - 1 : ℕ) : ℤ) := by omega
    rw [List.cons_append, skipParenBalanced, if_neg hq, if_neg h40, if_pos rfl, if_neg (by omega), hsub]
    exact ih h (hs.suffix (List.suffix_cons _ text))
  | case7 depth b text hq h40 h41 ih =>
    rw [List.cons_append, skipParenBalanced, if_neg hq, if_neg h40, if_neg h41]
    exact ih h (hs.suffix (List.suffix_cons _ text))

theorem splitBlock_closed {body rest : Bytes} (h : splitBlock (body ++ rest) = (body, rest)) :
    rest = [] ∨ body.getLast? = some 47 := by
  have hclosed (text : Bytes) : (splitBlock text).2 = [] ∨ (splitBlock text).1.getLast? = some 47 := by
    fun_induction splitBlock text with
    | case1 | case2 => exact .inl rfl
    | case3 c d text hc => exact .inr (by simp [hc.2])
    | case4 c d text hc ih =>
      refine ih.imp_right fun hl => ?_
      have hne := splitBlock_ne_nil d text
      cases hs : (splitBlock (d :: text)).1 with
      | nil => exact absurd hs hne
      | cons e es =>
        rw [hs] at hl
        simpa using hl
  have := hclosed (body ++ rest)
  rwa [h] at this

/-- A comment with what follows it. -/
theorem apart_comment {text rest : Bytes} {t : Lexeme} (hn : next true text = some (t, rest))
    (ht : ∃ raw, t = .lineComment raw ∨ t = .blockComment raw) : Apart t.raw rest := by
  cases next_cases hn with
  | quoted | space | word | symbol => simp at ht
  | line _ _ hend =>
    refine .inl fun b hb => ?_
    rw [hend b hb]
    decide
  | @block body rest hsplit =>
    rcases splitBlock_closed hsplit with rfl | hlast
    · exact .inl fun b hb => by cases hb
    · refine .inr fun b hb => ?_
      have hne : body ≠ [] := by
        rintro rfl
        cases hlast
      have hl : (47 :: 42 :: body).getLast? = body.getLast? := by
        cases body with
        | nil => exact absurd rfl hne
        | cons c body => simp
      rw [Lexeme.raw, hl, hlast] at hb
      rw [← Option.some.inj hb]
      decide

theorem skipParenBalanced_plain {depth : ℤ} {b : UInt8} (hq : isQuote b = false) (h40 : b ≠ 40) (h41 : b ≠ 41)
    (text : Bytes) : skipParenBalanced depth (b :: text) = skipParenBalanced depth text := by
  rw [skipParenBalanced, if_neg (by simp [hq]), if_neg h40, if_neg h41]

theorem skipParenBalanced_word {depth : ℤ} {raw : Bytes} (h : ∀ b ∈ raw, identByte b = true) (rest : Bytes) :
    skipParenBalanced depth (raw ++ rest) = skipParenBalanced depth rest := by
  induction raw with
  | nil => rfl
  | cons b raw ih =>
    obtain ⟨hq, -, hne⟩ := identByte_plain (h b (by simp))
    rw [List.cons_append, skipParenBalanced_plain hq (fun hb => hne (by simp [hb])) fun hb => hne (by simp [hb])]
    exact ih fun c hc => h c (by simp [hc])

/-- One token that is no parenthesis. -/
theorem skipParenBalanced_step {depth : ℤ} (hd : 1 ≤ depth) {text rest : Bytes} {t : Lexeme}
    (hn : next true text = some (t, rest)) (h40 : t ≠ .symbol 40) (h41 : t ≠ .symbol 41)
    (hbal : unbalanced t = false) : skipParenBalanced depth text = skipParenBalanced depth rest := by
  have hcomment (raw : Bytes) (ht : t = .lineComment raw ∨ t = .blockComment raw) (hraw : parenText 0 raw = some 0) :
      skipParenBalanced depth text = skipParenBalanced depth rest := by
    have hap := apart_comment hn ⟨raw, ht⟩
    obtain ⟨happ, -⟩ := (next_cases hn).append
    have htr : t.raw = raw := by rcases ht with rfl | rfl <;> rfl
    rw [htr] at hap happ
    have := skipParenBalanced_text hraw hap hd
    simpa [happ] using this
  cases t with
  | lineComment raw => exact hcomment raw (.inl rfl) (by simpa [unbalanced] using hbal)
  | blockComment raw => exact hcomment raw (.inr rfl) (by simpa [unbalanced] using hbal)
  | quoted q body =>
    cases next_cases hn with
    | quoted hq hsplit => rw [skipParenBalanced, if_pos hq, skipQuoted_eq, hsplit]
  | space b =>
    cases next_cases hn with
    | space hs =>
      obtain ⟨hq, -, hne⟩ := isSpace_plain hs
      exact skipParenBalanced_plain hq (fun hb => hne (by simp [hb])) (fun hb => hne (by simp [hb])) _
  | symbol b =>
    cases next_cases hn with
    | symbol hq =>
      exact skipParenBalanced_plain hq (fun hb => h40 (by rw [hb])) (fun hb => h41 (by rw [hb])) _
  | word raw =>
    cases next_cases hn with
    | word _ hraw _ => exact skipParenBalanced_word hraw rest

theorem next_symbol {b c : UInt8} {text rest : Bytes} (h : next true (b :: text) = some (.symbol c, rest)) :
    b = c ∧ text = rest ∧ isQuote b = false := by
  generalize hs : b :: text = s at h
  cases next_cases h with
  | symbol hq =>
    obtain ⟨rfl, rfl⟩ := List.cons.inj hs
    exact ⟨rfl, rfl, hq⟩

/-- The scanner got to `a`: so does a reading of the tokens, unless a strict one meets
something that the scanner misreads. -/
def Agrees {α : Type} (f : Bool → Except Fault α) (a : α) : Prop :=
  f true = .error .misread ∨ ∀ strict, f strict = .ok a

theorem Agrees.bind {α β : Type} {f : Bool → Except Fault α} {g : Bool → α → Except Fault β} {a : α} {b : β}
    (hf : Agrees f a) (hg : Agrees (fun strict => g strict a) b) : Agrees (fun strict => f strict >>= g strict) b := by
  rcases hf with hf | hf
  · left
    simp only [hf]
    rfl
  · rcases hg with hg | hg
    · left
      simp only [hf]
      exact hg
    · right
      intro strict
      simp only [hf]
      exact hg strict

/-- The matcher closes the same parentheses as the tokens. -/
theorem closeParens_agrees {depth : ℕ} (hd : 1 ≤ depth) {text rest : Bytes}
    (h : skipParenBalanced depth text = some rest) :
    Agrees (fun strict => closeParens strict depth (lex true text)) (lex true rest) := by
  induction hn : text.length using Nat.strong_induction_on generalizing text depth with
  | _ n ih =>
  cases text with
  | nil => simp [skipParenBalanced] at h
  | cons b text =>
    obtain ⟨⟨t, mid⟩, hnext⟩ := Option.isSome_iff_exists.mp (next_isSome true b text)
    have hlt := next_length hnext
    rw [lex_cons hnext]
    by_cases h40 : t = .symbol 40
    · subst h40
      obtain ⟨rfl, rfl, hq⟩ := next_symbol hnext
      rw [skipParenBalanced, if_neg (by simp [hq]), if_pos rfl] at h
      simp only [closeParens, if_true]
      exact ih text.length (by omega) (Nat.le_succ_of_le hd) (by exact_mod_cast h) rfl
    · by_cases h41 : t = .symbol 41
      · subst h41
        obtain ⟨rfl, rfl, hq⟩ := next_symbol hnext
        rw [skipParenBalanced, if_neg (by simp [hq]), if_neg (by decide), if_pos rfl] at h
        simp only [closeParens, if_neg h40, if_true]
        by_cases hone : depth = 1
        · subst hone
          rw [if_pos (by simp)] at h
          cases h
          exact .inr fun _ => by simp
        · simp only [if_neg hone]
          rw [if_neg (by omega)] at h
          have hsub : (depth : ℤ) - 1 = ((depth - 1 : ℕ) : ℤ) := by omega
          rw [hsub] at h
          exact ih text.length (by omega) (by omega) h rfl
      · simp only [closeParens, if_neg h40, if_neg h41]
        cases hbal : unbalanced t with
        | true => exact .inl (by simp)
        | false =>
          rw [skipParenBalanced_step (by exact_mod_cast hd) hnext h40 h41 hbal] at h
          simpa using ih mid.length (by omega) hd h rfl

/-- A parenthesised group. -/
theorem parens_agrees {text rest : Bytes} (hhead : text.head? = some 40) (h : skipParenBalanced 0 text = some rest) :
    Agrees (fun strict => parens strict (lex true text)) (lex true rest) := by
  cases text with
  | nil => cases hhead
  | cons b text =>
    obtain rfl : b = 40 := Option.some.inj hhead
    have hn : next true (40 :: text) = some (.symbol 40, text) := next_punct (.inl rfl) text
    rw [skipParenBalanced, if_neg (by decide), if_pos rfl] at h
    simp only [lex_cons hn, parens, if_true]
    exact closeParens_agrees le_rfl (by exact_mod_cast h)

/-! ### Common table expressions -/

theorem identByte_of_keyword {kw : String} {raw : Bytes} (hkw : ∀ c ∈ (ascii kw).map toLower, isLetter c = true)
    (h : raw.map toLower = (ascii kw).map toLower) : ∀ b ∈ raw, identByte b = true := by
  intro b hb
  have hmem : toLower b ∈ (ascii kw).map toLower := h ▸ List.mem_map_of_mem hb
  exact identByte_of_letter (hkw _ hmem)

/-- A keyword that the scanner matches is a token, or a byte beyond ASCII continues it. -/
theorem matchKw_token {kw : String} {text rest : Bytes} (hkw : ∀ c ∈ (ascii kw).map toLower, isLetter c = true)
    (hne : ascii kw ≠ []) (h : matchKw kw text = some rest) :
    (∃ t, next true text = some (t, rest) ∧ isKeyword kw t = true) ∨ ∃ b ∈ rest.head?, 128 ≤ b := by
  obtain ⟨raw, rfl, heq, hend⟩ := matchKw_some h
  have hident := identByte_of_keyword hkw heq
  have hraw : raw ≠ [] := by
    rintro rfl
    exact hne (List.map_eq_nil_iff.mp heq.symm)
  by_cases hhigh : ∃ b ∈ rest.head?, 128 ≤ b
  · exact .inr hhigh
  · left
    refine ⟨.word raw, next_word true hraw hident fun b hb => ?_, by simpa [isKeyword] using heq⟩
    have hlow : ¬ 128 ≤ b := fun hge => hhigh ⟨b, hb, hge⟩
    simp [identByte, hend b hb, hlow]

theorem high_plain {b : UInt8} (h : 128 ≤ b) :
    isIdentChar b = false ∧ isSpace b = false ∧ identByte b = true ∧ b ≠ 40 ∧ isLetter (toLower b) = false ∧ b ≠ 96 := by
  have hb : 128 ≤ b.toNat := h
  have hlower : toLower b = b := by
    rw [toLower, if_neg]
    simp only [UInt8.le_iff_toNat_le, UInt8.reduceToNat]
    omega
  have hne (c : UInt8) (hc : c.toNat < 128) : b ≠ c := by
    rintro rfl
    omega
  have hletter : isLetter b = false := by
    apply decide_eq_false
    simp only [UInt8.le_iff_toNat_le, UInt8.reduceToNat]
    omega
  have hdigit : isDigit b = false := by
    apply decide_eq_false
    simp only [UInt8.le_iff_toNat_le, UInt8.reduceToNat]
    omega
  have hspace : isSpace b = false := by
    apply decide_eq_false
    simp only [hne 32 (by decide), false_or, UInt8.le_iff_toNat_le, UInt8.reduceToNat]
    omega
  rw [hlower]
  refine ⟨?_, hspace, ?_, hne 40 (by decide), hletter, hne 96 (by decide)⟩
  · simp [isIdentChar, asciiIdent, hletter, hdigit, hne 95 (by decide), hne 36 (by decide)]
  · simp [identByte, h]

theorem skipWsComments_ident {b : UInt8} (h : identByte b = true) (text : Bytes) :
    skipWsComments (b :: text) = b :: text := by
  obtain ⟨-, hs, hne⟩ := identByte_plain h
  have hline : opensLine (b :: text) = false :=
    opensLine_of_ne (fun hb => hne (by simp [hb])) (fun hb => hne (by simp [hb])) text
  have hblock : opensBlock (b :: text) = false := opensBlock_of_ne (fun hb => hne (by simp [hb])) text
  rw [skipWsComments]
  simp [hs, atLineComment_eq, hline, atBlockComment_eq, hblock]

/-- Neither a column list nor AS follows the name. -/
theorem skipCte_dead {text rest : Bytes} {b : UInt8} (h : skipWsComments (skipName text) = b :: rest) (h40 : b ≠ 40)
    (hb : isLetter (toLower b) = false) : skipCte text = none := by
  have hne : toLower b ≠ 97 := by
    intro heq
    rw [heq] at hb
    exact absurd hb (by decide)
  have hkw : matchKw "AS" (b :: rest) = none := matchKw_ne (c := 97) rfl hne
  simp [skipCte, h, skipColumns, h40, hkw]

theorem skipCte_high {text : Bytes} (h : ∃ b ∈ text.head?, 128 ≤ b) : skipCte text = none := by
  obtain ⟨b, hb, hhigh⟩ := h
  obtain ⟨hident, -, hword, h40, hletter, h96⟩ := high_plain hhigh
  cases text with
  | nil => cases hb
  | cons c text =>
    obtain rfl : c = b := Option.some.inj hb
    have hname : skipName (c :: text) = c :: text := by simp [skipName, h96, hident]
    exact skipCte_dead (by rw [hname, skipWsComments_ident hword]) h40 hletter

theorem isTrivia_of_self {text rest : Bytes} {t : Lexeme} (h : next true text = some (t, rest))
    (hself : skipWsComments text = text) : t.isTrivia = false := by
  cases ht : t.isTrivia with
  | false => rfl
  | true =>
    have hlt := next_length h
    have hle := skipWsComments_length rest
    rw [← skipWsComments_trivia h ht, hself] at hle
    omega

/-- A name is skipped whole, or up to its first byte beyond ASCII. -/
theorem skipName_word {raw rest : Bytes} (hne : raw ≠ []) (hraw : ∀ b ∈ raw, identByte b = true)
    (hend : ∀ b ∈ rest.head?, identByte b = false) :
    skipName (raw ++ rest) = rest ∨ ∃ b more, skipName (raw ++ rest) = b :: more ∧ 128 ≤ b := by
  have hskip : skipName (raw ++ rest) = (raw ++ rest).dropWhile isIdentChar := by
    cases raw with
    | nil => exact absurd rfl hne
    | cons b raw =>
      obtain ⟨hq, -⟩ := identByte_plain (hraw b (by simp))
      have h96 : b ≠ 96 := by
        rintro rfl
        cases hq
      rw [List.cons_append, skipName, if_neg h96]
  rw [hskip, List.dropWhile_append]
  cases hd : raw.dropWhile isIdentChar with
  | nil =>
    left
    cases rest with
    | nil => rfl
    | cons c rest => simp [isIdentChar, asciiIdent_of_identByte (hend c rfl)]
  | cons b more =>
    right
    have hmem : b ∈ raw := (List.dropWhile_suffix isIdentChar).subset (by rw [hd]; simp)
    have hnot : isIdentChar b = false := by
      have := List.head?_dropWhile_not isIdentChar raw
      rw [hd] at this
      simpa using this
    refine ⟨b, more ++ rest, by simp, ?_⟩
    have hident := hraw b hmem
    simpa [identByte, show asciiIdent b = false from hnot] using hident

/-- The name of a common table expression. -/
theorem cteName_agrees {text : Bytes} {out : Bytes × Bool} (h : skipCte text = some out)
    (hself : skipWsComments text = text) :
    Agrees (fun strict => cteName strict (lex true text)) (lex true (skipName text)) := by
  have hdead {b : UInt8} {rest : Bytes} (hs : skipWsComments (skipName text) = b :: rest) (h40 : b ≠ 40)
      (hb : isLetter (toLower b) = false) : False := by
    rw [skipCte_dead hs h40 hb] at h
    cases h
  cases hn : next true text with
  | none =>
    cases text with
    | nil => exact absurd h (by rw [show skipCte [] = none by decide +kernel]; simp)
    | cons b text => exact absurd (next_isSome true b text) (by simp [hn])
  | some p =>
    obtain ⟨t, mid⟩ := p
    rw [lex_cons hn]
    have htriv := isTrivia_of_self hn hself
    cases next_cases hn with
    | space | line | block => cases htriv
    | @word raw _ hne hraw hend =>
      rcases skipName_word hne hraw hend with hs | ⟨b, more, hs, hhigh⟩
      · rw [hs]
        exact .inr fun _ => rfl
      · obtain ⟨-, -, hword, h40, hletter, -⟩ := high_plain hhigh
        exact (hdead (by rw [hs, skipWsComments_ident hword]) h40 hletter).elim
    | @quoted q body _ hq hsplit =>
      by_cases h96 : q = 96
      · subst h96
        have hs : skipName (96 :: (body ++ mid)) = mid := by rw [skipName, if_pos rfl, skipQuoted_eq, hsplit]
        rw [hs]
        exact .inr fun _ => by simp [cteName]
      · have hquotes : ∀ q ∈ ([39, 34, 96] : Bytes), isIdentChar q = false ∧ q ≠ 40 ∧ isLetter (toLower q) = false := by
          decide +kernel
        have hq' := hquotes q (mem_of_isQuote hq)
        have hs : skipName (q :: (body ++ mid)) = q :: (body ++ mid) := by simp [skipName, h96, hq'.1]
        exact (hdead (by rw [hs, hself]) hq'.2.1 hq'.2.2).elim
    | @symbol b _ hq _ _ _ hi =>
      by_cases h40 : b = 40
      · exact .inl (by simp [cteName, h40])
      · have hident : isIdentChar b = false := asciiIdent_of_identByte hi
        have h96 : b ≠ 96 := by
          rintro rfl
          cases hq
        have hletter : isLetter (toLower b) = false := not_letter_of_not_identByte hi
        have hs : skipName (b :: mid) = b :: mid := by simp [skipName, h96, hident]
        exact (hdead (by rw [hs, hself]) h40 hletter).elim

theorem head_symbol {text : Bytes} : (lex true text).head? = some (.symbol 40) ↔ text.head? = some 40 := by
  cases text with
  | nil => simp [lex, next]
  | cons b text =>
    obtain ⟨⟨t, mid⟩, hn⟩ := Option.isSome_iff_exists.mp (next_isSome true b text)
    rw [lex_cons hn]
    simp only [List.head?_cons, Option.some.injEq]
    constructor
    · rintro rfl
      exact (next_symbol hn).1
    · rintro rfl
      rw [next_punct (.inl rfl)] at hn
      cases hn
      rfl

theorem cteColumns_agrees {text rest : Bytes} (h : skipColumns text = some rest) :
    Agrees (fun strict => cteColumns strict (lex true text)) (lex true rest) := by
  unfold skipColumns at h
  unfold cteColumns
  simp only [head_symbol]
  by_cases h40 : text.head? = some 40
  · simp only [if_pos h40] at h ⊢
    obtain ⟨mid, hmid, rfl⟩ := Option.map_eq_some_iff.mp h
    rw [lex_skipWsComments]
    exact (parens_agrees h40 hmid).imp (fun he => by simp [he, Except.map]) fun he strict => by
      simp [he strict, Except.map]
  · simp only [if_neg h40] at h ⊢
    cases h
    exact .inr fun _ => rfl

theorem cteComma_eq {text : Bytes} (hself : skipWsComments text = text) :
    cteComma (lex true text) = (lex true (skipComma text).1, (skipComma text).2) ∧
      skipWsComments (skipComma text).1 = (skipComma text).1 := by
  cases text with
  | nil => exact ⟨by simp [lex, next, cteComma, skipComma], hself⟩
  | cons b text =>
    by_cases h44 : b = 44
    · subst h44
      rw [lex_cons (next_punct (.inr rfl) text), cteComma, if_pos rfl, skipComma, if_pos rfl, lex_skipWsComments]
      exact ⟨rfl, skipWsComments_idem text⟩
    · obtain ⟨⟨t, mid⟩, hn⟩ := Option.isSome_iff_exists.mp (next_isSome true b text)
      have ht : t ≠ .symbol 44 := by
        rintro rfl
        exact h44 (next_symbol hn).1
      rw [skipComma, if_neg h44, lex_cons hn, cteComma, if_neg ht]
      exact ⟨rfl, hself⟩

theorem cteKeyword_agrees {text mid rest : Bytes} (h : matchKw "AS" text = some mid)
    (hbody : skipBody (skipWsComments mid) = some rest) :
    Agrees (fun _ => cteKeyword "AS" (lex true text)) (lex true (skipWsComments mid)) := by
  rcases matchKw_token (List.all_eq_true.mp rfl) (by simp [ascii]) h with ⟨t, hn, ht⟩ | ⟨b, hb, hhigh⟩
  · rw [lex_cons hn, lex_skipWsComments]
    exact .inr fun _ => by simp [cteKeyword, ht]
  · obtain ⟨-, -, hword, h40, -⟩ := high_plain hhigh
    cases mid with
    | nil => cases hb
    | cons c mid =>
      obtain rfl : c = b := Option.some.inj hb
      simp [skipWsComments_ident hword, skipBody, h40] at hbody

/-- One common table expression. -/
theorem cte_agrees {text rest : Bytes} {more : Bool} (h : skipCte text = some (rest, more))
    (hself : skipWsComments text = text) :
    Agrees (fun strict => cte strict (lex true text)) (lex true rest, more) ∧ skipWsComments rest = rest := by
  have hname := cteName_agrees h hself
  obtain ⟨t₁, h₁, h⟩ := Option.bind_eq_some_iff.mp h
  obtain ⟨t₂, h₂, h⟩ := Option.bind_eq_some_iff.mp h
  obtain ⟨t₃, h₃, h⟩ := Option.bind_eq_some_iff.mp h
  have hout : skipComma (skipWsComments t₃) = (rest, more) := Option.some.inj h
  obtain ⟨hcomma, hrest⟩ := cteComma_eq (skipWsComments_idem t₃)
  rw [hout] at hcomma hrest
  have hbody : Agrees (fun strict => parens strict (lex true (skipWsComments t₂))) (lex true t₃) := by
    unfold skipBody at h₃
    split at h₃
    · rename_i h40
      exact parens_agrees h40 h₃
    · cases h₃
  refine ⟨hname.bind ?_, hrest⟩
  rw [← lex_skipWsComments]
  refine (cteColumns_agrees h₁).bind ((cteKeyword_agrees h₂ h₃).bind (hbody.bind (.inr fun _ => ?_)))
  rw [← lex_skipWsComments, hcomma]
  rfl

theorem ctes_eq (strict : Bool) (ts : List Lexeme) :
    ctes strict ts = cte strict ts >>= fun p => if p.2 then ctes strict p.1 else .ok p.1 := by
  rw [ctes]
  split
  all_goals
    rename_i h
    simp only [h]
    rfl

theorem ctes_agrees {text rest : Bytes} (h : skipCtes text = some rest) (hself : skipWsComments text = text) :
    Agrees (fun strict => ctes strict (lex true text)) (lex true rest) := by
  induction hn : text.length using Nat.strong_induction_on generalizing text with
  | _ n ih =>
  have heq : (fun strict => ctes strict (lex true text)) = fun strict => cte strict (lex true text) >>= fun p =>
      if p.2 then ctes strict p.1 else .ok p.1 := funext fun strict => ctes_eq strict _
  rw [heq]
  rw [skipCtes] at h
  split at h
  · cases h
  · rename_i mid hcte
    cases h
    obtain ⟨hagree, -⟩ := cte_agrees hcte hself
    exact hagree.bind (.inr fun _ => by simp)
  · rename_i mid hcte
    have hlt := skipCte_length hcte
    obtain ⟨hagree, hmid⟩ := cte_agrees hcte hself
    refine hagree.bind ?_
    simpa using ih mid.length (by omega) h hmid rfl

theorem skipCtes_high {text : Bytes} (h : ∃ b ∈ text.head?, 128 ≤ b) : skipCtes (skipWsComments text) = none := by
  have hcte := skipCte_high h
  obtain ⟨b, hb, hhigh⟩ := h
  obtain ⟨-, -, hword, -⟩ := high_plain hhigh
  cases text with
  | nil => cases hb
  | cons c text =>
    obtain rfl : c = b := Option.some.inj hb
    rw [skipWsComments_ident hword, skipCtes]
    split
    · rfl
    all_goals simp_all

theorem dropRecursive_agrees {text rest : Bytes}
    (h : skipCtes (skipWsComments ((matchKw "RECURSIVE" text).getD text)) = some rest)
    (hself : skipWsComments text = text) :
    dropRecursive (lex true text) = lex true (skipWsComments ((matchKw "RECURSIVE" text).getD text)) := by
  cases hm : matchKw "RECURSIVE" text with
  | none =>
    rw [Option.getD_none, hself]
    cases hl : lex true text with
    | nil => rfl
    | cons t ts =>
      obtain ⟨mid, hlex, -⟩ := lexes_of_lex (show lex true text = [t] ++ ts from hl)
      obtain ⟨mid, hn, -⟩ := hlex.head
      have ht : isKeyword "RECURSIVE" t = false := by
        by_contra hc
        rw [matchKw_next hn (by simpa using hc)] at hm
        cases hm
      simp [dropRecursive, ht]
  | some mid =>
    rw [hm] at h
    rcases matchKw_token (List.all_eq_true.mp rfl) (by simp [ascii]) hm with ⟨t, hn, ht⟩ | hhigh
    · rw [lex_cons hn, Option.getD_some, lex_skipWsComments]
      simp [dropRecursive, ht]
    · rw [Option.getD_some, skipCtes_high hhigh] at h
      cases h

/-- The scanner gets behind the same WITH clause. -/
theorem withClause_agrees {text rest : Bytes} (h : skipWith text = some rest) :
    Agrees (fun strict => withClause strict (lex true text)) (lex true rest) := by
  unfold skipWith at h
  split at h
  · rename_i hm
    cases h
    cases hl : lex true text with
    | nil => exact .inr fun _ => rfl
    | cons t ts =>
      obtain ⟨mid, hlex, -⟩ := lexes_of_lex (show lex true text = [t] ++ ts from hl)
      obtain ⟨mid, hn, -⟩ := hlex.head
      have ht : isKeyword "WITH" t = false := by
        by_contra hc
        rw [matchKw_next hn (by simpa using hc)] at hm
        cases hm
      exact .inr fun _ => by simp [withClause, ht]
  · rename_i mid hm
    rcases matchKw_token (List.all_eq_true.mp rfl) (by simp [ascii]) hm with ⟨t, hn, ht⟩ | hhigh
    · have hrec := dropRecursive_agrees h (skipWsComments_idem mid)
      rw [lex_skipWsComments mid] at hrec
      simp only [lex_cons hn, withClause, if_pos ht, hrec]
      exact ctes_agrees h (skipWsComments_idem _)
    · have hrec : matchKw "RECURSIVE" (skipWsComments mid) = none := by
        obtain ⟨b, hb, hge⟩ := hhigh
        obtain ⟨-, -, hword, -, hletter, -⟩ := high_plain hge
        cases mid with
        | nil => cases hb
        | cons c mid =>
          obtain rfl : c = b := Option.some.inj hb
          rw [skipWsComments_ident hword]
          refine matchKw_ne (c := 114) rfl ?_
          intro heq
          rw [heq] at hletter
          exact absurd hletter (by decide)
      simp [hrec, skipWsComments_idem, skipCtes_high hhigh] at h

/-! ### The leading token -/

/-- The tokens that may lead an accepted statement. -/
def mayLead (selectOnly : Bool) (t : Lexeme) : Bool :=
  t = .symbol 40 ∨ isKeyword "SELECT" t ∨ ¬ selectOnly ∧ (isKeyword "INSERT" t ∨ isKeyword "UPDATE" t)

/-- A keyword that the scanner matches is the first token, or is cut out of it. -/
theorem matchKw_leads {kw : String} {text rest : Bytes} (hkw : kw ∈ ["SELECT", "INSERT", "UPDATE"])
    (h : matchKw kw text = some rest) :
    ∃ t ts, lex true text = t :: ts ∧ (isKeyword kw t = true ∨ cutKeyword t = true) := by
  have hletters : (∀ c ∈ (ascii kw).map toLower, isLetter c = true) ∧ ascii kw ≠ [] := by
    simp only [List.mem_cons, List.not_mem_nil, or_false] at hkw
    rcases hkw with rfl | rfl | rfl <;> exact ⟨List.all_eq_true.mp rfl, by simp [ascii]⟩
  rcases matchKw_token hletters.1 hletters.2 h with ⟨t, hn, ht⟩ | ⟨b, hb, hhigh⟩
  · exact ⟨t, lex true rest, lex_cons hn, .inl ht⟩
  · obtain ⟨raw, rfl, heq, -⟩ := matchKw_some h
    have hident := identByte_of_keyword hletters.1 heq
    cases rest with
    | nil => cases hb
    | cons c rest =>
      obtain rfl : c = b := Option.some.inj hb
      have htake : (raw ++ c :: rest).takeWhile identByte = raw ++ c :: rest.takeWhile identByte := by
        rw [List.takeWhile_append_of_pos hident, List.takeWhile_cons_of_pos (high_plain hhigh).2.2.1]
      have hword : next true (raw ++ c :: rest) =
          some (.word (raw ++ c :: rest.takeWhile identByte), rest.dropWhile identByte) := by
        have happ : raw ++ c :: rest = (raw ++ c :: rest.takeWhile identByte) ++ rest.dropWhile identByte := by
          simp [List.takeWhile_append_dropWhile]
        rw [happ]
        refine next_word true (by simp) (fun d hd => ?_) fun d hd => ?_
        · rw [← htake] at hd
          exact List.mem_takeWhile_imp hd
        · have hnot := List.head?_dropWhile_not identByte rest
          rw [Option.mem_def.mp hd] at hnot
          simpa using hnot
      have hlen : raw.length = kw.length := by
        have := congrArg List.length heq
        simpa only [List.length_map, ascii, String.length_toList] using this
      refine ⟨_, _, lex_cons hword, .inr ?_⟩
      rw [cutKeyword, List.any_eq_true]
      refine ⟨kw, hkw, ?_⟩
      simp [← hlen, heq, hhigh]

/-- What the scanner takes for a permitted keyword. -/
theorem leadingKeyword_leads {selectOnly : Bool} {text : Bytes} (h : (leadingKeyword text).permitted selectOnly = true) :
    ∃ t ts, lex true text = t :: ts ∧ (mayLead selectOnly t = true ∨ cutKeyword t = true) := by
  unfold leadingKeyword at h
  split at h
  · rename_i h40
    cases hl : lex true text with
    | nil => simp [hl, ← head_symbol] at h40
    | cons t ts =>
      rw [← head_symbol, hl] at h40
      obtain rfl := Option.some.inj h40
      exact ⟨_, ts, rfl, .inl (by simp [mayLead])⟩
  · cases hf : ([.select, .insert, .update, .delete, .replace] : List Keyword).find? fun kw =>
        (matchKw kw.text text).isSome with
    | none => simp [hf, Keyword.permitted] at h
    | some kw =>
      rw [hf, Option.getD_some] at h
      have hsome : (matchKw kw.text text).isSome = true := by simpa using List.find?_some hf
      obtain ⟨rest, hm⟩ := Option.isSome_iff_exists.mp hsome
      have hleads (hkw : kw.text ∈ ["SELECT", "INSERT", "UPDATE"])
          (hmay : ∀ t, isKeyword kw.text t = true → mayLead selectOnly t = true) :
          ∃ t ts, lex true text = t :: ts ∧ (mayLead selectOnly t = true ∨ cutKeyword t = true) := by
        obtain ⟨t, ts, hl, ht⟩ := matchKw_leads hkw hm
        exact ⟨t, ts, hl, ht.imp_left (hmay t)⟩
      cases kw with
      | select => exact hleads (by decide) fun t ht => by simpa [mayLead] using .inr (.inl ht)
      | insert =>
        refine hleads (by decide) fun t ht => ?_
        simpa [mayLead] using .inr (.inr ⟨by simpa [Keyword.permitted] using h, .inl ht⟩)
      | update =>
        refine hleads (by decide) fun t ht => ?_
        simpa [mayLead] using .inr (.inr ⟨by simpa [Keyword.permitted] using h, .inr ht⟩)
      | delete | replace | other => cases h

/-- An accepted statement is led by the token that the scanner read. -/
theorem leadingToken_agrees {selectOnly : Bool} {text : Bytes} {kw : Keyword} (h : classifyLeadingStmt text = some kw)
    (hkw : kw.permitted selectOnly = true) :
    leadingToken true (lex true text) = .error .misread ∨
      ∃ t, leadingToken false (lex true text) = .ok t ∧ mayLead selectOnly t = true := by
  simp only [classifyLeadingStmt] at h
  split at h
  · cases h
    cases hkw
  · obtain ⟨rest, hrest, rfl⟩ := Option.map_eq_some_iff.mp h
    have hagree := withClause_agrees hrest
    rw [lex_skipWsComments] at hagree
    obtain ⟨t, ts, hl, ht⟩ := leadingKeyword_leads hkw
    rcases hagree with hagree | hagree
    · left
      simp only [leadingToken, hagree]
      rfl
    · simp only [leadingToken, hagree, hl]
      cases hcut : cutKeyword t with
      | true => exact .inl (if_pos ⟨trivial, hcut⟩)
      | false => exact .inr ⟨t, rfl, ht.resolve_right (by simp [hcut])⟩

end FractalSQL.TextSql
