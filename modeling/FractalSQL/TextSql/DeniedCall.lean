import FractalSQL.TextSql.NoBackslash

/-!
# Denied calls

`t2s_has_denied_call` looks for the name of a denied function in front of a
parenthesis. It sees a call whose name stands bare, in ASCII, with only blanks and
line ends up to the parenthesis, unless two dashes that are no comment stand before
it: the scan takes them for one.
-/
namespace FractalSQL.TextSql
open Lib Lib.Sql

/-! ### What the lexer says -/

/-- The name between backticks, whose doubled backticks stand for one. -/
def unquote : Bytes → Bytes
  | [] => []
  | [_] => []
  | c :: d :: text => if c = 96 ∧ d = 96 then 96 :: unquote text else c :: unquote (d :: text)

/-- The text of an identifier, bare or in backticks. -/
def identText : Lexeme → Option Bytes
  | .word raw => some raw
  | .quoted q body => if q = 96 then some (unquote body) else none
  | _ => none

def isDenied (name : Bytes) : Bool := deniedCallPrefixes.any fun p => (ascii p).isPrefixOf (name.map toLower)

/-- An identifier with a denied name in front of a parenthesis. -/
def HasDenied (ts : List Lexeme) : Prop :=
  ∃ us t vs ws name, ts = us ++ t :: (vs ++ .symbol 40 :: ws) ∧ (∀ v ∈ vs, v.isTrivia = true) ∧
    identText t = some name ∧ isDenied name = true

/-- A call that the scan sees. -/
def PlainCall (ts : List Lexeme) : Prop :=
  ∃ us raw vs ws, ts = us ++ Lexeme.word raw :: (vs ++ Lexeme.symbol 40 :: ws) ∧ isDenied raw = true ∧
    (∀ b ∈ raw, asciiIdent b = true) ∧ (∀ v ∈ vs, ∃ b, v = .space b ∧ isCallBlank b = true) ∧
    ¬ [.symbol 45, .symbol 45] <:+: us

/-! ### One token -/

theorem hasDeniedCall_quoted {q : UInt8} (hq : isQuote q = true) (text : Bytes) :
    hasDeniedCall (q :: text) = hasDeniedCall (skipQuoted q text) := by
  rw [hasDeniedCall, if_pos hq]

theorem hasDeniedCall_line {b : UInt8} {text : Bytes} (h : b = 35 ∨ b = 45 ∧ text.head? = some 45) :
    hasDeniedCall (b :: text) = hasDeniedCall (text.dropWhile notNewline) := by
  have hq : isQuote b = false := by rcases h with rfl | ⟨rfl, -⟩ <;> decide
  rw [hasDeniedCall, if_neg (by simp [hq]), if_pos h]

theorem hasDeniedCall_plain {b : UInt8} {text : Bytes} (hq : isQuote b = false)
    (hline : ¬ (b = 35 ∨ b = 45 ∧ text.head? = some 45)) (hblock : opensBlock (b :: text) = false)
    (hletter : ¬ (isLetter b = true ∨ b = 95)) : hasDeniedCall (b :: text) = hasDeniedCall text := by
  rw [hasDeniedCall, if_neg (by simp [hq]), if_neg hline, if_neg (by simp [atBlockComment_eq, hblock]),
    if_neg hletter]

theorem hasDeniedCall_name {b : UInt8} {text : Bytes} (hletter : isLetter b = true ∨ b = 95) :
    hasDeniedCall (b :: text) =
      ((if ((text.dropWhile asciiIdent).dropWhile isCallBlank).head? = some 40 then
        deniedPrefix ((b :: text).takeWhile asciiIdent) else none).or (hasDeniedCall (text.dropWhile asciiIdent))) := by
  have hident : identByte b = true := by
    rcases hletter with h | rfl
    · simp [identByte, asciiIdent, h]
    · decide
  obtain ⟨hq, -, hne⟩ := identByte_plain hident
  have hline : ¬ (b = 35 ∨ b = 45 ∧ text.head? = some 45) := by
    rintro (rfl | ⟨rfl, -⟩) <;> simp at hne
  have hblock : opensBlock (b :: text) = false := opensBlock_of_ne (fun h => hne (by simp [h])) text
  rw [hasDeniedCall, if_neg (by simp [hq]), if_neg hline, if_neg (by simp [atBlockComment_eq, hblock]),
    if_pos hletter]
  dsimp only
  split
  · cases deniedPrefix ((b :: text).takeWhile asciiIdent) <;> rfl
  · rfl

theorem not_letter {b : UInt8} (h : identByte b = false) : ¬ (isLetter b = true ∨ b = 95) := by
  rintro (hl | rfl)
  · simp [identByte, asciiIdent, hl] at h
  · cases h

/-- A word in front hides nothing. -/
theorem hasDeniedCall_word {raw rest : Bytes} (h : ∀ b ∈ raw, identByte b = true)
    (hend : ∀ b ∈ rest.head?, identByte b = false) (hrest : hasDeniedCall rest ≠ none) :
    hasDeniedCall (raw ++ rest) ≠ none := by
  induction hn : raw.length using Nat.strong_induction_on generalizing raw with
  | _ n ih =>
  cases raw with
  | nil => exact hrest
  | cons b raw =>
    have hlen : raw.length + 1 = n := hn
    have hraw : ∀ c ∈ raw, identByte c = true := fun c hc => h c (by simp [hc])
    rw [List.cons_append]
    by_cases hletter : isLetter b = true ∨ b = 95
    · have hdrop : (raw ++ rest).dropWhile asciiIdent = raw.dropWhile asciiIdent ++ rest := by
        rw [List.dropWhile_append]
        split
        · rename_i hnil
          rw [List.isEmpty_iff.mp hnil, List.nil_append]
          cases rest with
          | nil => rfl
          | cons c rest => simp [asciiIdent_of_identByte (hend c rfl)]
        · rfl
      have hle := List.length_dropWhile_le asciiIdent raw
      have htail := ih (raw.dropWhile asciiIdent).length (by omega)
        (fun c hc => hraw c (List.dropWhile_subset _ hc)) rfl
      rw [hasDeniedCall_name hletter, hdrop]
      intro hnone
      exact htail (Option.or_eq_none_iff.mp hnone).2
    · obtain ⟨hq, -, hne⟩ := identByte_plain (h b (by simp))
      have hline : ¬ (b = 35 ∨ b = 45 ∧ (raw ++ rest).head? = some 45) := by
        rintro (rfl | ⟨rfl, -⟩) <;> simp at hne
      have hblock : opensBlock (b :: (raw ++ rest)) = false := opensBlock_of_ne (fun h47 => hne (by simp [h47])) _
      rw [hasDeniedCall_plain hq hline hblock hletter]
      exact ih raw.length (by omega) hraw rfl

/-- A line comment is one for the scan too. -/
theorem hasDeniedCall_lineComment {bs : Bool} {text rest raw : Bytes}
    (h : next bs text = some (.lineComment raw, rest)) : hasDeniedCall text = hasDeniedCall rest := by
  cases next_cases h with
  | line hopen hraw hend hne =>
    cases raw with
    | nil => exact absurd rfl hne
    | cons b raw =>
      have hdashes : b = 35 ∨ b = 45 ∧ (raw ++ rest).head? = some 45 := opensLine_dashes hopen
      rw [List.cons_append, hasDeniedCall_line hdashes, dropWhile_notNewline (fun c hc => hraw c (by simp [hc])) hend]

/-- What is found behind a token is found, unless the token is a dash and two dashes
that are no comment begin there. -/
theorem hasDeniedCall_step {text rest : Bytes} {t : Lexeme} (hn : next true text = some (t, rest))
    (hdash : t = .symbol 45 → rest.head? = some 45 → opensLine rest = true) (hrest : hasDeniedCall rest ≠ none) :
    hasDeniedCall text ≠ none := by
  cases t with
  | lineComment raw => rwa [hasDeniedCall_lineComment hn]
  | quoted q body =>
    cases next_cases hn with
    | quoted hq hsplit => rwa [hasDeniedCall_quoted hq, skipQuoted_eq, hsplit]
  | blockComment raw =>
    cases next_cases hn with
    | @block body _ hsplit =>
      have hblock : atBlockComment (47 :: 42 :: (body ++ rest)) = true := rfl
      rw [hasDeniedCall, if_neg (by decide), if_neg (by simp), if_pos hblock]
      simpa [skipBlock_eq, hsplit] using hrest
  | space b =>
    cases next_cases hn with
    | space hs =>
      obtain ⟨hq, hi, hne⟩ := isSpace_plain hs
      have hline : ¬ (b = 35 ∨ b = 45 ∧ rest.head? = some 45) := by
        rintro (rfl | ⟨rfl, -⟩) <;> simp at hne
      rwa [hasDeniedCall_plain hq hline (opensBlock_of_ne (fun h => hne (by simp [h])) _) (not_letter hi)]
  | word raw =>
    cases next_cases hn with
    | word hne hraw hend => exact hasDeniedCall_word hraw hend hrest
  | symbol b =>
    cases next_cases hn with
    | symbol hq hline hblock hs hi =>
      by_cases hdashes : b = 45 ∧ rest.head? = some 45
      · -- The next token is a comment that the scan enters one dash early.
        obtain ⟨rfl, hhead⟩ := hdashes
        have hopen := hdash rfl hhead
        cases rest with
        | nil => cases hhead
        | cons c rest =>
          obtain rfl : c = 45 := Option.some.inj hhead
          rw [hasDeniedCall_line (.inr ⟨rfl, rfl⟩)]
          rw [hasDeniedCall_line (opensLine_dashes hopen)] at hrest
          simpa [notNewline] using hrest
      · have h35 : b ≠ 35 := by
          rintro rfl
          cases rest with
          | nil => simp [opensLine] at hline
          | cons c rest => cases rest <;> simp [opensLine] at hline
        rwa [hasDeniedCall_plain hq (not_or.mpr ⟨h35, hdashes⟩) hblock (not_letter hi)]

/-- A dash that begins no comment is a token. -/
theorem dash_of_head {bs : Bool} {text rest : Bytes} {t : Lexeme} (hn : next bs text = some (t, rest))
    (hhead : text.head? = some 45) (hopen : opensLine text = false) : t = .symbol 45 := by
  cases next_cases hn with
  | quoted hq | space hs =>
    obtain rfl := Option.some.inj hhead
    first | cases hq | cases hs
  | line hline =>
    rw [hline] at hopen
    cases hopen
  | block => cases hhead
  | @word raw rest hne hraw hend =>
    cases raw with
    | nil => exact absurd rfl hne
    | cons b raw =>
      obtain rfl : b = 45 := Option.some.inj hhead
      cases hraw 45 (by simp)
  | symbol => rw [Option.some.inj hhead]

/-- The same over tokens in which no two dashes stand together. -/
theorem hasDeniedCall_lexes {text rest : Bytes} {ts : List Lexeme} (h : Lexes true text ts rest)
    (hdash : ¬ [.symbol 45, .symbol 45] <:+: ts) (hhead : rest.head? ≠ some 45) (hrest : hasDeniedCall rest ≠ none) :
    hasDeniedCall text ≠ none := by
  induction h with
  | nil text => exact hrest
  | @cons text rest rest' t ts hn hts ih =>
    have htail : ¬ [.symbol 45, .symbol 45] <:+: ts := fun hi => hdash (hi.trans (List.suffix_cons t ts).isInfix)
    refine hasDeniedCall_step hn (fun ht hr => ?_) (ih htail hhead hrest)
    cases hts with
    | nil => exact absurd hr hhead
    | @cons _ mid _ u us hu hus =>
      by_contra hopen
      have hu45 : u = .symbol 45 := dash_of_head hu hr (by simpa using hopen)
      exact hdash ⟨[], us, by simp [ht, hu45]⟩

/-! ### The call itself -/

theorem deniedPrefix_of_isDenied {name : Bytes} (h : isDenied name = true) : deniedPrefix name ≠ none := by
  obtain ⟨p, hp, hprefix⟩ := List.any_eq_true.mp h
  have hlen : ∀ p ∈ deniedCallPrefixes, (ascii p).length ≤ 63 := by
    simp only [deniedCallPrefixes, List.forall_mem_cons]
    repeat rw [ascii_ofList]
    decide
  have htake : (ascii p).isPrefixOf ((name.map toLower).take 63) = true := by
    rw [List.isPrefixOf_iff_prefix, List.prefix_take_iff]
    exact ⟨List.isPrefixOf_iff_prefix.mp hprefix, hlen p hp⟩
  intro hnone
  exact absurd htake (List.find?_eq_none.mp hnone p hp)

theorem dropWhile_blanks {text rest : Bytes} {vs : List Lexeme} (h : Lexes true text vs rest)
    (hvs : ∀ v ∈ vs, ∃ b, v = .space b ∧ isCallBlank b = true) (hrest : rest.head? = some 40) :
    (text.dropWhile isCallBlank).head? = some 40 := by
  induction h with
  | nil text =>
    cases text with
    | nil => cases hrest
    | cons b text =>
      obtain rfl : b = 40 := Option.some.inj hrest
      rfl
  | @cons text mid rest v vs hn _ ih =>
    obtain ⟨b, rfl, hb⟩ := hvs v (by simp)
    cases next_cases hn with
    | space hs =>
      rw [List.dropWhile_cons_of_pos hb]
      exact ih (fun v hv => hvs v (by simp [hv])) hrest

/-- A denied name begins with a letter. -/
theorem isLetter_of_isDenied {b : UInt8} {raw : Bytes} (h : isDenied (b :: raw) = true) : isLetter b = true := by
  obtain ⟨p, hp, hprefix⟩ := List.any_eq_true.mp h
  have hfirst : ∀ p ∈ deniedCallPrefixes, ∃ c ∈ (ascii p).head?, isLetter c = true := by
    simp only [deniedCallPrefixes, List.forall_mem_cons]
    repeat rw [ascii_ofList]
    decide +kernel
  obtain ⟨c, hc, hletter⟩ := hfirst p hp
  obtain ⟨tail, htail⟩ := List.isPrefixOf_iff_prefix.mp hprefix
  have hlower : toLower b = c := by
    cases hs : ascii p with
    | nil => simp [hs] at hc
    | cons d s =>
      rw [hs] at hc htail
      obtain rfl := Option.some.inj hc
      exact (List.cons.inj htail).1.symm
  rw [← hlower] at hletter
  exact forall_byte (p := fun b => isLetter (toLower b) = true → isLetter b = true) (by decide +kernel) b hletter

/-- A plain call is found. -/
theorem hasDeniedCall_of_plain {text : Bytes} (h : PlainCall (lex true text)) : hasDeniedCall text ≠ none := by
  obtain ⟨us, raw, vs, ws, hlex, hden, hascii, hvs, hdash⟩ := h
  obtain ⟨mid, hus, hmid⟩ := lexes_of_lex hlex
  obtain ⟨rest, hword, hrest⟩ := lexes_of_lex (show lex true mid = [.word raw] ++ (vs ++ .symbol 40 :: ws) from hmid)
  obtain ⟨rest', hblank, hparen⟩ := lexes_of_lex hrest
  obtain ⟨_, hsym, -⟩ := lexes_of_lex (show lex true rest' = [.symbol 40] ++ ws from hparen)
  have hhead : rest'.head? = some 40 := by
    rw [head_of_lexes hsym]
    rfl
  have hcall := dropWhile_blanks hblank hvs hhead
  obtain ⟨_, hn, hnil⟩ := hword.head
  cases hnil
  cases next_cases hn with
  | word hne hraw hend =>
    cases raw with
    | nil => exact absurd rfl hne
    | cons b raw =>
      have hident := hraw b (by simp)
      obtain ⟨-, -, hb⟩ := identByte_plain hident
      have hdrop : (raw ++ rest).dropWhile asciiIdent = rest := by
        rw [List.dropWhile_append_of_pos fun c hc => hascii c (by simp [hc])]
        cases rest with
        | nil => rfl
        | cons c rest => simp [asciiIdent_of_identByte (hend c rfl)]
      have htake : (b :: (raw ++ rest)).takeWhile asciiIdent = b :: raw := by
        rw [← List.cons_append, List.takeWhile_append_of_pos hascii]
        cases rest with
        | nil => simp
        | cons c rest => simp [asciiIdent_of_identByte (hend c rfl)]
      refine hasDeniedCall_lexes hus hdash (fun h45 => hb ?_) ?_
      · simp [Option.some.inj h45]
      · rw [List.cons_append, hasDeniedCall_name (.inl (isLetter_of_isDenied hden)), hdrop, htake, if_pos hcall]
        intro hnone
        exact deniedPrefix_of_isDenied hden (Option.or_eq_none_iff.mp hnone).1

/-- A call of a name in backticks. -/
def backtickCall (name : Bytes) : Bytes := ascii "SELECT " ++ 96 :: (name ++ 96 :: ascii "(1)")

theorem splitQuoted_backtick {name : Bytes} (h : (96 : UInt8) ∉ name) {c : UInt8} (hc : c ≠ 96) (rest : Bytes) :
    splitQuoted true 96 (name ++ 96 :: c :: rest) = (name ++ [96], c :: rest) := by
  induction name with
  | nil => simp [splitQuoted, hc]
  | cons b name ih =>
    have hb : b ≠ 96 := fun hb => h (by simp [hb])
    have ih := ih fun hm => h (by simp [hm])
    cases name with
    | nil => simp_all [splitQuoted]
    | cons d name => simp_all [splitQuoted]

theorem unquote_backtick {name : Bytes} (h : (96 : UInt8) ∉ name) : unquote (name ++ [96]) = name := by
  induction name with
  | nil => rfl
  | cons b name ih =>
    have hb : b ≠ 96 := fun hb => h (by simp [hb])
    have ih := ih fun hm => h (by simp [hm])
    cases name with
    | nil => simp [unquote, hb]
    | cons d name => simpa [unquote, hb] using ih

theorem lex_backtickCall {name : Bytes} (h : (96 : UInt8) ∉ name) :
    lex true (backtickCall name) = [Lexeme.word (ascii "SELECT"), Lexeme.space 32, Lexeme.quoted 96 (name ++ [96])] ++
      lex true (ascii "(1)") := by
  have hsplit := splitQuoted_backtick h (show (40 : UInt8) ≠ 96 by decide) [49, 41]
  have hword : next true (backtickCall name) =
      some (.word (ascii "SELECT"), 32 :: 96 :: (name ++ 96 :: ascii "(1)")) := by
    simp [next, backtickCall, ascii, isQuote, opensLine, opensBlock, isSpace, identByte, asciiIdent, isLetter, isDigit]
  have hspace : next true (32 :: 96 :: (name ++ 96 :: ascii "(1)")) =
      some (.space 32, 96 :: (name ++ 96 :: ascii "(1)")) := by
    simp [next, isQuote, opensLine_of_ne, opensBlock, isSpace]
  have hname : next true (96 :: (name ++ 96 :: ascii "(1)")) = some (.quoted 96 (name ++ [96]), ascii "(1)") := by
    rw [next, if_pos (by decide), show (ascii "(1)" : Bytes) = 40 :: [49, 41] by decide, hsplit]
  exact lex_eq_append (.cons hword (.cons hspace (.cons hname (.nil _))))

theorem hasDeniedCall_backtickCall {name : Bytes} (h : (96 : UInt8) ∉ name) :
    hasDeniedCall (backtickCall name) = none := by
  have hskip : skipQuoted 96 (name ++ 96 :: [40, 49, 41]) = [40, 49, 41] := by
    rw [skipQuoted_eq, splitQuoted_backtick h (by decide)]
  have htext : backtickCall name = [83, 69, 76, 69, 67, 84, 32] ++ 96 :: (name ++ 96 :: [40, 49, 41]) := by
    simp [backtickCall, ascii]
  rw [htext]
  simp [hasDeniedCall, isQuote, atBlockComment, isLetter, asciiIdent, isCallBlank, isDigit, hskip]

def sleepCall : Bytes := ascii "SELECT SLEEP (1) -- ok"

theorem isDenied_of_sleep {name : Bytes} (h : name.map toLower = ascii "sleep") : isDenied name = true := by
  refine List.any_eq_true.mpr ⟨"sleep", List.mem_of_getElem? (i := 12) rfl, ?_⟩
  rw [h, List.isPrefixOf_iff_prefix]

end FractalSQL.TextSql
