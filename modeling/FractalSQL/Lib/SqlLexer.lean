import FractalSQL.Lib.Text
import Mathlib.Data.List.TakeWhile

/-!
# The tokens of SQL text

The server's lexer, as far as quoting and comments go: three kinds of quotes, where
a doubled quote stands for itself and a backslash escapes the next byte (not between
backticks, and not at all when the session turns it off), comments to the end of the
line and between `/*` and `*/`, words, and single bytes. Every text has tokens; a
quote or a comment that is left open runs to the end.
-/
namespace FractalSQL.Lib.Sql

inductive Lexeme where
  | space (b : UInt8)
  | lineComment (raw : Bytes)
  | blockComment (raw : Bytes)
  | quoted (q : UInt8) (body : Bytes)
  | word (raw : Bytes)
  | symbol (b : UInt8)
deriving DecidableEq

/-- The bytes of a token. The body of a quoted token holds the closing quote. -/
def Lexeme.raw : Lexeme → Bytes
  | .space b => [b]
  | .lineComment raw => raw
  | .blockComment raw => raw
  | .quoted q body => q :: body
  | .word raw => raw
  | .symbol b => [b]

/-- White space and comments. -/
def Lexeme.isTrivia : Lexeme → Bool
  | .space _ | .lineComment _ | .blockComment _ => true
  | _ => false

def isQuote (b : UInt8) : Bool := b = 39 ∨ b = 34 ∨ b = 96

def isLetter (b : UInt8) : Bool := (97 ≤ b ∧ b ≤ 122) ∨ (65 ≤ b ∧ b ≤ 90)

/-- The ASCII bytes of words. -/
def asciiIdent (b : UInt8) : Bool := isLetter b ∨ isDigit b ∨ b = 95 ∨ b = 36

/-- The bytes of words: those of ASCII and all bytes beyond it. -/
def identByte (b : UInt8) : Bool := asciiIdent b ∨ 128 ≤ b

theorem mem_of_isQuote {b : UInt8} (h : isQuote b = true) : b ∈ ([39, 34, 96] : Bytes) := by
  simpa [isQuote] using h

/-- No byte of a word is a quote, white space or one of the symbols that the scanners look for. -/
theorem notMem_of_identByte {b : UInt8} (h : identByte b = true) :
    b ∉ ([39, 34, 96, 32, 9, 10, 11, 12, 13, 35, 45, 47, 40, 41, 59, 44] : Bytes) :=
  notMem_of_class (by decide) h

theorem isQuote_of_identByte {b : UInt8} (h : identByte b = true) : isQuote b = false := by
  rw [← Bool.not_eq_true]
  exact fun hq => notMem_of_identByte h (List.mem_append_left _ (mem_of_isQuote hq))

theorem isSpace_of_identByte {b : UInt8} (h : identByte b = true) : isSpace b = false := by
  rw [← Bool.not_eq_true]
  intro hs
  exact notMem_of_identByte h (List.mem_append_right [39, 34, 96] (List.mem_append_left _ (mem_of_isSpace hs)))

/-- The body of a quoted token with its closing quote, and what follows it. -/
def splitQuoted (bs : Bool) (q : UInt8) : Bytes → Bytes × Bytes
  | [] => ([], [])
  | [c] => ([c], [])
  | c :: d :: text =>
    if bs ∧ c = 92 ∧ q ≠ 96 then
      (c :: d :: (splitQuoted bs q text).1, (splitQuoted bs q text).2)
    else if c = q then
      if d = q then (c :: d :: (splitQuoted bs q text).1, (splitQuoted bs q text).2)
      else ([c], d :: text)
    else (c :: (splitQuoted bs q (d :: text)).1, (splitQuoted bs q (d :: text)).2)

/-- The body of a block comment with its end, and what follows it. -/
def splitBlock : Bytes → Bytes × Bytes
  | [] => ([], [])
  | [c] => ([c], [])
  | c :: d :: text =>
    if c = 42 ∧ d = 47 then ([c, d], text)
    else (c :: (splitBlock (d :: text)).1, (splitBlock (d :: text)).2)

/-- `#`, or two dashes in front of white space or of the end. -/
def opensLine : Bytes → Bool
  | [] => false
  | [b] => b = 35
  | [b, c] => b = 35 ∨ b = 45 ∧ c = 45
  | b :: c :: d :: _ => b = 35 ∨ b = 45 ∧ c = 45 ∧ isSpace d

def opensBlock : Bytes → Bool
  | b :: c :: _ => b = 47 ∧ c = 42
  | _ => false

def notNewline (b : UInt8) : Bool := b ≠ 10

/-- The first token and the text after it. -/
def next (bs : Bool) : Bytes → Option (Lexeme × Bytes)
  | [] => none
  | b :: text =>
    if isQuote b then
      some (.quoted b (splitQuoted bs b text).1, (splitQuoted bs b text).2)
    else if opensLine (b :: text) then
      some (.lineComment ((b :: text).takeWhile notNewline), (b :: text).dropWhile notNewline)
    else if opensBlock (b :: text) then
      some (.blockComment (47 :: 42 :: (splitBlock (text.drop 1)).1), (splitBlock (text.drop 1)).2)
    else if isSpace b then some (.space b, text)
    else if identByte b then
      some (.word ((b :: text).takeWhile identByte), (b :: text).dropWhile identByte)
    else some (.symbol b, text)

theorem splitQuoted_append (bs : Bool) (q : UInt8) (text : Bytes) :
    (splitQuoted bs q text).1 ++ (splitQuoted bs q text).2 = text := by
  fun_induction splitQuoted bs q text with
  | case1 | case2 | case5 => rfl
  | case3 c d text _ ih => rw [List.cons_append, List.cons_append, ih]
  | case4 text _ ih => rw [List.cons_append, List.cons_append, ih]
  | case6 c d text _ _ ih => rw [List.cons_append, ih]

theorem splitBlock_append (text : Bytes) : (splitBlock text).1 ++ (splitBlock text).2 = text := by
  fun_induction splitBlock text with
  | case1 | case2 => rfl
  | case3 c d text h => rfl
  | case4 c d text h ih => rw [List.cons_append, ih]

theorem splitBlock_ne_nil (c : UInt8) (text : Bytes) : (splitBlock (c :: text)).1 ≠ [] := by
  cases text with
  | nil => simp [splitBlock]
  | cons d text =>
    rw [splitBlock]
    split <;> simp

/-- What the first token can be. -/
inductive Next (bs : Bool) : Bytes → Lexeme → Bytes → Prop where
  | quoted {q body rest} (hq : isQuote q = true) (hsplit : splitQuoted bs q (body ++ rest) = (body, rest)) :
      Next bs (q :: (body ++ rest)) (.quoted q body) rest
  | line {raw rest} (hopen : opensLine (raw ++ rest) = true) (hraw : ∀ b ∈ raw, b ≠ 10)
      (hend : ∀ b ∈ rest.head?, b = 10) (hne : raw ≠ []) : Next bs (raw ++ rest) (.lineComment raw) rest
  | block {body rest} (hsplit : splitBlock (body ++ rest) = (body, rest)) :
      Next bs (47 :: 42 :: (body ++ rest)) (.blockComment (47 :: 42 :: body)) rest
  | space {b rest} (hs : isSpace b = true) : Next bs (b :: rest) (.space b) rest
  | word {raw rest} (hne : raw ≠ []) (hraw : ∀ b ∈ raw, identByte b = true)
      (hend : ∀ b ∈ rest.head?, identByte b = false) : Next bs (raw ++ rest) (.word raw) rest
  | symbol {b rest} (hq : isQuote b = false) (hline : opensLine (b :: rest) = false)
      (hblock : opensBlock (b :: rest) = false) (hs : isSpace b = false) (hi : identByte b = false) :
      Next bs (b :: rest) (.symbol b) rest

theorem next_cases {bs : Bool} {text rest : Bytes} {t : Lexeme} (h : next bs text = some (t, rest)) :
    Next bs text t rest := by
  cases text with
  | nil => cases h
  | cons b text =>
    rw [next] at h
    split_ifs at h with hq hline hblock hs hi
    · cases h
      have happ := splitQuoted_append bs b text
      have hn : Next bs (b :: ((splitQuoted bs b text).1 ++ (splitQuoted bs b text).2))
          (.quoted b (splitQuoted bs b text).1) (splitQuoted bs b text).2 := .quoted hq (by rw [happ])
      rwa [happ] at hn
    · cases h
      have happ := List.takeWhile_append_dropWhile (p := notNewline) (l := b :: text)
      have hn : Next bs ((b :: text).takeWhile notNewline ++ (b :: text).dropWhile notNewline)
          (.lineComment ((b :: text).takeWhile notNewline)) ((b :: text).dropWhile notNewline) := by
        refine .line (by rwa [happ]) (fun c hc => by simpa [notNewline] using List.mem_takeWhile_imp hc) ?_ ?_
        · intro c hc
          have hnot := List.head?_dropWhile_not notNewline (b :: text)
          rw [Option.mem_def.mp hc] at hnot
          simpa [notNewline] using hnot
        · have hb : b ≠ 10 := by
            rintro rfl
            cases text with
            | nil => cases hline
            | cons c text => cases text <;> simp [opensLine] at hline
          simp [notNewline, hb]
      rwa [happ] at hn
    · cases h
      cases text with
      | nil => cases hblock
      | cons c text =>
        simp only [opensBlock, decide_eq_true_eq] at hblock
        obtain ⟨rfl, rfl⟩ := hblock
        have happ := splitBlock_append text
        have hn : Next bs (47 :: 42 :: ((splitBlock text).1 ++ (splitBlock text).2))
            (.blockComment (47 :: 42 :: (splitBlock text).1)) (splitBlock text).2 := .block (by rw [happ])
        rwa [happ] at hn
    · cases h
      exact .space hs
    · cases h
      have happ := List.takeWhile_append_dropWhile (p := identByte) (l := b :: text)
      have hn : Next bs ((b :: text).takeWhile identByte ++ (b :: text).dropWhile identByte)
          (.word ((b :: text).takeWhile identByte)) ((b :: text).dropWhile identByte) := by
        refine .word (by simp [hi]) (fun c hc => List.mem_takeWhile_imp hc) fun c hc => ?_
        have hnot := List.head?_dropWhile_not identByte (b :: text)
        rw [Option.mem_def.mp hc] at hnot
        simpa using hnot
      rwa [happ] at hn
    · cases h
      exact .symbol (by simpa using hq) (by simpa using hline) (by simpa using hblock) (by simpa using hs)
        (by simpa using hi)

theorem Next.append {bs : Bool} {text rest : Bytes} {t : Lexeme} (h : Next bs text t rest) :
    text = t.raw ++ rest ∧ t.raw ≠ [] := by
  cases h with
  | line _ _ _ hne | word hne => exact ⟨rfl, hne⟩
  | _ => exact ⟨rfl, by simp [Lexeme.raw]⟩

theorem next_word (bs : Bool) {raw rest : Bytes} (hne : raw ≠ []) (hraw : ∀ b ∈ raw, identByte b = true)
    (hend : ∀ b ∈ rest.head?, identByte b = false) : next bs (raw ++ rest) = some (.word raw, rest) := by
  have htake : (raw ++ rest).takeWhile identByte = raw := by
    rw [List.takeWhile_append_of_pos hraw]
    cases rest with
    | nil => simp
    | cons c rest => simp [hend c rfl]
  have hdrop : (raw ++ rest).dropWhile identByte = rest := by
    rw [List.dropWhile_append_of_pos hraw]
    cases rest with
    | nil => rfl
    | cons c rest => simp [hend c rfl]
  cases raw with
  | nil => exact absurd rfl hne
  | cons b raw =>
    have hb := hraw b (by simp)
    have hq := isQuote_of_identByte hb
    have hs := isSpace_of_identByte hb
    have hne : b ≠ 35 ∧ b ≠ 45 ∧ b ≠ 47 := by
      have hsymbols := notMem_of_identByte hb
      simp only [List.mem_cons, not_or] at hsymbols
      tauto
    obtain ⟨h35, h45, h47⟩ := hne
    have hline : opensLine (b :: (raw ++ rest)) = false := by
      cases raw ++ rest with
      | nil => simp [opensLine, h35]
      | cons c t => cases t <;> simp [opensLine, h35, h45]
    have hblock : opensBlock (b :: (raw ++ rest)) = false := by
      cases raw ++ rest <;> simp [opensBlock, h47]
    rw [List.cons_append] at htake hdrop ⊢
    rw [next, if_neg (by simp [hq]), if_neg (by simp [hline]), if_neg (by simp [hblock]), if_neg (by simp [hs]),
      if_pos hb, htake, hdrop]

theorem next_length {bs : Bool} {text rest : Bytes} {t : Lexeme} (h : next bs text = some (t, rest)) :
    rest.length < text.length := by
  obtain ⟨happ, hne⟩ := (next_cases h).append
  have := List.length_pos_of_ne_nil hne
  rw [happ, List.length_append]
  omega

/-- The tokens of a text. -/
def lex (bs : Bool) (text : Bytes) : List Lexeme :=
  match h : next bs text with
  | none => []
  | some (t, rest) =>
    have := next_length h
    t :: lex bs rest
termination_by text.length

/-- The lexer goes over the tokens to the rest of the text. -/
inductive Lexes (bs : Bool) : Bytes → List Lexeme → Bytes → Prop where
  | nil (text : Bytes) : Lexes bs text [] text
  | cons {text rest rest' : Bytes} {t : Lexeme} {ts : List Lexeme} (h : next bs text = some (t, rest))
      (hts : Lexes bs rest ts rest') : Lexes bs text (t :: ts) rest'

theorem lex_cons {bs : Bool} {text rest : Bytes} {t : Lexeme} (h : next bs text = some (t, rest)) :
    lex bs text = t :: lex bs rest := by
  rw [lex]
  split <;> simp_all

theorem lex_eq_append {bs : Bool} {text rest : Bytes} {ts : List Lexeme} (h : Lexes bs text ts rest) :
    lex bs text = ts ++ lex bs rest := by
  induction h with
  | nil text => rfl
  | cons h _ ih => rw [lex_cons h, ih, List.cons_append]

/-- Every token stands where the lexer gets to. -/
theorem lexes_of_lex {bs : Bool} {text : Bytes} {ts us : List Lexeme} (h : lex bs text = ts ++ us) :
    ∃ rest, Lexes bs text ts rest ∧ lex bs rest = us := by
  induction ts generalizing text with
  | nil => exact ⟨text, .nil text, h⟩
  | cons t ts ih =>
    cases hn : next bs text with
    | none =>
      rw [lex] at h
      split at h <;> simp_all
    | some p =>
      obtain ⟨t', rest⟩ := p
      rw [lex_cons hn] at h
      obtain ⟨rfl, hrest⟩ := List.cons.inj h
      obtain ⟨rest', hlex, hus⟩ := ih hrest
      exact ⟨rest', .cons hn hlex, hus⟩

theorem next_isSome (bs : Bool) (b : UInt8) (text : Bytes) : (next bs (b :: text)).isSome = true := by
  rw [next]
  split_ifs <;> rfl

/-- The lexer gets to the end. -/
theorem lexes_lex (bs : Bool) (text : Bytes) : Lexes bs text (lex bs text) [] := by
  obtain ⟨rest, hlex, hnil⟩ := lexes_of_lex (show lex bs text = lex bs text ++ [] by simp)
  cases rest with
  | nil => exact hlex
  | cons b rest =>
    obtain ⟨⟨t, mid⟩, hn⟩ := Option.isSome_iff_exists.mp (next_isSome bs b rest)
    rw [lex_cons hn] at hnil
    cases hnil

theorem Lexes.split {bs : Bool} {text rest : Bytes} {ts us : List Lexeme} (h : Lexes bs text (ts ++ us) rest) :
    ∃ mid, Lexes bs text ts mid ∧ Lexes bs mid us rest := by
  induction ts generalizing text with
  | nil => exact ⟨text, .nil text, h⟩
  | cons t ts ih =>
    cases h with
    | cons hn htail =>
      obtain ⟨mid, hts, hus⟩ := ih htail
      exact ⟨mid, .cons hn hts, hus⟩

/-- The first token of the rest. -/
theorem Lexes.head {bs : Bool} {text rest : Bytes} {t : Lexeme} {ts : List Lexeme} (h : Lexes bs text (t :: ts) rest) :
    ∃ mid, next bs text = some (t, mid) ∧ Lexes bs mid ts rest := by
  cases h with
  | cons hn hts => exact ⟨_, hn, hts⟩

end FractalSQL.Lib.Sql
