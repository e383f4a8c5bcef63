import FractalSQL.Lib.SqlLexer

/-!
# Statements that are put together

A list of tokens of which no two neighbours run into one another is what the lexer makes
of its own text. So a statement that is put together from fixed tokens, quoted names,
quoted values and numbers has the tokens of its template, whatever the names and the
values are, and each of them can be read back from its one token.
-/
namespace FractalSQL.Lib.Sql

/-! ### Tokens that stand alone -/

/-- A byte that is a token by itself when no second dash follows a dash. -/
def isPlainSymbol (b : UInt8) : Bool := !isQuote b && !isSpace b && !identByte b && b != 35 && b != 47

/-- The body of a quoted token that is closed by its last byte. -/
def Closed (bs : Bool) (q : UInt8) (body : Bytes) : Prop :=
  ∀ rest : Bytes, (∀ b ∈ rest.head?, b ≠ q) → splitQuoted bs q (body ++ rest) = (body, rest)

/-- Tokens that are read as they are written. -/
def Good (bs : Bool) : Lexeme → Prop
  | .space b => isSpace b = true
  | .symbol b => isPlainSymbol b = true
  | .word raw => raw ≠ [] ∧ ∀ b ∈ raw, identByte b = true
  | .quoted q body => isQuote q = true ∧ Closed bs q body
  | _ => False

/-- A second token that the first one does not run into. -/
def apart : Lexeme → Lexeme → Bool
  | .word _, .word _ => false
  | .quoted q _, .quoted r _ => q != r
  | .symbol b, .symbol c => b != 45 || c != 45
  | _, _ => true

/-- The text of some tokens. -/
def printed (ts : List Lexeme) : Bytes := ts.flatMap Lexeme.raw

theorem lex_nil (bs : Bool) : lex bs [] = [] := by
  rw [lex]
  split
  · rfl
  · rename_i h
    cases h

theorem opensBlock_cons {b : UInt8} (h : b ≠ 47) (rest : Bytes) : opensBlock (b :: rest) = false := by
  cases rest <;> simp [opensBlock, h]

theorem opensLine_cons {b : UInt8} (h : b ≠ 35) {rest : Bytes} (hrest : b = 45 → rest.head? ≠ some 45) :
    opensLine (b :: rest) = false := by
  cases rest with
  | nil => simp [opensLine, h]
  | cons c t =>
    have hdash : ¬ (b = 45 ∧ c = 45) := fun h => hrest h.1 (congrArg some h.2)
    cases t with
    | nil => simpa [opensLine, h] using hdash
    | cons d t =>
      have hnot : ¬ (b = 45 ∧ c = 45 ∧ isSpace d = true) := fun hd => hdash ⟨hd.1, hd.2.1⟩
      simpa [opensLine, h] using hnot

theorem next_space {bs : Bool} {b : UInt8} (h : isSpace b = true) (rest : Bytes) :
    next bs (b :: rest) = some (.space b, rest) := by
  have hplain : ∀ b ∈ ([32, 9, 10, 11, 12, 13] : Bytes), isQuote b = false ∧ b ≠ 35 ∧ b ≠ 45 ∧ b ≠ 47 := by
    decide +kernel
  obtain ⟨hq, h35, h45, h47⟩ := hplain b (mem_of_isSpace h)
  have hline : opensLine (b :: rest) = false := opensLine_cons h35 fun hb => absurd hb h45
  rw [next, if_neg (by simp [hq]), if_neg (by simp [hline]), if_neg (by simp [opensBlock_cons h47]), if_pos h]

theorem next_plainSymbol {bs : Bool} {b : UInt8} (h : isPlainSymbol b = true) {rest : Bytes}
    (hrest : b = 45 → rest.head? ≠ some 45) : next bs (b :: rest) = some (.symbol b, rest) := by
  simp only [isPlainSymbol, Bool.and_eq_true, Bool.not_eq_true', bne_iff_ne, ne_eq] at h
  obtain ⟨⟨⟨⟨hq, hs⟩, hi⟩, h35⟩, h47⟩ := h
  rw [next, if_neg (by simp [hq]), if_neg (by simp [opensLine_cons h35 hrest]),
    if_neg (by simp [opensBlock_cons h47]), if_neg (by simp [hs]), if_neg (by simp [hi])]

theorem next_quoted {bs : Bool} {q : UInt8} {body rest : Bytes} (hq : isQuote q = true) (h : Closed bs q body)
    (hrest : ∀ b ∈ rest.head?, b ≠ q) : next bs (q :: (body ++ rest)) = some (.quoted q body, rest) := by
  rw [next, if_pos hq, h rest hrest]

/-- What may not follow a token. -/
def Stops : Lexeme → UInt8 → Prop
  | .word _, b => identByte b = false
  | .quoted q _, b => b ≠ q
  | .symbol c, b => c = 45 → b ≠ 45
  | _, _ => True

theorem quote_plain {b : UInt8} (h : isQuote b = true) : identByte b = false ∧ b ≠ 45 := by
  have hall : ∀ b ∈ ([39, 34, 96] : Bytes), identByte b = false ∧ b ≠ 45 := by decide +kernel
  exact hall b (mem_of_isQuote h)

theorem space_plain {b : UInt8} (h : isSpace b = true) : identByte b = false ∧ isQuote b = false ∧ b ≠ 45 := by
  have hall : ∀ b ∈ ([32, 9, 10, 11, 12, 13] : Bytes), identByte b = false ∧ isQuote b = false ∧ b ≠ 45 := by
    decide +kernel
  exact hall b (mem_of_isSpace h)

theorem ident_ne_dash {b : UInt8} (h : identByte b = true) : b ≠ 45 :=
  fun hb => notMem_of_identByte h (by simp [hb])

/-- The first byte of a good token does not go on with the token in front. -/
theorem stops_of_apart {bs : Bool} {t u : Lexeme} (ht : Good bs t) (hu : Good bs u) (happ : apart t u = true) {b : UInt8}
    (hb : b ∈ u.raw.head?) : Stops t b := by
  cases t with
  | lineComment | blockComment => exact ht.elim
  | space c => trivial
  | word raw =>
    cases u with
    | lineComment | blockComment => exact hu.elim
    | word => cases happ
    | space c =>
      obtain rfl : c = b := Option.some.inj hb
      exact (space_plain hu).1
    | symbol c =>
      obtain rfl : c = b := Option.some.inj hb
      simp only [Good, isPlainSymbol, Bool.and_eq_true, Bool.not_eq_true', bne_iff_ne, ne_eq] at hu
      exact hu.1.1.2
    | quoted r body =>
      obtain rfl : r = b := Option.some.inj hb
      exact (quote_plain hu.1).1
  | symbol c =>
    rintro rfl rfl
    cases u with
    | lineComment | blockComment => exact hu.elim
    | space c =>
      obtain rfl : c = 45 := Option.some.inj hb
      exact (space_plain hu).2.2 rfl
    | symbol c =>
      obtain rfl : c = 45 := Option.some.inj hb
      cases happ
    | quoted r body =>
      obtain rfl : r = 45 := Option.some.inj hb
      exact (quote_plain hu.1).2 rfl
    | word raw => exact ident_ne_dash (hu.2 45 (List.mem_of_mem_head? hb)) rfl
  | quoted q body =>
    rintro rfl
    have hq : isQuote b = true := ht.1
    cases u with
    | lineComment | blockComment => exact hu.elim
    | space c =>
      obtain rfl : c = b := Option.some.inj hb
      rw [(space_plain hu).2.1] at hq
      cases hq
    | symbol c =>
      obtain rfl : c = b := Option.some.inj hb
      simp only [Good, isPlainSymbol, Bool.and_eq_true, Bool.not_eq_true', bne_iff_ne, ne_eq] at hu
      rw [hu.1.1.1.1] at hq
      cases hq
    | quoted r body' =>
      obtain rfl : r = b := Option.some.inj hb
      simp [apart] at happ
    | word raw =>
      rw [isQuote_of_identByte (hu.2 b (List.mem_of_mem_head? hb))] at hq
      cases hq

theorem Good.raw_ne_nil {bs : Bool} {t : Lexeme} (h : Good bs t) : t.raw ≠ [] := by
  cases t with
  | word raw => exact h.1
  | lineComment | blockComment => exact h.elim
  | _ => simp [Lexeme.raw]

/-- A good token in front of others that it does not run into. -/
theorem next_printed {bs : Bool} {t : Lexeme} {ts : List Lexeme} (ht : Good bs t) (hts : ∀ u ∈ ts, Good bs u)
    (happ : ∀ u ∈ ts.head?, apart t u = true) : next bs (printed (t :: ts)) = some (t, printed ts) := by
  have hstops (b : UInt8) (hb : b ∈ (printed ts).head?) : Stops t b := by
    cases ts with
    | nil => cases hb
    | cons u us =>
      have hu := hts u (List.mem_cons_self ..)
      rw [printed, List.flatMap_cons, List.head?_append_of_ne_nil _ hu.raw_ne_nil] at hb
      exact stops_of_apart ht hu (happ u rfl) hb
  change next bs (t.raw ++ printed ts) = _
  cases t with
  | lineComment | blockComment => exact ht.elim
  | space b => exact next_space ht _
  | symbol b => exact next_plainSymbol ht fun hb hhead => hstops 45 hhead hb rfl
  | word raw => exact next_word bs ht.1 ht.2 hstops
  | quoted q body => exact next_quoted ht.1 ht.2 hstops

/-- The lexer reads printed tokens back. -/
theorem lex_printed {bs : Bool} {ts : List Lexeme} (hgood : ∀ t ∈ ts, Good bs t)
    (happ : ts.IsChain fun t u => apart t u = true) : lex bs (printed ts) = ts := by
  induction ts with
  | nil => exact lex_nil bs
  | cons t ts ih =>
    have hts : ∀ u ∈ ts, Good bs u := fun u hu => hgood u (List.mem_cons_of_mem t hu)
    have hnext := next_printed (hgood t (List.mem_cons_self ..)) hts fun u hu => by
      cases ts with
      | nil => cases hu
      | cons v vs =>
        obtain rfl := Option.some.inj hu
        exact (List.isChain_cons_cons.mp happ).1
    rw [lex_cons hnext, ih hts happ.tail]

/-! ### What a quoted token says -/

/-- The byte that a backslash and `b` stand for. -/
def unescape (b : UInt8) : UInt8 :=
  if b = 48 then 0 else if b = 90 then 26 else if b = 110 then 10 else if b = 116 then 9
  else if b = 114 then 13 else if b = 98 then 8 else b

/-- What is between the quotes, read from a body as the lexer cuts it. -/
def content (bs : Bool) (q : UInt8) : Bytes → Bytes
  | [] => []
  | [c] => if c = q then [] else [c]
  | c :: d :: text =>
    if bs ∧ c = 92 ∧ q ≠ 96 then unescape d :: content bs q text
    else if c = q then if d = q then q :: content bs q text else []
    else c :: content bs q (d :: text)

/-- Each byte is written so that it is read back between quotes `q`, whatever follows it. -/
structure Codes (bs : Bool) (q : UInt8) (code : UInt8 → Bytes) : Prop where
  split (b : UInt8) (text : Bytes) : splitQuoted bs q (code b ++ text) =
    (code b ++ (splitQuoted bs q text).1, (splitQuoted bs q text).2)
  content (b : UInt8) (text : Bytes) : content bs q (code b ++ text) = b :: content bs q text

section
variable {bs : Bool} {q : UInt8} {code : UInt8 → Bytes}

theorem Codes.splitQuoted (h : Codes bs q code) (value rest : Bytes) : splitQuoted bs q (value.flatMap code ++ rest) =
    (value.flatMap code ++ (splitQuoted bs q rest).1, (splitQuoted bs q rest).2) := by
  induction value with
  | nil => rfl
  | cons b value ih => rw [List.flatMap_cons, List.append_assoc, h.split, ih, List.append_assoc]

theorem quote_closes (bs : Bool) (hq : isQuote q = true) {rest : Bytes} (hrest : ∀ b ∈ rest.head?, b ≠ q) :
    Sql.splitQuoted bs q (q :: rest) = ([q], rest) := by
  have h92 : q ≠ 92 := by
    rintro rfl
    cases hq
  cases rest with
  | nil => rfl
  | cons d rest =>
    rw [Sql.splitQuoted, if_neg fun h => h92 h.2.1, if_pos rfl, if_neg (hrest d rfl)]

theorem Codes.closed (h : Codes bs q code) (hq : isQuote q = true) (value : Bytes) :
    Closed bs q (value.flatMap code ++ [q]) := by
  intro rest hrest
  rw [List.append_assoc, h.splitQuoted, List.singleton_append, quote_closes bs hq hrest]

theorem Codes.content_eq (h : Codes bs q code) (value : Bytes) : Sql.content bs q (value.flatMap code ++ [q]) = value := by
  induction value with
  | nil => simp [Sql.content]
  | cons b value ih => rw [List.flatMap_cons, List.append_assoc, h.content, ih]

end

/-- A quote is written twice. -/
def doubledByte (q b : UInt8) : Bytes := if b = q then [q, q] else [b]

/-- The escapes of `QUOTE`. -/
def escapedByte (b : UInt8) : Bytes :=
  if b = 39 then [92, 39] else if b = 92 then [92, 92] else if b = 0 then [92, 48] else if b = 26 then [92, 90]
  else [b]

/-- A byte that neither closes nor escapes. -/
theorem splitQuoted_plain {bs : Bool} {q b : UInt8} (hq : b ≠ q) (hbs : ¬ (bs = true ∧ b = 92 ∧ q ≠ 96)) (text : Bytes) :
    splitQuoted bs q (b :: text) = (b :: (splitQuoted bs q text).1, (splitQuoted bs q text).2) := by
  cases text with
  | nil => rfl
  | cons d text => rw [splitQuoted, if_neg hbs, if_neg hq]

theorem content_plain {bs : Bool} {q b : UInt8} (hq : b ≠ q) (hbs : ¬ (bs = true ∧ b = 92 ∧ q ≠ 96)) (text : Bytes) :
    content bs q (b :: text) = b :: content bs q text := by
  cases text with
  | nil => simp [content, hq]
  | cons d text => rw [content, if_neg hbs, if_neg hq]

/-- Doubled backticks, in both modes of the session. -/
theorem codes_backtick (bs : Bool) : Codes bs 96 (doubledByte 96) where
  split b text := by
    have hbs : ¬ (bs = true ∧ b = 92 ∧ (96 : UInt8) ≠ 96) := fun h => h.2.2 rfl
    by_cases hb : b = 96
    · rw [doubledByte, if_pos hb]
      change splitQuoted bs 96 (96 :: 96 :: text) = _
      rw [splitQuoted, if_neg fun h => h.2.2 rfl, if_pos rfl, if_pos rfl]
      rfl
    · rw [doubledByte, if_neg hb]
      exact splitQuoted_plain hb hbs text
  content b text := by
    have hbs : ¬ (bs = true ∧ b = 92 ∧ (96 : UInt8) ≠ 96) := fun h => h.2.2 rfl
    by_cases hb : b = 96
    · rw [doubledByte, if_pos hb, hb]
      change content bs 96 (96 :: 96 :: text) = _
      rw [content, if_neg fun h => h.2.2 rfl, if_pos rfl, if_pos rfl]
    · rw [doubledByte, if_neg hb]
      exact content_plain hb hbs text

/-- Escaped bytes, as long as the session takes backslashes for escapes. -/
theorem codes_escaped : Codes true 39 escapedByte where
  split b text := by
    by_cases hplain : b = 39 ∨ b = 92 ∨ b = 0 ∨ b = 26
    · rcases hplain with rfl | rfl | rfl | rfl <;> simp [escapedByte, splitQuoted]
    · have hcode : escapedByte b = [b] := by
        simp only [escapedByte]
        grind
      rw [hcode]
      exact splitQuoted_plain (by grind) (by grind) text
  content b text := by
    by_cases hplain : b = 39 ∨ b = 92 ∨ b = 0 ∨ b = 26
    · rcases hplain with rfl | rfl | rfl | rfl <;> simp [escapedByte, content, unescape]
    · have hcode : escapedByte b = [b] := by
        simp only [escapedByte]
        grind
      rw [hcode]
      exact content_plain (by grind) (by grind) text

/-- What a token says: a name, a string, or what it is. -/
inductive Sense where
  | name (name : Bytes)
  | string (value : Bytes)
  | token (t : Lexeme)
deriving DecidableEq

def sense (bs : Bool) : Lexeme → Sense
  | .quoted q body => if q = 96 then .name (content bs q body) else .string (content bs q body)
  | t => .token t

/-! ### Statements -/

/-- A part of a statement: text that stands in the program, a name between backticks, a value as
`QUOTE` gives it, a number. -/
inductive Part where
  | fixed (text : Bytes)
  | name (name : Bytes)
  | value (value : Option Bytes)
  | number (n : ℤ)

/-- The tokens of a text of which the length is known. -/
def lexWithin (bs : Bool) : ℕ → Bytes → List Lexeme
  | 0, _ => []
  | fuel + 1, text =>
    match next bs text with
    | none => []
    | some (t, rest) => t :: lexWithin bs fuel rest

def backticked (name : Bytes) : Lexeme := .quoted 96 (name.flatMap (doubledByte 96) ++ [96])

def quotedValue : Option Bytes → Lexeme
  | none => .word (ascii "NULL")
  | some value => .quoted 39 (value.flatMap escapedByte ++ [39])

def numberTokens : ℤ → List Lexeme
  | .ofNat n => [.word (decimal n)]
  | .negSucc n => [.symbol 45, .word (decimal (n + 1))]

namespace Part

def tokens : Part → List Lexeme
  | .fixed text => lexWithin true text.length text
  | .name ident => [backticked ident]
  | .value v => [quotedValue v]
  | .number n => numberTokens n

/-- What the part says: the name and the value itself, between the tokens of the program. -/
def senses (bs : Bool) : Part → List Sense
  | .fixed text => (lexWithin true text.length text).map (sense bs)
  | .name ident => [.name ident]
  | .value none => [.token (.word (ascii "NULL"))]
  | .value (some v) => [.string v]
  | .number n => (numberTokens n).map .token

def text : Part → Bytes
  | .fixed text => text
  | p => printed p.tokens

/-- The part without what is put in. -/
def blank : Part → Part
  | .fixed text => .fixed text
  | .name _ => .name []
  | .value _ => .value none
  | .number _ => .number 0

end Part

/-- A quoted token of a fixed text: nothing in it but its end closes or escapes. -/
def isPlainQuoted (q : UInt8) (body : Bytes) : Bool :=
  isQuote q && (body.getLast? == some q) && body.dropLast.all fun b => b != q && b != 92

def isFixed : Lexeme → Bool
  | .space b => isSpace b
  | .symbol b => isPlainSymbol b
  | .word raw => !raw.isEmpty && raw.all identByte
  | .quoted q body => isPlainQuoted q body
  | _ => false

/-- White space and symbols that nothing runs into. -/
def isNeutral : Lexeme → Bool
  | .space _ => true
  | .symbol b => b != 45
  | _ => false

namespace Part

/-- A fixed text is made of tokens that stand by themselves. -/
def isWhole : Part → Bool
  | .fixed text =>
    (lexWithin true text.length text).all isFixed && decide (printed (lexWithin true text.length text) = text) &&
      !text.isEmpty && decide ((lexWithin true text.length text).IsChain fun t u => apart t u = true)
  | _ => true

/-- The part begins with a token that nothing runs into. -/
def opensNeutral : Part → Bool
  | .fixed text => (lexWithin true text.length text).head?.any isNeutral
  | _ => false

def closesNeutral : Part → Bool
  | .fixed text => (lexWithin true text.length text).getLast?.any isNeutral
  | _ => false

end Part

/-- The parts can stand side by side whatever is put in. -/
def fits (parts : List Part) : Bool :=
  parts.all Part.isWhole && decide (parts.IsChain fun p q => (p.closesNeutral || q.opensNeutral) = true)

section
variable {bs : Bool}

theorem good_of_isFixed {t : Lexeme} (h : isFixed t = true) : Good bs t := by
  cases t with
  | space b | symbol b => exact h
  | lineComment | blockComment => cases h
  | word raw =>
    simp only [isFixed, Bool.and_eq_true, Bool.not_eq_true', List.isEmpty_eq_false_iff, List.all_eq_true] at h
    exact h
  | quoted q body =>
    simp only [isFixed, isPlainQuoted, Bool.and_eq_true, beq_iff_eq, List.all_eq_true, bne_iff_ne, ne_eq] at h
    obtain ⟨⟨hq, hlast⟩, hbody⟩ := h
    apply And.intro hq
    intro rest hrest
    rw [← List.dropLast_append_getLast? q hlast, List.append_assoc, List.singleton_append]
    generalize body.dropLast = inner at hbody
    induction inner with
    | nil => exact quote_closes bs hq hrest
    | cons b inner ih =>
      have hb := hbody b (List.mem_cons_self ..)
      rw [List.cons_append, List.cons_append, splitQuoted_plain hb.1 fun h => hb.2 h.2.1,
        ih fun c hc => hbody c (List.mem_cons_of_mem b hc)]

theorem good_backticked (name : Bytes) : Good bs (backticked name) := ⟨rfl, (codes_backtick bs).closed rfl name⟩

theorem word_decimal (n : ℕ) : Good bs (.word (decimal n)) := by
  apply And.intro (decimal_ne_nil n)
  intro b hb
  simp [identByte, asciiIdent, decimal_isDigit n b hb]

theorem good_quotedValue (value : Option Bytes) (hbs : value.isSome = true → bs = true) : Good bs (quotedValue value) := by
  cases value with
  | none => exact ⟨by decide, by decide +kernel⟩
  | some value =>
    obtain rfl := hbs rfl
    exact ⟨rfl, codes_escaped.closed rfl value⟩

theorem good_numberTokens (n : ℤ) : ∀ t ∈ numberTokens n, Good bs t := by
  cases n with
  | ofNat n =>
    intro t ht
    obtain rfl := List.mem_singleton.mp ht
    exact word_decimal n
  | negSucc n =>
    intro t ht
    rcases List.mem_cons.mp ht with rfl | ht
    · exact good_of_isFixed (t := .symbol 45) (by decide)
    · obtain rfl := List.mem_singleton.mp ht
      exact word_decimal (n + 1)

/-- The value of a session that takes backslashes for themselves may not be put in. -/
def Part.Readable (bs : Bool) : Part → Prop
  | .value v => v.isSome = true → bs = true
  | _ => True

theorem Part.readable_true (p : Part) : p.Readable true := by
  cases p with
  | value v => exact fun _ => rfl
  | fixed | name | number => trivial

theorem Part.good {p : Part} (hwhole : p.isWhole = true) (hread : p.Readable bs) : ∀ t ∈ p.tokens, Good bs t := by
  cases p with
  | fixed text =>
    simp only [Part.isWhole, Bool.and_eq_true, List.all_eq_true] at hwhole
    intro t ht
    exact good_of_isFixed (hwhole.1.1.1 t ht)
  | name ident =>
    intro t ht
    obtain rfl := List.mem_singleton.mp ht
    exact good_backticked ident
  | value v =>
    intro t ht
    obtain rfl := List.mem_singleton.mp ht
    exact good_quotedValue v hread
  | number n => exact good_numberTokens n

theorem Part.chain {p : Part} (hwhole : p.isWhole = true) : p.tokens.IsChain fun t u => apart t u = true := by
  cases p with
  | fixed text =>
    simp only [Part.isWhole, Bool.and_eq_true, decide_eq_true_eq] at hwhole
    exact hwhole.2
  | name ident | value v => exact List.isChain_singleton _
  | number n =>
    cases n with
    | ofNat n => exact List.isChain_singleton _
    | negSucc n => exact List.isChain_pair.mpr rfl

theorem Part.text_eq {p : Part} (hwhole : p.isWhole = true) : p.text = printed p.tokens := by
  cases p with
  | fixed text =>
    simp only [Part.isWhole, Bool.and_eq_true, decide_eq_true_eq] at hwhole
    exact hwhole.1.1.2.symm
  | name | value | number => rfl

theorem Part.tokens_ne_nil {p : Part} (hwhole : p.isWhole = true) : p.tokens ≠ [] := by
  cases p with
  | fixed text =>
    simp only [Part.isWhole, Bool.and_eq_true, decide_eq_true_eq, Bool.not_eq_true', List.isEmpty_eq_false_iff] at hwhole
    intro hnil
    apply hwhole.1.2
    rw [← hwhole.1.1.2]
    change printed (Part.tokens (.fixed text)) = []
    rw [hnil]
    rfl
  | name | value => simp [Part.tokens]
  | number n => cases n <;> simp [Part.tokens, numberTokens]

/-- Nothing runs into a neutral token, and it runs into nothing. -/
theorem apart_neutral {t u : Lexeme} (h : isNeutral t = true ∨ isNeutral u = true) : apart t u = true := by
  cases t <;> cases u <;> simp_all [isNeutral, apart]

theorem mem_of_any {α : Type*} {p : α → Bool} {o : Option α} (h : o.any p = true) : ∀ a ∈ o, p a = true := by
  rintro a rfl
  exact h

theorem Part.head_neutral {p : Part} (h : p.opensNeutral = true) : ∀ t ∈ p.tokens.head?, isNeutral t = true := by
  cases p with
  | fixed text => exact mem_of_any h
  | name | value | number => cases h

theorem Part.getLast_neutral {p : Part} (h : p.closesNeutral = true) : ∀ t ∈ p.tokens.getLast?, isNeutral t = true := by
  cases p with
  | fixed text => exact mem_of_any h
  | name | value | number => cases h

/-- Parts that fit have good tokens, none of which runs into the next. -/
theorem fits_tokens {parts : List Part} (hfits : fits parts = true) (hread : ∀ p ∈ parts, p.Readable bs) :
    (∀ t ∈ parts.flatMap Part.tokens, Good bs t) ∧
      (parts.flatMap Part.tokens).IsChain fun t u => apart t u = true := by
  simp only [fits, Bool.and_eq_true, List.all_eq_true, decide_eq_true_eq] at hfits
  obtain ⟨hwhole, hseams⟩ := hfits
  constructor
  · intro t ht
    obtain ⟨p, hp, htp⟩ := List.mem_flatMap.mp ht
    exact Part.good (hwhole p hp) (hread p hp) t htp
  · rw [List.flatMap_def, List.isChain_flatten]
    · constructor
      · intro l hl
        obtain ⟨p, hp, rfl⟩ := List.mem_map.mp hl
        exact Part.chain (hwhole p hp)
      · rw [List.isChain_map]
        apply hseams.imp
        intro p q hpq t ht u hu
        apply apart_neutral
        rcases Bool.or_eq_true_iff.mp hpq with hp | hq
        · exact Or.inl (p.getLast_neutral hp t ht)
        · exact Or.inr (q.head_neutral hq u hu)
    · intro hnil
      obtain ⟨p, hp, hempty⟩ := List.mem_map.mp hnil
      exact Part.tokens_ne_nil (hwhole p hp) hempty

/-- The lexer finds the tokens of each part. -/
theorem lex_parts {parts : List Part} (hfits : fits parts = true) (hread : ∀ p ∈ parts, p.Readable bs) :
    lex bs (parts.flatMap Part.text) = parts.flatMap Part.tokens := by
  have htext : parts.flatMap Part.text = printed (parts.flatMap Part.tokens) := by
    simp only [fits, Bool.and_eq_true, List.all_eq_true] at hfits
    rw [printed, List.flatMap_assoc]
    exact List.flatMap_congr fun p hp => Part.text_eq (hfits.1 p hp)
  obtain ⟨hgood, hchain⟩ := fits_tokens hfits hread
  rw [htext, lex_printed hgood hchain]

theorem Part.senses_eq {p : Part} (hread : p.Readable bs) : p.tokens.map (sense bs) = p.senses bs := by
  cases p with
  | fixed text => rfl
  | name ident => simp [Part.tokens, Part.senses, backticked, sense, (codes_backtick bs).content_eq]
  | value v =>
    cases v with
    | none => rfl
    | some v =>
      obtain rfl := hread rfl
      simp [Part.tokens, Part.senses, quotedValue, sense, codes_escaped.content_eq]
  | number n => cases n <;> rfl

/-- The lexer finds what each part says: the names and values are read back, each from one token,
and nothing in them is taken for anything else. -/
theorem senses_parts {parts : List Part} (hfits : fits parts = true) (hread : ∀ p ∈ parts, p.Readable bs) :
    (lex bs (parts.flatMap Part.text)).map (sense bs) = parts.flatMap (Part.senses bs) := by
  rw [lex_parts hfits hread, List.map_flatMap]
  exact List.flatMap_congr fun p hp => Part.senses_eq (hread p hp)

end

/-- Whether parts fit does not depend on what is put in. -/
theorem fits_blank (parts : List Part) : fits (parts.map Part.blank) = fits parts := by
  have hwhole : Part.isWhole ∘ Part.blank = Part.isWhole := by
    funext p
    cases p <;> rfl
  have hseam (p q : Part) : (p.blank.closesNeutral || q.blank.opensNeutral) = (p.closesNeutral || q.opensNeutral) := by
    cases p <;> cases q <;> rfl
  simp only [fits, List.all_map, hwhole, List.isChain_map, hseam]

/-- Two lists of parts that fit, with a token that stands apart where they meet. -/
theorem fits_append {ps qs : List Part} (hps : fits ps = true) (hqs : fits qs = true)
    (hseam : ps.getLast?.any Part.closesNeutral = true ∨ qs.head?.any Part.opensNeutral = true) :
    fits (ps ++ qs) = true := by
  simp only [fits, Bool.and_eq_true, List.all_eq_true, decide_eq_true_eq] at hps hqs ⊢
  constructor
  · intro p hp
    rcases List.mem_append.mp hp with hp | hp
    · exact hps.1 p hp
    · exact hqs.1 p hp
  · apply hps.2.append hqs.2
    intro p hp q hq
    rcases hseam with hclose | hopen
    · simp [mem_of_any hclose p hp]
    · simp [mem_of_any hopen q hq]

end FractalSQL.Lib.Sql
