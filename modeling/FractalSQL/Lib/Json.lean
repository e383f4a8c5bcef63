import FractalSQL.Lib.Text
import Mathlib.Data.List.TakeWhile

/-!
# The tokens of JSON text

Brackets, separators, strings and scalars, with white space between them. A string
keeps its raw content; the escapes in it are only decoded when a key is compared.
A text is cut where a token has ended: what follows must not continue a number.
-/
namespace FractalSQL.Lib.Json

inductive Bracket where
  | square
  | curly
deriving DecidableEq

inductive Token where
  | opening (b : Bracket)
  | closing (b : Bracket)
  | comma
  | colon
  | str (raw : Bytes)
  | scalar (raw : Bytes)
deriving DecidableEq

def isWs (b : UInt8) : Bool := b = 32 ∨ b = 9 ∨ b = 10 ∨ b = 13

/-- The tokens of one byte. -/
def punctuation (b : UInt8) : Option Token :=
  if b = 91 then some (.opening .square)
  else if b = 123 then some (.opening .curly)
  else if b = 93 then some (.closing .square)
  else if b = 125 then some (.closing .curly)
  else if b = 44 then some .comma
  else if b = 58 then some .colon
  else none

/-- The content of a string up to its closing quote, and what follows. A backslash
takes the next byte with it, whatever it is. -/
def scanStr : Bytes → Option (Bytes × Bytes)
  | [] => none
  | [92] => none
  | 92 :: b :: text => (scanStr text).map fun (raw, rest) => (92 :: b :: raw, rest)
  | b :: text =>
    if b = 34 then some ([], text)
    else if b < 32 then none
    else (scanStr text).map fun (raw, rest) => (b :: raw, rest)

/-- One or more digits. -/
def scanDigits (text : Bytes) : Option Bytes :=
  if text.takeWhile isDigit = [] then none else some (text.dropWhile isDigit)

/-- The fraction of a number, if there is one. -/
def scanFraction : Bytes → Option Bytes
  | 46 :: text => scanDigits text
  | text => some text

def skipSign : Bytes → Bytes
  | 43 :: text => text
  | 45 :: text => text
  | text => text

/-- The exponent of a number, if there is one. -/
def scanExponent : Bytes → Option Bytes
  | 101 :: text => scanDigits (skipSign text)
  | 69 :: text => scanDigits (skipSign text)
  | text => some text

def skipMinus : Bytes → Bytes
  | 45 :: text => text
  | text => text

def scanNumber (text : Bytes) : Option Bytes :=
  (scanDigits (skipMinus text)).bind fun text => (scanFraction text).bind scanExponent

/-- What follows a literal or a number. -/
def scanScalar : Bytes → Option Bytes
  | [] => none
  | 116 :: text => dropLit (ascii "rue") text
  | 102 :: text => dropLit (ascii "alse") text
  | 110 :: text => dropLit (ascii "ull") text
  | text => scanNumber text

/-! ### Scalars are cut where they end -/

/-- The bytes that stand in scalars. -/
def scalarByte (b : UInt8) : Bool := isDigit b ∨ b ∈ ascii "+-.Eaeflnrstu"

/-- What follows a scalar must not continue a number. -/
def Breaks (text : Bytes) : Prop :=
  ∀ b ∈ text.head?, isDigit b = false ∧ b ≠ 46 ∧ b ≠ 101 ∧ b ≠ 69

/-- What can stand where `rest` stood after a scalar. -/
def Follows (rest rest' : Bytes) : Prop := rest'.head? = rest.head? ∨ Breaks rest'

theorem scanDigits_eq_some {text rest : Bytes} (h : scanDigits text = some rest) :
    ∃ ds, ds ≠ [] ∧ (∀ d ∈ ds, isDigit d = true) ∧ text = ds ++ rest ∧
      ∀ b ∈ rest.head?, isDigit b = false := by
  unfold scanDigits at h
  split at h
  · cases h
  · rename_i hne
    obtain rfl := Option.some.inj h
    refine ⟨text.takeWhile isDigit, hne, fun d hd => List.mem_takeWhile_imp hd,
      (List.takeWhile_append_dropWhile).symm, fun b hb => ?_⟩
    have hnot := List.head?_dropWhile_not isDigit text
    rw [Option.mem_def.mp hb] at hnot
    simpa using hnot

theorem scanDigits_append {ds rest : Bytes} (hne : ds ≠ []) (hd : ∀ d ∈ ds, isDigit d = true)
    (hr : ∀ b ∈ rest.head?, isDigit b = false) : scanDigits (ds ++ rest) = some rest := by
  rw [scanDigits, takeWhile_digits hd hr, if_neg hne, dropWhile_digits hd hr]

theorem scalarByte_of_digit {ds : Bytes} (hd : ∀ d ∈ ds, isDigit d = true) :
    ∀ d ∈ ds, scalarByte d = true := by
  intro d h
  simp [scalarByte, hd d h]

theorem skipSign_cut (text : Bytes) : ∃ sign, text = sign ++ skipSign text ∧ (∀ b ∈ sign, scalarByte b = true) ∧
    ∀ ds : Bytes, ds ≠ [] → (∀ d ∈ ds, isDigit d = true) → ∀ rest,
      skipSign (sign ++ (ds ++ rest)) = ds ++ rest := by
  fun_cases skipSign text with
  | case1 text => exact ⟨[43], rfl, List.all_eq_true.mp rfl, fun ds _ _ rest => rfl⟩
  | case2 text => exact ⟨[45], rfl, List.all_eq_true.mp rfl, fun ds _ _ rest => rfl⟩
  | case3 text h43 h45 =>
    refine ⟨[], rfl, by simp, fun ds hne hd rest => ?_⟩
    cases ds with
    | nil => exact absurd rfl hne
    | cons d ds =>
      have hdig := hd d (by simp)
      unfold skipSign
      split
      · rename_i heq
        rw [(List.cons.inj heq).1] at hdig
        exact absurd hdig (by decide)
      · rename_i heq
        rw [(List.cons.inj heq).1] at hdig
        exact absurd hdig (by decide)
      · rfl

theorem signedDigits_cut {text rest : Bytes} (h : scanDigits (skipSign text) = some rest) :
    ∃ lex, text = lex ++ rest ∧ (∀ b ∈ lex, scalarByte b = true) ∧
      ∀ rest', Follows rest rest' → scanDigits (skipSign (lex ++ rest')) = some rest' := by
  obtain ⟨sign, hsign, h0, hcut⟩ := skipSign_cut text
  obtain ⟨ds, hne, hd, hds, hend⟩ := scanDigits_eq_some h
  refine ⟨sign ++ ds, by rw [List.append_assoc, ← hds, ← hsign], ?_, fun rest' hb => ?_⟩
  · exact List.forall_mem_append.mpr ⟨h0, scalarByte_of_digit hd⟩
  · rw [List.append_assoc, hcut ds hne hd]
    refine scanDigits_append hne hd fun b hmem => ?_
    rcases hb with hhead | hb
    · exact hend b (hhead ▸ hmem)
    · exact (hb b hmem).1

theorem scanExponent_cut {text rest : Bytes} (h : scanExponent text = some rest) :
    ∃ lex, text = lex ++ rest ∧ (∀ b ∈ lex, scalarByte b = true) ∧ (∀ b ∈ lex.head?, b = 101 ∨ b = 69) ∧
      ∀ rest', Follows rest rest' → scanExponent (lex ++ rest') = some rest' := by
  fun_cases scanExponent text with
  | case1 text =>
    obtain ⟨lex, rfl, h0, hcut⟩ := signedDigits_cut h
    exact ⟨101 :: lex, rfl, List.forall_mem_cons.mpr ⟨by decide, h0⟩, by simp, fun rest' hb => hcut rest' hb⟩
  | case2 text =>
    obtain ⟨lex, rfl, h0, hcut⟩ := signedDigits_cut h
    exact ⟨69 :: lex, rfl, List.forall_mem_cons.mpr ⟨by decide, h0⟩, by simp, fun rest' hb => hcut rest' hb⟩
  | case3 text h101 h69 =>
    have hsome : scanExponent text = some text := by
      rw [scanExponent]
      · exact h101
      · exact h69
    obtain rfl : text = rest := by simpa [hsome] using h
    refine ⟨[], rfl, by simp, by simp, fun rest' hb => ?_⟩
    cases rest' with
    | nil => rfl
    | cons b rest' =>
      have hne : b ≠ 101 ∧ b ≠ 69 := by
        rcases hb with hhead | hb
        · cases text with
          | nil => cases hhead
          | cons c text =>
            obtain rfl := Option.some.inj hhead
            exact ⟨fun hc => h101 text (by rw [hc]), fun hc => h69 text (by rw [hc])⟩
        · exact (hb b rfl).2.2
      unfold scanExponent
      split
      · rename_i heq
        exact absurd (List.cons.inj heq).1 hne.1
      · rename_i heq
        exact absurd (List.cons.inj heq).1 hne.2
      · rfl

theorem scanFraction_cut {text rest : Bytes} (h : scanFraction text = some rest) :
    ∃ lex, text = lex ++ rest ∧ (∀ b ∈ lex, scalarByte b = true) ∧ (∀ b ∈ lex.head?, b = 46) ∧
      ∀ rest' : Bytes, (rest'.head? = rest.head? ∨ ∀ b ∈ rest'.head?, isDigit b = false ∧ b ≠ 46) →
        scanFraction (lex ++ rest') = some rest' := by
  fun_cases scanFraction text with
  | case1 text =>
    obtain ⟨ds, hne, hd, rfl, hend⟩ := scanDigits_eq_some h
    refine ⟨46 :: ds, rfl, List.forall_mem_cons.mpr ⟨by decide, scalarByte_of_digit hd⟩, by simp,
      fun rest' hb => ?_⟩
    refine scanDigits_append hne hd fun b hmem => ?_
    rcases hb with hhead | hb
    · exact hend b (hhead ▸ hmem)
    · exact (hb b hmem).1
  | case2 text h46 =>
    have hsome : scanFraction text = some text := by
      rw [scanFraction]
      exact h46
    obtain rfl : text = rest := by simpa [hsome] using h
    refine ⟨[], rfl, by simp, by simp, fun rest' hb => ?_⟩
    cases rest' with
    | nil => rfl
    | cons b rest' =>
      have hne : b ≠ 46 := by
        rcases hb with hhead | hb
        · cases text with
          | nil => cases hhead
          | cons c text =>
            obtain rfl := Option.some.inj hhead
            exact fun hc => h46 text (by rw [hc])
        · exact (hb b rfl).2
      unfold scanFraction
      split
      · rename_i heq
        exact absurd (List.cons.inj heq).1 hne
      · rfl

theorem skipMinus_cut (text : Bytes) : ∃ sign, text = sign ++ skipMinus text ∧
    (∀ b ∈ sign.head?, b = 45) ∧ (∀ b ∈ sign, scalarByte b = true) ∧
    ∀ ds : Bytes, ds ≠ [] → (∀ d ∈ ds, isDigit d = true) → ∀ rest,
      skipMinus (sign ++ (ds ++ rest)) = ds ++ rest := by
  fun_cases skipMinus text with
  | case1 text => exact ⟨[45], rfl, by simp, List.all_eq_true.mp rfl, fun ds _ _ rest => rfl⟩
  | case2 text h45 =>
    refine ⟨[], rfl, by simp, by simp, fun ds hne hd rest => ?_⟩
    cases ds with
    | nil => exact absurd rfl hne
    | cons d ds =>
      have hdig := hd d (by simp)
      unfold skipMinus
      split
      · rename_i heq
        rw [(List.cons.inj heq).1] at hdig
        exact absurd hdig (by decide)
      · rfl

theorem head?_append_cases {a b : Bytes} {c : UInt8} (h : c ∈ (a ++ b).head?) :
    c ∈ a.head? ∨ c ∈ b.head? := by
  cases a with
  | nil => exact .inr h
  | cons x a => exact .inl h

theorem head?_append_congr (a : Bytes) {b c : Bytes} (h : b.head? = c.head?) :
    (a ++ b).head? = (a ++ c).head? := by
  cases a with
  | nil => exact h
  | cons x a => rfl

/-- A number is the same number in front of anything that does not continue it. -/
theorem scanNumber_cut {text rest : Bytes} (h : scanNumber text = some rest) :
    ∃ lex, text = lex ++ rest ∧ (∀ b ∈ lex, scalarByte b = true) ∧ lex ≠ [] ∧
      (∀ b ∈ lex.head?, b = 45 ∨ isDigit b = true) ∧
      ∀ rest', Follows rest rest' → scanNumber (lex ++ rest') = some rest' := by
  obtain ⟨t₁, h₁, h⟩ := Option.bind_eq_some_iff.mp h
  obtain ⟨t₂, h₂, h₃⟩ := Option.bind_eq_some_iff.mp h
  obtain ⟨sign, hsign, hsignHead, hs0, hscut⟩ := skipMinus_cut text
  obtain ⟨ds, hne, hd, hds, hend⟩ := scanDigits_eq_some h₁
  obtain ⟨frac, rfl, hf0, hfhead, hfcut⟩ := scanFraction_cut h₂
  obtain ⟨exp, rfl, he0, hehead, hecut⟩ := scanExponent_cut h₃
  refine ⟨sign ++ (ds ++ (frac ++ exp)), ?_, ?_, ?_, ?_, fun rest' hb => ?_⟩
  · rw [hds] at hsign
    simpa [List.append_assoc] using hsign
  · exact List.forall_mem_append.mpr ⟨hs0, List.forall_mem_append.mpr ⟨scalarByte_of_digit hd,
      List.forall_mem_append.mpr ⟨hf0, he0⟩⟩⟩
  · simp [hne]
  · intro b hmem
    rcases head?_append_cases hmem with hmem | hmem
    · exact .inl (hsignHead b hmem)
    · cases ds with
      | nil => exact absurd rfl hne
      | cons d ds =>
        obtain rfl := Option.some.inj hmem
        exact .inr (hd _ (by simp))
  · have hexp : (exp ++ rest').head? = (exp ++ rest).head? ∨
        ∀ b ∈ (exp ++ rest').head?, isDigit b = false ∧ b ≠ 46 := by
      refine hb.imp (head?_append_congr exp) fun hb b hmem => ?_
      rcases head?_append_cases hmem with hmem | hmem
      · rcases hehead b hmem with rfl | rfl <;> decide
      · exact ⟨(hb b hmem).1, (hb b hmem).2.1⟩
    have hfrac (b : UInt8) (hmem : b ∈ (frac ++ (exp ++ rest')).head?) : isDigit b = false := by
      rcases hexp with hhead | hexp
      · exact hend b (head?_append_congr frac hhead ▸ hmem)
      · rcases head?_append_cases hmem with hmem | hmem
        · rw [hfhead b hmem]
          decide
        · exact (hexp b hmem).1
    have hassoc : sign ++ (ds ++ (frac ++ exp)) ++ rest' = sign ++ (ds ++ (frac ++ (exp ++ rest'))) := by
      simp
    rw [hassoc, scanNumber, hscut ds hne hd, scanDigits_append hne hd hfrac, Option.bind_some,
      hfcut _ hexp, Option.bind_some, hecut rest' hb]

theorem dropLit_eq_some {lit text rest : Bytes} (h : dropLit lit text = some rest) : text = lit ++ rest := by
  unfold dropLit at h
  split at h
  · rename_i hp
    obtain ⟨t, rfl⟩ := List.isPrefixOf_iff_prefix.mp hp
    obtain rfl := Option.some.inj h
    simp
  · cases h

theorem scanScalar_number {b : UInt8} (h : b = 45 ∨ isDigit b = true) (text : Bytes) :
    scanScalar (b :: text) = scanNumber (b :: text) := by
  unfold scanScalar
  split
  · rename_i heq
    cases heq
  all_goals first
    | rfl
    | (rename_i heq
       rw [(List.cons.inj heq).1] at h
       exact absurd h (by decide))

/-- The same for every scalar. -/
theorem scanScalar_cut {text rest : Bytes} (h : scanScalar text = some rest) :
    ∃ lex, text = lex ++ rest ∧ (∀ b ∈ lex, scalarByte b = true) ∧ lex ≠ [] ∧
      ∀ rest', Follows rest rest' → scanScalar (lex ++ rest') = some rest' := by
  fun_cases scanScalar text with
  | case1 => cases h
  | case2 text =>
    obtain rfl := dropLit_eq_some h
    exact ⟨116 :: ascii "rue", rfl, List.all_eq_true.mp rfl, by simp, fun rest' _ => dropLit_append _ rest'⟩
  | case3 text =>
    obtain rfl := dropLit_eq_some h
    exact ⟨102 :: ascii "alse", rfl, List.all_eq_true.mp rfl, by simp, fun rest' _ => dropLit_append _ rest'⟩
  | case4 text =>
    obtain rfl := dropLit_eq_some h
    exact ⟨110 :: ascii "ull", rfl, List.all_eq_true.mp rfl, by simp, fun rest' _ => dropLit_append _ rest'⟩
  | case5 text hnil ht hf hn =>
    have hnum : scanScalar text = scanNumber text := by
      rw [scanScalar] <;> assumption
    rw [hnum] at h
    obtain ⟨lex, rfl, h0, hne, hhead, hcut⟩ := scanNumber_cut h
    refine ⟨lex, rfl, h0, hne, fun rest' hb => ?_⟩
    cases lex with
    | nil => exact absurd rfl hne
    | cons b lex => rw [← hcut rest' hb, List.cons_append, scanScalar_number (hhead b rfl)]

theorem scanScalar_length {text rest : Bytes} (h : scanScalar text = some rest) :
    rest.length < text.length := by
  obtain ⟨lex, rfl, -, hne, -⟩ := scanScalar_cut h
  have := List.length_pos_of_ne_nil hne
  rw [List.length_append]
  omega

/-! ### Strings -/

/-- A string is its content and the closing quote, in front of anything. -/
theorem scanStr_cut {text raw rest : Bytes} (h : scanStr text = some (raw, rest)) :
    text = raw ++ 34 :: rest ∧ ∀ rest', scanStr (raw ++ 34 :: rest') = some (raw, rest') := by
  fun_induction scanStr text generalizing raw with
  | case1 => cases h
  | case2 => cases h
  | case3 b text ih =>
    obtain ⟨⟨raw', rest'⟩, hsome, heq⟩ := Option.map_eq_some_iff.mp h
    cases heq
    obtain ⟨rfl, hcut⟩ := ih hsome
    exact ⟨rfl, fun rest' => by simp [scanStr, hcut rest']⟩
  | case4 text =>
    cases h
    exact ⟨rfl, fun rest' => by simp [scanStr]⟩
  | case5 => cases h
  | case6 b text hnil hesc hquote hctl ih =>
    obtain ⟨⟨raw', rest'⟩, hsome, heq⟩ := Option.map_eq_some_iff.mp h
    cases heq
    obtain ⟨htext, hcut⟩ := ih hsome
    have hb : b ≠ 92 := by
      rintro rfl
      cases text with
      | nil => exact hnil rfl rfl
      | cons c text => exact hesc c text rfl rfl
    refine ⟨by rw [htext, List.cons_append], fun rest' => ?_⟩
    rw [List.cons_append, scanStr, if_neg hquote, if_neg hctl, hcut rest']
    · rfl
    · exact fun h _ => hb h
    · exact fun _ _ h _ => hb h

theorem scanStr_length {text raw rest : Bytes} (h : scanStr text = some (raw, rest)) :
    rest.length < text.length := by
  obtain ⟨rfl, -⟩ := scanStr_cut h
  simp
  omega

/-! ### Token lists -/

/-- The tokens of a text, or `none` when it cannot be cut into tokens. -/
def tokens (text : Bytes) : Option (List Token) :=
  match text with
  | [] => some []
  | b :: text =>
    if isWs b then tokens text
    else if b = 34 then
      match h : scanStr text with
      | none => none
      | some (raw, rest) =>
        have := scanStr_length h
        (tokens rest).map (.str raw :: ·)
    else match punctuation b with
      | some t => (tokens text).map (t :: ·)
      | none =>
        match h : scanScalar (b :: text) with
        | none => none
        | some rest =>
          have := scanScalar_length h
          (tokens rest).map (.scalar ((b :: text).take (text.length + 1 - rest.length)) :: ·)
termination_by text.length
decreasing_by all_goals simp_all <;> omega

@[simp] theorem tokens_nil : tokens [] = some [] := by rw [tokens]

theorem tokens_cons (b : UInt8) (text : Bytes) :
    tokens (b :: text) =
      if isWs b then tokens text
      else if b = 34 then (scanStr text).bind fun p => (tokens p.2).map (.str p.1 :: ·)
      else match punctuation b with
        | some t => (tokens text).map (t :: ·)
        | none => (scanScalar (b :: text)).bind fun rest =>
          (tokens rest).map (.scalar ((b :: text).take (text.length + 1 - rest.length)) :: ·) := by
  rw [tokens]
  split
  · rfl
  split
  · split <;> simp [*]
  · cases hp : punctuation b with
    | some t => rfl
    | none =>
      simp only
      split <;> simp [*]

theorem tokens_ws {b : UInt8} (h : isWs b = true) (text : Bytes) : tokens (b :: text) = tokens text := by
  rw [tokens_cons, if_pos h]

theorem tokens_str {text raw rest : Bytes} (h : scanStr text = some (raw, rest)) :
    tokens (34 :: text) = (tokens rest).map (.str raw :: ·) := by
  rw [tokens_cons, if_neg (by decide), if_pos rfl, h, Option.bind_some]

theorem tokens_punctuation {b : UInt8} {t : Token} (h : punctuation b = some t) (text : Bytes) :
    tokens (b :: text) = (tokens text).map (t :: ·) := by
  have hws : isWs b = false := by
    by_contra hc
    simp only [isWs, Bool.not_eq_false, decide_eq_true_eq] at hc
    rcases hc with rfl | rfl | rfl | rfl <;> cases h
  have hquote : b ≠ 34 := by
    rintro rfl
    cases h
  rw [tokens_cons, if_neg (by simp [hws]), if_neg hquote, h]

theorem tokens_scalar {b : UInt8} {text rest : Bytes} (hws : isWs b = false) (hq : b ≠ 34)
    (hp : punctuation b = none) (h : scanScalar (b :: text) = some rest) :
    ∃ lex, b :: text = lex ++ rest ∧ lex ≠ [] ∧ (∀ b ∈ lex, scalarByte b = true) ∧
      (∀ rest', Follows rest rest' → tokens (lex ++ rest') = (tokens rest').map (.scalar lex :: ·)) ∧
      (b :: text).take (text.length + 1 - rest.length) = lex := by
  obtain ⟨lex, hlex, h0, hne, hcut⟩ := scanScalar_cut h
  have hraw {text' rest' : Bytes} (hcat : b :: text' = lex ++ rest') :
      (b :: text').take (text'.length + 1 - rest'.length) = lex := by
    have hlen := congrArg List.length hcat
    rw [hcat]
    exact List.take_left' (by simp at hlen; omega)
  have htoken {text' rest' : Bytes} (hcat : b :: text' = lex ++ rest')
      (hscan : scanScalar (b :: text') = some rest') :
      tokens (b :: text') = (tokens rest').map (.scalar lex :: ·) := by
    rw [tokens_cons, if_neg (by simp [hws]), if_neg hq, hp]
    simp only [hscan, Option.bind_some, hraw hcat]
  refine ⟨lex, hlex, hne, h0, fun rest' hb => ?_, hraw hlex⟩
  cases lex with
  | nil => exact absurd rfl hne
  | cons c lex =>
    obtain rfl := (List.cons.inj hlex).1
    exact htoken rfl (hcut rest' hb)

/-- A scalar in front of what does not continue it. -/
theorem tokens_scalar_append {lex rest : Bytes} (h : scanScalar lex = some [])
    (hhead : ∀ b ∈ lex.head?, isWs b = false ∧ b ≠ 34 ∧ punctuation b = none) (hrest : Breaks rest) :
    tokens (lex ++ rest) = (tokens rest).map (.scalar lex :: ·) := by
  cases lex with
  | nil => cases h
  | cons b text =>
    obtain ⟨hws, hq, hp⟩ := hhead b rfl
    obtain ⟨lex, hlex, -, -, hcut, -⟩ := tokens_scalar hws hq hp h
    rw [List.append_nil] at hlex
    rw [hlex]
    exact hcut rest (.inr hrest)

/-- Texts are cut into tokens one after the other. -/
theorem tokens_append {x y : Bytes} {ts : List Token} (hx : tokens x = some ts) (hy : Breaks y) :
    tokens (x ++ y) = (tokens y).map (ts ++ ·) := by
  fun_induction tokens x generalizing ts with
  | case1 =>
    cases hx
    simp
  | case2 b x hws ih => rw [List.cons_append, tokens_ws hws, ih hx]
  | case3 x hws h => cases hx
  | case4 x raw rest h hlt hws ih =>
    obtain ⟨us, hus, rfl⟩ := Option.map_eq_some_iff.mp hx
    obtain ⟨rfl, hcut⟩ := scanStr_cut h
    have happ : 34 :: (raw ++ 34 :: rest) ++ y = 34 :: (raw ++ 34 :: (rest ++ y)) := by simp
    rw [happ, tokens_str (hcut _), ih hus, Option.map_map]
    rfl
  | case5 b x hws hq t hp ih =>
    obtain ⟨us, hus, rfl⟩ := Option.map_eq_some_iff.mp hx
    rw [List.cons_append, tokens_punctuation hp, ih hus, Option.map_map]
    rfl
  | case6 b x hws hq hp h => cases hx
  | case7 b x hws hq hp rest h hlt ih =>
    obtain ⟨lex, hlex, -, -, hcut, hraw⟩ := tokens_scalar (by simpa using hws) hq hp h
    rw [hraw] at hx
    obtain ⟨us, hus, rfl⟩ := Option.map_eq_some_iff.mp hx
    have hfollows : Follows rest (rest ++ y) := by
      cases rest with
      | nil => exact .inr hy
      | cons c rest => exact .inl rfl
    rw [hlex, List.append_assoc, hcut _ hfollows, ih hus, Option.map_map]
    rfl

/-- A text that is cut into tokens can be split in front of a byte that is in no
scalar, when no quote follows. -/
theorem tokens_split {x y : Bytes} {ts : List Token} (h : tokens (x ++ y) = some ts) (hq : (34 : UInt8) ∉ y)
    (hy : ∀ b ∈ y.head?, scalarByte b = false) :
    ∃ us vs, tokens x = some us ∧ tokens y = some vs ∧ ts = us ++ vs := by
  induction hn : x.length using Nat.strong_induction_on generalizing x ts with
  | _ n ih =>
  cases x with
  | nil => exact ⟨[], ts, tokens_nil, h, rfl⟩
  | cons b x =>
    rw [List.cons_append] at h
    -- In each case the first token lies in `x`, and the rest is split further on.
    have hstep {x' : Bytes} {t : Token} (hlt : x'.length < n)
        (hcat : tokens (b :: (x ++ y)) = (tokens (x' ++ y)).map (t :: ·))
        (hx : tokens (b :: x) = (tokens x').map (t :: ·)) :
        ∃ us vs, tokens (b :: x) = some us ∧ tokens y = some vs ∧ ts = us ++ vs := by
      rw [hcat] at h
      obtain ⟨ts', hts', rfl⟩ := Option.map_eq_some_iff.mp h
      obtain ⟨us, vs, hus, hvs, rfl⟩ := ih x'.length hlt hts' rfl
      exact ⟨t :: us, vs, by rw [hx, hus, Option.map_some], hvs, rfl⟩
    have hlen : x.length + 1 = n := hn
    by_cases hws : isWs b = true
    · rw [tokens_ws hws] at h ⊢
      exact ih x.length (by omega) h rfl
    by_cases hquote : b = 34
    · subst hquote
      cases hs : scanStr (x ++ y) with
      | none =>
        rw [tokens_cons, if_neg hws, if_pos rfl, hs] at h
        cases h
      | some p =>
        obtain ⟨raw, rest⟩ := p
        obtain ⟨hcat, hcut⟩ := scanStr_cut hs
        -- The closing quote is not in `y`.
        obtain ⟨x', rfl, rfl⟩ : ∃ x', x = raw ++ 34 :: x' ∧ rest = x' ++ y := by
          rcases List.append_eq_append_iff.mp hcat with ⟨z, hraw, hyz⟩ | ⟨z, hx, hz⟩
          · exact absurd (hyz ▸ List.mem_append_right z (by simp)) hq
          · cases z with
            | nil => exact absurd (List.nil_append y ▸ hz ▸ List.mem_cons_self) hq
            | cons c z =>
              obtain ⟨rfl, rfl⟩ := List.cons.inj hz
              exact ⟨z, hx, rfl⟩
        exact hstep (t := .str raw) (by simp at hlen; omega) (tokens_str hs) (tokens_str (hcut x'))
    cases hp : punctuation b with
    | some t => exact hstep (by omega) (tokens_punctuation hp _) (tokens_punctuation hp _)
    | none =>
      cases hs : scanScalar (b :: (x ++ y)) with
      | none =>
        rw [tokens_cons, if_neg hws, if_neg hquote, hp, hs] at h
        cases h
      | some rest =>
        obtain ⟨lex, hcat, hne, hbytes, hcut, hraw⟩ := tokens_scalar (by simpa using hws) hquote hp hs
        obtain ⟨x', hx, rfl⟩ : ∃ x', b :: x = lex ++ x' ∧ rest = x' ++ y := by
          rw [← List.cons_append] at hcat
          rcases List.append_eq_append_iff.mp hcat with ⟨z, hlex, hyz⟩ | ⟨z, hx, hz⟩
          · cases z with
            | nil => exact ⟨[], by simpa using hlex.symm, by simpa using hyz.symm⟩
            | cons c z =>
              have hc := hbytes c (by rw [hlex]; simp)
              rw [hy c (by rw [hyz]; rfl)] at hc
              cases hc
          · exact ⟨z, hx, hz⟩
        have hlt : x'.length < n := by
          have := congrArg List.length hx
          have := List.length_pos_of_ne_nil hne
          simp at *
          omega
        have hcat' : tokens (b :: (x ++ y)) = (tokens (x' ++ y)).map (.scalar lex :: ·) := by
          rw [hcat]
          exact hcut _ (.inl rfl)
        have hfollows : Follows (x' ++ y) x' := by
          cases x' with
          | nil => exact .inr fun b hb => by cases hb
          | cons c x' => exact .inl rfl
        exact hstep hlt hcat' (by rw [hx]; exact hcut _ hfollows)

end FractalSQL.Lib.Json
