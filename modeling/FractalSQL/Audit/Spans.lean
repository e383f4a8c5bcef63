import FractalSQL.Audit.Redact

/-!
# The spans of a document

On a text of the grammar the spans are the ones of its parts: a string ends at its
closing quote, the bracket counter passes over every part with nothing counted, and a
value ends where the grammar ends it.
-/
namespace FractalSQL.Audit
open Lib Lib.Json Lib.JsonGrammar

/-! ### Strings -/

theorem hexValue_ne {b : UInt8} {n : ℕ} (h : hexValue b = some n) : b ≠ 34 ∧ b ≠ 92 := by
  constructor <;> (rintro rfl; cases h)

theorem hex4_ne {a b c d : UInt8} {n : ℕ} (h : hex4 a b c d = some n) :
    (a ≠ 34 ∧ a ≠ 92) ∧ (b ≠ 34 ∧ b ≠ 92) ∧ (c ≠ 34 ∧ c ≠ 92) ∧ (d ≠ 34 ∧ d ≠ 92) := by
  unfold hex4 at h
  obtain ⟨na, ha, h⟩ := Option.bind_eq_some_iff.mp h
  obtain ⟨nb, hb, h⟩ := Option.bind_eq_some_iff.mp h
  obtain ⟨nc, hc, h⟩ := Option.bind_eq_some_iff.mp h
  obtain ⟨nd, hd, h⟩ := Option.bind_eq_some_iff.mp h
  exact ⟨hexValue_ne ha, hexValue_ne hb, hexValue_ne hc, hexValue_ne hd⟩

theorem stringContent_plain {b : UInt8} (hquote : b ≠ 34) (hesc : b ≠ 92) (p : Bytes) :
    stringContent (b :: p) = (stringContent p).map fun (raw, rest) => (b :: raw, rest) := by
  rw [stringContent, if_neg hquote]
  · exact fun hb _ => hesc hb
  · exact fun c p' hb _ => hesc hb

/-- A string of the grammar ends at the quote behind it. -/
theorem stringContent_append {raw : Bytes} (h : IsString raw) (rest : Bytes) :
    stringContent (raw ++ 34 :: rest) = some (raw, rest) := by
  unfold IsString at h
  fun_induction pieces raw with
  | case1 => rfl
  | case2 a b c d raw ih =>
    obtain ⟨ps, hps⟩ := Option.isSome_iff_exists.mp h
    obtain ⟨n, hn, hps⟩ := Option.bind_eq_some_iff.mp hps
    obtain ⟨qs, hqs, -⟩ := Option.bind_eq_some_iff.mp hps
    obtain ⟨⟨ha, ha'⟩, ⟨hb, hb'⟩, ⟨hc, hc'⟩, hd, hd'⟩ := hex4_ne hn
    simp only [List.cons_append]
    rw [stringContent, stringContent_plain ha ha', stringContent_plain hb hb', stringContent_plain hc hc',
      stringContent_plain hd hd', ih (Option.isSome_iff_exists.mpr ⟨qs, hqs⟩)]
    rfl
  | case3 e raw hne ih =>
    obtain ⟨ps, hps⟩ := Option.isSome_iff_exists.mp h
    obtain ⟨n, hn, hps⟩ := Option.bind_eq_some_iff.mp hps
    obtain ⟨qs, hqs, -⟩ := Option.bind_eq_some_iff.mp hps
    rw [List.cons_append, List.cons_append, stringContent, ih (Option.isSome_iff_exists.mpr ⟨qs, hqs⟩)]
    rfl
  | case4 b raw hhex hesc hbad => cases h
  | case5 b raw hhex hesc hok ih =>
    rw [Option.isSome_map] at h
    rw [not_or, not_or] at hok
    rw [List.cons_append, stringContent_plain hok.1 hok.2.1, ih h]
    rfl

theorem stringSpan_append {raw : Bytes} (h : IsString raw) (rest : Bytes) :
    stringSpan (34 :: (raw ++ 34 :: rest)) = some (raw, rest) := by
  rw [stringSpan, List.head?_cons, if_pos rfl]
  exact stringContent_append h rest

/-! ### The bracket counter -/

section Counter

variable {op cl : UInt8} {text : Bytes}

/-- The brackets of one kind. -/
def IsPair (op cl : UInt8) : Prop := op = 91 ∧ cl = 93 ∨ op = 123 ∧ cl = 125

/-- Inside a container of the kind the counter comes out of the text as it went in. -/
def Passes (op cl : UInt8) (text : Bytes) : Prop :=
  ∀ depth rest, bracketSpan op cl (depth + 1) (text ++ rest) = bracketSpan op cl (depth + 1) rest

theorem bracketSpan_plain {b : UInt8} (hquote : b ≠ 34) (hop : b ≠ op) (hcl : b ≠ cl) (depth : ℕ) (p : Bytes) :
    bracketSpan op cl depth (b :: p) = bracketSpan op cl depth p := by
  rw [bracketSpan, if_neg hquote, if_neg hop, if_neg hcl]

theorem bracketSpan_open (h : IsPair op cl) (depth : ℕ) (p : Bytes) :
    bracketSpan op cl depth (op :: p) = bracketSpan op cl (depth + 1) p := by
  have hquote : op ≠ 34 := by rcases h with ⟨rfl, -⟩ | ⟨rfl, -⟩ <;> decide
  rw [bracketSpan, if_neg hquote, if_pos rfl]

theorem bracketSpan_close (h : IsPair op cl) (depth : ℕ) (p : Bytes) :
    bracketSpan op cl depth (cl :: p) = if depth - 1 = 0 then some p else bracketSpan op cl (depth - 1) p := by
  have hne : cl ≠ 34 ∧ cl ≠ op := by rcases h with ⟨rfl, rfl⟩ | ⟨rfl, rfl⟩ <;> decide
  rw [bracketSpan, if_neg hne.1, if_neg hne.2, if_pos rfl]

theorem bracketSpan_string {raw : Bytes} (h : IsString raw) (depth : ℕ) (rest : Bytes) :
    bracketSpan op cl depth (34 :: (raw ++ 34 :: rest)) = bracketSpan op cl depth rest := by
  rw [bracketSpan, if_pos rfl]
  split
  · rename_i hnone
    rw [stringSpan_append h rest] at hnone
    cases hnone
  · rename_i found after hsome
    rw [stringSpan_append h rest] at hsome
    cases hsome
    rfl

theorem Passes.append {text' : Bytes} (h : Passes op cl text) (h' : Passes op cl text') :
    Passes op cl (text ++ text') := by
  intro depth rest
  rw [List.append_assoc, h, h']

theorem Passes.plain (h : ∀ b ∈ text, b ≠ 34 ∧ b ≠ op ∧ b ≠ cl) : Passes op cl text := by
  intro depth rest
  induction text with
  | nil => rfl
  | cons b text ih =>
    obtain ⟨hquote, hop, hcl⟩ := h b (List.mem_cons_self ..)
    rw [List.cons_append, bracketSpan_plain hquote hop hcl]
    exact ih fun c hc => h c (List.mem_cons_of_mem b hc)

theorem Passes.string {raw : Bytes} (h : IsString raw) : Passes op cl (34 :: (raw ++ [34])) := by
  intro depth rest
  rw [List.cons_append, List.append_assoc, List.singleton_append, bracketSpan_string h]

theorem Passes.nested (hpair : IsPair op cl) (h : Passes op cl text) : Passes op cl (op :: (text ++ [cl])) := by
  intro depth rest
  rw [List.cons_append, List.append_assoc, List.singleton_append, bracketSpan_open hpair, h, bracketSpan_close hpair,
    Nat.add_sub_cancel, if_neg (Nat.succ_ne_zero depth)]

/-- A container of either kind is passed over when what is in it is. -/
theorem Passes.container {op' cl' : UInt8} (hpair : IsPair op cl) (hpair' : IsPair op' cl') (h : Passes op cl text) :
    Passes op cl (op' :: (text ++ [cl'])) := by
  by_cases hop : op' = op
  · have hcl : cl' = cl := by
      rcases hpair with ⟨rfl, rfl⟩ | ⟨rfl, rfl⟩ <;> rcases hpair' with ⟨rfl, rfl⟩ | ⟨rfl, rfl⟩ <;> first | rfl | cases hop
    rw [hop, hcl]
    exact h.nested hpair
  · have hplain : (op' ≠ 34 ∧ op' ≠ op ∧ op' ≠ cl) ∧ (cl' ≠ 34 ∧ cl' ≠ op ∧ cl' ≠ cl) := by
      rcases hpair with ⟨rfl, rfl⟩ | ⟨rfl, rfl⟩ <;> rcases hpair' with ⟨rfl, rfl⟩ | ⟨rfl, rfl⟩ <;>
        first | exact absurd rfl hop | decide
    have hopen : Passes op cl [op'] := Passes.plain (List.forall_mem_singleton.mpr hplain.1)
    have hclose : Passes op cl [cl'] := Passes.plain (List.forall_mem_singleton.mpr hplain.2)
    exact hopen.append (h.append hclose)

theorem scalarByte_ne {b : UInt8} (hpair : IsPair op cl) (h : scalarByte b = true) : b ≠ 34 ∧ b ≠ op ∧ b ≠ cl := by
  rcases hpair with ⟨rfl, rfl⟩ | ⟨rfl, rfl⟩ <;> refine ⟨?_, ?_, ?_⟩ <;> (rintro rfl; revert h; decide)

theorem ws_ne {b : UInt8} (hpair : IsPair op cl) (h : isWs b = true) : b ≠ 34 ∧ b ≠ op ∧ b ≠ cl := by
  rcases hpair with ⟨rfl, rfl⟩ | ⟨rfl, rfl⟩ <;> refine ⟨?_, ?_, ?_⟩ <;> (rintro rfl; revert h; decide)

theorem passes_ws (hpair : IsPair op cl) {w : Bytes} (h : Ws w) : Passes op cl w :=
  Passes.plain fun b hb => ws_ne hpair (h b hb)

/-- Every part of a text is passed over. -/
theorem passes_derived (hpair : IsPair op cl) {part : Part} (h : Derives text part) : Passes op cl text := by
  have hbyte {b : UInt8} (hb : b = 44 ∨ b = 58) : Passes op cl [b] := by
    apply Passes.plain
    rw [List.forall_mem_singleton]
    rcases hpair with ⟨rfl, rfl⟩ | ⟨rfl, rfl⟩ <;> rcases hb with rfl | rfl <;> decide
  have hsquare : IsPair 91 93 := .inl ⟨rfl, rfl⟩
  have hcurly : IsPair 123 125 := .inr ⟨rfl, rfl⟩
  induction h with
  | scalar h => exact Passes.plain fun b hb => scalarByte_ne hpair (h.scalar b hb)
  | str h => exact Passes.string h
  | emptyArr h => exact (passes_ws hpair h).container hpair hsquare
  | arr h ih => exact ih.container hpair hsquare
  | emptyObj h => exact (passes_ws hpair h).container hpair hcurly
  | obj h ih => exact ih.container hpair hcurly
  | element hw h hw' ih => exact (passes_ws hpair hw).append (ih.append (passes_ws hpair hw'))
  | @member w key w' text t hw hkey hw' h ih =>
    have hall := (passes_ws hpair hw).append ((Passes.string hkey).append ((passes_ws hpair hw').append
      ((hbyte (.inr rfl)).append ih)))
    simpa using hall
  | item h ih => exact ih
  | items h hrest ih ihrest => exact ih.append ((hbyte (.inl rfl)).append ihrest)
  | single h ih => exact ih
  | members h hrest ih ihrest => exact ih.append ((hbyte (.inl rfl)).append ihrest)

/-- The counter stops at the bracket that closes the container. -/
theorem bracketSpan_container (hpair : IsPair op cl) (h : Passes op cl text) (rest : Bytes) :
    bracketSpan op cl 0 (op :: (text ++ [cl]) ++ rest) = some rest := by
  rw [List.cons_append, List.append_assoc, List.singleton_append, bracketSpan_open hpair, h, bracketSpan_close hpair,
    if_pos rfl]

end Counter

/-! ### Values -/

/-- What follows does not continue a number. -/
def Ends (rest : Bytes) : Prop := ∀ b ∈ rest.head?, numberByte b = false

theorem skipWs_append {w : Bytes} (h : Ws w) (p : Bytes) : skipWs (w ++ p) = skipWs p :=
  List.dropWhile_append_of_pos h

theorem skipWs_cons {b : UInt8} (h : isWs b = false) (p : Bytes) : skipWs (b :: p) = b :: p :=
  List.dropWhile_cons_of_neg (by rw [h]; exact Bool.false_ne_true)

theorem valueSpan_append {w : Bytes} (h : Ws w) (p : Bytes) : valueSpan (w ++ p) = valueSpan p := by
  rw [valueSpan, skipWs_append h, valueSpan]

theorem upTo_append (v rest : Bytes) : upTo (v ++ rest) rest = v := by
  rw [upTo, List.length_append, Nat.add_sub_cancel, List.take_left]

theorem numberByte_of_numeric {b : UInt8} (h : Numeric b) : numberByte b = true := by
  rw [numberByte, decide_eq_true_eq]
  exact h.symm

theorem scalarByte_not_ws {b : UInt8} (h : scalarByte b = true) : isWs b = false := by
  cases hws : isWs b with
  | false => rfl
  | true => rcases of_decide_eq_true hws with rfl | rfl | rfl | rfl <;> cases h

theorem ws_not_number {b : UInt8} (h : isWs b = true) : numberByte b = false := by
  rcases of_decide_eq_true h with rfl | rfl | rfl | rfl <;> rfl

/-- A value begins with a byte that is no white space and closes nothing. -/
theorem head_of_value {v : Bytes} {t : Tree} (h : Derives v (.value t)) :
    ∃ b v', v = b :: v' ∧ isWs b = false ∧ b ≠ 93 ∧ b ≠ 125 := by
  have hscalar {b : UInt8} (hb : scalarByte b = true) : isWs b = false ∧ b ≠ 93 ∧ b ≠ 125 :=
    ⟨scalarByte_not_ws hb, (scalarByte_ne (.inl ⟨rfl, rfl⟩) hb).2.2, (scalarByte_ne (.inr ⟨rfl, rfl⟩) hb).2.2⟩
  cases h with
  | scalar h =>
    cases v with
    | nil => exact absurd rfl h.ne_nil
    | cons b v' => exact ⟨b, v', rfl, hscalar (h.scalar b (List.mem_cons_self ..))⟩
  | str h => exact ⟨34, _, rfl, by decide⟩
  | emptyArr h => exact ⟨91, _, rfl, by decide⟩
  | arr h => exact ⟨91, _, rfl, by decide⟩
  | emptyObj h => exact ⟨123, _, rfl, by decide⟩
  | obj h => exact ⟨123, _, rfl, by decide⟩

def isStr : Tree → Bool
  | .str _ => true
  | _ => false

theorem skipWs_value {v : Bytes} {t : Tree} (h : Derives v (.value t)) (rest : Bytes) : skipWs (v ++ rest) = v ++ rest := by
  obtain ⟨b, v', rfl, hb, -⟩ := head_of_value h
  exact skipWs_cons hb _

theorem valueSpan_literal {lex : Bytes} (h : lex = ascii "null" ∨ lex = ascii "true" ∨ lex = ascii "false")
    (rest : Bytes) : valueSpan (lex ++ rest) = some ⟨lex, false, rest⟩ := by
  rcases h with rfl | rfl | rfl <;> rfl

theorem valueSpan_number {lex rest : Bytes} (h : IsNumber lex) (hends : Ends rest) :
    valueSpan (lex ++ rest) = some ⟨lex, false, rest⟩ := by
  have hall : ∀ b ∈ lex, numberByte b = true := fun b hb => numberByte_of_numeric (h.numeric b hb)
  have htake : (lex ++ rest).takeWhile numberByte = lex := by
    rw [List.takeWhile_append_of_pos hall]
    cases rest with
    | nil => exact List.append_nil _
    | cons c rest => rw [List.takeWhile_cons_of_neg (by simp [hends c rfl]), List.append_nil]
  have hdrop : (lex ++ rest).dropWhile numberByte = rest := by
    rw [List.dropWhile_append_of_pos hall]
    cases rest with
    | nil => rfl
    | cons c rest => rw [List.dropWhile_cons_of_neg (by simp [hends c rfl])]
  obtain ⟨b, more, rfl, hb⟩ := h.head
  have hne : b ≠ 34 ∧ b ≠ 123 ∧ b ≠ 91 ∧ b ≠ 116 ∧ b ≠ 110 ∧ b ≠ 102 := by
    refine ⟨?_, ?_, ?_, ?_, ?_, ?_⟩ <;> (rintro rfl; revert hb; decide)
  have hhead {c : UInt8} (hc : b ≠ c) : ¬ (b :: (more ++ rest)).head? = some c := fun heq => hc (Option.some.inj heq)
  have hliteral (lit : Bytes) (hc : ∀ c ∈ lit.head?, b ≠ c) (hlit : lit ≠ []) :
      ¬ lit.isPrefixOf (b :: (more ++ rest)) = true := by
    intro hprefix
    cases lit with
    | nil => exact hlit rfl
    | cons c lit => exact hc c rfl (List.cons_prefix_cons.mp (List.isPrefixOf_iff_prefix.mp hprefix)).1.symm
  have htrue := hliteral (ascii "true") (fun c hc => Option.some.inj hc ▸ hne.2.2.2.1) (by decide)
  have hnull := hliteral (ascii "null") (fun c hc => Option.some.inj hc ▸ hne.2.2.2.2.1) (by decide)
  have hfalse := hliteral (ascii "false") (fun c hc => Option.some.inj hc ▸ hne.2.2.2.2.2) (by decide)
  have hnumber : (b :: (more ++ rest)).head?.any (fun b => decide (b = 45 ∨ isDigit b)) = true := decide_eq_true hb
  have hws : isWs b = false := scalarByte_not_ws (h.numeric b (List.mem_cons_self ..)).scalar
  unfold valueSpan
  rw [List.cons_append] at htake hdrop
  rw [List.cons_append, skipWs_cons hws]
  dsimp only
  rw [htake, hdrop, if_neg (hhead hne.1), if_neg (hhead hne.2.1), if_neg (hhead hne.2.2.1),
    if_neg (not_or.mpr ⟨htrue, hnull⟩), if_neg hfalse, if_pos hnumber]

/-- A container of either kind is the span from its first bracket to its last. -/
theorem valueSpan_container {op cl : UInt8} {text : Bytes} (hpair : IsPair op cl) (h : Passes op cl text) (rest : Bytes) :
    valueSpan (op :: (text ++ [cl]) ++ rest) = some ⟨op :: (text ++ [cl]), false, rest⟩ := by
  have hspan := bracketSpan_container hpair h rest
  have hraw : upTo (op :: (text ++ [cl]) ++ rest) rest = op :: (text ++ [cl]) := upTo_append _ rest
  rcases hpair with ⟨rfl, rfl⟩ | ⟨rfl, rfl⟩
  · have hskip : skipWs (91 :: (text ++ [93]) ++ rest) = 91 :: (text ++ [93]) ++ rest := skipWs_cons rfl _
    rw [valueSpan, hskip]
    change (bracketSpan 91 93 0 _).map _ = _
    rw [hspan, Option.map_some, hraw]
  · have hskip : skipWs (123 :: (text ++ [125]) ++ rest) = 123 :: (text ++ [125]) ++ rest := skipWs_cons rfl _
    rw [valueSpan, hskip]
    change (bracketSpan 123 125 0 _).map _ = _
    rw [hspan, Option.map_some, hraw]

/-- The span of a value is the value. -/
theorem valueSpan_value {v : Bytes} {t : Tree} (h : Derives v (.value t)) {rest : Bytes} (hends : Ends rest) :
    valueSpan (v ++ rest) = some ⟨v, isStr t, rest⟩ := by
  have hsquare : IsPair 91 93 := .inl ⟨rfl, rfl⟩
  have hcurly : IsPair 123 125 := .inr ⟨rfl, rfl⟩
  cases h with
  | scalar h =>
    cases h with
    | literal h => exact valueSpan_literal h rest
    | number h => exact valueSpan_number h hends
  | @str raw h =>
    have hspan : stringSpan (34 :: (raw ++ [34]) ++ rest) = some (raw, rest) := by
      rw [List.cons_append, List.append_assoc, List.singleton_append, stringSpan_append h]
    have hskip : skipWs (34 :: (raw ++ [34]) ++ rest) = 34 :: (raw ++ [34]) ++ rest := skipWs_cons rfl _
    rw [valueSpan, hskip]
    change (stringSpan _).map _ = _
    rw [hspan, Option.map_some]
    dsimp only
    rw [upTo_append]
    rfl
  | emptyArr h => exact valueSpan_container hsquare (passes_ws hsquare h) rest
  | arr h => exact valueSpan_container hsquare (passes_derived hsquare h) rest
  | emptyObj h => exact valueSpan_container hcurly (passes_ws hcurly h) rest
  | obj h => exact valueSpan_container hcurly (passes_derived hcurly h) rest

end FractalSQL.Audit
