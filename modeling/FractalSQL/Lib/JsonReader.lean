import FractalSQL.Lib.JsonNesting

/-!
# Reading JSON

A reader by fuel for every kind of part. It accepts what the grammar derives and nothing else,
so a text has at most one tree.
-/
namespace FractalSQL.Lib.JsonGrammar
open Json

/-! ### The reader -/

def isInt (ds : Bytes) : Bool := ds = [48] ∨ (ds ≠ [] ∧ ds.head? ≠ some 48)

def isNumber (lex : Bytes) : Bool :=
  isInt ((skipMinus lex).takeWhile isDigit) ∧ (scanFraction ((skipMinus lex).dropWhile isDigit)).bind scanExponent = some []

def isScalar (lex : Bytes) : Bool :=
  lex = ascii "null" ∨ lex = ascii "true" ∨ lex = ascii "false" ∨ isNumber lex

/-- A scalar ends where no more of its bytes follow. -/
def readScalar (s : Bytes) : Option (Part × Bytes) :=
  if isScalar (s.takeWhile scalarByte) then some (.value (.scalar (s.takeWhile scalarByte)), s.dropWhile scalarByte) else none

def readString (s : Bytes) : Option (Bytes × Bytes) := (scanStr s).filter fun r => IsString r.1

def skipBlank (s : Bytes) : Bytes := s.dropWhile isWs

/-- What was read of the text. -/
def readOf (s rest : Bytes) : Bytes := s.take (s.length - rest.length)

/-- The part of some kind at the front of the text, and what follows it. -/
def readPart : ℕ → Kind → Bytes → Option (Part × Bytes)
  | 0, _, _ => none
  | _ + 1, .value, [] => none
  | n + 1, .value, b :: s =>
    if b = 34 then (readString s).map fun r => (.value (.str r.1), r.2)
    else if b = 91 then
      if (skipBlank s).head? = some 93 then
        some (.value (.arr (readOf (b :: s) ((skipBlank s).drop 1)) []), (skipBlank s).drop 1)
      else match readPart n .items s with
        | some (.items ts, 93 :: rest) => some (.value (.arr (readOf (b :: s) rest) ts), rest)
        | _ => none
    else if b = 123 then
      if (skipBlank s).head? = some 125 then
        some (.value (.obj (readOf (b :: s) ((skipBlank s).drop 1)) []), (skipBlank s).drop 1)
      else match readPart n .members s with
        | some (.members ms, 125 :: rest) => some (.value (.obj (readOf (b :: s) rest) ms), rest)
        | _ => none
    else readScalar (b :: s)
  | n + 1, .element, s =>
    match readPart n .value (skipBlank s) with
    | some (.value t, rest) => some (.element t, skipBlank rest)
    | _ => none
  | n + 1, .member, s =>
    match skipBlank s with
    | 34 :: s =>
      match readString s with
      | none => none
      | some (key, s) =>
        match skipBlank s with
        | 58 :: s =>
          match readPart n .element s with
          | some (.element t, rest) => some (.member key t, rest)
          | _ => none
        | _ => none
    | _ => none
  | n + 1, .items, s =>
    match readPart n .element s with
    | some (.element t, 44 :: s) =>
      match readPart n .items s with
      | some (.items ts, rest) => some (.items (t :: ts), rest)
      | _ => none
    | some (.element t, rest) => some (.items [t], rest)
    | _ => none
  | n + 1, .members, s =>
    match readPart n .member s with
    | some (.member key t, 44 :: s) =>
      match readPart n .members s with
      | some (.members ms, rest) => some (.members ((key, t) :: ms), rest)
      | _ => none
    | some (.member key t, rest) => some (.members [(key, t)], rest)
    | _ => none

/-- The tree of a JSON text. -/
def readJson (s : Bytes) : Option Tree :=
  match readPart (2 * s.length + 1) .element s with
  | some (.element t, []) => some t
  | _ => none

/-! ### Scalars -/

theorem IsInt.isInt {ds : Bytes} (h : IsInt ds) : isInt ds = true := by
  cases h with
  | zero => decide
  | digits h hzero => exact decide_eq_true (.inr ⟨h.1, hzero⟩)

theorem isInt_sound {ds : Bytes} (h : isInt ds = true) (hd : ∀ d ∈ ds, isDigit d = true) : IsInt ds := by
  rcases of_decide_eq_true h with rfl | ⟨hne, hzero⟩
  · exact .zero
  · exact .digits ⟨hne, hd⟩ hzero

/-- What stands behind the digits of a number begins with no digit. -/
theorem frac_exp_head {frac exp : Bytes} (hfrac : IsFrac frac) (hexp : IsExp exp) :
    ∀ b ∈ (frac ++ exp).head?, isDigit b = false := by
  cases hfrac with
  | point h => rintro b ⟨⟩; decide
  | none =>
    cases hexp with
    | none => nofun
    | plain he h | signed he hs h => rcases he with rfl | rfl <;> (rintro b ⟨⟩; decide)

theorem scanExponent_exp {exp : Bytes} (h : IsExp exp) : scanExponent exp = some [] := by
  have hscan {ds : Bytes} (h : Digits ds) : scanDigits ds = some [] := by
    have happ : scanDigits (ds ++ []) = some [] := scanDigits_append h.1 h.2 nofun
    rwa [List.append_nil] at happ
  cases h with
  | none => rfl
  | plain he h =>
    rename_i e ds
    have hsign : skipSign ds = ds := by
      cases ds with
      | nil => rfl
      | cons d ds =>
        have hd := h.2 d (List.mem_cons_self ..)
        rw [skipSign]
        all_goals
          intro s heq
          rw [(List.cons.inj heq).1] at hd
          cases hd
    rcases he with rfl | rfl
    · change scanDigits (skipSign ds) = some []
      rw [hsign, hscan h]
    · change scanDigits (skipSign ds) = some []
      rw [hsign, hscan h]
  | signed he hs h => rcases he with rfl | rfl <;> rcases hs with rfl | rfl <;> exact hscan h

theorem scanFraction_frac {frac exp : Bytes} (hfrac : IsFrac frac) (hexp : IsExp exp) : scanFraction (frac ++ exp) = some exp := by
  cases hfrac with
  | point h => exact scanDigits_append h.1 h.2 (frac_exp_head .none hexp)
  | none =>
    cases hexp with
    | none => rfl
    | plain he h | signed he hs h => rcases he with rfl | rfl <;> rfl

theorem unsigned_isNumber {int frac exp : Bytes} (hint : IsInt int) (hfrac : IsFrac frac) (hexp : IsExp exp) :
    isInt ((int ++ (frac ++ exp)).takeWhile isDigit) = true ∧
      (scanFraction ((int ++ (frac ++ exp)).dropWhile isDigit)).bind scanExponent = some [] := by
  have hhead := frac_exp_head hfrac hexp
  rw [takeWhile_digits hint.digits_of.2 hhead, dropWhile_digits hint.digits_of.2 hhead, scanFraction_frac hfrac hexp]
  exact ⟨hint.isInt, scanExponent_exp hexp⟩

theorem IsNumber.isNumber {lex : Bytes} (h : IsNumber lex) : isNumber lex = true := by
  cases h with
  | @plain int frac exp hint hfrac hexp =>
    have hminus : skipMinus (int ++ (frac ++ exp)) = int ++ (frac ++ exp) := by
      obtain ⟨hne, hd⟩ := hint.digits_of
      cases int with
      | nil => exact absurd rfl hne
      | cons d int =>
        have hdigit := hd d (List.mem_cons_self ..)
        rw [List.cons_append, skipMinus]
        intro s heq
        rw [(List.cons.inj heq).1] at hdigit
        cases hdigit
    unfold JsonGrammar.isNumber
    rw [hminus]
    exact decide_eq_true (unsigned_isNumber hint hfrac hexp)
  | negative hint hfrac hexp => exact decide_eq_true (unsigned_isNumber hint hfrac hexp)

theorem IsScalar.isScalar {lex : Bytes} (h : IsScalar lex) : isScalar lex = true := by
  cases h with
  | literal h =>
    rcases h with rfl | rfl | rfl
    · decide
    · decide
    · decide
  | number h => exact decide_eq_true (.inr (.inr (.inr h.isNumber)))

theorem digits_of_scan {s rest : Bytes} (h : scanDigits s = some rest) : ∃ ds, Digits ds ∧ s = ds ++ rest := by
  obtain ⟨ds, hne, hd, hs, -⟩ := scanDigits_eq_some h
  exact ⟨ds, ⟨hne, hd⟩, hs⟩

theorem scanFraction_sound {s rest : Bytes} (h : scanFraction s = some rest) : ∃ frac, IsFrac frac ∧ s = frac ++ rest := by
  fun_cases scanFraction s with
  | case1 s =>
    obtain ⟨ds, hds, rfl⟩ := digits_of_scan h
    exact ⟨46 :: ds, .point hds, rfl⟩
  | case2 s hne =>
    have hsame : scanFraction s = some s := by
      rw [scanFraction]
      exact hne
    exact ⟨[], .none, Option.some.inj (hsame.symm.trans h)⟩

theorem scanExponent_sound {s : Bytes} (h : scanExponent s = some []) : IsExp s := by
  have hsigned {e : UInt8} (he : e = 101 ∨ e = 69) {s : Bytes} (h : scanDigits (skipSign s) = some []) : IsExp (e :: s) := by
    obtain ⟨ds, hds, happ⟩ := digits_of_scan h
    rw [List.append_nil] at happ
    fun_cases skipSign s with
    | case1 s => exact .signed he (.inl rfl) (happ ▸ hds : Digits (skipSign (43 :: s)))
    | case2 s => exact .signed he (.inr rfl) (happ ▸ hds : Digits (skipSign (45 :: s)))
    | case3 s hplus hminus =>
      have hsame : skipSign s = s := by
        rw [skipSign]
        · exact hplus
        · exact hminus
      exact .plain he (hsame ▸ happ ▸ hds)
  fun_cases scanExponent s with
  | case1 s => exact hsigned (.inl rfl) h
  | case2 s => exact hsigned (.inr rfl) h
  | case3 s he hE =>
    have hsame : scanExponent s = some s := by
      rw [scanExponent]
      · exact he
      · exact hE
    obtain rfl := Option.some.inj (hsame.symm.trans h)
    exact .none

theorem isNumber_sound {lex : Bytes} (h : isNumber lex = true) : IsNumber lex := by
  obtain ⟨hint, hrest⟩ := of_decide_eq_true h
  obtain ⟨exp, hfrac, hexp⟩ := Option.bind_eq_some_iff.mp hrest
  obtain ⟨frac, hisfrac, happ⟩ := scanFraction_sound hfrac
  have hdigits := isInt_sound hint fun d hd => List.mem_takeWhile_imp hd
  have hsplit : (skipMinus lex).takeWhile isDigit ++ (frac ++ exp) = skipMinus lex := by
    rw [← happ, List.takeWhile_append_dropWhile]
  fun_cases skipMinus lex with
  | case1 s =>
    change _ ++ _ = s at hsplit
    rw [← hsplit]
    exact .negative hdigits hisfrac (scanExponent_sound hexp)
  | case2 s hne =>
    have hsame : skipMinus lex = lex := by
      rw [skipMinus]
      exact hne
    rw [hsame] at hsplit
    rw [← hsplit]
    exact .plain (hsame ▸ hdigits) hisfrac (scanExponent_sound hexp)

theorem isScalar_sound {lex : Bytes} (h : isScalar lex = true) : IsScalar lex := by
  rcases of_decide_eq_true h with h | h | h | h
  · exact .literal (.inl h)
  · exact .literal (.inr (.inl h))
  · exact .literal (.inr (.inr h))
  · exact .number (isNumber_sound h)

/-! ### White space and strings -/

theorem skipBlank_append {w rest : Bytes} (hw : Ws w) (hrest : ∀ b ∈ rest.head?, isWs b = false) : skipBlank (w ++ rest) = rest := by
  rw [skipBlank, List.dropWhile_append_of_pos hw]
  cases rest with
  | nil => rfl
  | cons b rest => rw [List.dropWhile_cons_of_neg (by simp [hrest b rfl])]

theorem skipBlank_spec (s : Bytes) : ∃ w, Ws w ∧ s = w ++ skipBlank s :=
  ⟨s.takeWhile isWs, fun _ hb => List.mem_takeWhile_imp hb, List.takeWhile_append_dropWhile.symm⟩

theorem scanStr_byte {b : UInt8} (h92 : b ≠ 92) (h34 : b ≠ 34) (h32 : ¬ b < 32) (s : Bytes) :
    scanStr (b :: s) = (scanStr s).map fun r => (b :: r.1, r.2) := by
  rw [scanStr, if_neg h34, if_neg h32]
  all_goals
    intros
    exact absurd ‹b = 92› h92

theorem scanStr_hex {b : UInt8} (h : (hexValue b).isSome = true) (s : Bytes) :
    scanStr (b :: s) = (scanStr s).map fun r => (b :: r.1, r.2) := by
  have hplain : b ≠ 92 ∧ b ≠ 34 ∧ ¬ b < 32 := by
    refine forall_byte (p := fun b => (hexValue b).isSome = true → b ≠ 92 ∧ b ≠ 34 ∧ ¬ b < 32) ?_ b h
    decide +kernel
  exact scanStr_byte hplain.1 hplain.2.1 hplain.2.2 s

theorem hex4_isSome {a b c d : UInt8} (h : (hex4 a b c d).isSome = true) :
    (hexValue a).isSome = true ∧ (hexValue b).isSome = true ∧ (hexValue c).isSome = true ∧ (hexValue d).isSome = true := by
  obtain ⟨n, h⟩ := Option.isSome_iff_exists.mp h
  obtain ⟨i, hi, h⟩ := Option.bind_eq_some_iff.mp h
  obtain ⟨j, hj, h⟩ := Option.bind_eq_some_iff.mp h
  obtain ⟨k, hk, h⟩ := Option.bind_eq_some_iff.mp h
  obtain ⟨l, hl, h⟩ := Option.bind_eq_some_iff.mp h
  rw [hi, hj, hk, hl]
  exact ⟨rfl, rfl, rfl, rfl⟩

/-- The scan of a string ends at its quote. -/
theorem scanStr_append {raw : Bytes} (h : IsString raw) (rest : Bytes) : scanStr (raw ++ 34 :: rest) = some (raw, rest) := by
  unfold IsString at h
  fun_induction pieces raw with
  | case1 => rfl
  | case2 a b c d raw ih =>
    obtain ⟨hhex, hraw⟩ := pieces_isSome_of_bind h
    obtain ⟨ha, hb, hc, hd⟩ := hex4_isSome hhex
    simp only [List.cons_append]
    rw [scanStr, scanStr_hex ha, scanStr_hex hb, scanStr_hex hc, scanStr_hex hd, ih hraw]
    rfl
  | case3 e raw _ ih =>
    obtain ⟨-, hraw⟩ := pieces_isSome_of_bind h
    simp only [List.cons_append]
    rw [scanStr, ih hraw]
    rfl
  | case4 => cases h
  | case5 b raw _ _ hb ih =>
    rw [not_or, not_or] at hb
    rw [Option.isSome_map] at h
    rw [List.cons_append, scanStr_byte hb.2.1 hb.1 hb.2.2, ih h]
    rfl

theorem readString_append {raw : Bytes} (h : IsString raw) (rest : Bytes) : readString (raw ++ 34 :: rest) = some (raw, rest) := by
  rw [readString, scanStr_append h, Option.filter_some]
  exact if_pos (decide_eq_true h)

theorem readString_sound {s raw rest : Bytes} (h : readString s = some (raw, rest)) : IsString raw ∧ s = raw ++ 34 :: rest := by
  obtain ⟨hscan, hraw⟩ := Option.filter_eq_some_iff.mp h
  exact ⟨of_decide_eq_true hraw, (scanStr_cut hscan).1⟩

theorem readOf_append (text rest : Bytes) : readOf (text ++ rest) rest = text := by
  rw [readOf, List.length_append, Nat.add_sub_cancel, List.take_left]

/-! ### What is derived is read -/

/-- What may stand behind a part. -/
def Kind.Ends : Kind → Bytes → Prop
  | .value, rest => ∀ b ∈ rest.head?, scalarByte b = false
  | .element, rest | .member, rest => ∀ b ∈ rest.head?, b = 44 ∨ b = 93 ∨ b = 125
  | .items, rest | .members, rest => ∀ b ∈ rest.head?, b = 93 ∨ b = 125

/-- The fuel that reads so many bytes. -/
def Kind.fuel (n : ℕ) : Kind → ℕ
  | .value => 2 * n
  | .element | .member => 2 * n + 1
  | .items | .members => 2 * n + 2

/-- No byte of a scalar is white space or opens or closes anything. -/
theorem notMem_of_scalarByte {b : UInt8} (h : scalarByte b = true) :
    b ∉ ([32, 9, 10, 13, 34, 44, 91, 93, 123, 125] : Bytes) := by
  refine notMem_of_class ?_ h
  unfold scalarByte
  rw [ascii_ofList]
  decide

theorem scalarByte_of_isWs {b : UInt8} (h : isWs b = true) : scalarByte b = false := by
  rw [← Bool.not_eq_true]
  intro hb
  have hmem : b ∈ ([32, 9, 10, 13] : Bytes) := by simpa [isWs] using h
  exact notMem_of_scalarByte hb (List.mem_append_left [34, 44, 91, 93, 123, 125] hmem)

/-- A value begins with a byte that is no white space and closes nothing. -/
theorem Derives.value_head {v : Bytes} {t : Tree} (h : Derives v (.value t)) :
    ∃ b v', v = b :: v' ∧ isWs b = false ∧ b ≠ 93 ∧ b ≠ 125 := by
  cases h with
  | scalar h =>
    cases v with
    | nil => exact absurd rfl h.ne_nil
    | cons b v' =>
      have hb := h.scalar b (List.mem_cons_self ..)
      have hplain : isWs b = false ∧ b ≠ 93 ∧ b ≠ 125 := by
        have hno := notMem_of_scalarByte hb
        simp only [List.mem_cons, not_or] at hno
        simp [isWs, hno]
      exact ⟨b, v', rfl, hplain⟩
  | str h => exact ⟨34, _, rfl, by decide⟩
  | emptyArr h => exact ⟨91, _, rfl, by decide⟩
  | arr h => exact ⟨91, _, rfl, by decide⟩
  | emptyObj h => exact ⟨123, _, rfl, by decide⟩
  | obj h => exact ⟨123, _, rfl, by decide⟩

/-- Behind its white space a part begins with a byte that closes nothing. -/
theorem Derives.blank_head {text : Bytes} {part : Part} (h : Derives text part) (hpart : part.kind ≠ .value) (rest : Bytes) :
    ∃ b s, skipBlank (text ++ rest) = b :: s ∧ b ≠ 93 ∧ b ≠ 125 := by
  induction h generalizing rest with
  | scalar | str | emptyArr | arr | emptyObj | obj => exact absurd rfl hpart
  | @element w text w' t hw h hw' =>
    obtain ⟨b, v', rfl, hb, hne⟩ := h.value_head
    refine ⟨b, v' ++ (w' ++ rest), ?_, hne⟩
    rw [List.append_assoc, List.append_assoc, skipBlank_append hw (by rintro c ⟨⟩; exact hb)]
    rfl
  | item h ih => exact ih nofun rest
  | @items text rest' t ts h hrest ih ihrest =>
    rw [List.append_assoc]
    exact ih nofun _
  | @member w key w' text t hw hkey hw' h =>
    refine ⟨34, key ++ 34 :: (w' ++ 58 :: text) ++ rest, ?_, by decide⟩
    rw [List.append_assoc, skipBlank_append hw (by rintro c ⟨⟩; rfl)]
    rfl
  | single h ih => exact ih nofun rest
  | @members text rest' key t ms h hrest ih ihrest =>
    rw [List.append_assoc]
    exact ih nofun _

theorem Derives.ne_nil {text : Bytes} {part : Part} (h : Derives text part) : text ≠ [] := by
  rintro rfl
  by_cases hpart : part.kind = .value
  · cases part with
    | value t =>
      obtain ⟨b, v', hv, -⟩ := h.value_head
      cases hv
    | _ => cases hpart
  · obtain ⟨b, s, hs, -⟩ := h.blank_head hpart []
    cases hs

theorem readScalar_append {lex rest : Bytes} (h : IsScalar lex) (hrest : Kind.value.Ends rest) :
    readScalar (lex ++ rest) = some (.value (.scalar lex), rest) := by
  have htake : (lex ++ rest).takeWhile scalarByte = lex := by
    rw [List.takeWhile_append_of_pos h.scalar]
    cases rest with
    | nil => exact List.append_nil _
    | cons b rest => rw [List.takeWhile_cons_of_neg (by simp [hrest b rfl]), List.append_nil]
  have hdrop : (lex ++ rest).dropWhile scalarByte = rest := by
    rw [List.dropWhile_append_of_pos h.scalar]
    cases rest with
    | nil => rfl
    | cons b rest => rw [List.dropWhile_cons_of_neg (by simp [hrest b rfl])]
  rw [readScalar, htake, hdrop, if_pos h.isScalar]

/-- What ends an element is no white space and continues no scalar. -/
theorem ends_plain {rest : Bytes} (h : Kind.element.Ends rest) : ∀ b ∈ rest.head?, isWs b = false ∧ scalarByte b = false := by
  intro b hb
  have hmem : b ∈ ([44, 93, 125] : Bytes) := by
    rcases h b hb with rfl | rfl | rfl <;> simp
  have hall : ∀ b ∈ ([44, 93, 125] : Bytes), isWs b = false ∧ b ∈ ([32, 9, 10, 13, 34, 44, 91, 93, 123, 125] : Bytes) := by
    decide +kernel
  refine ⟨(hall b hmem).1, ?_⟩
  rw [← Bool.not_eq_true]
  exact fun hscalar => notMem_of_scalarByte hscalar (hall b hmem).2

theorem ends_ws {w rest : Bytes} (hw : Ws w) (h : Kind.element.Ends rest) : Kind.value.Ends (w ++ rest) := by
  intro b hb
  cases w with
  | nil => exact (ends_plain h b hb).2
  | cons c w =>
    obtain rfl := Option.some.inj hb
    have hc := hw c (List.mem_cons_self ..)
    exact scalarByte_of_isWs hc

theorem opener_not_scalar {b : UInt8} (h : scalarByte b = true) : b ≠ 34 ∧ b ≠ 91 ∧ b ≠ 123 := by
  have hno := notMem_of_scalarByte h
  simp only [List.mem_cons, not_or] at hno
  tauto

section
variable {text rest : Bytes} {n : ℕ}

theorem readPart_array (n : ℕ) (s : Bytes) : readPart (n + 1) .value (91 :: s) =
    if (skipBlank s).head? = some 93 then
      some (.value (.arr (readOf (91 :: s) ((skipBlank s).drop 1)) []), (skipBlank s).drop 1)
    else match readPart n .items s with
      | some (.items ts, 93 :: rest) => some (.value (.arr (readOf (91 :: s) rest) ts), rest)
      | _ => none := rfl

theorem readPart_object (n : ℕ) (s : Bytes) : readPart (n + 1) .value (123 :: s) =
    if (skipBlank s).head? = some 125 then
      some (.value (.obj (readOf (123 :: s) ((skipBlank s).drop 1)) []), (skipBlank s).drop 1)
    else match readPart n .members s with
      | some (.members ms, 125 :: rest) => some (.value (.obj (readOf (123 :: s) rest) ms), rest)
      | _ => none := rfl

theorem readPart_scalar (h : IsScalar text) (hrest : Kind.value.Ends rest) :
    readPart (n + 1) .value (text ++ rest) = some (.value (.scalar text), rest) := by
  cases text with
  | nil => exact absurd rfl h.ne_nil
  | cons b lex =>
    obtain ⟨h34, h91, h123⟩ := opener_not_scalar (h.scalar b (List.mem_cons_self ..))
    rw [List.cons_append, readPart, if_neg h34, if_neg h91, if_neg h123]
    exact readScalar_append h hrest

theorem readPart_str (h : IsString text) :
    readPart (n + 1) .value (34 :: (text ++ [34]) ++ rest) = some (.value (.str text), rest) := by
  rw [List.cons_append, List.append_assoc]
  change (readString (text ++ 34 :: rest)).map _ = _
  rw [readString_append h]
  rfl

theorem readPart_emptyArr (h : Ws text) :
    readPart (n + 1) .value (91 :: (text ++ [93]) ++ rest) = some (.value (.arr (91 :: (text ++ [93])) []), rest) := by
  have hblank : skipBlank (text ++ [93] ++ rest) = 93 :: rest := by
    rw [List.append_assoc, skipBlank_append h (by rintro b ⟨⟩; rfl)]
    rfl
  rw [List.cons_append, readPart_array, hblank, List.head?_cons, if_pos rfl, ← List.cons_append]
  change some (Part.value (.arr (readOf (91 :: (text ++ [93]) ++ rest) rest) []), rest) = _
  rw [readOf_append]

theorem readPart_emptyObj (h : Ws text) :
    readPart (n + 1) .value (123 :: (text ++ [125]) ++ rest) = some (.value (.obj (123 :: (text ++ [125])) []), rest) := by
  have hblank : skipBlank (text ++ [125] ++ rest) = 125 :: rest := by
    rw [List.append_assoc, skipBlank_append h (by rintro b ⟨⟩; rfl)]
    rfl
  rw [List.cons_append, readPart_object, hblank, List.head?_cons, if_pos rfl, ← List.cons_append]
  change some (Part.value (.obj (readOf (123 :: (text ++ [125]) ++ rest) rest) []), rest) = _
  rw [readOf_append]

theorem readPart_arr {ts : List Tree} (h : Derives text (.items ts))
    (hread : readPart n .items (text ++ 93 :: rest) = some (.items ts, 93 :: rest)) :
    readPart (n + 1) .value (91 :: (text ++ [93]) ++ rest) = some (.value (.arr (91 :: (text ++ [93])) ts), rest) := by
  obtain ⟨b, s, hs, hb, -⟩ := h.blank_head nofun (93 :: rest)
  have happ : text ++ [93] ++ rest = text ++ 93 :: rest := List.append_assoc ..
  rw [List.cons_append, readPart_array, happ, hs, if_neg (by simpa using hb), hread, ← happ,
    ← List.cons_append]
  exact congrArg (fun text => some (Part.value (.arr text ts), rest)) (readOf_append ..)

theorem readPart_obj {ms : List (Bytes × Tree)} (h : Derives text (.members ms))
    (hread : readPart n .members (text ++ 125 :: rest) = some (.members ms, 125 :: rest)) :
    readPart (n + 1) .value (123 :: (text ++ [125]) ++ rest) = some (.value (.obj (123 :: (text ++ [125])) ms), rest) := by
  obtain ⟨b, s, hs, -, hb⟩ := h.blank_head nofun (125 :: rest)
  have happ : text ++ [125] ++ rest = text ++ 125 :: rest := List.append_assoc ..
  rw [List.cons_append, readPart_object, happ, hs, if_neg (by simpa using hb),
    hread, ← happ, ← List.cons_append]
  exact congrArg (fun text => some (Part.value (.obj text ms), rest)) (readOf_append ..)

/-- The last of several: no comma follows. -/
theorem ends_no_comma (h : Kind.items.Ends rest) : ∀ s, rest ≠ 44 :: s := by
  rintro s rfl
  rcases h 44 rfl with h | h <;> cases h
end

/-- Every part is read where it stands. -/
theorem readPart_derives {text : Bytes} {part : Part} (h : Derives text part) {n : ℕ} (hn : part.kind.fuel text.length ≤ n)
    {r : Bytes} (hrest : part.kind.Ends r) : readPart n part.kind (text ++ r) = some (part, r) := by
  induction h generalizing n r with
  | @scalar lex h =>
    have hpos : 0 < lex.length := List.length_pos_iff.mpr h.ne_nil
    obtain ⟨n, rfl⟩ : ∃ m, n = m + 1 := ⟨n - 1, by simp only [Part.kind, Kind.fuel] at hn; omega⟩
    exact readPart_scalar h hrest
  | @str raw h =>
    obtain ⟨n, rfl⟩ : ∃ m, n = m + 1 := ⟨n - 1, by simp only [Part.kind, Kind.fuel, List.length_cons] at hn; omega⟩
    exact readPart_str h
  | @emptyArr w h =>
    obtain ⟨n, rfl⟩ : ∃ m, n = m + 1 := ⟨n - 1, by simp only [Part.kind, Kind.fuel, List.length_cons] at hn; omega⟩
    exact readPart_emptyArr h
  | @emptyObj w h =>
    obtain ⟨n, rfl⟩ : ∃ m, n = m + 1 := ⟨n - 1, by simp only [Part.kind, Kind.fuel, List.length_cons] at hn; omega⟩
    exact readPart_emptyObj h
  | @arr text ts h ih =>
    simp only [Part.kind, Kind.fuel, List.length_cons, List.length_append, List.length_nil] at hn
    obtain ⟨n, rfl⟩ : ∃ m, n = m + 1 := ⟨n - 1, by omega⟩
    exact readPart_arr h (ih (by simp only [Part.kind, Kind.fuel]; omega) (by rintro b ⟨⟩; exact .inl rfl))
  | @obj text ms h ih =>
    simp only [Part.kind, Kind.fuel, List.length_cons, List.length_append, List.length_nil] at hn
    obtain ⟨n, rfl⟩ : ∃ m, n = m + 1 := ⟨n - 1, by omega⟩
    exact readPart_obj h (ih (by simp only [Part.kind, Kind.fuel]; omega) (by rintro b ⟨⟩; exact .inr rfl))
  | @element w text w' t hw h hw' ih =>
    simp only [Part.kind, Kind.fuel, List.length_append] at hn
    obtain ⟨n, rfl⟩ : ∃ m, n = m + 1 := ⟨n - 1, by omega⟩
    obtain ⟨b, v', hv, hb, -⟩ := h.value_head
    have hread := ih (n := n) (r := w' ++ r) (by simp only [Part.kind, Kind.fuel]; omega) (ends_ws hw' hrest)
    have hfront : skipBlank (w ++ (text ++ w') ++ r) = text ++ (w' ++ r) := by
      rw [List.append_assoc, List.append_assoc, skipBlank_append hw]
      rw [hv]
      rintro c ⟨⟩
      exact hb
    change readPart (n + 1) .element _ = _
    rw [readPart, hfront]
    change readPart n .value _ = _ at hread
    rw [hread]
    dsimp only
    rw [skipBlank_append hw' fun c hc => (ends_plain hrest c hc).1]
  | @item text t h ih =>
    simp only [Part.kind, Kind.fuel] at hn
    obtain ⟨n, rfl⟩ : ∃ m, n = m + 1 := ⟨n - 1, by omega⟩
    have hread := ih (n := n) (r := r) (by simp only [Part.kind, Kind.fuel]; omega) fun b hb => .inr (hrest b hb)
    change readPart n .element _ = _ at hread
    change readPart (n + 1) .items _ = _
    rw [readPart, hread]
    split
    · rename_i heq
      cases heq
      exact absurd rfl (ends_no_comma hrest _)
    · rename_i heq
      cases heq
      rfl
    · rename_i hne
      exact absurd rfl (hne t r)
  | @items text rest' t ts h hrest' ih ihrest =>
    simp only [Part.kind, Kind.fuel, List.length_append, List.length_cons] at hn
    obtain ⟨n, rfl⟩ : ∃ m, n = m + 1 := ⟨n - 1, by omega⟩
    have hread := ih (n := n) (r := 44 :: (rest' ++ r)) (by simp only [Part.kind, Kind.fuel]; omega)
      (by rintro b ⟨⟩; exact .inl rfl)
    have hmore := ihrest (n := n) (r := r) (by simp only [Part.kind, Kind.fuel]; omega) hrest
    change readPart n .element _ = _ at hread
    change readPart n .items _ = _ at hmore
    change readPart (n + 1) .items _ = _
    simp only [List.append_assoc, List.cons_append, readPart, hread, hmore]
  | @member w key w' text t hw hkey hw' h ih =>
    simp only [Part.kind, Kind.fuel, List.length_append, List.length_cons] at hn
    obtain ⟨n, rfl⟩ : ∃ m, n = m + 1 := ⟨n - 1, by omega⟩
    have hread := ih (n := n) (r := r) (by simp only [Part.kind, Kind.fuel]; omega) hrest
    have hfront : skipBlank (w ++ 34 :: (key ++ 34 :: (w' ++ 58 :: text)) ++ r) =
        34 :: (key ++ 34 :: (w' ++ 58 :: (text ++ r))) := by
      simp only [List.append_assoc, List.cons_append]
      exact skipBlank_append hw (by rintro b ⟨⟩; rfl)
    have hcolon : skipBlank (w' ++ 58 :: (text ++ r)) = 58 :: (text ++ r) :=
      skipBlank_append hw' (by rintro b ⟨⟩; rfl)
    change readPart n .element _ = _ at hread
    change readPart (n + 1) .member _ = _
    simp only [readPart, hfront, readString_append hkey, hcolon, hread]
  | @single text key t h ih =>
    simp only [Part.kind, Kind.fuel] at hn
    obtain ⟨n, rfl⟩ : ∃ m, n = m + 1 := ⟨n - 1, by omega⟩
    have hread := ih (n := n) (r := r) (by simp only [Part.kind, Kind.fuel]; omega) fun b hb => .inr (hrest b hb)
    change readPart n .member _ = _ at hread
    change readPart (n + 1) .members _ = _
    rw [readPart, hread]
    split
    · rename_i heq
      cases heq
      exact absurd rfl (ends_no_comma hrest _)
    · rename_i heq
      cases heq
      rfl
    · rename_i hne
      exact absurd rfl (hne key t r)
  | @members text rest' key t ms h hrest' ih ihrest =>
    simp only [Part.kind, Kind.fuel, List.length_append, List.length_cons] at hn
    obtain ⟨n, rfl⟩ : ∃ m, n = m + 1 := ⟨n - 1, by omega⟩
    have hread := ih (n := n) (r := 44 :: (rest' ++ r)) (by simp only [Part.kind, Kind.fuel]; omega)
      (by rintro b ⟨⟩; exact .inl rfl)
    have hmore := ihrest (n := n) (r := r) (by simp only [Part.kind, Kind.fuel]; omega) hrest
    change readPart n .member _ = _ at hread
    change readPart n .members _ = _ at hmore
    change readPart (n + 1) .members _ = _
    simp only [List.append_assoc, List.cons_append, readPart, hread, hmore]

theorem readJson_derives {s : Bytes} {t : Tree} (h : JsonText s t) : readJson s = some t := by
  have hread := readPart_derives h (r := []) le_rfl nofun
  rw [List.append_nil] at hread
  change readPart (2 * s.length + 1) .element s = _ at hread
  rw [readJson, hread]

/-- A text has one tree. -/
theorem JsonText.unique {s : Bytes} {t t' : Tree} (h : JsonText s t) (h' : JsonText s t') : t = t' :=
  Option.some.inj ((readJson_derives h).symm.trans (readJson_derives h'))

/-! ### What is read is derived -/

theorem readScalar_sound {s rest : Bytes} {part : Part} (h : readScalar s = some (part, rest)) :
    ∃ text, s = text ++ rest ∧ Derives text part ∧ part.kind = .value := by
  unfold readScalar at h
  split at h
  · rename_i hlex
    obtain ⟨rfl, rfl⟩ := Prod.mk.inj (Option.some.inj h)
    exact ⟨_, List.takeWhile_append_dropWhile.symm, .scalar (isScalar_sound hlex), rfl⟩
  · cases h

theorem readOf_sound {o cl : UInt8} {text s rest : Bytes} (h : s = text ++ cl :: rest) :
    readOf (o :: s) rest = o :: (text ++ [cl]) ∧ o :: s = o :: (text ++ [cl]) ++ rest := by
  have happ : o :: s = o :: (text ++ [cl]) ++ rest := by
    rw [h, List.cons_append, List.append_assoc]
    rfl
  exact ⟨by rw [happ, readOf_append], happ⟩

/-- An opening bracket in front of white space and its closing bracket. -/
theorem blank_closed {s : Bytes} {cl : UInt8} (h : (skipBlank s).head? = some cl) :
    ∃ w, Ws w ∧ s = w ++ cl :: (skipBlank s).drop 1 := by
  obtain ⟨w, hw, hs⟩ := skipBlank_spec s
  refine ⟨w, hw, ?_⟩
  cases hblank : skipBlank s with
  | nil => rw [hblank] at h; cases h
  | cons b rest =>
    rw [hblank] at h
    obtain rfl := Option.some.inj h
    rw [hblank] at hs
    exact hs

theorem readPart_sound {n : ℕ} {k : Kind} {s rest : Bytes} {part : Part} (h : readPart n k s = some (part, rest)) :
    ∃ text, s = text ++ rest ∧ Derives text part ∧ part.kind = k := by
  fun_induction readPart n k s generalizing part rest with
  | case3 n s =>
    obtain ⟨⟨raw, r⟩, hread, hpart⟩ := Option.map_eq_some_iff.mp h
    cases hpart
    obtain ⟨hraw, rfl⟩ := readString_sound hread
    exact ⟨34 :: (raw ++ [34]), by simp, .str hraw, rfl⟩
  | case4 n s hclosed hne =>
    obtain ⟨w, hw, hs⟩ := blank_closed hclosed
    obtain ⟨hof, happ⟩ := readOf_sound (o := 91) hs
    rw [hof] at h
    cases h
    exact ⟨_, happ, .emptyArr hw, rfl⟩
  | case5 n s hopen ts r hread hne ih =>
    obtain ⟨text, hs, hitems, -⟩ := ih hread
    obtain ⟨hof, happ⟩ := readOf_sound (o := 91) hs
    rw [hof] at h
    cases h
    exact ⟨_, happ, .arr hitems, rfl⟩
  | case7 n s hclosed hne hne' =>
    obtain ⟨w, hw, hs⟩ := blank_closed hclosed
    obtain ⟨hof, happ⟩ := readOf_sound (o := 123) hs
    rw [hof] at h
    cases h
    exact ⟨_, happ, .emptyObj hw, rfl⟩
  | case8 n s hopen ms r hread hne hne' ih =>
    obtain ⟨text, hs, hmembers, -⟩ := ih hread
    obtain ⟨hof, happ⟩ := readOf_sound (o := 123) hs
    rw [hof] at h
    cases h
    exact ⟨_, happ, .obj hmembers, rfl⟩
  | case10 n b s => exact readScalar_sound h
  | case11 n s t r hread ih =>
    cases h
    obtain ⟨text, hs, hvalue, -⟩ := ih hread
    obtain ⟨w, hw, hfront⟩ := skipBlank_spec s
    obtain ⟨w', hw', hback⟩ := skipBlank_spec r
    refine ⟨w ++ (text ++ w'), ?_, .element hw hvalue hw', rfl⟩
    rw [hfront, hs, List.append_assoc, List.append_assoc, ← hback]
  | case14 n s s₁ hquote key s₂ hkey s₃ hcolon t r hread ih =>
    cases h
    obtain ⟨w, hw, hfront⟩ := skipBlank_spec s
    obtain ⟨w', hw', hmid⟩ := skipBlank_spec s₂
    obtain ⟨hstring, rfl⟩ := readString_sound hkey
    obtain ⟨text, rfl, helement, -⟩ := ih hread
    refine ⟨w ++ 34 :: (key ++ 34 :: (w' ++ 58 :: text)), ?_, .member hw hstring hw' helement, rfl⟩
    rw [hfront, hquote, hmid, hcolon]
    simp
  | case18 n s t s₁ hread ts r hmore ih ihmore =>
    cases h
    obtain ⟨text, rfl, helement, -⟩ := ih hread
    obtain ⟨text', rfl, hitems, -⟩ := ihmore hmore
    exact ⟨text ++ 44 :: text', by simp, .items helement hitems, rfl⟩
  | case20 n s t r hend hread ih =>
    cases h
    obtain ⟨text, rfl, helement, -⟩ := ih hread
    exact ⟨text, rfl, .item helement, rfl⟩
  | case22 n s key t s₁ hread ms r hmore ih ihmore =>
    cases h
    obtain ⟨text, rfl, hmember, -⟩ := ih hread
    obtain ⟨text', rfl, hmembers, -⟩ := ihmore hmore
    exact ⟨text ++ 44 :: text', by simp, .members hmember hmembers, rfl⟩
  | case24 n s key t r hend hread ih =>
    cases h
    obtain ⟨text, rfl, hmember, -⟩ := ih hread
    exact ⟨text, rfl, .single hmember, rfl⟩
  | _ => cases h

/-- The reader finds the trees of the grammar. -/
theorem readJson_iff {s : Bytes} {t : Tree} : readJson s = some t ↔ JsonText s t := by
  constructor
  · intro h
    unfold readJson at h
    split at h
    · rename_i t' hread
      obtain rfl := Option.some.inj h
      obtain ⟨text, rfl, hderives, -⟩ := readPart_sound hread
      rw [List.append_nil]
      exact hderives
    · cases h
  · exact readJson_derives

end FractalSQL.Lib.JsonGrammar
