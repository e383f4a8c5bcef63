import FractalSQL.Audit.Log
import FractalSQL.Audit.OneValue

/-!
# The tokens of an audit record

What the splice does, in tokens: the record is an object with the members `type`
and `entry`, and the entry is the payload's object with one member more, or a new
object with the payload as a member. When the payload holds a zero byte the text
is cut in the middle of a string and has no tokens at all.
-/
namespace FractalSQL.Audit
open Lib Lib.Json Ledger

/-! ### Escaped text -/

theorem scanStr_escaped (b : UInt8) (text : Bytes) :
    scanStr (92 :: b :: text) = (scanStr text).map fun (raw, rest) => (92 :: b :: raw, rest) := by
  rw [scanStr]

/-- A byte that a string keeps as it is. -/
def plainByte (b : UInt8) : Bool := b ≠ 92 ∧ b ≠ 34 ∧ 32 ≤ b

theorem scanStr_plain {b : UInt8} (h : plainByte b) (text : Bytes) :
    scanStr (b :: text) = (scanStr text).map fun (raw, rest) => (b :: raw, rest) := by
  simp only [plainByte, decide_eq_true_eq] at h
  obtain ⟨h92, h34, h32⟩ := h
  rw [scanStr, if_neg h34, if_neg (UInt8.not_lt.mpr h32)]
  · exact fun h _ => h92 h
  · exact fun _ _ h _ => h92 h

theorem hexDigit_plain : ∀ n < 16, plainByte (hexDigit n) = true := by decide

theorem hexEncode_plain (b : UInt8) : ∃ x y, hexEncode [b] = [x, y] ∧ plainByte x ∧ plainByte y := by
  have hb : b.toNat < 256 := b.toNat_lt
  exact ⟨_, _, rfl, hexDigit_plain _ (by omega), hexDigit_plain _ (by omega)⟩

/-- A byte is escaped by a letter or by its number, or kept. -/
theorem escapeByte_cases (b : UInt8) : (∃ e, escapeByte b = [92, e] ∧ escapeChar e = some b.toNat) ∨
    (b < 32 ∧ escapeByte b = 92 :: 117 :: 48 :: 48 :: hexEncode [b]) ∨ (plainByte b = true ∧ escapeByte b = [b]) := by
  by_cases hletter : b = 34 ∨ b = 92 ∨ b = 8 ∨ b = 12 ∨ b = 10 ∨ b = 13 ∨ b = 9
  · left
    rcases hletter with rfl | rfl | rfl | rfl | rfl | rfl | rfl
    · exact ⟨34, rfl, rfl⟩
    · exact ⟨92, rfl, rfl⟩
    · exact ⟨98, rfl, rfl⟩
    · exact ⟨102, rfl, rfl⟩
    · exact ⟨110, rfl, rfl⟩
    · exact ⟨114, rfl, rfl⟩
    · exact ⟨116, rfl, rfl⟩
  · right
    simp only [not_or] at hletter
    obtain ⟨h34, h92, h8, h12, h10, h13, h9⟩ := hletter
    rw [escapeByte, if_neg h34, if_neg h92, if_neg h8, if_neg h12, if_neg h10, if_neg h13, if_neg h9]
    by_cases h32 : b < 32
    · exact .inl ⟨h32, if_pos h32⟩
    · exact .inr ⟨decide_eq_true ⟨h92, h34, UInt8.not_lt.mp h32⟩, if_neg h32⟩

/-- The escape of one byte is passed over inside a string. -/
theorem scanStr_escapeByte (b : UInt8) (text : Bytes) :
    scanStr (escapeByte b ++ text) = (scanStr text).map fun (raw, rest) => (escapeByte b ++ raw, rest) := by
  rcases escapeByte_cases b with ⟨e, hesc, -⟩ | ⟨-, hesc⟩ | ⟨hplain, hesc⟩
  · rw [hesc]
    exact scanStr_escaped e text
  · obtain ⟨x, y, hxy, hx, hy⟩ := hexEncode_plain b
    simp only [hesc, hxy, List.cons_append, List.nil_append]
    rw [scanStr_escaped, scanStr_plain (by decide), scanStr_plain (by decide), scanStr_plain hx,
      scanStr_plain hy]
    cases scanStr text <;> rfl
  · rw [hesc]
    exact scanStr_plain hplain text

theorem scanStr_jsonEscape (s rest : Bytes) :
    scanStr (jsonEscape s ++ 34 :: rest) = some (jsonEscape s, rest) := by
  induction s with
  | nil => simp [jsonEscape, scanStr]
  | cons b s ih =>
    have happ : jsonEscape (b :: s) ++ 34 :: rest = escapeByte b ++ (jsonEscape s ++ 34 :: rest) := by
      simp [jsonEscape]
    rw [happ, scanStr_escapeByte, ih]
    rfl

theorem cString_eq_self {s : Bytes} (h : (0 : UInt8) ∉ s) : cString s = s := by
  rw [cString, List.takeWhile_eq_self_iff]
  intro b hb
  simpa using fun hz : b = 0 => h (hz ▸ hb)

theorem zero_not_mem_escapeByte (b : UInt8) : (0 : UInt8) ∉ escapeByte b := by
  have hne {c : UInt8} (hc : plainByte c = true) : c ≠ 0 := by
    rintro rfl
    cases hc
  rcases escapeByte_cases b with ⟨e, hesc, he⟩ | ⟨-, hesc⟩ | ⟨hplain, hesc⟩
  · have he0 : e ≠ 0 := by
      rintro rfl
      cases he
    simp [hesc, he0.symm]
  · obtain ⟨x, y, hxy, hx, hy⟩ := hexEncode_plain b
    simp [hesc, hxy, (hne hx).symm, (hne hy).symm]
  · simp [hesc, (hne hplain).symm]

theorem cString_jsonEscape (s : Bytes) : cString (jsonEscape s) = jsonEscape s := by
  refine cString_eq_self fun h => ?_
  obtain ⟨b, -, hb⟩ := List.mem_flatMap.mp h
  exact zero_not_mem_escapeByte b hb

/-! ### A zero byte -/

/-- The first zero byte of a string stands behind a backslash, so the comma and the
quote that follow the cut are an escape and the end of the string. -/
theorem scanStr_zero {x y raw rest : Bytes} (h : scanStr (x ++ 0 :: y) = some (raw, rest)) (hx : (0 : UInt8) ∉ x) :
    (∃ x', x = raw ++ 34 :: x' ∧ rest = x' ++ 0 :: y) ∨
      ∀ w, ∃ raw', scanStr (x ++ 44 :: 34 :: w) = some (raw', w) := by
  induction hn : x.length using Nat.strong_induction_on generalizing x raw with
  | _ n ih =>
  cases x with
  | nil => simp [scanStr] at h
  | cons b x =>
    have hlen : x.length + 1 = n := hn
    have hx' : (0 : UInt8) ∉ x := fun hmem => hx (List.mem_cons_of_mem b hmem)
    by_cases h92 : b = 92
    · subst h92
      cases x with
      | nil => exact .inr fun w => ⟨[92, 44], by simp [scanStr]⟩
      | cons c x =>
        simp only [List.cons_append, scanStr_escaped] at h ⊢
        obtain ⟨⟨raw', rest'⟩, hsome, heq⟩ := Option.map_eq_some_iff.mp h
        cases heq
        have hx'' : (0 : UInt8) ∉ x := fun hmem => hx' (List.mem_cons_of_mem c hmem)
        rcases ih x.length (by simp at hlen; omega) hsome hx'' rfl with ⟨x', rfl, rfl⟩ | hcut
        · exact .inl ⟨x', rfl, rfl⟩
        · refine .inr fun w => ?_
          obtain ⟨raw'', hw⟩ := hcut w
          exact ⟨92 :: c :: raw'', by rw [hw]; rfl⟩
    by_cases h34 : b = 34
    · subst h34
      simp [scanStr] at h
      exact .inl ⟨x, by simp [← h.1], h.2.symm⟩
    · by_cases h32 : b < 32
      · simp [scanStr, h92, h34, h32] at h
      · have hplain : plainByte b = true := by simp [plainByte, h92, h34, UInt8.not_lt.mp h32]
        simp only [List.cons_append, scanStr_plain hplain] at h ⊢
        obtain ⟨⟨raw', rest'⟩, hsome, heq⟩ := Option.map_eq_some_iff.mp h
        cases heq
        rcases ih x.length (by omega) hsome hx' rfl with ⟨x', rfl, rfl⟩ | hcut
        · exact .inl ⟨x', rfl, rfl⟩
        · refine .inr fun w => ?_
          obtain ⟨raw'', hw⟩ := hcut w
          exact ⟨b :: raw'', by rw [hw]; rfl⟩

theorem tokens_underscore (z : Bytes) : tokens (95 :: z) = none := by
  have hnum : scanScalar (95 :: z) = none := by simp [scanScalar, scanNumber, skipMinus, scanDigits, isDigit]
  rw [tokens_cons, if_neg (by decide), if_neg (by decide), show punctuation 95 = none from by decide]
  simp [hnum]

/-- A text that is cut at its first zero byte and goes on with the attribution
member is no JSON. -/
theorem tokens_zero {x y : Bytes} {ts : List Token} (h : tokens (x ++ 0 :: y) = some ts) (hx : (0 : UInt8) ∉ x)
    (z : Bytes) : tokens (x ++ 44 :: 34 :: 95 :: z) = none := by
  induction hn : x.length using Nat.strong_induction_on generalizing x ts with
  | _ n ih =>
  match x with
  | [] =>
    have hnum : scanScalar (0 :: y) = none := by simp [scanScalar, scanNumber, skipMinus, scanDigits, isDigit]
    rw [List.nil_append, tokens_cons, if_neg (by decide), if_neg (by decide),
      show punctuation 0 = none from by decide, hnum] at h
    cases h
  | b :: x =>
    have hlen : x.length + 1 = n := hn
    have hx' : (0 : UInt8) ∉ x := fun hmem => hx (List.mem_cons_of_mem b hmem)
    rw [List.cons_append] at h ⊢
    by_cases hws : isWs b = true
    · rw [tokens_ws hws] at h ⊢
      exact ih x.length (by omega) h hx' rfl
    by_cases hquote : b = 34
    · subst hquote
      cases hs : scanStr (x ++ 0 :: y) with
      | none =>
        rw [tokens_cons, if_neg hws, if_pos rfl, hs] at h
        cases h
      | some p =>
        obtain ⟨raw, rest⟩ := p
        rcases scanStr_zero hs hx' with ⟨x', rfl, rfl⟩ | hcut
        · rw [tokens_str hs] at h
          obtain ⟨ts', hts', -⟩ := Option.map_eq_some_iff.mp h
          have hx'' : (0 : UInt8) ∉ x' := fun hmem => hx' (by simp [hmem])
          have hcut := (scanStr_cut hs).2 (x' ++ 44 :: 34 :: 95 :: z)
          rw [show raw ++ 34 :: x' ++ 44 :: 34 :: 95 :: z = raw ++ 34 :: (x' ++ 44 :: 34 :: 95 :: z) by simp,
            tokens_str hcut, ih x'.length (by simp at hlen; omega) hts' hx'' rfl]
          rfl
        · obtain ⟨raw', hw⟩ := hcut (95 :: z)
          rw [tokens_str hw, tokens_underscore]
          rfl
    cases hp : punctuation b with
    | some t =>
      rw [tokens_punctuation hp] at h ⊢
      obtain ⟨ts', hts', -⟩ := Option.map_eq_some_iff.mp h
      rw [ih x.length (by omega) hts' hx' rfl]
      rfl
    | none =>
      cases hs : scanScalar (b :: (x ++ 0 :: y)) with
      | none =>
        rw [tokens_cons, if_neg hws, if_neg hquote, hp, hs] at h
        cases h
      | some rest =>
        obtain ⟨lex, hcat, hne, hbytes, hcut, hraw⟩ := tokens_scalar (by simpa using hws) hquote hp hs
        -- The zero byte is in no scalar.
        obtain ⟨x', hx₁, rfl⟩ : ∃ x', b :: x = lex ++ x' ∧ rest = x' ++ 0 :: y := by
          rw [← List.cons_append] at hcat
          rcases List.append_eq_append_iff.mp hcat with ⟨w, hlex, hyw⟩ | ⟨w, hxw, hw⟩
          · cases w with
            | nil => exact ⟨[], by simpa using hlex.symm, by simpa using hyw.symm⟩
            | cons c w =>
              have hc := hbytes c (by rw [hlex]; simp)
              rw [← (List.cons.inj hyw).1] at hc
              exact absurd hc (by decide)
          · exact ⟨w, hxw, hw⟩
        rw [hcat, hcut _ (.inl rfl)] at h
        obtain ⟨ts', hts', -⟩ := Option.map_eq_some_iff.mp h
        have hx'' : (0 : UInt8) ∉ x' := fun hmem => hx (by rw [hx₁]; simp [hmem])
        have hlt : x'.length < n := by
          have := congrArg List.length hx₁
          have := List.length_pos_of_ne_nil hne
          simp at *
          omega
        have hfollows : Follows (x' ++ 0 :: y) (x' ++ 44 :: 34 :: 95 :: z) := by
          cases x' with
          | nil => exact .inr fun b hb => by cases hb; decide
          | cons c x' => exact .inl rfl
        rw [← List.cons_append, hx₁, List.append_assoc, hcut _ hfollows, ih x'.length hlt hts' hx'' rfl]
        rfl

/-! ### White space at the ends -/

theorem tokens_blank_append {blank : Bytes} (h : ∀ b ∈ blank, isWs b = true) (x : Bytes) :
    tokens (blank ++ x) = tokens x := by
  induction blank with
  | nil => rfl
  | cons b blank ih =>
    rw [List.cons_append, tokens_ws (h b (by simp)), ih fun c hc => h c (by simp [hc])]

theorem tokens_append_blank {blank x : Bytes} {ts : List Token} (h : ∀ b ∈ blank, isWs b = true)
    (hts : tokens (x ++ blank) = some ts) : tokens x = some ts := by
  have hblank : tokens blank = some [] := by simpa using tokens_blank_append h []
  have hbyte (b : UInt8) (hb : isWs b = true) : b ≠ 34 ∧ scalarByte b = false := by
    simp only [isWs, decide_eq_true_eq] at hb
    rcases hb with rfl | rfl | rfl | rfl <;> decide
  obtain ⟨us, vs, hus, hvs, rfl⟩ := tokens_split hts (fun hq => (hbyte 34 (h 34 hq)).1 rfl)
    fun b hb => (hbyte b (h b (List.mem_of_mem_head? hb))).2
  obtain rfl : [] = vs := Option.some.inj (hblank.symm.trans hvs)
  rw [hus, List.append_nil]

theorem trimWs_split (s : Bytes) : ∃ before after, s = before ++ (trimWs s ++ after) ∧
    (∀ b ∈ before, isWs b = true) ∧ ∀ b ∈ after, isWs b = true := by
  refine ⟨s.takeWhile isWs, ((s.dropWhile isWs).reverse.takeWhile isWs).reverse, ?_,
    fun b hb => List.mem_takeWhile_imp hb, fun b hb => List.mem_takeWhile_imp (List.mem_reverse.mp hb)⟩
  rw [trimWs, ← List.reverse_append, List.takeWhile_append_dropWhile, List.reverse_reverse,
    List.takeWhile_append_dropWhile]

theorem tokens_trimWs {s : Bytes} {ts : List Token} (h : tokens s = some ts) : tokens (trimWs s) = some ts := by
  obtain ⟨before, after, hs, hbefore, hafter⟩ := trimWs_split s
  rw [hs, tokens_blank_append hbefore] at h
  exact tokens_append_blank hafter h

theorem mem_trimWs {s : Bytes} {b : UInt8} (h : isWs b = false) : b ∈ trimWs s ↔ b ∈ s := by
  obtain ⟨before, after, hs, hbefore, hafter⟩ := trimWs_split s
  constructor
  · intro hb
    rw [hs]
    simp [hb]
  · intro hb
    rw [hs, List.mem_append, List.mem_append] at hb
    rcases hb with hb | hb | hb
    · simp [hbefore b hb] at h
    · exact hb
    · simp [hafter b hb] at h

theorem trimWs_ends (s : Bytes) :
    (∀ b ∈ (trimWs s).head?, isWs b = false) ∧ ∀ b ∈ (trimWs s).getLast?, isWs b = false := by
  have hdrop (t : Bytes) (b : UInt8) (hb : b ∈ (t.dropWhile isWs).head?) : isWs b = false := by
    have hnot := List.head?_dropWhile_not isWs t
    rw [Option.mem_def.mp hb] at hnot
    simpa using hnot
  constructor
  · intro b hb
    -- The text without white space at its end begins as the text itself.
    obtain ⟨after, hafter⟩ : ∃ after, s.dropWhile isWs = trimWs s ++ after := by
      refine ⟨((s.dropWhile isWs).reverse.takeWhile isWs).reverse, ?_⟩
      rw [trimWs, ← List.reverse_append, List.takeWhile_append_dropWhile, List.reverse_reverse]
    refine hdrop s b ?_
    rw [hafter]
    cases hc : trimWs s with
    | nil => simp [hc] at hb
    | cons c cs => simpa [hc] using hb
  · intro b hb
    rw [trimWs, List.getLast?_reverse] at hb
    exact hdrop _ b hb

theorem blank_of_tokens_nil {x : Bytes} (h : tokens x = some []) : ∀ b ∈ x, isWs b = true := by
  fun_induction tokens x with
  | case1 => simp
  | case2 b x hws ih => exact List.forall_mem_cons.mpr ⟨hws, ih h⟩
  | case3 | case6 => cases h
  | case4 | case5 | case7 =>
    obtain ⟨us, -, hus⟩ := Option.map_eq_some_iff.mp h
    cases hus

/-- The last token of a trimmed text that ends in a bracket is its last byte. -/
theorem getLast_of_closing {x : Bytes} {ts : List Token} (h : tokens x = some ts)
    (hlast : ts.getLast? = some (Token.closing .curly)) (hend : ∀ b ∈ x.getLast?, isWs b = false) :
    x.getLast? = some 125 := by
  fun_induction tokens x generalizing ts with
  | case1 =>
    cases h
    cases hlast
  | case2 b x hws ih =>
    cases x with
    | nil => simp [hend b (by simp)] at hws
    | cons c x => simpa using ih h hlast (by simpa using hend)
  | case3 | case6 => cases h
  | case4 x raw rest hs hlt hws ih =>
    obtain ⟨us, hus, rfl⟩ := Option.map_eq_some_iff.mp h
    obtain ⟨rfl, -⟩ := scanStr_cut hs
    cases us with
    | nil => simp at hlast
    | cons u us =>
      cases rest with
      | nil => simp at hus
      | cons c rest =>
        have hcat : 34 :: (raw ++ 34 :: c :: rest) = (34 :: raw ++ [34]) ++ c :: rest := by simp
        rw [hcat] at hend ⊢
        rw [List.getLast?_append_of_ne_nil _ (List.cons_ne_nil c rest)] at hend ⊢
        exact ih hus (by simpa using hlast) hend
  | case5 b x hws hq t hp ih =>
    obtain ⟨us, hus, rfl⟩ := Option.map_eq_some_iff.mp h
    cases us with
    | nil =>
      cases x with
      | nil =>
        obtain rfl : t = Token.closing .curly := by simpa using hlast
        unfold punctuation at hp
        split_ifs at hp <;> cases hp
        rename_i hb
        rw [hb]
        rfl
      | cons c x =>
        have hblank := blank_of_tokens_nil hus _ (List.getLast_mem (List.cons_ne_nil c x))
        rw [hend _ (by simp [List.getLast?_eq_some_getLast])] at hblank
        cases hblank
    | cons u us =>
      cases x with
      | nil => simp at hus
      | cons c x => simpa using ih hus (by simpa using hlast) (by simpa using hend)
  | case7 b x hws hq hp rest hs hlt ih =>
    obtain ⟨lex, hlex, -, -, -, -⟩ := tokens_scalar (by simpa using hws) hq hp hs
    obtain ⟨us, hus, rfl⟩ := Option.map_eq_some_iff.mp h
    cases us with
    | nil => simp at hlast
    | cons u us =>
      cases rest with
      | nil => simp at hus
      | cons c rest =>
        rw [hlex] at hend ⊢
        rw [List.getLast?_append_of_ne_nil _ (List.cons_ne_nil c rest)] at hend ⊢
        exact ih hus (by simpa using hlast) hend

/-! ### The attribution block -/

theorem scanStr_plains {key : Bytes} (h : ∀ b ∈ key, plainByte b = true) (rest : Bytes) :
    scanStr (key ++ 34 :: rest) = some (key, rest) := by
  induction key with
  | nil => simp [scanStr]
  | cons b key ih =>
    rw [List.cons_append, scanStr_plain (h b (by simp)), ih fun c hc => h c (by simp [hc])]
    rfl

/-- A key of plain bytes and its colon. -/
theorem tokens_key {key : Bytes} (h : ∀ b ∈ key, plainByte b = true) (rest : Bytes) :
    tokens (34 :: (key ++ 34 :: 58 :: rest)) = (tokens rest).map ([Token.str key, Token.colon] ++ ·) := by
  rw [tokens_str (scanStr_plains h _), tokens_punctuation rfl, Option.map_map]
  rfl

theorem scanScalar_decimalInt (z : ℤ) : scanScalar (decimalInt z) = some [] ∧
    ∀ b ∈ (decimalInt z).head?, b = 45 ∨ isDigit b = true := by
  have hne := decimal_ne_nil z.natAbs
  have hd := decimal_isDigit z.natAbs
  have hdigits : scanDigits (decimal z.natAbs) = some [] := by
    have hend : ∀ b ∈ ([] : Bytes).head?, isDigit b = false := by simp
    simpa using scanDigits_append hne hd hend
  unfold decimalInt
  split
  · refine ⟨?_, by simp⟩
    rw [scanScalar_number (.inl rfl), scanNumber, skipMinus, hdigits]
    rfl
  · cases hc : decimal z.natAbs with
    | nil => exact absurd hc hne
    | cons d ds =>
      rw [hc] at hdigits hd
      have hdig : isDigit d = true := hd d (by simp)
      have hminus : skipMinus (d :: ds) = d :: ds := by
        unfold skipMinus
        split
        · rename_i heq
          rw [(List.cons.inj heq).1] at hdig
          exact absurd hdig (by decide)
        · rfl
      refine ⟨?_, by simp [hdig]⟩
      rw [scanScalar_number (.inr hdig), scanNumber, hminus, hdigits]
      rfl

theorem Breaks.of_head {b : UInt8} {text : Bytes} (h : isDigit b = false ∧ b ≠ 46 ∧ b ≠ 101 ∧ b ≠ 69) :
    Breaks (b :: text) := fun _ hc => Option.some.inj hc ▸ h

theorem digit_scalar {b : UInt8} (h : isDigit b = true) :
    isWs b = false ∧ b ≠ 34 ∧ punctuation b = none := by
  have hne (c : UInt8) (hc : isDigit c = false) : b ≠ c := by
    rintro rfl
    rw [h] at hc
    cases hc
  refine ⟨?_, hne 34 (by decide), ?_⟩
  · simp [isWs, hne 32 (by decide), hne 9 (by decide), hne 10 (by decide), hne 13 (by decide)]
  · simp [punctuation, hne 91 (by decide), hne 123 (by decide), hne 93 (by decide), hne 125 (by decide),
      hne 44 (by decide), hne 58 (by decide)]

theorem tokens_decimalInt (z : ℤ) {rest : Bytes} (h : Breaks rest) :
    tokens (decimalInt z ++ rest) = (tokens rest).map (Token.scalar (decimalInt z) :: ·) := by
  obtain ⟨hscan, hhead⟩ := scanScalar_decimalInt z
  refine tokens_scalar_append hscan (fun b hb => ?_) h
  rcases hhead b hb with rfl | hdig
  · decide
  · exact digit_scalar hdig

/-- The tokens of the attribution block. -/
def blockTokens (sid : Option Int64) (actor : Option Bytes) : List Token :=
  [Token.opening .curly, Token.str (ascii "session"), Token.colon, Token.scalar (decimalInt (sid.getD 0).toInt),
    Token.comma, Token.str (ascii "attested"), Token.colon, Token.scalar (boolText sid.isSome)] ++
    (actor.elim [] fun a => [Token.comma, Token.str (ascii "actor"), Token.colon, Token.str (jsonEscape a)]) ++
    [Token.closing .curly]

theorem tokens_actorMember (actor : Option Bytes) :
    tokens (actorMember actor ++ [125]) = some ((actor.elim [] fun a =>
      [Token.comma, Token.str (ascii "actor"), Token.colon, Token.str (jsonEscape a)]) ++ [Token.closing .curly]) := by
  cases actor with
  | none =>
    change tokens [125] = _
    rw [tokens_punctuation rfl, tokens_nil]
    rfl
  | some a =>
    have htext : actorMember (some a) ++ [125] =
        44 :: 34 :: (ascii "actor" ++ 34 :: 58 :: 34 :: (jsonEscape a ++ 34 :: [125])) := by
      simp [actorMember, cString_jsonEscape, ascii]
    rw [htext, tokens_punctuation rfl, tokens_key (List.all_eq_true.mp rfl), tokens_str (scanStr_jsonEscape a _),
      tokens_punctuation rfl, tokens_nil]
    rfl

theorem tokens_boolText (b : Bool) {rest : Bytes} (h : Breaks rest) :
    tokens (boolText b ++ rest) = (tokens rest).map (Token.scalar (boolText b) :: ·) := by
  have hscan : scanScalar (boolText b) = some [] := by
    cases b <;> rfl
  have hhead : ∀ c ∈ (boolText b).head?, isWs c = false ∧ c ≠ 34 ∧ punctuation c = none := by
    cases b <;> rintro c ⟨⟩ <;> decide
  exact tokens_scalar_append hscan hhead h

theorem tokens_actorBlock (sid : Option Int64) (actor : Option Bytes) :
    tokens (actorBlock sid actor) = some (blockTokens sid actor) := by
  have hbreaks : Breaks (actorMember actor ++ [125]) := by
    cases actor <;> exact Breaks.of_head (by decide)
  have hlit (x y : Bytes) : ascii "\x7b\"session\":" ++ (x ++ (ascii ",\"attested\":" ++ y)) =
      123 :: 34 :: (ascii "session" ++ 34 :: 58 :: (x ++ 44 :: 34 :: (ascii "attested" ++ 34 :: 58 :: y))) := by
    simp [ascii]
  rw [actorBlock, hlit, tokens_punctuation rfl, tokens_key (List.all_eq_true.mp rfl),
    tokens_decimalInt _ (Breaks.of_head (by decide)), tokens_punctuation rfl, tokens_key (List.all_eq_true.mp rfl),
    tokens_boolText _ hbreaks, tokens_actorMember]
  simp [blockTokens]

/-- The block is one flat object. -/
theorem blockTokens_oneValue (sid : Option Int64) (actor : Option Bytes) :
    OneValue (blockTokens sid actor) ∧ nesting 0 (blockTokens sid actor) = 1 := by
  have hshape (session id attested flag name : Bytes) :
      let ts := [Token.opening .curly, .str session, .colon, .scalar id, .comma, .str attested, .colon, .scalar flag] ++
        (actor.elim [] fun a => [Token.comma, .str name, .colon, .str (jsonEscape a)]) ++ [Token.closing .curly]
      OneValue ts ∧ nesting 0 ts = 1 := by
    cases actor <;> exact ⟨rfl, by simp [nesting, Token.depth]⟩
  exact hshape ..

end FractalSQL.Audit
