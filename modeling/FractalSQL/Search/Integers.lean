import FractalSQL.Search.Members

/-!
# The integers of a params object

The value readers take the number that stands at the value of a member. `json_get_u64` takes digits only;
`json_get_int` takes the token of a whole number, but reads no further than its point or its exponent.
-/
namespace FractalSQL.Search
open Lib Lib.Json Lib.JsonGrammar

/-! ### What is asked for -/

/-- The value of a number as it is written. -/
def exactValue (lex : Bytes) : ℚ :=
  let q := ((scanDecimal (signOf lex).2).map Prod.fst).getD 0
  if (signOf lex).1 then -q else q

/-- The value of the digits in front of the point and the exponent. -/
def integerPart (lex : Bytes) : ℤ :=
  let n := digitsValue ((signOf lex).2.takeWhile isDigit)
  if (signOf lex).1 then -n else n

/-- The integer in the range that a value is, if it is a number of less than 32 characters. -/
def integerIn (lo hi : ℤ) : Tree → Option ℤ
  | .scalar lex =>
    if isNumber lex ∧ lex.length < 32 ∧ (exactValue lex).den = 1 ∧ lo ≤ (exactValue lex).num ∧ (exactValue lex).num ≤ hi then
      some (exactValue lex).num
    else none
  | _ => none

/-- The value of the first member with the key. -/
def memberOf (key : Bytes) (ms : List (Bytes × Tree)) : Option Tree := (ms.find? fun m => m.1 = key).map Prod.snd

/-- A value written with digits and nothing else. -/
def isUnsigned : Tree → Bool
  | .scalar lex => lex.all isDigit
  | _ => false

/-- A number of less than 32 characters that is not its integer part, where one of the two is an `int`. -/
def IsCut : Tree → Prop
  | .scalar lex => isNumber lex ∧ lex.length < 32 ∧ exactValue lex ≠ integerPart lex ∧
      ((intMin ≤ integerPart lex ∧ integerPart lex ≤ intMax) ∨ (integerIn intMin intMax (.scalar lex)).isSome)
  | _ => False

theorem memberOf_none {key : Bytes} {ms : List (Bytes × Tree)} (h : ∀ m ∈ ms, m.1 ≠ key) : memberOf key ms = none := by
  rw [memberOf, Option.map_eq_none_iff, List.find?_eq_none]
  intro m hm
  simpa using h m hm

theorem FirstMember.mem {key s : Bytes} {ms : List (Bytes × Tree)} (m : FirstMember key s ms) : (key, m.tree) ∈ ms := by
  have hmem : (key, m.tree) ∈ m.ahead ++ (key, m.tree) :: m.behind := List.mem_append_right _ (List.mem_cons_self ..)
  rwa [← m.members] at hmem

theorem FirstMember.memberOf {key s : Bytes} {ms : List (Bytes × Tree)} (m : FirstMember key s ms) :
    memberOf key ms = some m.tree := by
  have hahead : m.ahead.find? (fun m => decide (m.1 = key)) = none := by
    rw [List.find?_eq_none]
    intro m' hm'
    simpa using m.first m' hm'
  conv_lhs => rw [Search.memberOf, m.members, List.find?_append, hahead, Option.none_or]
  rw [List.find?_cons_of_pos (by simp)]
  rfl

/-! ### Number tokens -/

theorem digitRun_append {ds rest : Bytes} (h : ∀ d ∈ ds, isDigit d = true) (hrest : ∀ b ∈ rest.head?, isDigit b = false) :
    digitRun (ds ++ rest) = ds.length := by
  rw [digitRun, takeWhile_digits h hrest]

theorem digitRun_other {b : UInt8} (h : isDigit b = false) (s : Bytes) : digitRun (b :: s) = 0 := by
  rw [digitRun, List.takeWhile_cons_of_neg (by simp [h])]
  rfl

theorem signLength_plain {s : Bytes} (h : ∀ b ∈ s.head?, b ≠ 45 ∧ b ≠ 43) : signLength s = 0 := by
  have hne : ¬ (s.head? = some 45 ∨ s.head? = some 43) := by
    rintro (heq | heq)
    · exact (h 45 heq).1 rfl
    · exact (h 43 heq).2 rfl
  rw [signLength, if_neg hne]

theorem digits_head {ds : Bytes} (h : Digits ds) (rest : Bytes) : ∀ b ∈ (ds ++ rest).head?, isDigit b = true := by
  cases ds with
  | nil => exact absurd rfl h.1
  | cons d ds =>
    rintro b ⟨⟩
    exact h.2 d (List.mem_cons_self ..)

theorem digit_no_sign {b : UInt8} (h : isDigit b = true) : b ≠ 45 ∧ b ≠ 43 := by
  constructor
  · rintro rfl
    cases h
  · rintro rfl
    cases h

theorem signLength_digits {ds : Bytes} (h : Digits ds) (rest : Bytes) : signLength (ds ++ rest) = 0 :=
  signLength_plain fun b hb => digit_no_sign (digits_head h rest b hb)

/-- A byte that may follow a value continues no number. -/
theorem delim_head {rest : Bytes} (h : jsonValueDelim rest = true) :
    ∀ b ∈ rest.head?, isDigit b = false ∧ b ≠ 46 ∧ b ≠ 101 ∧ b ≠ 69 := by
  cases rest with
  | nil => nofun
  | cons c rest =>
    rintro b ⟨⟩
    have hc := of_decide_eq_true h
    have hmem : c ∈ ([32, 9, 10, 13, 44, 125, 93] : Bytes) := by simpa [isWs, or_assoc] using hc
    have hall : ∀ c ∈ ([32, 9, 10, 13, 44, 125, 93] : Bytes), isDigit c = false ∧ c ≠ 46 ∧ c ≠ 101 ∧ c ≠ 69 := by
      decide +kernel
    exact hall c hmem

theorem exponentEnd_append {front exp rest : Bytes} (h : IsExp exp) (hrest : jsonValueDelim rest = true) :
    exponentEnd (front ++ (exp ++ rest)) front.length = front.length + exp.length := by
  have hdelim := delim_head hrest
  rw [exponentEnd, List.drop_left]
  cases h with
  | none =>
    cases rest with
    | nil => rfl
    | cons b rest =>
      have hb := hdelim b rfl
      simp [hb.2.2.1, hb.2.2.2]
  | @plain e ds he h =>
    have hpos := List.length_pos_iff.mpr h.1
    have hrun : digitRun (ds ++ rest) = ds.length := digitRun_append h.2 fun b hb => (hdelim b hb).1
    simp only [List.cons_append, if_pos he, signLength_digits h, List.drop_zero, hrun, if_neg hpos.ne', List.length_cons]
    omega
  | @signed e sg ds he hs h =>
    have hpos := List.length_pos_iff.mpr h.1
    have hrun : digitRun (ds ++ rest) = ds.length := digitRun_append h.2 fun b hb => (hdelim b hb).1
    have hsign : signLength (sg :: (ds ++ rest)) = 1 := by
      rw [signLength, List.head?_cons]
      rcases hs with rfl | rfl <;> rfl
    simp only [List.cons_append, if_pos he, hsign, List.drop_one, List.tail_cons, hrun, if_neg hpos.ne', List.length_cons]
    omega

/-- The token of a number is the number. -/
theorem numberEnd_unsigned {sg int frac exp rest : Bytes} (hsign : signLength (sg ++ (int ++ (frac ++ exp) ++ rest)) = sg.length)
    (hint : IsInt int) (hfrac : IsFrac frac) (hexp : IsExp exp) (hrest : jsonValueDelim rest = true) :
    jsonNumberEnd (sg ++ (int ++ (frac ++ exp) ++ rest)) = sg.length + (int ++ (frac ++ exp)).length := by
  have hdelim := delim_head hrest
  have hpos := List.length_pos_iff.mpr hint.digits_of.1
  have hhead : ∀ b ∈ (frac ++ exp ++ rest).head?, isDigit b = false := by
    intro b hb
    rw [List.head?_append] at hb
    rcases Option.or_eq_some_iff.mp hb with hb | ⟨-, hb⟩
    · exact frac_exp_head hfrac hexp b hb
    · exact (hdelim b hb).1
  have hrun : digitRun (int ++ (frac ++ exp ++ rest)) = int.length := digitRun_append hint.digits_of.2 hhead
  have hfront : sg ++ (int ++ (frac ++ exp) ++ rest) = (sg ++ int) ++ (frac ++ exp ++ rest) := by
    simp only [List.append_assoc]
  have hdrop : (sg ++ (int ++ (frac ++ exp) ++ rest)).drop (sg.length + int.length) = frac ++ exp ++ rest := by
    rw [hfront, ← List.length_append, List.drop_left]
  rw [jsonNumberEnd, hsign, List.drop_left, List.append_assoc int, hrun]
  simp only [if_neg hpos.ne']
  rw [← List.append_assoc int, hdrop]
  cases hfrac with
  | none =>
    have hne : ¬ ([] ++ exp ++ rest).head? = some 46 := by
      intro h46
      rw [List.nil_append, List.head?_append] at h46
      rcases Option.or_eq_some_iff.mp h46 with h46 | ⟨-, h46⟩
      · cases hexp with
        | none => cases h46
        | plain he h | signed he hs h => rcases he with rfl | rfl <;> cases h46
      · exact (hdelim 46 h46).2.1 rfl
    rw [if_neg hne, hfront, List.nil_append, ← List.length_append, exponentEnd_append hexp hrest]
    simp only [List.length_append]
    omega
  | @point ds h =>
    have hpos' := List.length_pos_iff.mpr h.1
    have hexphead : ∀ b ∈ (exp ++ rest).head?, isDigit b = false := by
      intro b hb
      rw [List.head?_append] at hb
      rcases Option.or_eq_some_iff.mp hb with hb | ⟨-, hb⟩
      · exact frac_exp_head .none hexp b hb
      · exact (hdelim b hb).1
    have hfront' : sg ++ (int ++ (46 :: ds ++ exp) ++ rest) = (sg ++ int ++ 46 :: ds) ++ (exp ++ rest) := by
      simp only [List.append_assoc]
    have hdrop' : (sg ++ (int ++ (46 :: ds ++ exp) ++ rest)).drop (sg.length + int.length + 1) = ds ++ (exp ++ rest) := by
      rw [← List.drop_drop, hdrop]
      simp only [List.cons_append, List.append_assoc, List.drop_one, List.tail_cons]
    have hlen : sg.length + int.length + 1 + ds.length = (sg ++ int ++ 46 :: ds).length := by
      simp only [List.length_append, List.length_cons]
      omega
    have hpoint : (46 :: ds ++ exp ++ rest).head? = some 46 := rfl
    rw [if_pos hpoint, hdrop', digitRun_append h.2 hexphead, if_neg hpos'.ne', hlen, hfront',
      exponentEnd_append hexp hrest]
    simp only [List.length_append, List.length_cons]
    omega

theorem numberEnd_number {lex rest : Bytes} (h : IsNumber lex) (hrest : jsonValueDelim rest = true) :
    jsonNumberEnd (lex ++ rest) = lex.length := by
  cases h with
  | @plain int frac exp hint hfrac hexp =>
    have hsign : signLength ([] ++ (int ++ (frac ++ exp) ++ rest)) = 0 := by
      rw [List.nil_append, List.append_assoc]
      exact signLength_digits hint.digits_of _
    have hend : jsonNumberEnd ([] ++ (int ++ (frac ++ exp) ++ rest)) = ([] : Bytes).length + (int ++ (frac ++ exp)).length :=
      numberEnd_unsigned hsign hint hfrac hexp hrest
    rwa [List.nil_append, List.length_nil, zero_add] at hend
  | @negative int frac exp hint hfrac hexp =>
    have hend : jsonNumberEnd ([45] ++ (int ++ (frac ++ exp) ++ rest)) = ([45] : Bytes).length + (int ++ (frac ++ exp)).length :=
      numberEnd_unsigned rfl hint hfrac hexp hrest
    change jsonNumberEnd ([45] ++ (int ++ (frac ++ exp) ++ rest)) = _
    rw [hend, List.length_singleton, List.length_cons, Nat.add_comm]

/-- Where no sign and no digit stands, there is no number. -/
theorem numberEnd_other {b : UInt8} (hd : isDigit b = false) (hs : b ≠ 45 ∧ b ≠ 43) (s : Bytes) :
    jsonNumberEnd (b :: s) = 0 := by
  have hsign : signLength (b :: s) = 0 := signLength_plain (by rintro c ⟨⟩; exact hs)
  rw [jsonNumberEnd, hsign, List.drop_zero, digitRun_other hd]
  rfl

/-! ### The readers where they point -/

section
variable {s key lex rest : Bytes}

theorem signOf_plain {b : UInt8} (h : b ≠ 45 ∧ b ≠ 43) (s : Bytes) : signOf (b :: s) = (false, b :: s) := by
  rw [signOf.eq_def]
  split
  · rename_i heq
    exact absurd (List.cons.inj heq).1 h.1
  · rename_i heq
    exact absurd (List.cons.inj heq).1 h.2
  · rfl

/-- The digits in front of the point. -/
theorem number_digits (h : IsNumber lex) : (signOf lex).2.takeWhile isDigit ≠ [] := by
  have hplain {int frac exp : Bytes} (hint : IsInt int) (hfrac : IsFrac frac) (hexp : IsExp exp) :
      (int ++ (frac ++ exp)).takeWhile isDigit ≠ [] := by
    rw [takeWhile_digits hint.digits_of.2 (frac_exp_head hfrac hexp)]
    exact hint.digits_of.1
  cases h with
  | @plain int frac exp hint hfrac hexp =>
    obtain ⟨d, ds, hds⟩ := List.exists_cons_of_ne_nil hint.digits_of.1
    have hd := digit_no_sign (digits_head hint.digits_of [] d (by rw [hds]; rfl))
    have hsign : signOf (int ++ (frac ++ exp)) = (false, int ++ (frac ++ exp)) := by
      rw [hds, List.cons_append]
      exact signOf_plain hd _
    rw [hsign]
    exact hplain hint hfrac hexp
  | negative hint hfrac hexp => exact hplain hint hfrac hexp

theorem number_no_space (h : IsNumber lex) : lex.dropWhile isSpace = lex := by
  obtain ⟨b, rest, rfl, hb⟩ := h.head
  have hspace : isSpace b = false := by
    have hall : ∀ b ∈ ([32, 9, 10, 11, 12, 13] : Bytes), ¬ (b = 45 ∨ isDigit b = true) := by decide +kernel
    rw [← Bool.not_eq_true]
    exact fun hs => hall b (mem_of_isSpace hs) hb
  rw [List.dropWhile_cons_of_neg (by simp [hspace])]

/-- `strtol` reads the integer part, up to the bounds of its type. -/
theorem strtoInt_number (h : IsNumber lex) (lo hi : ℤ) :
    ∃ rest, strtoInt lo hi lex = some (max lo (min hi (integerPart lex)), rest) := by
  simp only [strtoInt, number_no_space h, if_neg (number_digits h)]
  exact ⟨_, rfl⟩

/-- The reader of an `int` where a number stands. -/
theorem getInt_number (hv : valueOf s key = some (lex ++ rest)) (h : IsNumber lex) (hrest : jsonValueDelim rest = true)
    (fallback : ℤ) : jsonGetInt s key fallback =
      if lex.length < 32 ∧ intMin ≤ integerPart lex ∧ integerPart lex ≤ intMax then integerPart lex else fallback := by
  have hpos : lex.length ≠ 0 := by
    obtain ⟨b, lex, rfl, -⟩ := h.head
    exact Nat.succ_ne_zero _
  obtain ⟨left, hread⟩ := strtoInt_number h (-2 ^ 63) (2 ^ 63 - 1)
  simp only [jsonGetInt, hv, numberEnd_number h hrest, if_neg hpos, List.drop_left, hrest, List.take_left, hread,
    Bool.not_true, Bool.false_eq_true, if_false]
  by_cases hlen : 32 ≤ lex.length
  · rw [if_pos hlen, if_neg (by omega)]
  · rw [if_neg hlen]
    have hmax : intMax = 2147483647 := rfl
    have hmin : intMin = -2147483648 := rfl
    by_cases hin : intMin ≤ integerPart lex ∧ integerPart lex ≤ intMax
    · rw [if_neg (by omega), if_pos ⟨by omega, hin⟩]
      omega
    · rw [if_pos (by omega), if_neg fun h => hin h.2]

/-- The reader of an `int` where no number stands. -/
theorem getInt_other {b : UInt8} {v : Bytes} (hv : valueOf s key = some (b :: v)) (hd : isDigit b = false)
    (hs : b ≠ 45 ∧ b ≠ 43) (fallback : ℤ) : jsonGetInt s key fallback = fallback := by
  simp only [jsonGetInt, hv, numberEnd_other hd hs, if_true]

theorem getU64_other {b : UInt8} {v : Bytes} (hv : valueOf s key = some (b :: v)) (hd : isDigit b = false)
    (fallback : ℕ) : jsonGetU64 s key fallback = fallback := by
  simp only [jsonGetU64, hv, digitRun_other hd, if_true]

/-- The reader of a session key where digits stand. -/
theorem getU64_digits (hv : valueOf s key = some (lex ++ rest)) (h : Digits lex) (hrest : jsonValueDelim rest = true)
    (fallback : ℕ) : jsonGetU64 s key fallback =
      if lex.length < 32 ∧ digitsValue lex < 2 ^ 64 then digitsValue lex else fallback := by
  have hpos := List.length_pos_iff.mpr h.1
  have hrun : digitRun (lex ++ rest) = lex.length := digitRun_append h.2 fun b hb => (delim_head hrest b hb).1
  simp only [jsonGetU64, hv, hrun, if_neg hpos.ne', List.drop_left, hrest, List.take_left, Bool.not_true,
    Bool.false_eq_true, if_false]
  by_cases hlen : 32 ≤ lex.length
  · rw [if_pos hlen, if_neg (by omega)]
  · rw [if_neg hlen]
    by_cases hval : digitsValue lex < 2 ^ 64
    · rw [if_neg (by omega), if_pos ⟨by omega, hval⟩]
    · rw [if_pos (by omega), if_neg fun h => hval h.2]

/-- Digits in front of a point or an exponent are no session key. -/
theorem getU64_cut {int more : Bytes} (hv : valueOf s key = some (int ++ more)) (hint : Digits int)
    (hmore : ∀ b ∈ more.head?, isDigit b = false) (hcut : jsonValueDelim more = false) (fallback : ℕ) :
    jsonGetU64 s key fallback = fallback := by
  have hpos := List.length_pos_iff.mpr hint.1
  simp only [jsonGetU64, hv, digitRun_append hint.2 hmore, if_neg hpos.ne', List.drop_left, hcut, Bool.not_false, if_true]

theorem getInt_none (hv : valueOf s key = none) (fallback : ℤ) : jsonGetInt s key fallback = fallback := by
  rw [jsonGetInt, hv]

theorem getU64_none (hv : valueOf s key = none) (fallback : ℕ) : jsonGetU64 s key fallback = fallback := by
  rw [jsonGetU64, hv]

end

/-! ### Exact values -/

/-- Digits are worth what they are, whether they are read as a whole or as an exact number. -/
theorem exactValue_digits {lex : Bytes} (h : Digits lex) : exactValue lex = digitsValue lex := by
  obtain ⟨d, ds, hds⟩ := List.exists_cons_of_ne_nil h.1
  have hd := digit_no_sign (digits_head h [] d (by rw [hds]; rfl))
  have hsign : signOf lex = (false, lex) := by
    rw [hds]
    exact signOf_plain hd _
  have htake : lex.takeWhile isDigit = lex := List.takeWhile_eq_self_iff.mpr h.2
  have hdrop : lex.dropWhile isDigit = [] := List.dropWhile_eq_nil_iff.mpr h.2
  have hscan : scanDecimal lex = some (decimalRatio lex [] 0, []) := by
    rw [scanDecimal, scanRatio, scanMantissa, htake, hdrop]
    simp only [pointDigits, List.append_nil, if_neg h.1]
    rfl
  rw [exactValue, hsign, hscan]
  simp [decimalRatio]

theorem integerIn_eq_some {lo hi n : ℤ} {lex : Bytes} :
    integerIn lo hi (.scalar lex) = some n ↔
      isNumber lex ∧ lex.length < 32 ∧ exactValue lex = n ∧ lo ≤ n ∧ n ≤ hi := by
  simp only [integerIn]
  constructor
  · intro h
    split_ifs at h with hin
    obtain rfl := Option.some.inj h
    exact ⟨hin.1, hin.2.1, (Rat.den_eq_one_iff _).mp hin.2.2.1 |>.symm, hin.2.2.2⟩
  · rintro ⟨hnum, hlen, hq, hlo, hhi⟩
    rw [hq, if_pos ⟨hnum, hlen, rfl, hlo, hhi⟩]
    rfl

theorem integerIn_eq_none {lo hi : ℤ} {lex : Bytes} (h : ∀ n : ℤ, ¬ (isNumber lex ∧ lex.length < 32 ∧ exactValue lex = n ∧ lo ≤ n ∧ n ≤ hi)) :
    integerIn lo hi (.scalar lex) = none := by
  rw [Option.eq_none_iff_forall_ne_some]
  intro n hn
  exact h n (integerIn_eq_some.mp hn)

/-! ### The members that are read -/

/-- A value that is no number is an integer in no range, and begins like no number. -/
theorem no_number {v : Bytes} {t : Tree} (h : Derives v (.value t)) (hnot : ∀ lex, t = .scalar lex → ¬ IsNumber lex) :
    (∀ lo hi, integerIn lo hi t = none) ∧ ∃ b v', v = b :: v' ∧ isDigit b = false ∧ b ≠ 45 ∧ b ≠ 43 := by
  cases h with
  | scalar h =>
    constructor
    · intro lo hi
      exact integerIn_eq_none fun n hn => hnot _ rfl (isNumber_sound hn.1)
    · cases h with
      | literal h => rcases h with rfl | rfl | rfl <;> exact ⟨_, _, rfl, by decide⟩
      | number h => exact absurd h (hnot _ rfl)
  | str h => exact ⟨fun _ _ => rfl, 34, _, rfl, by decide⟩
  | emptyArr h => exact ⟨fun _ _ => rfl, 91, _, rfl, by decide⟩
  | arr h => exact ⟨fun _ _ => rfl, 91, _, rfl, by decide⟩
  | emptyObj h => exact ⟨fun _ _ => rfl, 123, _, rfl, by decide⟩
  | obj h => exact ⟨fun _ _ => rfl, 123, _, rfl, by decide⟩

theorem number_value {v lex : Bytes} (h : Derives v (.value (.scalar lex))) : v = lex := by
  cases h with
  | scalar h => rfl

section
variable {key s : Bytes} {ms : List (Bytes × Tree)}

/-- The reader of an `int` reads the member, unless it is a number cut at its point or exponent. -/
theorem getInt_first (m : FirstMember key s ms) (hcut : ¬ IsCut m.tree) (fallback : ℤ) :
    jsonGetInt s key fallback = (integerIn intMin intMax m.tree).getD fallback := by
  have hv := valueOf_first m
  by_cases hnot : ∀ lex, m.tree = .scalar lex → ¬ IsNumber lex
  · obtain ⟨hnone, b, v, hb, hd, hs⟩ := no_number m.derives hnot
    rw [hb, List.cons_append] at hv
    rw [getInt_other hv hd hs, hnone]
    rfl
  push Not at hnot
  obtain ⟨lex, htree, hnum⟩ := hnot
  have hderives := m.derives
  rw [htree] at hderives hcut
  rw [number_value hderives] at hv
  rw [getInt_number hv hnum m.delim, htree]
  by_cases hlen : lex.length < 32
  · by_cases hexact : exactValue lex = integerPart lex
    · by_cases hin : intMin ≤ integerPart lex ∧ integerPart lex ≤ intMax
      · rw [if_pos ⟨hlen, hin⟩, integerIn_eq_some.mpr ⟨hnum.isNumber, hlen, hexact, hin⟩]
        rfl
      · rw [if_neg fun h => hin h.2, integerIn_eq_none]
        · rfl
        rintro n ⟨-, -, hn, hrange⟩
        rw [hexact, Int.cast_inj] at hn
        exact hin (hn ▸ hrange)
    · have hout : ¬ (intMin ≤ integerPart lex ∧ integerPart lex ≤ intMax) := fun hin =>
        hcut ⟨hnum.isNumber, hlen, hexact, .inl hin⟩
      have hnone : integerIn intMin intMax (.scalar lex) = none := by
        rw [← Option.not_isSome_iff_eq_none]
        exact fun hsome => hcut ⟨hnum.isNumber, hlen, hexact, .inr hsome⟩
      rw [if_neg fun h => hout h.2, hnone]
      rfl
  · rw [if_neg fun h => hlen h.1, integerIn_eq_none fun n hn => hlen hn.2.1]
    rfl

/-- The reader of a session key reads the member if it is written with digits alone. -/
theorem getU64_first (m : FirstMember key s ms) (fallback : ℕ) :
    (jsonGetU64 s key fallback : ℤ) =
      (((some m.tree).filter isUnsigned).bind (integerIn 0 (2 ^ 64 - 1))).getD fallback := by
  have hv := valueOf_first m
  by_cases hnot : ∀ lex, m.tree = .scalar lex → ¬ IsNumber lex
  · obtain ⟨hnone, b, v, hb, hd, hs⟩ := no_number m.derives hnot
    rw [hb, List.cons_append] at hv
    rw [getU64_other hv hd, Option.filter_some]
    split_ifs
    · rw [Option.bind_some, hnone]
      rfl
    · rfl
  push Not at hnot
  obtain ⟨lex, htree, hnum⟩ := hnot
  have hderives := m.derives
  rw [htree] at hderives
  rw [number_value hderives] at hv
  have hunsigned : isUnsigned (.scalar lex) = lex.all isDigit := rfl
  rw [htree, Option.filter_some, hunsigned]
  by_cases hall : ∀ b ∈ lex, isDigit b = true
  · have hdigits : Digits lex := by
      obtain ⟨b, t, rfl, -⟩ := hnum.head
      exact ⟨List.cons_ne_nil _ _, hall⟩
    rw [if_pos (List.all_eq_true.mpr hall), Option.bind_some, getU64_digits hv hdigits m.delim]
    by_cases hin : lex.length < 32 ∧ digitsValue lex < 2 ^ 64
    · have hsome : integerIn 0 (2 ^ 64 - 1) (.scalar lex) = some (digitsValue lex : ℤ) :=
        integerIn_eq_some.mpr ⟨hnum.isNumber, hin.1, by rw [exactValue_digits hdigits, Int.cast_natCast], by omega, by omega⟩
      rw [if_pos hin, hsome]
      rfl
    · rw [if_neg hin, integerIn_eq_none]
      · rfl
      rintro n ⟨-, hlen, hn, hlo, hhi⟩
      rw [exactValue_digits hdigits, ← Int.cast_natCast, Int.cast_inj] at hn
      exact hin ⟨hlen, by omega⟩
  · rw [if_neg fun h => hall (List.all_eq_true.mp h)]
    change (jsonGetU64 s key fallback : ℤ) = (fallback : ℤ)
    rw [Int.natCast_inj]
    cases hnum with
    | negative hint hfrac hexp => exact getU64_other hv rfl fallback
    | @plain int frac exp hint hfrac hexp =>
      rw [List.append_assoc] at hv
      have hmore : frac ++ exp ≠ [] := by
        intro hnil
        rw [hnil, List.append_nil] at hall
        exact hall hint.digits_of.2
      have hhead : ∀ b ∈ (frac ++ exp).head?, b = 46 ∨ b = 101 ∨ b = 69 := by
        cases hfrac with
        | point h => rintro b ⟨⟩; exact .inl rfl
        | none =>
          cases hexp with
          | none => nofun
          | plain he h | signed he hs h => rintro b ⟨⟩; exact .inr he
      obtain ⟨b, more, hb⟩ := List.exists_cons_of_ne_nil hmore
      rw [hb] at hv hhead
      have hbyte := hhead b rfl
      refine getU64_cut hv hint.digits_of ?_ ?_ fallback
      · rintro c ⟨⟩
        rcases hbyte with rfl | rfl | rfl <;> rfl
      · rcases hbyte with rfl | rfl | rfl <;> rfl

/-- Members are found by structure, and the integers among them are read at their value. -/
theorem params_members_read {text : Bytes} (h : JsonText s (.obj text ms)) (key : Bytes) :
    (∀ pos, jsonFindKey s key = some pos ↔ ∃ m : FirstMember key s ms, m.lead.length = pos) ∧
      (jsonFindKey s key = none ↔ ∀ m ∈ ms, m.1 ≠ key) ∧
      (∀ fallback, (∀ t ∈ memberOf key ms, ¬ IsCut t) →
        jsonGetInt s key fallback = ((memberOf key ms).bind (integerIn intMin intMax)).getD fallback) ∧
      ∀ fallback : ℕ, (jsonGetU64 s key fallback : ℤ) =
        (((memberOf key ms).filter isUnsigned).bind (integerIn 0 (2 ^ 64 - 1))).getD fallback := by
  by_cases hkey : ∃ m ∈ ms, m.1 = key
  · obtain ⟨m⟩ := exists_first h hkey
    have hpos := findKey_first m
    refine ⟨fun pos => ⟨fun hfound => ⟨m, ?_⟩, ?_⟩, ?_, fun fallback hcut => ?_, fun fallback => ?_⟩
    · exact Option.some.inj (hpos.symm.trans hfound)
    · rintro ⟨m', rfl⟩
      exact findKey_first m'
    · rw [hpos]
      constructor
      · nofun
      · intro hne
        obtain ⟨m', hm', hm'key⟩ := hkey
        exact absurd hm'key (hne m' hm')
    · rw [m.memberOf] at hcut ⊢
      exact getInt_first m (hcut m.tree rfl) fallback
    · rw [m.memberOf]
      exact getU64_first m fallback
  · push Not at hkey
    have hnone := valueOf_none h hkey
    have hpos : jsonFindKey s key = none := by rw [jsonFindKey, hnone, Option.map_none]
    refine ⟨fun pos => ⟨fun hfound => ?_, ?_⟩, ⟨fun _ => hkey, fun _ => hpos⟩, fun fallback _ => ?_, fun fallback => ?_⟩
    · rw [hpos] at hfound
      cases hfound
    · rintro ⟨m, -⟩
      exact absurd rfl (hkey _ m.mem)
    · rw [memberOf_none hkey, getInt_none hnone]
      rfl
    · rw [memberOf_none hkey, getU64_none hnone]
      rfl

end

/-- The member of the object, not the one of the object inside it. -/
theorem own_member_read : jsonGetInt (ascii "\x7b\"a\":[\x7b\"k\":1\x7d],\"k\":7\x7d") (ascii "k") 5 = 7 := by
  have hread := params_members_read (s := ascii "\x7b\"a\":[\x7b\"k\":1\x7d],\"k\":7\x7d") (readJson_iff.mp rfl) (ascii "k")
  have hcut : ¬ IsCut (.scalar (ascii "7")) := fun h => h.2.2.1 (by decide +kernel)
  have hseven : integerIn intMin intMax (.scalar (ascii "7")) = some 7 := by decide +kernel
  rw [hread.2.2.1 5 (by rintro t ⟨⟩; exact hcut)]
  change (integerIn intMin intMax (.scalar (ascii "7"))).getD 5 = 7
  rw [hseven]
  rfl

/-- What stands behind the integer part is lost, and no session key is read. -/
theorem exponent_cut :
    JsonText (ascii "\x7b\"a\":1e3\x7d") (.obj (ascii "\x7b\"a\":1e3\x7d") [(ascii "a", .scalar (ascii "1e3"))]) ∧
      integerIn intMin intMax (.scalar (ascii "1e3")) = some 1000 ∧
      integerIn 0 (2 ^ 64 - 1) (.scalar (ascii "1e3")) = some 1000 ∧
      jsonGetInt (ascii "\x7b\"a\":1e3\x7d") (ascii "a") 7 = 1 ∧
      jsonGetU64 (ascii "\x7b\"a\":1e3\x7d") (ascii "a") 7 = 7 := by
  refine ⟨readJson_iff.mp rfl, ?_, ?_, by decide +kernel, by decide +kernel⟩
  · decide +kernel
  · decide +kernel

end FractalSQL.Search
