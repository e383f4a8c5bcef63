import FractalSQL.Lib.JsonFields
import FractalSQL.Search.Params

/-!
# The parameters of the core

The search entries print what they have read as a JSON object for `fsql_search_ptr`. How `%.6g` prints a
double is a parameter.
-/
namespace FractalSQL.Search
open Lib Lib.JsonGrammar

/-! ### The three formats -/

/-- The sizes of a search. -/
structure Knobs where
  iterations : ℤ
  populationSize : ℤ
  diffusionFactor : ℤ

/-- What an entry hands to the core, with the seed that the caller supplied. -/
inductive CoreParams where
  | search (knobs : Knobs) (walk : Signed) (debugMode : Bool) (seed : Option ℕ)
  | debug (knobs : Knobs) (seed : Option ℕ)
  | explore (knobs : Knobs) (walk : Signed) (seed : Option ℕ)

def CoreParams.knobs : CoreParams → Knobs
  | .search knobs _ _ _ | .debug knobs _ | .explore knobs _ _ => knobs

def CoreParams.seed : CoreParams → Option ℕ
  | .search _ _ _ seed | .debug _ seed | .explore _ _ seed => seed

/-- The beginning of all formats. -/
def knobsText (knobs : Knobs) : Bytes :=
  ascii "\x7b\"iterations\":" ++ decimalInt knobs.iterations ++ ascii ",\"population_size\":" ++ decimalInt knobs.populationSize ++
    ascii ",\"diffusion_factor\":" ++ decimalInt knobs.diffusionFactor

/-- `%s%llu}` of the seed: without one the prefix is empty, and the number is still printed. -/
def seedText : Option ℕ → Bytes
  | some seed => ascii ",\"seed\":" ++ decimal seed ++ ascii "\x7d"
  | none => decimal 0 ++ ascii "\x7d"

def boolText (b : Bool) : Bytes := if b then ascii "true" else ascii "false"

/-- What `snprintf` formats. -/
def CoreParams.text (fmt : Signed → Bytes) : CoreParams → Bytes
  | .search knobs walk debugMode seed =>
    knobsText knobs ++ ascii ",\"walk\":" ++ fmt walk ++ ascii ",\"debug\":" ++ boolText debugMode ++ seedText seed
  | .debug knobs seed => knobsText knobs ++ ascii ",\"walk\":0.5,\"no_corpus\":true,\"debug\":true" ++ seedText seed
  | .explore knobs walk seed =>
    knobsText knobs ++ ascii ",\"walk\":" ++ fmt walk ++ ascii ",\"return_population\":true" ++ seedText seed

/-- `core_params`: what the buffer holds of the text. -/
def CoreParams.buffer (fmt : Signed → Bytes) (p : CoreParams) : Bytes := (p.text fmt).take (320 - 1)

/-! ### The members -/

def knobsFields (knobs : Knobs) : List (Bytes × Tree) :=
  [(ascii "iterations", .scalar (decimalInt knobs.iterations)), (ascii "population_size", .scalar (decimalInt knobs.populationSize)),
    (ascii "diffusion_factor", .scalar (decimalInt knobs.diffusionFactor))]

/-- The fields in front of the last one that is always there. -/
def CoreParams.front (fmt : Signed → Bytes) : CoreParams → List (Bytes × Tree)
  | .search knobs walk _ _ | .explore knobs walk _ => knobsFields knobs ++ [(ascii "walk", .scalar (fmt walk))]
  | .debug knobs _ => knobsFields knobs ++ [(ascii "walk", .scalar (ascii "0.5")), (ascii "no_corpus", .scalar (ascii "true"))]

/-- The last field that is always there. -/
def CoreParams.flag : CoreParams → Bytes × Tree
  | .search _ _ debugMode _ => (ascii "debug", .scalar (boolText debugMode))
  | .debug _ _ => (ascii "debug", .scalar (ascii "true"))
  | .explore _ _ _ => (ascii "return_population", .scalar (ascii "true"))

/-- The members that are meant, the seed if there is one. -/
def CoreParams.members (fmt : Signed → Bytes) (p : CoreParams) : List (Bytes × Tree) :=
  p.front fmt ++ p.flag :: (p.seed.map fun seed => (ascii "seed", Tree.scalar (decimal seed))).toList

/-- A double is printed as a number of few characters. -/
def Prints (fmt : Signed → Bytes) : Prop := ∀ x, binary64.finite x = true → IsNumber (fmt x) ∧ (fmt x).length ≤ 13

/-- The walk is a finite number. -/
def CoreParams.Finite : CoreParams → Prop
  | .search _ walk _ _ | .explore _ walk _ => binary64.finite walk = true
  | .debug _ _ => True

section
variable {fmt : Signed → Bytes} {p : CoreParams}

theorem isScalar_decimalInt (z : ℤ) : IsScalar (decimalInt z) := by
  rw [decimalInt]
  split_ifs with hneg
  · have hnumber : IsNumber (45 :: decimal z.natAbs) := by
      have hnegative := IsNumber.negative (isInt_decimal z.natAbs) .none .none
      rwa [List.append_nil, List.append_nil] at hnegative
    exact .number hnumber
  · exact isScalar_decimal z.natAbs

theorem CoreParams.front_ne_nil (fmt : Signed → Bytes) (p : CoreParams) : p.front fmt ≠ [] := by
  cases p <;> exact List.cons_ne_nil _ _

/-- The text is the fields in braces, and the seed behind them. -/
theorem CoreParams.text_eq (fmt : Signed → Bytes) (p : CoreParams) :
    p.text fmt = 123 :: (compactMembers (p.front fmt ++ [p.flag]) ++ seedText p.seed) := by
  cases p with
  | search knobs walk debugMode seed =>
    simp only [text, knobsText, front, flag, CoreParams.seed, knobsFields, List.append_assoc, List.cons_append, List.nil_append,
      compactMembers, Tree.compact]
    repeat rw [ascii_ofList]
    rfl
  | debug knobs seed =>
    simp only [text, knobsText, front, flag, CoreParams.seed, knobsFields, List.append_assoc, List.cons_append, List.nil_append,
      compactMembers, Tree.compact]
    repeat rw [ascii_ofList]
    rfl
  | explore knobs walk seed =>
    simp only [text, knobsText, front, flag, CoreParams.seed, knobsFields, List.append_assoc, List.cons_append, List.nil_append,
      compactMembers, Tree.compact]
    repeat rw [ascii_ofList]
    rfl

theorem knobsFields_sound (knobs : Knobs) : SoundMembers (knobsFields knobs) := by
  have hiterations : IsString (ascii "iterations") := by rfl
  have hpopulation : IsString (ascii "population_size") := by rfl
  have hdiffusion : IsString (ascii "diffusion_factor") := by rfl
  exact ⟨⟨hiterations, isScalar_decimalInt _⟩, ⟨hpopulation, isScalar_decimalInt _⟩, ⟨hdiffusion, isScalar_decimalInt _⟩, trivial⟩

theorem isScalar_boolText (b : Bool) : IsScalar (boolText b) := by
  cases b with
  | false => exact .literal (.inr (.inr rfl))
  | true => exact .literal (.inr (.inl rfl))

theorem isString_walk : IsString (ascii "walk") := by rfl

theorem isString_debug : IsString (ascii "debug") := by rfl

theorem CoreParams.front_sound (hfmt : Prints fmt) (hwalk : p.Finite) : SoundMembers (p.front fmt) := by
  have htrue : IsScalar (ascii "true") := isScalar_boolText true
  cases p with
  | search knobs walk debugMode seed =>
    exact soundMembers_append.mpr ⟨knobsFields_sound knobs, ⟨isString_walk, .number (hfmt walk hwalk).1⟩, trivial⟩
  | debug knobs seed =>
    have hhalf : IsScalar (ascii "0.5") := isScalar_sound (by decide)
    have hcorpus : IsString (ascii "no_corpus") := by rfl
    exact soundMembers_append.mpr ⟨knobsFields_sound knobs, ⟨isString_walk, hhalf⟩, ⟨hcorpus, htrue⟩, trivial⟩
  | explore knobs walk seed =>
    exact soundMembers_append.mpr ⟨knobsFields_sound knobs, ⟨isString_walk, .number (hfmt walk hwalk).1⟩, trivial⟩

theorem CoreParams.flag_sound (p : CoreParams) : SoundMembers [p.flag] := by
  cases p with
  | search knobs walk debugMode seed => exact ⟨⟨isString_debug, isScalar_boolText debugMode⟩, trivial⟩
  | debug knobs seed => exact ⟨⟨isString_debug, isScalar_boolText true⟩, trivial⟩
  | explore knobs walk seed =>
    have hpopulation : IsString (ascii "return_population") := by rfl
    exact ⟨⟨hpopulation, isScalar_boolText true⟩, trivial⟩

/-! ### With a seed and without -/

theorem plainMembers_append (ms ms' : List (Bytes × Tree)) : plainMembers (ms ++ ms') = plainMembers ms ++ plainMembers ms' := by
  induction ms with
  | nil => rfl
  | cons m ms ih => rw [List.cons_append, plainMembers, plainMembers, ih, List.cons_append]

/-- The members are scalars. -/
theorem CoreParams.members_plain (fmt : Signed → Bytes) (p : CoreParams) : plainMembers (p.members fmt) = p.members fmt := by
  have hseed : ∀ seed : Option ℕ, plainMembers (seed.map fun seed => (ascii "seed", Tree.scalar (decimal seed))).toList =
      (seed.map fun seed => (ascii "seed", Tree.scalar (decimal seed))).toList := by
    intro seed
    cases seed <;> rfl
  rw [members, plainMembers_append, plainMembers, hseed]
  cases p <;> rfl

/-- With a seed the text is the compact object of the members. -/
theorem CoreParams.text_of_seed {seed : ℕ} (hseed : p.seed = some seed) : p.text fmt = (Tree.obj [] (p.members fmt)).compact := by
  have hfields : p.members fmt = p.front fmt ++ [p.flag] ++ [(ascii "seed", .scalar (decimal seed))] := by
    rw [members, hseed, List.append_assoc]
    rfl
  have hfront : p.front fmt ++ [p.flag] ≠ [] := List.append_ne_nil_of_right_ne_nil _ (List.cons_ne_nil _ _)
  rw [text_eq, hseed, Tree.compact, hfields, compactMembers_append hfront (List.cons_ne_nil _ _), seedText]
  generalize compactMembers (p.front fmt ++ [p.flag]) = text
  simp only [compactMembers, Tree.compact, List.append_assoc, List.cons_append]
  rfl

theorem CoreParams.valid_of_seed (hfmt : Prints fmt) (hwalk : p.Finite) {seed : ℕ} (hseed : p.seed = some seed) :
    ∃ t, JsonText (p.text fmt) t ∧ t.plain = .obj [] (p.members fmt) := by
  have hseedString : IsString (ascii "seed") := by rfl
  have hflag := p.flag_sound
  have hsound : (Tree.obj [] (p.members fmt)).Sound := by
    rw [Tree.Sound, members, hseed]
    exact soundMembers_append.mpr ⟨front_sound hfmt hwalk, hflag.1, ⟨hseedString, isScalar_decimal seed⟩, trivial⟩
  obtain ⟨t, ht, hplain⟩ := Tree.Sound.derives _ hsound
  rw [text_of_seed hseed]
  refine ⟨t, ht.alone, ?_⟩
  rw [hplain, Tree.plain, members_plain]

/-- A zero right behind the last field. -/
theorem CoreParams.flag_zero (p : CoreParams) {ms : List (Bytes × Tree)} :
    ¬ Derives (compactMembers [p.flag] ++ [48]) (.members ms) := by
  intro h
  have hread := h.members_read
  have hnone : readPart (2 * (compactMembers [p.flag] ++ [48]).length + 2) .members (compactMembers [p.flag] ++ [48]) = none := by
    cases p with
    | search knobs walk debugMode seed =>
      cases debugMode with
      | false => rfl
      | true => rfl
    | debug knobs seed => rfl
    | explore knobs walk seed => rfl
  rw [hnone] at hread
  cases hread

theorem CoreParams.invalid_of_none (hfmt : Prints fmt) (hwalk : p.Finite) (hseed : p.seed = none) :
    ¬ ∃ t, JsonText (p.text fmt) t ∧ t.plain = .obj [] (p.members fmt) := by
  rintro ⟨t, ht, hplain⟩
  have htext : p.text fmt = 123 :: (compactMembers (p.front fmt) ++ 44 :: (compactMembers [p.flag] ++ [48]) ++ [125]) := by
    rw [text_eq, hseed, compactMembers_append (p.front_ne_nil fmt) (List.cons_ne_nil _ _), seedText, decimal_zero]
    simp only [List.append_assoc, List.cons_append]
    rfl
  rw [htext] at ht
  obtain ⟨ms, hms⟩ := ht.members (by simp [members]) hplain
  obtain ⟨ms', hms'⟩ := hms.members_after (p.front_ne_nil fmt) (front_sound hfmt hwalk)
  exact p.flag_zero hms'

/-! ### The buffer -/

/-- The ranges that the entries check. -/
def Knobs.inRange (k : Knobs) : Bool :=
  1 ≤ k.iterations ∧ k.iterations ≤ 10000 ∧ 2 ≤ k.populationSize ∧ k.populationSize ≤ 10000 ∧ 1 ≤ k.diffusionFactor ∧
    k.diffusionFactor ≤ 32

theorem decimalInt_length_le {z : ℤ} {w : ℕ} (h0 : 0 ≤ z) (h : z < 10 ^ (w + 1)) : (decimalInt z).length ≤ w + 1 := by
  rw [decimalInt, if_neg (not_lt.mpr h0)]
  apply decimal_length_le
  zify
  rwa [abs_of_nonneg h0]

theorem knobsText_length {knobs : Knobs} (h : knobs.inRange = true) : (knobsText knobs).length ≤ 70 := by
  obtain ⟨hi0, hi, hp0, hp, hd0, hd⟩ := of_decide_eq_true h
  have hiterations : (decimalInt knobs.iterations).length ≤ 4 + 1 := decimalInt_length_le (by omega) (by omega)
  have hpopulation : (decimalInt knobs.populationSize).length ≤ 4 + 1 := decimalInt_length_le (by omega) (by omega)
  have hdiffusion : (decimalInt knobs.diffusionFactor).length ≤ 4 + 1 := decimalInt_length_le (by omega) (by omega)
  have hopen : (ascii "\x7b\"iterations\":").length = 14 := by rfl
  have hsecond : (ascii ",\"population_size\":").length = 19 := by rfl
  have hthird : (ascii ",\"diffusion_factor\":").length = 20 := by rfl
  rw [knobsText]
  simp only [List.length_append, hopen, hsecond, hthird]
  omega

theorem seedText_length {seed : Option ℕ} (h : ∀ s ∈ seed, s < 2 ^ 64) : (seedText seed).length ≤ 30 := by
  cases seed with
  | none => rw [seedText, decimal_zero]; decide
  | some s =>
    have hdigits : (decimal s).length ≤ 19 + 1 := decimal_length_le ((h s rfl).trans (by norm_num))
    have hprefix : (ascii ",\"seed\":").length = 8 := by rfl
    have hclose : (ascii "\x7d").length = 1 := by rfl
    rw [seedText]
    simp only [List.length_append, hprefix, hclose]
    omega

theorem boolText_length (b : Bool) : (boolText b).length ≤ 5 := by
  cases b <;> decide

/-- The buffer has room for every text of parameters in range. -/
theorem CoreParams.buffer_eq (hfmt : Prints fmt) (hwalk : p.Finite) (hrange : p.knobs.inRange = true)
    (hseed : ∀ s ∈ p.seed, s < 2 ^ 64) : p.buffer fmt = p.text fmt := by
  have hknobs := knobsText_length hrange
  have hseedText := seedText_length hseed
  have hwalkText : (ascii ",\"walk\":").length = 8 := by
    rw [ascii_ofList]
    rfl
  rw [buffer]
  apply List.take_of_length_le
  cases p with
  | search knobs walk debugMode seed =>
    have hprint := (hfmt walk hwalk).2
    have hdebug : (ascii ",\"debug\":").length = 9 := by
      rw [ascii_ofList]
      rfl
    have hbool := boolText_length debugMode
    rw [text]
    simp only [List.length_append, hwalkText, hdebug]
    simp only [CoreParams.knobs, CoreParams.seed] at hknobs hseedText
    omega
  | debug knobs seed =>
    have hfixed : (ascii ",\"walk\":0.5,\"no_corpus\":true,\"debug\":true").length = 41 := by
      rw [ascii_ofList]
      rfl
    rw [text]
    simp only [List.length_append, hfixed]
    simp only [CoreParams.knobs, CoreParams.seed] at hknobs hseedText
    omega
  | explore knobs walk seed =>
    have hprint := (hfmt walk hwalk).2
    have hpopulation : (ascii ",\"return_population\":true").length = 25 := by
      rw [ascii_ofList]
      rfl
    rw [text]
    simp only [List.length_append, hwalkText, hpopulation]
    simp only [CoreParams.knobs, CoreParams.seed] at hknobs hseedText
    omega

end

end FractalSQL.Search
