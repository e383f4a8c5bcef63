import FractalSQL.Lib.JsonGrammar

/-!
# Strings that spell a text

Where the pieces of a string spell a text byte by byte, the string is well formed and decodes to
the text. An escaper that writes each byte so is inverted by the decoder, whatever escapes it uses.
-/
namespace FractalSQL.Lib.JsonGrammar
open Json

/-! ### The text of pieces -/

theorem textOf_unit {n : ℕ} {ps : List Piece} (h : ∀ lo qs, ps = .unit lo :: qs → ¬ (IsHigh n ∧ IsLow lo)) :
    textOf (.unit n :: ps) = utf8Encode n ++ textOf ps := by
  cases ps with
  | nil => rfl
  | cons p ps =>
    cases p with
    | byte b => rfl
    | unit lo => rw [textOf, if_neg (h lo ps rfl)]

theorem textOf_pair {hi lo : ℕ} (hhi : IsHigh hi) (hlo : IsLow lo) (ps : List Piece) :
    textOf (.unit hi :: .unit lo :: ps) = utf8Encode (paired hi lo) ++ textOf ps := by
  rw [textOf, if_pos ⟨hhi, hlo⟩]

theorem escapeChar_cases {e : UInt8} {n : ℕ} (h : escapeChar e = some n) :
    e = 34 ∧ n = 34 ∨ e = 92 ∧ n = 92 ∨ e = 47 ∧ n = 47 ∨ e = 98 ∧ n = 8 ∨ e = 102 ∧ n = 12 ∨ e = 110 ∧ n = 10 ∨
      e = 114 ∧ n = 13 ∨ e = 116 ∧ n = 9 := by
  unfold escapeChar at h
  split_ifs at h with h₁ h₂ h₃ h₄ h₅ h₆
  · obtain rfl := Option.some.inj h
    rcases h₁ with rfl | rfl | rfl <;> decide
  all_goals
    subst_vars
    obtain rfl := Option.some.inj h
    decide

theorem escapeChar_byte_lt {e : UInt8} {n : ℕ} (h : escapeChar e = some n) : e < 128 := by
  rcases escapeChar_cases h with ⟨rfl, -⟩ | ⟨rfl, -⟩ | ⟨rfl, -⟩ | ⟨rfl, -⟩ | ⟨rfl, -⟩ | ⟨rfl, -⟩ | ⟨rfl, -⟩ | ⟨rfl, -⟩ <;>
    decide

theorem escapeChar_lt {e : UInt8} {n : ℕ} (h : escapeChar e = some n) : n < 128 := by
  rcases escapeChar_cases h with h | h | h | h | h | h | h | h <;> omega

theorem textOf_ascii {n : ℕ} (h : n < 128) (ps : List Piece) : textOf (.unit n :: ps) = UInt8.ofNat n :: textOf ps := by
  rw [textOf_unit, utf8Encode, if_pos h]
  · rfl
  · rintro lo qs - ⟨hhigh, -⟩
    have hge : 0xD800 ≤ n := hhigh.1
    omega

/-! ### Escapes -/

theorem pieces_escape {e : UInt8} {n : ℕ} (h : escapeChar e = some n) (raw : Bytes) :
    pieces (92 :: e :: raw) = (pieces raw).map (.unit n :: ·) := by
  have hne : ∀ a b c d (s : Bytes), e :: raw ≠ 117 :: a :: b :: c :: d :: s := by
    intro a b c d s heq
    rw [(List.cons.inj heq).1] at h
    cases h
  rw [pieces, h]
  · cases pieces raw <;> rfl
  · intro a b c d s he hraw
    exact hne a b c d s (by rw [he, hraw])

theorem pieces_control : ∀ n < 32, hex4 48 48 (hexDigit (n / 16)) (hexDigit (n % 16)) = some n := by
  decide

theorem pieces_byte {b : UInt8} (h92 : b ≠ 92) (h34 : b ≠ 34) (h32 : 32 ≤ b) (raw : Bytes) :
    pieces (b :: raw) = (pieces raw).map (.byte b :: ·) := by
  have hok : ¬ (b = 34 ∨ b = 92 ∨ b < 32) := by
    rw [not_or, not_or]
    exact ⟨h34, h92, UInt8.not_lt.mpr h32⟩
  rw [pieces, if_neg hok]
  all_goals
    intros
    exact absurd ‹b = 92› h92

/-- In front of any string the form is one piece, and it spells the byte. -/
def SpellsByte (form : Bytes) (b : UInt8) : Prop :=
  ∀ raw, ∃ p, pieces (form ++ raw) = (pieces raw).map (p :: ·) ∧ ∀ ps, textOf (p :: ps) = b :: textOf ps

theorem spellsByte_escape {e b : UInt8} (h : escapeChar e = some b.toNat) : SpellsByte [92, e] b := by
  refine fun raw => ⟨.unit b.toNat, pieces_escape h raw, fun ps => ?_⟩
  rw [textOf_ascii (escapeChar_lt h), UInt8.ofNat_toNat]

theorem spellsByte_control {b : UInt8} (h : b < 32) : SpellsByte (92 :: 117 :: 48 :: 48 :: hexEncode [b]) b := by
  have hlt : b.toNat < 32 := h
  refine fun raw => ⟨.unit b.toNat, ?_, fun ps => ?_⟩
  · simp only [hexEncode, List.cons_append, List.nil_append]
    rw [pieces, pieces_control b.toNat hlt]
    cases pieces raw <;> rfl
  · rw [textOf_ascii (by omega), UInt8.ofNat_toNat]

theorem spellsByte_plain {b : UInt8} (h92 : b ≠ 92) (h34 : b ≠ 34) (h32 : 32 ≤ b) : SpellsByte [b] b :=
  fun raw => ⟨.byte b, pieces_byte h92 h34 h32 raw, fun ps => by rw [textOf]⟩

/-! ### Escapers -/

section
variable {esc : UInt8 → Bytes}

theorem pieces_flatMap (h : ∀ b, SpellsByte (esc b) b) (s : Bytes) : ∃ ps, pieces (s.flatMap esc) = some ps ∧ textOf ps = s := by
  induction s with
  | nil => exact ⟨[], rfl, rfl⟩
  | cons b s ih =>
    obtain ⟨ps, hps, htext⟩ := ih
    obtain ⟨p, hp, hbyte⟩ := h b (s.flatMap esc)
    refine ⟨p :: ps, ?_, ?_⟩
    · rw [List.flatMap_cons, hp, hps]
      rfl
    · rw [hbyte, htext]

/-- What is escaped is a string. -/
theorem isString_flatMap (h : ∀ b, SpellsByte (esc b) b) (s : Bytes) : IsString (s.flatMap esc) := by
  obtain ⟨ps, hps, -⟩ := pieces_flatMap h s
  rw [IsString, hps]
  rfl

/-- The escaped form of a text spells the text. -/
theorem decoded_flatMap (h : ∀ b, SpellsByte (esc b) b) (s : Bytes) : decoded (s.flatMap esc) = s := by
  obtain ⟨ps, hps, htext⟩ := pieces_flatMap h s
  rw [decoded, hps]
  exact htext

/-- The bytes of longer characters stay as they are, and the escapes are ASCII. -/
theorem utf8From_flatMap (hlow : ∀ b, b < 128 → ∀ c ∈ esc b, c < 128) (hhigh : ∀ b, 128 ≤ b → esc b = [b])
    {ranges : List (UInt8 × UInt8)} (hranges : ∀ r ∈ ranges, 128 ≤ r.1) {s : Bytes} (h : utf8From ranges s = true) :
    utf8From ranges (s.flatMap esc) = true := by
  induction s generalizing ranges with
  | nil => exact h
  | cons b s ih =>
    rw [List.flatMap_cons]
    cases ranges with
    | nil =>
      rw [utf8From] at h
      cases hb : following b with
      | none => simp [hb] at h
      | some ranges =>
        rw [hb] at h
        by_cases hlt : b < 128
        · have hesc : isUtf8 (esc b) = true := isUtf8_of_ascii (hlow b hlt)
          rw [following, if_pos hlt] at hb
          obtain rfl := Option.some.inj hb
          change isUtf8 (esc b ++ s.flatMap esc) = true
          rw [isUtf8_append hesc]
          exact ih (fun _ hr => absurd hr List.not_mem_nil) h
        · rw [hhigh b (UInt8.not_lt.mp hlt), List.singleton_append, utf8From, hb]
          exact ih (following_le hb) h
    | cons r ranges =>
      obtain ⟨hb, hs⟩ := Bool.and_eq_true_iff.mp h
      have hge : 128 ≤ b := UInt8.le_trans (hranges r (List.mem_cons_self ..)) (of_decide_eq_true hb).1
      rw [hhigh b hge, List.singleton_append, utf8From, hb, Bool.true_and]
      exact ih (fun q hq => hranges q (List.mem_cons_of_mem _ hq)) hs

theorem isUtf8_flatMap (hlow : ∀ b, b < 128 → ∀ c ∈ esc b, c < 128) (hhigh : ∀ b, 128 ≤ b → esc b = [b]) {s : Bytes}
    (h : isUtf8 s = true) : isUtf8 (s.flatMap esc) = true := utf8From_flatMap hlow hhigh (fun _ hr => absurd hr List.not_mem_nil) h
end

end FractalSQL.Lib.JsonGrammar
