import FractalSQL.Audit.Spans
import FractalSQL.Audit.Splice
import FractalSQL.Lib.JsonStrings

/-!
# The fingerprint of a string

The decoder of the redactor resolves a string of the grammar to the text it spells, and
the hash mode stores the digest and the length of that text. It hands the text on as a C
string, so a text with a zero byte is fingerprinted up to this byte only.
-/
namespace FractalSQL.Audit
open Lib Lib.Json Lib.JsonGrammar

/-! ### The decoder -/

/-- A low half in front of the pieces was written as an escape. -/
theorem lowSurrogate_of_pieces {raw : Bytes} {lo : ℕ} {ps : List Piece} (h : pieces raw = some (.unit lo :: ps))
    (hlo : IsLow lo) : lowSurrogate raw = some lo := by
  fun_cases pieces raw with
  | case1 => cases h
  | case2 a b c d raw =>
    rw [pieces] at h
    obtain ⟨n, hn, h⟩ := Option.bind_eq_some_iff.mp h
    obtain ⟨qs, hqs, h⟩ := Option.bind_eq_some_iff.mp h
    cases h
    rw [lowSurrogate, hn, Option.filter_some]
    exact if_pos (decide_eq_true hlo)
  | case3 e raw hne =>
    rw [pieces] at h
    · obtain ⟨n, hn, h⟩ := Option.bind_eq_some_iff.mp h
      obtain ⟨qs, hqs, h⟩ := Option.bind_eq_some_iff.mp h
      cases h
      have hlt := escapeChar_lt hn
      have hge : 0xDC00 ≤ lo := hlo.1
      omega
    · exact hne
  | case4 b raw hhex hesc hbad =>
    rw [pieces, if_pos hbad] at h
    · cases h
    · exact hhex
    · exact hesc
  | case5 b raw hhex hesc hok =>
    rw [pieces, if_neg hok] at h
    · obtain ⟨qs, hqs, h⟩ := Option.map_eq_some_iff.mp h
      cases h
    · exact hhex
    · exact hesc

theorem lowSurrogate_some {s : Bytes} {lo : ℕ} (h : lowSurrogate s = some lo) :
    IsLow lo ∧ ∃ a b c d s', s = 92 :: 117 :: a :: b :: c :: d :: s' ∧ hex4 a b c d = some lo := by
  fun_cases lowSurrogate s with
  | case1 a b c d s =>
    rw [lowSurrogate] at h
    obtain ⟨hsome, hlow⟩ := Option.filter_eq_some_iff.mp h
    exact ⟨of_decide_eq_true hlow, a, b, c, d, s, rfl, hsome⟩
  | case2 s hne =>
    rw [lowSurrogate] at h
    · cases h
    · exact hne

theorem unescapeDup_unit {a b c d : UInt8} {n : ℕ} (hn : hex4 a b c d = some n) {s : Bytes}
    (h : ∀ lo, lowSurrogate s = some lo → ¬ IsHigh n) :
    unescapeDup (92 :: 117 :: a :: b :: c :: d :: s) = (unescapeDup s).map (utf8Encode n ++ ·) := by
  rw [unescapeDup, hn]
  dsimp only
  split_ifs with hhigh
  · cases hlow : lowSurrogate s with
    | none => rfl
    | some lo => exact absurd hhigh (h lo hlow)
  · rfl

theorem unescapeDup_pair {a b c d : UInt8} {n lo : ℕ} (hn : hex4 a b c d = some n) (hhigh : IsHigh n) {s : Bytes}
    (h : lowSurrogate s = some lo) :
    unescapeDup (92 :: 117 :: a :: b :: c :: d :: s) = (unescapeDup (s.drop 6)).map (utf8Encode (paired n lo) ++ ·) := by
  rw [unescapeDup, hn]
  dsimp only
  rw [if_pos (show 0xD800 ≤ n ∧ n ≤ 0xDBFF from hhigh), h]

theorem unescapeDup_escape {e : UInt8} {n : ℕ} (h : escapeChar e = some n) (s : Bytes) :
    unescapeDup (92 :: e :: s) = (unescapeDup s).map (utf8Encode n ++ ·) := by
  rcases escapeChar_cases h with ⟨rfl, rfl⟩ | ⟨rfl, rfl⟩ | ⟨rfl, rfl⟩ | ⟨rfl, rfl⟩ | ⟨rfl, rfl⟩ | ⟨rfl, rfl⟩ |
    ⟨rfl, rfl⟩ | ⟨rfl, rfl⟩
  all_goals
    rw [unescapeDup]
    rfl

theorem unescapeDup_plain {b : UInt8} (h : b ≠ 92) (s : Bytes) :
    unescapeDup (b :: s) = (unescapeDup s).map (b :: ·) := by
  rw [unescapeDup]
  all_goals
    intros
    exact absurd ‹b = 92› h

/-- The decoder gives the text of the pieces. -/
theorem unescapeDup_pieces {raw : Bytes} {ps : List Piece} (h : pieces raw = some ps) :
    unescapeDup raw = some (textOf ps) := by
  fun_induction pieces raw generalizing ps with
  | case1 =>
    cases h
    rw [unescapeDup]
    rfl
  | case2 a b c d raw ih =>
    obtain ⟨n, hn, h⟩ := Option.bind_eq_some_iff.mp h
    obtain ⟨qs, hqs, h⟩ := Option.bind_eq_some_iff.mp h
    cases h
    have hrest := ih hqs
    by_cases hpair : IsHigh n ∧ ∃ lo, lowSurrogate raw = some lo
    · obtain ⟨hhigh, lo, hlo⟩ := hpair
      obtain ⟨hlow, a', b', c', d', raw', rfl, hn'⟩ := lowSurrogate_some hlo
      obtain ⟨n', hlo', hqs⟩ := Option.bind_eq_some_iff.mp hqs
      obtain ⟨rs, hrs, hqs⟩ := Option.bind_eq_some_iff.mp hqs
      cases hqs
      obtain rfl : lo = n' := Option.some.inj (hn'.symm.trans hlo')
      -- The low half by itself would be decoded alone, and the text behind it is the same.
      have hlone : ¬ IsHigh lo := fun hh => absurd hlow.1 (by have := hh.2; omega)
      rw [unescapeDup_unit hn' fun _ _ => hlone, textOf_unit fun _ _ _ h => hlone h.1] at hrest
      obtain ⟨s, hs, happ⟩ := Option.map_eq_some_iff.mp hrest
      rw [unescapeDup_pair hn hhigh hlo, textOf_pair hhigh hlow]
      change (unescapeDup raw').map _ = _
      rw [hs, Option.map_some, List.append_cancel_left happ]
    · have halone (lo : ℕ) (hlo : lowSurrogate raw = some lo) : ¬ IsHigh n := fun hhigh => hpair ⟨hhigh, lo, hlo⟩
      rw [unescapeDup_unit hn halone, hrest, textOf_unit]
      · rfl
      · rintro lo rs rfl ⟨hhigh, hlow⟩
        exact hpair ⟨hhigh, lo, lowSurrogate_of_pieces hqs hlow⟩
  | case3 e raw hne ih =>
    obtain ⟨n, hn, h⟩ := Option.bind_eq_some_iff.mp h
    obtain ⟨qs, hqs, h⟩ := Option.bind_eq_some_iff.mp h
    cases h
    have hlt := escapeChar_lt hn
    rw [unescapeDup_escape hn, ih hqs, textOf_unit]
    · rfl
    · rintro lo rs rfl ⟨hhigh, -⟩
      have hge : 0xD800 ≤ n := hhigh.1
      omega
  | case4 b raw hhex hesc hbad => cases h
  | case5 b raw hhex hesc hok ih =>
    obtain ⟨qs, hqs, rfl⟩ := Option.map_eq_some_iff.mp h
    rw [not_or, not_or] at hok
    rw [unescapeDup_plain hok.2.1, ih hqs]
    rfl

/-- On a string of the grammar the decoder gives the text it spells. -/
theorem unescapeDup_decoded {raw : Bytes} (h : IsString raw) : unescapeDup raw = some (decoded raw) := by
  obtain ⟨ps, hps⟩ := Option.isSome_iff_exists.mp h
  rw [unescapeDup_pieces hps, decoded, hps]
  rfl

/-! ### The encoder -/

/-- The escape of one byte spells the byte. -/
theorem spellsByte_escapeByte (b : UInt8) : SpellsByte (escapeByte b) b := by
  rcases escapeByte_cases b with ⟨e, hesc, he⟩ | ⟨h32, hesc⟩ | ⟨hplain, hesc⟩
  · rw [hesc]
    exact spellsByte_escape he
  · rw [hesc]
    exact spellsByte_control h32
  · obtain ⟨h92, h34, h32⟩ := of_decide_eq_true hplain
    rw [hesc]
    exact spellsByte_plain h92 h34 h32

theorem isString_jsonEscape (s : Bytes) : IsString (jsonEscape s) := isString_flatMap spellsByte_escapeByte s

theorem decoded_jsonEscape (s : Bytes) : decoded (jsonEscape s) = s := decoded_flatMap spellsByte_escapeByte s

theorem putJsonString_inj {s t : Bytes} (h : putJsonString s = putJsonString t) : s = t := by
  have hescape : jsonEscape s = jsonEscape t := List.append_cancel_right (List.cons.inj h).2
  rw [← decoded_jsonEscape s, hescape, decoded_jsonEscape]

/-! ### Fingerprints -/

/-- What a text is replaced by. -/
def redactedForm (sha : Bytes → Block 32) (mode : RedactMode) (s : Bytes) : Bytes :=
  match mode with
  | .hash => fingerprint sha s
  | .truncate => s.take truncateChars
  | .none => s

section Fingerprint

variable {sha : Bytes → Block 32} {raw : Bytes}

/-- The hash form tells the digest and the length. -/
theorem hashText_inj {a b : Block 32} {n m : ℕ} (h : hashText a n = hashText b m) : a = b ∧ n = m := by
  have hbody := List.append_cancel_left h
  have hlen : (hexEncode a.val).length = (hexEncode b.val).length := by
    rw [hexEncode_length, hexEncode_length, a.property, b.property]
  obtain ⟨hhex, hrest⟩ := List.append_inj hbody hlen
  have hdigits := List.append_cancel_left hrest
  constructor
  · exact Subtype.ext (hexEncode_injective hhex)
  · rw [← digitsValue_decimal n, hdigits, digitsValue_decimal]

theorem hashText_length (a : Block 32) (n : ℕ) : (hashText a n).length = 76 + (decimal n).length := by
  rw [hashText, List.length_append, List.length_append, List.length_append, hexEncode_length, a.property]
  change 7 + (64 + (5 + _)) = _
  omega

/-- The hash form fits the buffer. -/
theorem fingerprint_fits (s : Bytes) : (fingerprint sha s).length < redactMax := by
  have hdigits : (decimal (s.length % 2 ^ 64)).length ≤ 19 + 1 := decimal_length_le (by omega)
  rw [fingerprint, hashText_length, redactMax]
  omega

theorem hexDigit_printable : ∀ n < 16, 32 ≤ hexDigit n ∧ hexDigit n < 128 := by decide

theorem hexEncode_printable (s : Bytes) : ∀ b ∈ hexEncode s, 32 ≤ b ∧ b < 128 := by
  induction s with
  | nil => exact nofun
  | cons c s ih =>
    have hc : c.toNat < 256 := c.toNat_lt
    rw [hexEncode, List.forall_mem_cons, List.forall_mem_cons]
    exact ⟨hexDigit_printable _ (by omega), hexDigit_printable _ (by omega), ih⟩

theorem digit_printable {d : UInt8} (h : isDigit d = true) : 32 ≤ d ∧ d < 128 := by
  have hd := of_decide_eq_true h
  exact ⟨UInt8.le_trans (by decide) hd.1, UInt8.lt_of_le_of_lt hd.2 (by decide)⟩

theorem hashText_printable (a : Block 32) (n : ℕ) : ∀ b ∈ hashText a n, 32 ≤ b ∧ b < 128 := by
  have htext {s : String} (h : ((ascii s).all fun b => decide (32 ≤ b ∧ b < 128)) = true) :
      ∀ b ∈ ascii s, 32 ≤ b ∧ b < 128 := fun b hb => of_decide_eq_true (List.all_eq_true.mp h b hb)
  have hdigits : ∀ b ∈ decimal n, 32 ≤ b ∧ b < 128 := fun b hb => digit_printable (decimal_isDigit n b hb)
  rw [hashText, List.forall_mem_append, List.forall_mem_append, List.forall_mem_append]
  exact ⟨htext rfl, hexEncode_printable _, htext rfl, hdigits⟩

theorem zero_not_mem_hashText (a : Block 32) (n : ℕ) : (0 : UInt8) ∉ hashText a n := by
  intro h
  exact absurd (hashText_printable a n 0 h).1 (by decide)

section Modes

variable {mode : RedactMode}

theorem auditRedactBytes_fits (hmode : mode ≠ .none) (s : Bytes) :
    auditRedactBytes sha mode s redactMax = some (redactedForm sha mode s) := by
  have hcap : redactMax ≠ 0 := by decide
  unfold auditRedactBytes
  rw [if_neg hcap]
  cases mode with
  | none => exact absurd rfl hmode
  | hash => exact if_neg (Nat.not_le.mpr (fingerprint_fits s))
  | truncate =>
    have hkeep : s.take (if truncateChars < s.length then truncateChars else s.length) = s.take truncateChars := by
      split_ifs with hlong
      · rfl
      · rw [List.take_length, List.take_of_length_le (Nat.not_lt.mp hlong)]
    have hfits : ¬ redactMax < (if truncateChars < s.length then truncateChars else s.length) + 1 := by
      rw [redactMax, truncateChars]
      split_ifs with hlong <;> omega
    dsimp only
    rw [if_neg hfits, hkeep]
    rfl

theorem zero_not_mem_redactedForm {s : Bytes} (h : (0 : UInt8) ∉ s) : (0 : UInt8) ∉ redactedForm sha mode s := by
  cases mode with
  | none => exact h
  | hash => exact zero_not_mem_hashText _ _
  | truncate => exact fun hmem => h (List.mem_of_mem_take hmem)

theorem zero_not_mem_cString (s : Bytes) : (0 : UInt8) ∉ cString s :=
  fun h => absurd (List.mem_takeWhile_imp h) (by decide)

theorem emitRedacted_text (hmode : mode ≠ .none) {text : Bytes} (h : (0 : UInt8) ∉ text) :
    emitRedacted sha mode text false = putJsonString (redactedForm sha mode text) := by
  rw [emitRedacted, if_neg Bool.false_ne_true, auditRedactBytes_fits hmode]
  dsimp only
  rw [cString_eq_self (zero_not_mem_redactedForm h)]

theorem emitRedacted_string (hmode : mode ≠ .none) {raw : Bytes} (h : IsString raw) :
    emitRedacted sha mode raw true = putJsonString (redactedForm sha mode (cString (decoded raw))) := by
  rw [emitRedacted, if_pos rfl, unescapeDup_decoded h]
  dsimp only
  rw [auditRedactBytes_fits hmode]
  dsimp only
  rw [cString_eq_self (zero_not_mem_redactedForm (zero_not_mem_cString _))]

end Modes

/-- The hash mode stores the fingerprint of the text up to its first zero byte. -/
theorem emitRedacted_hash (h : IsString raw) :
    emitRedacted sha .hash raw true = putJsonString (fingerprint sha (cString (decoded raw))) := by
  have hmode : RedactMode.hash ≠ .none := by decide
  exact emitRedacted_string hmode h

theorem utf8Encode_length (n : ℕ) : (utf8Encode n).length ≤ 4 := by
  unfold utf8Encode
  split_ifs <;> simp

theorem textOf_length (n : ℕ) (ps : List Piece) : (textOf (.unit n :: ps)).length ≤ 4 + (textOf ps).length := by
  by_cases hpair : ∃ lo qs, ps = .unit lo :: qs ∧ IsHigh n ∧ IsLow lo
  · obtain ⟨lo, qs, rfl, hhigh, hlow⟩ := hpair
    have hlone : ¬ IsHigh lo := fun hh => absurd hlow.1 (by have := hh.2; omega)
    have hlen := utf8Encode_length (paired n lo)
    rw [textOf_pair hhigh hlow, textOf_unit fun _ _ _ h => hlone h.1, List.length_append, List.length_append]
    omega
  · have hlen := utf8Encode_length n
    rw [textOf_unit fun lo qs hps h => hpair ⟨lo, qs, hps, h⟩, List.length_append]
    omega

/-- Decoding does not make a text longer. -/
theorem decoded_length (raw : Bytes) : (decoded raw).length ≤ raw.length := by
  have hall {ps : List Piece} (h : pieces raw = some ps) : (textOf ps).length ≤ raw.length := by
    fun_induction pieces raw generalizing ps with
    | case1 =>
      cases h
      exact le_rfl
    | case2 a b c d raw ih =>
      obtain ⟨n, hn, h⟩ := Option.bind_eq_some_iff.mp h
      obtain ⟨qs, hqs, h⟩ := Option.bind_eq_some_iff.mp h
      cases h
      have hle := ih hqs
      have hlen := textOf_length n qs
      simp only [List.length_cons]
      omega
    | case3 e raw hne ih =>
      obtain ⟨n, hn, h⟩ := Option.bind_eq_some_iff.mp h
      obtain ⟨qs, hqs, h⟩ := Option.bind_eq_some_iff.mp h
      cases h
      have hlt := escapeChar_lt hn
      have hle := ih hqs
      rw [textOf_ascii hlt]
      simp only [List.length_cons]
      omega
    | case4 b raw hhex hesc hbad => cases h
    | case5 b raw hhex hesc hok ih =>
      obtain ⟨qs, hqs, rfl⟩ := Option.map_eq_some_iff.mp h
      exact Nat.succ_le_succ (ih hqs)
  rw [decoded]
  cases hps : pieces raw with
  | none => exact Nat.zero_le _
  | some ps => exact hall hps

/-- What is stored for the string is the digest and the length of the text it spells. -/
def Identified (sha : Bytes → Block 32) (raw : Bytes) : Prop :=
  emitRedacted sha .hash raw true = putJsonString (hashText (sha (decoded raw)) (decoded raw).length)

theorem cString_length_lt {s : Bytes} (h : (0 : UInt8) ∈ s) : (cString s).length < s.length := by
  apply lt_of_le_of_ne (List.takeWhile_sublist _).length_le
  intro heq
  have hself : cString s = s := (List.takeWhile_sublist _).eq_of_length heq
  have hall := List.takeWhile_eq_self_iff.mp hself 0 h
  exact absurd hall (by decide)

/-- A string is identified exactly when the text it spells has no zero byte. -/
theorem identified_iff (h : IsString raw) (hsize : raw.length < 2 ^ 64) : Identified sha raw ↔ (0 : UInt8) ∉ decoded raw := by
  have hlen : (cString (decoded raw)).length ≤ (decoded raw).length := (List.takeWhile_sublist _).length_le
  have hle := decoded_length raw
  have hmod : (cString (decoded raw)).length % 2 ^ 64 = (cString (decoded raw)).length := Nat.mod_eq_of_lt (by omega)
  rw [Identified, emitRedacted_hash h, fingerprint, hmod]
  constructor
  · intro heq hzero
    have hlt := cString_length_lt hzero
    have hsame := (hashText_inj (putJsonString_inj heq)).2
    omega
  · intro hzero
    rw [cString_eq_self hzero]

/-- Two strings are stored as the digests and lengths of their texts, and alike exactly when
the texts are equal, if and only if no zero byte is in the texts. -/
theorem fingerprint_identifies_iff (sha : Bytes → Block 32) {raw₁ raw₂ : Bytes} (h₁ : IsString raw₁) (h₂ : IsString raw₂)
    (hsize₁ : raw₁.length < 2 ^ 64) (hsize₂ : raw₂.length < 2 ^ 64)
    (hinj : sha (decoded raw₁) = sha (decoded raw₂) → decoded raw₁ = decoded raw₂) :
    (Identified sha raw₁ ∧ Identified sha raw₂ ∧
      (emitRedacted sha .hash raw₁ true = emitRedacted sha .hash raw₂ true ↔ decoded raw₁ = decoded raw₂)) ↔
    (0 : UInt8) ∉ decoded raw₁ ∧ (0 : UInt8) ∉ decoded raw₂ := by
  have hzero₁ : Identified sha raw₁ ↔ (0 : UInt8) ∉ decoded raw₁ := identified_iff h₁ hsize₁
  have hzero₂ : Identified sha raw₂ ↔ (0 : UInt8) ∉ decoded raw₂ := identified_iff h₂ hsize₂
  rw [← hzero₁, ← hzero₂]
  constructor
  · rintro ⟨hid₁, hid₂, -⟩
    exact ⟨hid₁, hid₂⟩
  · rintro ⟨hid₁, hid₂⟩
    refine ⟨hid₁, hid₂, ?_⟩
    rw [hid₁, hid₂]
    constructor
    · intro heq
      exact hinj (hashText_inj (putJsonString_inj heq)).1
    · intro heq
      rw [heq]

/-- A digest that tells short texts apart. -/
def shortDigest (s : Bytes) : Block 32 := leBlock 32 (leValue s)

theorem fingerprint_identifies_pair :
    Identified shortDigest (ascii "\\ud83d\\ude00") ∧ Identified shortDigest (ascii "a\\n") ∧
      (emitRedacted shortDigest .hash (ascii "\\ud83d\\ude00") true = emitRedacted shortDigest .hash (ascii "a\\n") true ↔
        decoded (ascii "\\ud83d\\ude00") = decoded (ascii "a\\n")) :=
  (fingerprint_identifies_iff shortDigest (by decide) (by decide) (by decide) (by decide)
    (fun h => absurd h (by decide))).mpr (by decide)

/-- Two texts that differ behind a zero byte are stored alike. -/
theorem zero_byte_hides_text :
    ¬ ∀ (sha : Bytes → Block 32) (raw₁ raw₂ : Bytes), IsString raw₁ → IsString raw₂ → raw₁.length < 2 ^ 64 →
      raw₂.length < 2 ^ 64 → (sha (decoded raw₁) = sha (decoded raw₂) → decoded raw₁ = decoded raw₂) →
      Identified sha raw₁ ∧ Identified sha raw₂ ∧
        (emitRedacted sha .hash raw₁ true = emitRedacted sha .hash raw₂ true ↔ decoded raw₁ = decoded raw₂) := by
  intro h
  have hpair := h shortDigest (ascii "id\\u00001") (ascii "id\\u00002") (by decide +kernel) (by decide +kernel) (by decide)
    (by decide) (fun h => absurd h (by decide +kernel))
  have hsame : emitRedacted shortDigest .hash (ascii "id\\u00001") true =
      emitRedacted shortDigest .hash (ascii "id\\u00002") true := by
    decide +kernel
  exact absurd (hpair.2.2.mp hsame) (by decide +kernel)

end Fingerprint

end FractalSQL.Audit
