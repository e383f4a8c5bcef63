import FractalSQL.Lib.JsonReader

/-!
# Objects written field by field

The compact members of an object one after the other, and what a text that begins with some of them can be
derived as: behind their commas only members follow.
-/
namespace FractalSQL.Lib.JsonGrammar
open Json

/-! ### Compact members -/

theorem soundMembers_append {ms ms' : List (Bytes × Tree)} : SoundMembers (ms ++ ms') ↔ SoundMembers ms ∧ SoundMembers ms' := by
  induction ms with
  | nil => simp [SoundMembers]
  | cons m ms ih => rw [List.cons_append, SoundMembers, SoundMembers, ih, and_assoc (a := IsString m.1 ∧ m.2.Sound)]

theorem compactMembers_append {ms ms' : List (Bytes × Tree)} (h : ms ≠ []) (h' : ms' ≠ []) :
    compactMembers (ms ++ ms') = compactMembers ms ++ 44 :: compactMembers ms' := by
  induction ms with
  | nil => exact absurd rfl h
  | cons m ms ih =>
    obtain ⟨key, t⟩ := m
    rw [List.cons_append, compactMembers_cons (List.append_ne_nil_of_right_ne_nil _ h')]
    by_cases hms : ms = []
    · rw [hms, List.nil_append, compactMembers]
      simp only [List.cons_append, List.append_assoc]
    · rw [ih hms, compactMembers_cons hms]
      simp only [List.cons_append, List.append_assoc]

theorem decimal_head {n : ℕ} (h : n ≠ 0) : (decimal n).head? ≠ some 48 := by
  induction n using Nat.strong_induction_on with
  | _ n ih =>
    rw [decimal]
    split_ifs with hn
    · intro heq
      have hdigit := congrArg UInt8.toNat (Option.some.inj heq)
      rw [digit_toNat hn] at hdigit
      change 48 + n = 48 at hdigit
      omega
    · rw [List.head?_append_of_ne_nil _ (decimal_ne_nil _)]
      exact ih (n / 10) (by omega) (by omega)

theorem decimal_zero : decimal 0 = [48] := by rw [decimal, if_pos (by decide)]; rfl

theorem isInt_decimal (n : ℕ) : IsInt (decimal n) := by
  by_cases hn : n = 0
  · rw [hn, decimal_zero]
    exact .zero
  · exact .digits ⟨decimal_ne_nil n, decimal_isDigit n⟩ (decimal_head hn)

theorem isScalar_decimal (n : ℕ) : IsScalar (decimal n) := by
  have hnumber := IsNumber.plain (isInt_decimal n) .none .none
  rw [List.append_nil, List.append_nil] at hnumber
  exact .number hnumber

/-! ### Members in any derivation -/

section
variable {text rest : Bytes} {ms : List (Bytes × Tree)}

theorem Derives.members_read (h : Derives text (.members ms)) :
    readPart (2 * text.length + 2) .members text = some (.members ms, []) := by
  have hread := readPart_derives h (r := []) le_rfl (by rintro b ⟨⟩)
  rwa [List.append_nil] at hread

/-- Behind a member and a comma there are members. -/
theorem Derives.members_rest {key : Bytes} {t : Tree} (h : Derives text (.member key t))
    (hall : Derives (text ++ 44 :: rest) (.members ms)) : ∃ ms', Derives rest (.members ms') := by
  generalize hs : text ++ 44 :: rest = s at hall
  have hfuel : (Part.member key t).kind.fuel text.length ≤ 2 * s.length + 1 := by
    rw [← hs, List.length_append]
    simp only [Part.kind, Kind.fuel]
    omega
  have hread := readPart_derives h (r := 44 :: rest) hfuel (by rintro b ⟨⟩; exact .inl rfl)
  cases hall with
  | single h' =>
    have hread' := readPart_derives h' (r := []) (n := 2 * s.length + 1) le_rfl (by rintro b ⟨⟩)
    rw [List.append_nil, ← hs] at hread'
    rw [hs] at hread hread'
    cases hread.symm.trans hread'
  | @members text' rest' key' t' ms h' hrest =>
    have hfuel' : (Part.member key' t').kind.fuel text'.length ≤ 2 * (text' ++ 44 :: rest').length + 1 := by
      rw [List.length_append]
      simp only [Part.kind, Kind.fuel]
      omega
    have hread' := readPart_derives h' (r := 44 :: rest') hfuel' (by rintro b ⟨⟩; exact .inl rfl)
    rw [hs] at hread
    cases hread.symm.trans hread'
    exact ⟨ms, hrest⟩

/-- Behind compact members and a comma there are members. -/
theorem Derives.members_after {front : List (Bytes × Tree)} (hne : front ≠ []) (hsound : SoundMembers front)
    (h : Derives (compactMembers front ++ 44 :: rest) (.members ms)) : ∃ ms', Derives rest (.members ms') := by
  induction front generalizing ms with
  | nil => exact absurd rfl hne
  | cons m front ih =>
    obtain ⟨key, t⟩ := m
    obtain ⟨⟨hkey, ht⟩, hfront⟩ := hsound
    obtain ⟨t', ht', -⟩ := Tree.Sound.derives t ht
    have hmember : Derives (34 :: (key ++ 34 :: 58 :: t.compact)) (.member key t') :=
      .member ws_nil hkey ws_nil ht'.alone
    by_cases hfrontne : front = []
    · rw [hfrontne, compactMembers] at h
      exact hmember.members_rest h
    · have hsplit : compactMembers ((key, t) :: front) ++ 44 :: rest =
          34 :: (key ++ 34 :: 58 :: t.compact) ++ 44 :: (compactMembers front ++ 44 :: rest) := by
        rw [compactMembers_cons hfrontne]
        simp only [List.cons_append, List.append_assoc]
      rw [hsplit] at h
      obtain ⟨ms', hms'⟩ := hmember.members_rest h
      exact ih hfrontne hfront hms'

/-- What stands in the brackets of an object that has members. -/
theorem JsonText.members {t : Tree} (h : JsonText (123 :: (text ++ [125])) t) (hne : ms ≠ []) (hplain : t.plain = .obj [] ms) :
    ∃ ms', Derives text (.members ms') := by
  generalize hs : 123 :: (text ++ [125]) = s at h
  cases h with
  | @element w v w' t hw hv hw' =>
    cases hv with
    | scalar _ => cases hplain
    | str _ => cases hplain
    | emptyArr _ => cases hplain
    | arr _ => cases hplain
    | emptyObj _ =>
      injection hplain with _ hms
      exact absurd hms.symm hne
    | @obj text' ms' hms =>
      have hfront : w = [] := by
        cases w with
        | nil => rfl
        | cons b w =>
          injection hs with hb
          have hblank := hw b (List.mem_cons_self ..)
          rw [← hb] at hblank
          cases hblank
      have hback : w' = [] := by
        rcases List.eq_nil_or_concat w' with hnil | ⟨w'', b, rfl⟩
        · exact hnil
        · have hlast := congrArg List.getLast? hs
          have hb : (125 : UInt8) = b := by simpa [List.getLast?_append, List.getLast?_cons] using hlast
          have hblank := hw' b (by simp)
          rw [← hb] at hblank
          cases hblank
      rw [hfront, hback, List.nil_append, List.append_nil] at hs
      injection hs with _ htext
      rw [List.append_cancel_right htext]
      exact ⟨ms', hms⟩

end

end FractalSQL.Lib.JsonGrammar
