import FractalSQL.Search.Params

/-!
# The members of a params object

The scan of `json_find_key` and the grammar: whatever stands below the members is passed over as a
whole, because the counter comes back to where it was; a string of the object's own is a key exactly
when a colon follows.
-/
namespace FractalSQL.Search
open Lib Lib.Json Lib.JsonGrammar

/-! ### One step of the scan -/

theorem stringToken_byte {b : UInt8} (h92 : b ≠ 92) (s : Bytes) :
    stringToken (b :: s) = if b = 34 then some ([], s) else (stringToken s).map fun r => (b :: r.1, r.2) := by
  rw [stringToken]
  all_goals
    intro heq
    simp_all

theorem stringToken_hex {b : UInt8} (h : (hexValue b).isSome = true) (s : Bytes) :
    stringToken (b :: s) = (stringToken s).map fun r => (b :: r.1, r.2) := by
  have hplain : b ≠ 92 ∧ b ≠ 34 := by
    constructor
    · rintro rfl
      cases h
    · rintro rfl
      cases h
  rw [stringToken_byte hplain.1, if_neg hplain.2]

/-- A string of the grammar ends where the scan ends it. -/
theorem stringToken_append {raw : Bytes} (h : IsString raw) (rest : Bytes) :
    stringToken (raw ++ 34 :: rest) = some (raw, rest) := by
  refine IsString.build (P := fun raw => stringToken (raw ++ 34 :: rest) = some (raw, rest)) rfl ?_ ?_ ?_ h
  · intro a b c d raw hhex ih
    obtain ⟨ha, hb, hc, hd⟩ := hex4_isSome hhex
    simp only [List.cons_append, stringToken]
    rw [stringToken_hex ha, stringToken_hex hb, stringToken_hex hc, stringToken_hex hd, ih]
    rfl
  · intro e raw ih
    simp only [List.cons_append, stringToken, ih]
    rfl
  · intro b raw h34 h92 ih
    rw [List.cons_append, stringToken_byte h92, if_neg h34, ih]
    rfl

theorem stringToken_length {s : Bytes} {r : Bytes × Bytes} (h : stringToken s = some r) : r.2.length < s.length := by
  fun_induction stringToken s generalizing r with
  | case1 => cases h
  | case2 => cases h
  | case3 b s ih =>
    obtain ⟨r', hr', rfl⟩ := Option.map_eq_some_iff.mp h
    have hlen := ih hr'
    simp only [List.length_cons]
    omega
  | case4 s =>
    cases h
    exact Nat.lt_succ_self _
  | case5 b s _ _ hne ih =>
    obtain ⟨r', hr', rfl⟩ := Option.map_eq_some_iff.mp h
    have hlen := ih hr'
    simp only [List.length_cons]
    omega

theorem afterColon_length {s v : Bytes} (h : afterColon s = some v) : v.length < s.length := by
  unfold afterColon at h
  split at h
  · rename_i value heq
    cases h
    have hlen := dropWhile_length_le isWs s
    change (skipBlank s).length ≤ s.length at hlen
    rw [heq, List.length_cons] at hlen
    omega
  · cases h

/-- Fuel for every byte is fuel enough. -/
theorem findFrom_fuel {key : Bytes} {n k : ℕ} {depth : ℤ} {s : Bytes} (hn : s.length ≤ n) (hk : s.length ≤ k) :
    findFrom key n depth s = findFrom key k depth s := by
  induction n generalizing k depth s with
  | zero =>
    obtain rfl := List.length_eq_zero_iff.mp (Nat.le_zero.mp hn)
    cases k <;> rfl
  | succ n ih =>
    cases s with
    | nil => cases k <;> rfl
    | cons b s =>
      rw [List.length_cons] at hn hk
      obtain ⟨k, rfl⟩ : ∃ m, k = m + 1 := ⟨k - 1, by omega⟩
      have hs : s.length ≤ n ∧ s.length ≤ k := by omega
      rw [findFrom, findFrom]
      cases htoken : stringToken s with
      | none => simp only [ih hs.1 hs.2]
      | some r =>
        have hr := stringToken_length htoken
        cases hcolon : (afterColon r.2).filter fun _ => decide (depth ≤ 1) with
        | none => simp only [hcolon, ih hs.1 hs.2, ih (hr.le.trans hs.1) (hr.le.trans hs.2)]
        | some v =>
          have hv := (afterColon_length (Option.filter_eq_some_iff.mp hcolon).1).trans hr
          simp only [hcolon, ih hs.1 hs.2, ih (hv.le.trans hs.1) (hv.le.trans hs.2)]

/-- The scan of a text from some depth on. -/
def scan (key : Bytes) (depth : ℤ) (s : Bytes) : Option Bytes := findFrom key s.length depth s

section
variable {key : Bytes} {depth : ℤ}

theorem scan_opening {b : UInt8} (h : b = 123 ∨ b = 91) (s : Bytes) : scan key depth (b :: s) = scan key (depth + 1) s := by
  rw [scan, List.length_cons, findFrom, if_neg (by rcases h with rfl | rfl <;> decide), if_pos h]
  rfl

theorem scan_closing {b : UInt8} (h : b = 125 ∨ b = 93) (s : Bytes) : scan key depth (b :: s) = scan key (depth - 1) s := by
  rw [scan, List.length_cons, findFrom, if_neg (by rcases h with rfl | rfl <;> decide),
    if_neg (by rcases h with rfl | rfl <;> decide), if_pos h]
  rfl

/-- The bytes that the scan does not look at. -/
def isPlain (b : UInt8) : Bool := !(b = 34 || b = 123 || b = 91 || b = 125 || b = 93)

theorem scan_plain {w : Bytes} (h : ∀ b ∈ w, isPlain b = true) (s : Bytes) : scan key depth (w ++ s) = scan key depth s := by
  induction w with
  | nil => rfl
  | cons b w ih =>
    rw [List.forall_mem_cons] at h
    have hb : b ≠ 34 ∧ b ≠ 123 ∧ b ≠ 91 ∧ b ≠ 125 ∧ b ≠ 93 := by simpa [isPlain, not_or, and_assoc] using h.1
    rw [← ih h.2, List.cons_append, scan, List.length_cons, findFrom, if_neg hb.1, if_neg (by simp [hb]),
      if_neg (by simp [hb])]
    rfl

theorem scan_byte {b : UInt8} (h : isPlain b = true) (s : Bytes) : scan key depth (b :: s) = scan key depth s :=
  scan_plain (w := [b]) (List.forall_mem_singleton.mpr h) s

/-- A string that is no key of the object. -/
theorem scan_text {raw rest : Bytes} (h : IsString raw) (hrest : 1 < depth ∨ afterColon rest = none) :
    scan key depth (34 :: (raw ++ 34 :: rest)) = scan key depth rest := by
  have hnone : ((afterColon rest).filter fun _ => decide (depth ≤ 1)) = none := by
    rcases hrest with hdepth | hnone
    · rw [Option.filter_eq_none_iff]
      intro v _
      simpa using hdepth
    · rw [hnone]
      rfl
  have hlen := stringToken_length (stringToken_append h rest)
  rw [scan, List.length_cons, findFrom, if_pos rfl, stringToken_append h rest]
  dsimp only
  rw [hnone]
  exact findFrom_fuel hlen.le le_rfl

/-- A key of the object. -/
theorem scan_key {raw rest value : Bytes} (h : IsString raw) (hdepth : depth ≤ 1) (hrest : afterColon rest = some value) :
    scan key depth (34 :: (raw ++ 34 :: rest)) =
      if raw = key then some (skipBlank value) else scan key depth value := by
  have hlen := (afterColon_length hrest).trans (stringToken_length (stringToken_append h rest))
  rw [scan, List.length_cons, findFrom, if_pos rfl, stringToken_append h rest]
  dsimp only
  rw [hrest, Option.filter_some, if_pos (decide_eq_true hdepth)]
  dsimp only
  rw [findFrom_fuel hlen.le le_rfl]
  rfl

end

/-! ### Parts of a text -/

theorem ws_isPlain {w : Bytes} (h : Ws w) : ∀ b ∈ w, isPlain b = true := by
  intro b hb
  rcases of_decide_eq_true (h b hb) with rfl | rfl | rfl | rfl <;> rfl

theorem scalar_isPlain {lex : Bytes} (h : IsScalar lex) : ∀ b ∈ lex, isPlain b = true := by
  intro b hb
  have hno := notMem_of_scalarByte (h.scalar b hb)
  simp only [List.mem_cons, not_or] at hno
  simp [isPlain, hno]

section
variable {key : Bytes}

/-- Brackets around what is passed over bring the counter back. -/
theorem scan_brackets {o cl : UInt8} (ho : o = 123 ∨ o = 91) (hcl : cl = 125 ∨ cl = 93) {text : Bytes} {depth : ℤ}
    (h : ∀ rest, scan key (depth + 1) (text ++ rest) = scan key (depth + 1) rest) (rest : Bytes) :
    scan key depth (o :: (text ++ [cl]) ++ rest) = scan key depth rest := by
  rw [List.cons_append, List.append_assoc, scan_opening ho, h, List.singleton_append, scan_closing hcl,
    add_sub_cancel_right]

/-- Below the members of the object every part is passed over. -/
theorem scan_deep {text : Bytes} {part : Part} (h : Derives text part) {depth : ℤ} (hdepth : 1 < depth) (rest : Bytes) :
    scan key depth (text ++ rest) = scan key depth rest := by
  induction h generalizing depth rest with
  | scalar h => exact scan_plain (scalar_isPlain h) rest
  | @str raw h =>
    rw [List.cons_append, List.append_assoc]
    exact scan_text h (.inl hdepth)
  | emptyArr h => exact scan_brackets (.inr rfl) (.inr rfl) (scan_plain (ws_isPlain h)) rest
  | arr h ih => exact scan_brackets (.inr rfl) (.inr rfl) (ih (by omega)) rest
  | emptyObj h => exact scan_brackets (.inl rfl) (.inl rfl) (scan_plain (ws_isPlain h)) rest
  | obj h ih => exact scan_brackets (.inl rfl) (.inl rfl) (ih (by omega)) rest
  | element hw h hw' ih =>
    rw [List.append_assoc, List.append_assoc, scan_plain (ws_isPlain hw), ih hdepth, scan_plain (ws_isPlain hw')]
  | item h ih => exact ih hdepth rest
  | items h hrest ih ihrest =>
    rw [List.append_assoc, ih hdepth, List.cons_append, scan_byte rfl, ihrest hdepth]
  | @member w raw w' text t hw hkey hw' h ih =>
    simp only [List.append_assoc, List.cons_append]
    rw [scan_plain (ws_isPlain hw), scan_text hkey (.inl hdepth), scan_plain (ws_isPlain hw'), scan_byte rfl, ih hdepth]
  | single h ih => exact ih hdepth rest
  | members h hrest ih ihrest =>
    rw [List.append_assoc, ih hdepth, List.cons_append, scan_byte rfl, ihrest hdepth]

/-- What follows a member, or closes the object. -/
def Follows (rest : Bytes) : Prop := ∃ b s, rest = b :: s ∧ (b = 44 ∨ b = 125)

theorem Follows.afterColon {rest : Bytes} (h : Follows rest) {w : Bytes} (hw : Ws w) : afterColon (w ++ rest) = none := by
  obtain ⟨b, s, rfl, hb⟩ := h
  have hplain : isWs b = false := by rcases hb with rfl | rfl <;> rfl
  have hblank : skipBlank (w ++ b :: s) = b :: s := skipBlank_append hw (by rintro c ⟨⟩; exact hplain)
  rw [Search.afterColon, hblank]
  rcases hb with rfl | rfl <;> rfl

/-- A value of the object's own is passed over too. -/
theorem scan_element {text : Bytes} {t : Tree} (h : Derives text (.element t)) {rest : Bytes} (hrest : Follows rest) :
    scan key 1 (text ++ rest) = scan key 1 rest := by
  cases h with
  | @element w v w' _ hw h hw' =>
    have hend : scan key 1 (w' ++ rest) = scan key 1 rest := scan_plain (ws_isPlain hw') rest
    rw [List.append_assoc, List.append_assoc, scan_plain (ws_isPlain hw), ← hend]
    have hdeep : (1 : ℤ) < 1 + 1 := by decide
    cases h with
    | scalar h => exact scan_plain (scalar_isPlain h) _
    | @str raw h =>
      rw [List.cons_append, List.append_assoc]
      exact scan_text h (.inr (hrest.afterColon hw'))
    | emptyArr h => exact scan_brackets (.inr rfl) (.inr rfl) (scan_plain (ws_isPlain h)) _
    | arr h => exact scan_brackets (.inr rfl) (.inr rfl) (scan_deep h hdeep) _
    | emptyObj h => exact scan_brackets (.inl rfl) (.inl rfl) (scan_plain (ws_isPlain h)) _
    | obj h => exact scan_brackets (.inl rfl) (.inl rfl) (scan_deep h hdeep) _

/-! ### The members -/

/-- The text of a member up to its value. -/
inductive Label (key : Bytes) : Bytes → Prop where
  | mk {w w' w'' : Bytes} (hw : Ws w) (hkey : IsString key) (hw' : Ws w') (hw'' : Ws w'') :
    Label key (w ++ 34 :: (key ++ 34 :: (w' ++ 58 :: w'')))

/-- The text of some members in front of another. -/
inductive Before : Bytes → List (Bytes × Tree) → Prop where
  | nothing : Before [] []
  | members {text : Bytes} {ms : List (Bytes × Tree)} (h : Derives text (.members ms)) : Before (text ++ [44]) ms

/-- The text of an object up to the value of a member with the key, behind the members in front of it. -/
inductive UpTo (key : Bytes) : Bytes → List (Bytes × Tree) → Prop where
  | mk {w lead label : Bytes} {ms : List (Bytes × Tree)} (hw : Ws w) (hlead : Before lead ms) (hlabel : Label key label) :
    UpTo key (w ++ 123 :: (lead ++ label)) ms

/-- The first member with the key, at its place in the text of the object. -/
structure FirstMember (key s : Bytes) (ms : List (Bytes × Tree)) where
  lead : Bytes
  value : Bytes
  trail : Bytes
  ahead : List (Bytes × Tree)
  tree : Tree
  behind : List (Bytes × Tree)
  text : s = lead ++ (value ++ trail)
  members : ms = ahead ++ (key, tree) :: behind
  first : ∀ m ∈ ahead, m.1 ≠ key
  upTo : UpTo key lead ahead
  derives : Derives value (.value tree)
  delim : jsonValueDelim trail = true

theorem afterColon_colon {w : Bytes} (hw : Ws w) (s : Bytes) : afterColon (w ++ 58 :: s) = some s := by
  have hblank : skipBlank (w ++ 58 :: s) = 58 :: s := skipBlank_append hw (by rintro c ⟨⟩; rfl)
  rw [afterColon, hblank]
  rfl

/-- A member with another key is passed over. -/
theorem scan_member {text raw : Bytes} {t : Tree} (h : Derives text (.member raw t)) (hne : raw ≠ key) {rest : Bytes}
    (hrest : Follows rest) : scan key 1 (text ++ rest) = scan key 1 rest := by
  cases h with
  | member hw hkey hw' h =>
    simp only [List.append_assoc, List.cons_append]
    rw [scan_plain (ws_isPlain hw), scan_key hkey le_rfl (afterColon_colon hw' _), if_neg hne, scan_element h hrest]

theorem scan_members {text : Bytes} {ms : List (Bytes × Tree)} (h : Derives text (.members ms))
    (hne : ∀ m ∈ ms, m.1 ≠ key) {rest : Bytes} (hrest : Follows rest) : scan key 1 (text ++ rest) = scan key 1 rest := by
  generalize hpart : Part.members ms = part at h
  induction h generalizing ms with
  | single h =>
    cases hpart
    exact scan_member h (hne _ (List.mem_cons_self ..)) hrest
  | @members text rest' raw t ms' h hrest' ih ihrest =>
    cases hpart
    rw [List.forall_mem_cons] at hne
    rw [List.append_assoc, List.cons_append, scan_member h hne.1 ⟨44, _, rfl, .inl rfl⟩, scan_byte rfl]
    exact ihrest hne.2 rfl
  | _ => cases hpart

theorem scan_before {lead : Bytes} {ms : List (Bytes × Tree)} (h : Before lead ms) (hne : ∀ m ∈ ms, m.1 ≠ key)
    (rest : Bytes) : scan key 1 (lead ++ rest) = scan key 1 rest := by
  cases h with
  | nothing => rfl
  | members h =>
    rw [List.append_assoc, List.singleton_append, scan_members h hne ⟨44, rest, rfl, .inl rfl⟩, scan_byte rfl]

theorem scan_label {label value : Bytes} (h : Label key label) (hvalue : ∀ b ∈ value.head?, isWs b = false) :
    scan key 1 (label ++ value) = some value := by
  cases h with
  | mk hw hkey hw' hw'' =>
    simp only [List.append_assoc, List.cons_append]
    rw [scan_plain (ws_isPlain hw), scan_key hkey le_rfl (afterColon_colon hw' _), if_pos rfl, skipBlank_append hw'' hvalue]

theorem valueOf_first {s : Bytes} {ms : List (Bytes × Tree)} (m : FirstMember key s ms) :
    valueOf s key = some (m.value ++ m.trail) := by
  obtain ⟨lead, value, trail, ahead, tree, behind, text, members, first, upTo, derives, delim⟩ := m
  subst text
  have hvalue : ∀ b ∈ (value ++ trail).head?, isWs b = false := by
    obtain ⟨b, v, rfl, hb, -⟩ := derives.value_head
    rintro c ⟨⟩
    exact hb
  cases upTo with
  | mk hw hlead hlabel =>
    change scan key 0 _ = _
    simp only [List.append_assoc, List.cons_append]
    rw [scan_plain (ws_isPlain hw), scan_opening (.inl rfl), zero_add, scan_before hlead first, scan_label hlabel hvalue]

/-- The position of the first member's value. -/
theorem findKey_first {s : Bytes} {ms : List (Bytes × Tree)} (m : FirstMember key s ms) :
    jsonFindKey s key = some m.lead.length := by
  have hlen := congrArg List.length m.text
  rw [List.length_append] at hlen
  rw [jsonFindKey, valueOf_first m, Option.map_some, hlen, Nat.add_sub_cancel]

/-- Without a member that has the key nothing is found. -/
theorem valueOf_none {s text : Bytes} {ms : List (Bytes × Tree)} (h : JsonText s (.obj text ms))
    (hne : ∀ m ∈ ms, m.1 ≠ key) : valueOf s key = none := by
  have hnil : scan key 0 [] = none := rfl
  have htrail {w : Bytes} (hw : Ws w) : scan key 0 w = none := by
    rw [← List.append_nil w, scan_plain (ws_isPlain hw), hnil]
  change scan key 0 s = none
  cases h with
  | element hw h hw' =>
    rw [scan_plain (ws_isPlain hw)]
    cases h with
    | emptyObj h => rw [scan_brackets (.inl rfl) (.inl rfl) (scan_plain (ws_isPlain h)), htrail hw']
    | obj h =>
      rw [List.cons_append, List.append_assoc, scan_opening (.inl rfl), zero_add, List.singleton_append,
        scan_members h hne ⟨125, _, rfl, .inr rfl⟩, scan_closing (.inl rfl), sub_self, htrail hw']

/-! ### Where the members stand -/

/-- A text of members is cut in front of any of them. -/
theorem exists_member {text : Bytes} {ms : List (Bytes × Tree)} (h : Derives text (.members ms)) (hkey : ∃ m ∈ ms, m.1 = key) :
    ∃ ahead t behind lead member rest, ms = ahead ++ (key, t) :: behind ∧ (∀ m ∈ ahead, m.1 ≠ key) ∧
      text = lead ++ (member ++ rest) ∧ Before lead ahead ∧ Derives member (.member key t) ∧
      (rest = [] ∨ ∃ s, rest = 44 :: s) := by
  generalize hpart : Part.members ms = part at h
  induction h generalizing ms with
  | @single text raw t h =>
    cases hpart
    obtain ⟨m, hm, rfl⟩ := hkey
    obtain rfl := List.mem_singleton.mp hm
    exact ⟨[], t, [], [], text, [], rfl, nofun, (List.append_nil _).symm, .nothing, h, .inl rfl⟩
  | @members text rest' raw t ms' h hrest' ih ihrest =>
    cases hpart
    by_cases hraw : raw = key
    · subst hraw
      exact ⟨[], t, ms', [], text, 44 :: rest', rfl, nofun, rfl, .nothing, h, .inr ⟨rest', rfl⟩⟩
    · obtain ⟨m, hm, hmkey⟩ := hkey
      have hmem : m ∈ ms' := by
        rcases List.mem_cons.mp hm with rfl | hmem
        · exact absurd hmkey hraw
        · exact hmem
      obtain ⟨ahead, t', behind, lead, member, rest, rfl, hahead, rfl, hbefore, hmember, hrest⟩ := ihrest ⟨m, hmem, hmkey⟩ rfl
      refine ⟨(raw, t) :: ahead, t', behind, text ++ 44 :: lead, member, rest, rfl, ?_, ?_, ?_, hmember, hrest⟩
      · exact List.forall_mem_cons.mpr ⟨hraw, hahead⟩
      · rw [List.append_assoc, List.cons_append]
      · cases hbefore with
        | nothing => exact .members (.single h)
        | members hlead =>
          rw [← List.cons_append, ← List.append_assoc]
          exact .members (.members h hlead)
  | _ => cases hpart

theorem delim_of_ws {w rest : Bytes} (hw : Ws w) (hrest : Follows rest) : jsonValueDelim (w ++ rest) = true := by
  cases w with
  | nil =>
    obtain ⟨b, s, rfl, rfl | rfl⟩ := hrest <;> rfl
  | cons b w => exact decide_eq_true (.inl (hw b (List.mem_cons_self ..)))

/-- An object that has the key has a first member with it. -/
theorem exists_first {s text : Bytes} {ms : List (Bytes × Tree)} (h : JsonText s (.obj text ms)) (hkey : ∃ m ∈ ms, m.1 = key) :
    Nonempty (FirstMember key s ms) := by
  cases h with
  | @element w v w' _ hw h hw' =>
    cases h with
    | emptyObj h =>
      obtain ⟨m, hm, -⟩ := hkey
      cases hm
    | obj h =>
      obtain ⟨ahead, t, behind, lead, member, rest, rfl, hahead, rfl, hbefore, hmember, hrest⟩ := exists_member h hkey
      have hfollows : Follows (rest ++ 125 :: w') := by
        rcases hrest with rfl | ⟨s, rfl⟩
        · exact ⟨125, w', rfl, .inr rfl⟩
        · exact ⟨44, _, rfl, .inl rfl⟩
      cases hmember with
      | @member w₁ _ w₂ text _ hw₁ hkey hw₂ h =>
        cases h with
        | @element w₃ value w₄ _ hw₃ h hw₄ =>
          refine ⟨⟨w ++ 123 :: (lead ++ (w₁ ++ 34 :: (key ++ 34 :: (w₂ ++ 58 :: w₃)))), value, w₄ ++ (rest ++ 125 :: w'), ahead, t,
            behind, ?_, rfl, hahead, .mk hw hbefore (.mk hw₁ hkey hw₂ hw₃), h, delim_of_ws hw₄ hfollows⟩⟩
          simp only [List.append_assoc, List.cons_append, List.nil_append]

end

end FractalSQL.Search
