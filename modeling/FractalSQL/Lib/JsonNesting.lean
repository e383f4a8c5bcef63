import FractalSQL.Lib.JsonGrammar

/-!
# The nesting of JSON

How deep arrays and objects nest in a tree, and how many are not yet closed behind a text that
begins a JSON text.
-/
namespace FractalSQL.Lib.JsonGrammar
open Json

mutual

/-- The number of containers in one another. -/
def Tree.depth : Tree → ℕ
  | .scalar _ => 0
  | .str _ => 0
  | .arr _ ts => depthItems ts + 1
  | .obj _ ms => depthMembers ms + 1

def depthItems : List Tree → ℕ
  | [] => 0
  | t :: ts => max t.depth (depthItems ts)

def depthMembers : List (Bytes × Tree) → ℕ
  | [] => 0
  | (_, t) :: ms => max t.depth (depthMembers ms)

end

def Part.depth : Part → ℕ
  | .value t => t.depth
  | .element t => t.depth
  | .member _ t => t.depth
  | .items ts => depthItems ts
  | .members ms => depthMembers ms

/-! ### Beginnings -/

/-- The parts without their trees. -/
inductive Kind where
  | value
  | element
  | member
  | items
  | members

@[simp] def Part.kind : Part → Kind
  | .value _ => .value
  | .element _ => .element
  | .member _ _ => .member
  | .items _ => .items
  | .members _ => .members

/-- The text begins a part, and behind it so many containers are not yet closed. -/
inductive Begins : Bytes → Kind → ℕ → Prop where
  | nothing (k : Kind) : Begins [] k 0
  | whole {text : Bytes} {t : Tree} (h : Derives text (.value t)) : Begins text .value 0
  | scalar {p lex : Bytes} (h : IsScalar lex) (hp : p <+: lex) : Begins p .value 0
  | str {p raw : Bytes} (h : IsString raw) (hp : p <+: 34 :: (raw ++ [34])) : Begins p .value 0
  | emptyArr {w : Bytes} (h : Ws w) : Begins (91 :: w) .value 1
  | arr {p : Bytes} {n : ℕ} (h : Begins p .items n) : Begins (91 :: p) .value (n + 1)
  | emptyObj {w : Bytes} (h : Ws w) : Begins (123 :: w) .value 1
  | obj {p : Bytes} {n : ℕ} (h : Begins p .members n) : Begins (123 :: p) .value (n + 1)
  | element {w p : Bytes} {n : ℕ} (hw : Ws w) (h : Begins p .value n) : Begins (w ++ p) .element n
  | after {w text w' : Bytes} {t : Tree} (hw : Ws w) (h : Derives text (.value t)) (hw' : Ws w') :
    Begins (w ++ (text ++ w')) .element 0
  | item {p : Bytes} {n : ℕ} (h : Begins p .element n) : Begins p .items n
  | items {text rest : Bytes} {t : Tree} {n : ℕ} (h : Derives text (.element t)) (hrest : Begins rest .items n) :
    Begins (text ++ 44 :: rest) .items n
  | key {w p key : Bytes} (hw : Ws w) (hkey : IsString key) (hp : p <+: 34 :: (key ++ [34])) : Begins (w ++ p) .member 0
  | colon {w key w' : Bytes} (hw : Ws w) (hkey : IsString key) (hw' : Ws w') :
    Begins (w ++ 34 :: (key ++ 34 :: w')) .member 0
  | member {w key w' p : Bytes} {n : ℕ} (hw : Ws w) (hkey : IsString key) (hw' : Ws w') (h : Begins p .element n) :
    Begins (w ++ 34 :: (key ++ 34 :: (w' ++ 58 :: p))) .member n
  | single {p : Bytes} {n : ℕ} (h : Begins p .member n) : Begins p .members n
  | members {text rest key : Bytes} {t : Tree} {n : ℕ} (h : Derives text (.member key t)) (hrest : Begins rest .members n) :
    Begins (text ++ 44 :: rest) .members n

theorem Ws.of_prefix {p rest : Bytes} (h : Ws (p ++ rest)) : Ws p := fun b hb => h b (List.mem_append_left _ hb)

/-- A text that stops in a bracketed part, or at its end. -/
theorem eq_append_bracket {p rest text : Bytes} {b : UInt8} (h : text ++ [b] = p ++ rest) :
    (∃ more, text = p ++ more) ∨ p = text ++ [b] := by
  rcases List.append_eq_append_iff.mp h with ⟨more, hp, hrest⟩ | ⟨more, hp, -⟩
  · cases more with
    | nil => exact .inl ⟨[], by simp [hp]⟩
    | cons c more =>
      obtain ⟨rfl, htail⟩ := List.cons.inj hrest
      obtain ⟨rfl, -⟩ := List.append_eq_nil_iff.mp htail.symm
      exact .inr hp
  · exact .inl ⟨more, hp⟩

/-- Every prefix of what is derived begins its part. -/
theorem begins_of_derives {text : Bytes} {part : Part} (h : Derives text part) {p rest : Bytes} (hp : text = p ++ rest) :
    ∃ n, Begins p part.kind n := by
  induction h generalizing p rest with
  | scalar h => exact ⟨0, .scalar h ⟨rest, hp.symm⟩⟩
  | str h => exact ⟨0, .str h ⟨rest, hp.symm⟩⟩
  | @emptyArr w h =>
    cases p with
    | nil => exact ⟨0, .nothing _⟩
    | cons b p =>
      obtain ⟨rfl, hrest⟩ := List.cons.inj hp
      rcases eq_append_bracket hrest with ⟨more, rfl⟩ | rfl
      · exact ⟨1, .emptyArr h.of_prefix⟩
      · exact ⟨0, .whole (.emptyArr h)⟩
  | @arr text ts h ih =>
    cases p with
    | nil => exact ⟨0, .nothing _⟩
    | cons b p =>
      obtain ⟨rfl, hrest⟩ := List.cons.inj hp
      rcases eq_append_bracket hrest with ⟨more, htext⟩ | rfl
      · obtain ⟨n, hn⟩ := ih htext
        exact ⟨n + 1, .arr hn⟩
      · exact ⟨0, .whole (.arr h)⟩
  | @emptyObj w h =>
    cases p with
    | nil => exact ⟨0, .nothing _⟩
    | cons b p =>
      obtain ⟨rfl, hrest⟩ := List.cons.inj hp
      rcases eq_append_bracket hrest with ⟨more, rfl⟩ | rfl
      · exact ⟨1, .emptyObj h.of_prefix⟩
      · exact ⟨0, .whole (.emptyObj h)⟩
  | @obj text ms h ih =>
    cases p with
    | nil => exact ⟨0, .nothing _⟩
    | cons b p =>
      obtain ⟨rfl, hrest⟩ := List.cons.inj hp
      rcases eq_append_bracket hrest with ⟨more, htext⟩ | rfl
      · obtain ⟨n, hn⟩ := ih htext
        exact ⟨n + 1, .obj hn⟩
      · exact ⟨0, .whole (.obj h)⟩
  | @element w text w' t hw h hw' ih =>
    rcases List.append_eq_append_iff.mp hp with ⟨p', rfl, hrest⟩ | ⟨more, rfl, -⟩
    · rcases List.append_eq_append_iff.mp hrest with ⟨p'', rfl, rfl⟩ | ⟨more, htext, -⟩
      · exact ⟨0, .after hw h hw'.of_prefix⟩
      · obtain ⟨n, hn⟩ := ih htext
        exact ⟨n, .element hw hn⟩
    · refine ⟨0, ?_⟩
      rw [← List.append_nil p]
      exact .element hw.of_prefix (.nothing _)
  | item h ih =>
    obtain ⟨n, hn⟩ := ih hp
    exact ⟨n, .item hn⟩
  | @items text rest' t ts h hrest ih ihrest =>
    rcases List.append_eq_append_iff.mp hp with ⟨p', rfl, hcomma⟩ | ⟨more, htext, -⟩
    · cases p' with
      | nil =>
        obtain ⟨n, hn⟩ := ih (List.append_nil text).symm
        rw [List.append_nil]
        exact ⟨n, .item hn⟩
      | cons b p' =>
        obtain ⟨rfl, hrest'⟩ := List.cons.inj hcomma
        obtain ⟨n, hn⟩ := ihrest hrest'
        exact ⟨n, .items h hn⟩
    · obtain ⟨n, hn⟩ := ih htext
      exact ⟨n, .item hn⟩
  | @member w key w' text t hw hkey hw' h ih =>
    rcases List.append_eq_append_iff.mp hp with ⟨p', rfl, hrest⟩ | ⟨more, rfl, -⟩
    · have hquoted : 34 :: (key ++ 34 :: (w' ++ 58 :: text)) = 34 :: (key ++ [34]) ++ (w' ++ 58 :: text) := by simp
      rw [hquoted] at hrest
      rcases List.append_eq_append_iff.mp hrest with ⟨p'', rfl, hrest'⟩ | ⟨more, hp', -⟩
      · rcases List.append_eq_append_iff.mp hrest' with ⟨p₃, rfl, hcolon⟩ | ⟨more, rfl, -⟩
        · cases p₃ with
          | nil =>
            have hcut := Begins.colon hw hkey hw'
            refine ⟨0, ?_⟩
            simpa using hcut
          | cons b p₃ =>
            obtain ⟨rfl, htext⟩ := List.cons.inj hcolon
            obtain ⟨n, hn⟩ := ih htext
            have hcut := Begins.member hw hkey hw' hn
            refine ⟨n, ?_⟩
            simpa using hcut
        · have hcut := Begins.colon hw hkey hw'.of_prefix
          refine ⟨0, ?_⟩
          simpa using hcut
      · exact ⟨0, .key hw hkey ⟨more, hp'.symm⟩⟩
    · refine ⟨0, ?_⟩
      rw [← List.append_nil p]
      exact .key hw.of_prefix hkey List.nil_prefix
  | single h ih =>
    obtain ⟨n, hn⟩ := ih hp
    exact ⟨n, .single hn⟩
  | @members text rest' key t ms h hrest ih ihrest =>
    rcases List.append_eq_append_iff.mp hp with ⟨p', rfl, hcomma⟩ | ⟨more, htext, -⟩
    · cases p' with
      | nil =>
        obtain ⟨n, hn⟩ := ih (List.append_nil text).symm
        rw [List.append_nil]
        exact ⟨n, .single hn⟩
      | cons b p' =>
        obtain ⟨rfl, hrest'⟩ := List.cons.inj hcomma
        obtain ⟨n, hn⟩ := ihrest hrest'
        exact ⟨n, .members h hn⟩
    · obtain ⟨n, hn⟩ := ih htext
      exact ⟨n, .single hn⟩

theorem isScalar_zero : IsScalar [48] := .number (.plain .zero .none .none)

/-- For every kind there is a part. -/
theorem exists_part (k : Kind) : ∃ text part, part.kind = k ∧ Derives text part := by
  have hvalue : Derives [48] (.value (.scalar [48])) := .scalar isScalar_zero
  have hmember := Derives.member ws_nil (rfl : IsString []) ws_nil hvalue.alone
  cases k with
  | value => exact ⟨_, _, rfl, hvalue⟩
  | element => exact ⟨_, _, rfl, hvalue.alone⟩
  | member => exact ⟨_, _, rfl, hmember⟩
  | items => exact ⟨_, _, rfl, .item hvalue.alone⟩
  | members => exact ⟨_, _, rfl, .single hmember⟩

theorem completes {p text : Bytes} {part : Part} {k : Kind} (rest : Bytes) (h : Derives text part)
    (htext : text = p ++ rest) (hkind : part.kind = k) : ∃ rest part, part.kind = k ∧ Derives (p ++ rest) part :=
  ⟨rest, part, hkind, htext ▸ h⟩

/-- What begins a part can be completed. -/
theorem derives_of_begins {p : Bytes} {k : Kind} {n : ℕ} (h : Begins p k n) :
    ∃ rest part, part.kind = k ∧ Derives (p ++ rest) part := by
  have hzero := (Derives.scalar isScalar_zero).alone
  induction h with
  | nothing k => exact exists_part k
  | whole h => exact completes [] h (List.append_nil _).symm rfl
  | scalar h hp =>
    obtain ⟨rest, rfl⟩ := hp
    exact completes rest (.scalar h) rfl rfl
  | str h hp =>
    obtain ⟨rest, hrest⟩ := hp
    exact completes rest (.str h) hrest.symm rfl
  | emptyArr h => exact completes [93] (.emptyArr h) rfl rfl
  | arr h ih =>
    obtain ⟨rest, part, hkind, hpart⟩ := ih
    cases part <;> cases hkind
    exact completes (rest ++ [93]) (.arr hpart) (by simp) rfl
  | emptyObj h => exact completes [125] (.emptyObj h) rfl rfl
  | obj h ih =>
    obtain ⟨rest, part, hkind, hpart⟩ := ih
    cases part <;> cases hkind
    exact completes (rest ++ [125]) (.obj hpart) (by simp) rfl
  | element hw h ih =>
    obtain ⟨rest, part, hkind, hpart⟩ := ih
    cases part <;> cases hkind
    exact completes rest (.element hw hpart ws_nil) (by simp) rfl
  | after hw h hw' => exact completes [] (.element hw h hw') (by simp) rfl
  | item h ih =>
    obtain ⟨rest, part, hkind, hpart⟩ := ih
    cases part <;> cases hkind
    exact completes rest (.item hpart) rfl rfl
  | items h hrest ih =>
    obtain ⟨rest, part, hkind, hpart⟩ := ih
    cases part <;> cases hkind
    exact completes rest (.items h hpart) (by simp) rfl
  | key hw hkey hp =>
    obtain ⟨more, hmore⟩ := hp
    refine completes (more ++ [58, 48]) (.member hw hkey ws_nil hzero) ?_ rfl
    rw [List.append_assoc, ← List.append_assoc _ more, hmore]
    simp
  | colon hw hkey hw' => exact completes [58, 48] (.member hw hkey hw' hzero) (by simp) rfl
  | member hw hkey hw' h ih =>
    obtain ⟨rest, part, hkind, hpart⟩ := ih
    cases part <;> cases hkind
    exact completes rest (.member hw hkey hw' hpart) (by simp) rfl
  | single h ih =>
    obtain ⟨rest, part, hkind, hpart⟩ := ih
    cases part <;> cases hkind
    exact completes rest (.single hpart) rfl rfl
  | members h hrest ih =>
    obtain ⟨rest, part, hkind, hpart⟩ := ih
    cases part <;> cases hkind
    exact completes rest (.members h hpart) (by simp) rfl

/-- A parser can read so far, and behind the text so many containers are not yet closed. -/
def Unclosed (p : Bytes) (n : ℕ) : Prop := Begins p .element n

/-- The texts that a parser can read so far are the prefixes of the JSON texts. -/
theorem unclosed_iff_prefix (p : Bytes) : (∃ n, Unclosed p n) ↔ ∃ rest t, JsonText (p ++ rest) t := by
  constructor
  · rintro ⟨n, h⟩
    obtain ⟨rest, part, hkind, hpart⟩ := derives_of_begins h
    cases part <;> cases hkind
    exact ⟨rest, _, hpart⟩
  · rintro ⟨rest, t, h⟩
    exact begins_of_derives h rfl

end FractalSQL.Lib.JsonGrammar
