import FractalSQL.Lib.JsonMembers
import FractalSQL.Lib.JsonValue

/-!
# The grammar of JSON

RFC 8259 as rules that derive a text together with its tree. A container keeps the
text it was written as, so that a part of the source can be named by its place in the
tree; `plain` forgets these texts and leaves the tree.
-/
namespace FractalSQL.Lib.JsonGrammar
open Json

/-! ### Strings -/

/-- A byte of a string as it stands, or what an escape stands for. -/
inductive Piece where
  | byte (b : UInt8)
  | unit (n : ℕ)

def hex4 (a b c d : UInt8) : Option ℕ := do
  let a ← hexValue a
  let b ← hexValue b
  let c ← hexValue c
  let d ← hexValue d
  return 4096 * a + 256 * b + 16 * c + d

/-- The pieces of what stands between the quotes of a string; `none` when it is no string. -/
@[simp] def pieces : Bytes → Option (List Piece)
  | [] => some []
  | 92 :: 117 :: a :: b :: c :: d :: raw => do
    let n ← hex4 a b c d
    let ps ← pieces raw
    return .unit n :: ps
  | 92 :: e :: raw => do
    let n ← escapeChar e
    let ps ← pieces raw
    return .unit n :: ps
  | b :: raw => if b = 34 ∨ b = 92 ∨ b < 32 then none else (pieces raw).map (.byte b :: ·)

def IsString (raw : Bytes) : Prop := (pieces raw).isSome

instance (raw : Bytes) : Decidable (IsString raw) := inferInstanceAs (Decidable (_ = true))

theorem pieces_isSome_of_bind {n : Option ℕ} {raw : Bytes} 
    (hsome : (do let n ← n; let ps ← pieces raw; return Piece.unit n :: ps : Option (List Piece)).isSome = true) :
    n.isSome = true ∧ IsString raw := by
  obtain ⟨ps, hps⟩ := Option.isSome_iff_exists.mp hsome
  obtain ⟨m, hm, hrest⟩ := Option.bind_eq_some_iff.mp hps
  obtain ⟨ps', hps', -⟩ := Option.bind_eq_some_iff.mp hrest
  exact ⟨by rw [hm]; rfl, by rw [IsString, hps']; rfl⟩

/-- A string is built of escapes and plain bytes. -/
theorem IsString.build {P : Bytes → Prop} (nil : P [])
    (unicode : ∀ a b c d raw, (hex4 a b c d).isSome = true → P raw → P (92 :: 117 :: a :: b :: c :: d :: raw))
    (escape : ∀ e raw, P raw → P (92 :: e :: raw)) (byte : ∀ b raw, b ≠ 34 → b ≠ 92 → P raw → P (b :: raw)) {raw : Bytes}
    (h : IsString raw) : P raw := by
  unfold IsString at h
  fun_induction pieces raw with
  | case1 => exact nil
  | case2 a b c d raw ih =>
    obtain ⟨hhex, hraw⟩ := pieces_isSome_of_bind h
    exact unicode a b c d raw hhex (ih hraw)
  | case3 e raw _ ih =>
    obtain ⟨-, hraw⟩ := pieces_isSome_of_bind h
    exact escape e raw (ih hraw)
  | case4 => cases h
  | case5 b raw _ _ hb ih =>
    rw [not_or, not_or] at hb
    rw [Option.isSome_map] at h
    exact byte b raw hb.1 hb.2.1 (ih h)

/-- UTF-8; a surrogate that is no part of a pair is written like any other number. -/
def utf8Encode (n : ℕ) : Bytes :=
  if n < 0x80 then [UInt8.ofNat n]
  else if n < 0x800 then [UInt8.ofNat (192 + n / 64), UInt8.ofNat (128 + n % 64)]
  else if n < 0x10000 then
    [UInt8.ofNat (224 + n / 4096), UInt8.ofNat (128 + n / 64 % 64), UInt8.ofNat (128 + n % 64)]
  else [UInt8.ofNat (240 + n / 262144), UInt8.ofNat (128 + n / 4096 % 64), UInt8.ofNat (128 + n / 64 % 64),
    UInt8.ofNat (128 + n % 64)]

def IsHigh (n : ℕ) : Prop := 0xD800 ≤ n ∧ n ≤ 0xDBFF

def IsLow (n : ℕ) : Prop := 0xDC00 ≤ n ∧ n ≤ 0xDFFF

instance (n : ℕ) : Decidable (IsHigh n) := inferInstanceAs (Decidable (_ ∧ _))

instance (n : ℕ) : Decidable (IsLow n) := inferInstanceAs (Decidable (_ ∧ _))

/-- The code point of a surrogate pair. -/
def paired (hi lo : ℕ) : ℕ := 0x10000 + (hi - 0xD800) * 1024 + (lo - 0xDC00)

/-- The text of the pieces: two units that are a surrogate pair are one character. -/
@[simp] def textOf : List Piece → Bytes
  | [] => []
  | .byte b :: ps => b :: textOf ps
  | .unit hi :: .unit lo :: ps =>
    if IsHigh hi ∧ IsLow lo then utf8Encode (paired hi lo) ++ textOf ps
    else utf8Encode hi ++ textOf (.unit lo :: ps)
  | .unit n :: ps => utf8Encode n ++ textOf ps

/-- The text that a string spells. -/
def decoded (raw : Bytes) : Bytes := ((pieces raw).map textOf).getD []

/-! ### Scalars -/

def Digits (ds : Bytes) : Prop := ds ≠ [] ∧ ∀ d ∈ ds, isDigit d = true

/-- No digit stands behind a leading zero. -/
inductive IsInt : Bytes → Prop where
  | zero : IsInt [48]
  | digits {ds : Bytes} (h : Digits ds) (hzero : ds.head? ≠ some 48) : IsInt ds

inductive IsFrac : Bytes → Prop where
  | none : IsFrac []
  | point {ds : Bytes} (h : Digits ds) : IsFrac (46 :: ds)

inductive IsExp : Bytes → Prop where
  | none : IsExp []
  | plain {e : UInt8} {ds : Bytes} (he : e = 101 ∨ e = 69) (h : Digits ds) : IsExp (e :: ds)
  | signed {e s : UInt8} {ds : Bytes} (he : e = 101 ∨ e = 69) (hs : s = 43 ∨ s = 45) (h : Digits ds) :
    IsExp (e :: s :: ds)

inductive IsNumber : Bytes → Prop where
  | plain {int frac exp : Bytes} (hint : IsInt int) (hfrac : IsFrac frac) (hexp : IsExp exp) :
    IsNumber (int ++ (frac ++ exp))
  | negative {int frac exp : Bytes} (hint : IsInt int) (hfrac : IsFrac frac) (hexp : IsExp exp) :
    IsNumber (45 :: (int ++ (frac ++ exp)))

inductive IsScalar : Bytes → Prop where
  | literal {lex : Bytes} (h : lex = ascii "null" ∨ lex = ascii "true" ∨ lex = ascii "false") : IsScalar lex
  | number {lex : Bytes} (h : IsNumber lex) : IsScalar lex

/-! ### Trees -/

inductive Tree where
  | scalar (lex : Bytes)
  | str (raw : Bytes)
  | arr (text : Bytes) (items : List Tree)
  | obj (text : Bytes) (members : List (Bytes × Tree))

/-- White space. -/
def Ws (w : Bytes) : Prop := ∀ b ∈ w, isWs b = true

/-- The parts of a JSON text: an element is a value with white space around it. -/
inductive Part where
  | value (t : Tree)
  | element (t : Tree)
  | member (key : Bytes) (t : Tree)
  | items (ts : List Tree)
  | members (ms : List (Bytes × Tree))

/-- The rules. -/
inductive Derives : Bytes → Part → Prop where
  | scalar {lex : Bytes} (h : IsScalar lex) : Derives lex (.value (.scalar lex))
  | str {raw : Bytes} (h : IsString raw) : Derives (34 :: (raw ++ [34])) (.value (.str raw))
  | emptyArr {w : Bytes} (h : Ws w) : Derives (91 :: (w ++ [93])) (.value (.arr (91 :: (w ++ [93])) []))
  | arr {text : Bytes} {ts : List Tree} (h : Derives text (.items ts)) :
    Derives (91 :: (text ++ [93])) (.value (.arr (91 :: (text ++ [93])) ts))
  | emptyObj {w : Bytes} (h : Ws w) : Derives (123 :: (w ++ [125])) (.value (.obj (123 :: (w ++ [125])) []))
  | obj {text : Bytes} {ms : List (Bytes × Tree)} (h : Derives text (.members ms)) :
    Derives (123 :: (text ++ [125])) (.value (.obj (123 :: (text ++ [125])) ms))
  | element {w text w' : Bytes} {t : Tree} (hw : Ws w) (h : Derives text (.value t)) (hw' : Ws w') :
    Derives (w ++ (text ++ w')) (.element t)
  | item {text : Bytes} {t : Tree} (h : Derives text (.element t)) : Derives text (.items [t])
  | items {text rest : Bytes} {t : Tree} {ts : List Tree} (h : Derives text (.element t))
    (hrest : Derives rest (.items ts)) : Derives (text ++ 44 :: rest) (.items (t :: ts))
  | member {w key w' text : Bytes} {t : Tree} (hw : Ws w) (hkey : IsString key) (hw' : Ws w')
    (h : Derives text (.element t)) : Derives (w ++ 34 :: (key ++ 34 :: (w' ++ 58 :: text))) (.member key t)
  | single {text key : Bytes} {t : Tree} (h : Derives text (.member key t)) : Derives text (.members [(key, t)])
  | members {text rest key : Bytes} {t : Tree} {ms : List (Bytes × Tree)} (h : Derives text (.member key t))
    (hrest : Derives rest (.members ms)) : Derives (text ++ 44 :: rest) (.members ((key, t) :: ms))

/-- A JSON text is one element. -/
def JsonText (text : Bytes) (t : Tree) : Prop := Derives text (.element t)

mutual

/-- The tree without the texts of its containers. -/
def Tree.plain : Tree → Tree
  | .scalar lex => .scalar lex
  | .str raw => .str raw
  | .arr _ ts => .arr [] (plainItems ts)
  | .obj _ ms => .obj [] (plainMembers ms)

def plainItems : List Tree → List Tree
  | [] => []
  | t :: ts => t.plain :: plainItems ts

def plainMembers : List (Bytes × Tree) → List (Bytes × Tree)
  | [] => []
  | (key, t) :: ms => (key, t.plain) :: plainMembers ms

end

mutual

/-- Every string and every key is UTF-8. -/
def Tree.utf8 : Tree → Bool
  | .scalar _ => true
  | .str raw => isUtf8 raw
  | .arr _ ts => utf8Items ts
  | .obj _ ms => utf8Members ms

def utf8Items : List Tree → Bool
  | [] => true
  | t :: ts => t.utf8 && utf8Items ts

def utf8Members : List (Bytes × Tree) → Bool
  | [] => true
  | (key, t) :: ms => (isUtf8 key && t.utf8) && utf8Members ms

end

mutual

/-- The text of a tree without white space. -/
def Tree.compact : Tree → Bytes
  | .scalar lex => lex
  | .str raw => 34 :: (raw ++ [34])
  | .arr _ ts => 91 :: (compactItems ts ++ [93])
  | .obj _ ms => 123 :: (compactMembers ms ++ [125])

def compactItems : List Tree → Bytes
  | [] => []
  | [t] => t.compact
  | t :: ts => t.compact ++ 44 :: compactItems ts

def compactMembers : List (Bytes × Tree) → Bytes
  | [] => []
  | [(key, t)] => 34 :: (key ++ 34 :: 58 :: t.compact)
  | (key, t) :: ms => 34 :: (key ++ 34 :: 58 :: (t.compact ++ 44 :: compactMembers ms))

end

mutual

/-- The words of the tree are words of the grammar. -/
def Tree.Sound : Tree → Prop
  | .scalar lex => IsScalar lex
  | .str raw => IsString raw
  | .arr _ ts => SoundItems ts
  | .obj _ ms => SoundMembers ms

def SoundItems : List Tree → Prop
  | [] => True
  | t :: ts => t.Sound ∧ SoundItems ts

def SoundMembers : List (Bytes × Tree) → Prop
  | [] => True
  | (key, t) :: ms => (IsString key ∧ t.Sound) ∧ SoundMembers ms

end

/-! ### The bytes of the words -/

/-- The bytes that stand in numbers. -/
def Numeric (b : UInt8) : Prop := isDigit b = true ∨ b ∈ ascii "+-.eE"

instance (b : UInt8) : Decidable (Numeric b) := inferInstanceAs (Decidable (_ ∨ _))

theorem Digits.numeric {ds : Bytes} (h : Digits ds) : ∀ b ∈ ds, Numeric b := fun b hb => .inl (h.2 b hb)

theorem IsInt.digits_of {int : Bytes} (h : IsInt int) : Digits int := by
  cases h with
  | zero => exact ⟨List.cons_ne_nil _ _, List.all_eq_true.mp rfl⟩
  | digits h _ => exact h

theorem IsFrac.numeric {frac : Bytes} (h : IsFrac frac) : ∀ b ∈ frac, Numeric b := by
  cases h with
  | none => exact nofun
  | point h => exact List.forall_mem_cons.mpr ⟨by decide, h.numeric⟩

theorem IsExp.numeric {exp : Bytes} (h : IsExp exp) : ∀ b ∈ exp, Numeric b := by
  cases h with
  | none => exact nofun
  | plain he h =>
    rw [List.forall_mem_cons]
    constructor
    · rcases he with rfl | rfl <;> decide
    · exact h.numeric
  | signed he hs h =>
    rw [List.forall_mem_cons, List.forall_mem_cons]
    refine ⟨?_, ?_, h.numeric⟩
    · rcases he with rfl | rfl <;> decide
    · rcases hs with rfl | rfl <;> decide

theorem unsigned_numeric {int frac exp : Bytes} (hint : IsInt int) (hfrac : IsFrac frac) (hexp : IsExp exp) :
    ∀ b ∈ int ++ (frac ++ exp), Numeric b := by
  rw [List.forall_mem_append, List.forall_mem_append]
  exact ⟨hint.digits_of.numeric, hfrac.numeric, hexp.numeric⟩

theorem IsNumber.numeric {lex : Bytes} (h : IsNumber lex) : ∀ b ∈ lex, Numeric b := by
  cases h with
  | plain hint hfrac hexp => exact unsigned_numeric hint hfrac hexp
  | negative hint hfrac hexp => exact List.forall_mem_cons.mpr ⟨by decide, unsigned_numeric hint hfrac hexp⟩

/-- A number begins with a sign or a digit. -/
theorem IsNumber.head {lex : Bytes} (h : IsNumber lex) : ∃ b rest, lex = b :: rest ∧ (b = 45 ∨ isDigit b = true) := by
  cases h with
  | @plain int frac exp hint _ _ =>
    have hdigits := hint.digits_of
    cases int with
    | nil => exact absurd rfl hdigits.1
    | cons d ds => exact ⟨d, _, rfl, .inr (hdigits.2 d (List.mem_cons_self ..))⟩
  | negative _ _ _ => exact ⟨45, _, rfl, .inl rfl⟩

theorem Numeric.scalar {b : UInt8} (h : Numeric b) : scalarByte b = true := by
  rcases h with h | h
  · exact decide_eq_true (.inl h)
  · have hall : ((ascii "+-.eE").all scalarByte) = true := rfl
    exact List.all_eq_true.mp hall b h

theorem IsScalar.scalar {lex : Bytes} (h : IsScalar lex) : ∀ b ∈ lex, scalarByte b = true := by
  cases h with
  | literal h => rcases h with rfl | rfl | rfl <;> exact List.all_eq_true.mp rfl
  | number h => exact fun b hb => (h.numeric b hb).scalar

theorem IsScalar.ne_nil {lex : Bytes} (h : IsScalar lex) : lex ≠ [] := by
  cases h with
  | literal h => rcases h with rfl | rfl | rfl <;> exact List.cons_ne_nil _ _
  | number h =>
    obtain ⟨b, rest, rfl, -⟩ := h.head
    exact List.cons_ne_nil _ _

theorem scalarByte_lt {b : UInt8} (h : scalarByte b = true) : b < 128 := by
  rcases of_decide_eq_true h with hd | hmem
  · exact UInt8.lt_of_le_of_lt (of_decide_eq_true hd).2 (by decide)
  · have hall : ((ascii "+-.Eaeflnrstu").all fun b => decide (b < 128)) = true := rfl
    exact of_decide_eq_true (List.all_eq_true.mp hall b hmem)

theorem ws_lt {b : UInt8} (h : isWs b = true) : b < 128 := by
  rcases of_decide_eq_true h with rfl | rfl | rfl | rfl <;> decide

/-! ### What the rules derive -/

def Part.utf8 : Part → Bool
  | .value t => t.utf8
  | .element t => t.utf8
  | .member key t => isUtf8 key && t.utf8
  | .items ts => utf8Items ts
  | .members ms => utf8Members ms

/-- A text is UTF-8 exactly when the strings and the keys in it are. -/
theorem Derives.isUtf8_eq {text : Bytes} {part : Part} (h : Derives text part) : isUtf8 text = part.utf8 := by
  have hspace {w : Bytes} (hw : Ws w) : ∀ b ∈ w, b < 128 := fun b hb => ws_lt (hw b hb)
  induction h with
  | scalar h => exact isUtf8_of_ascii fun b hb => scalarByte_lt (h.scalar b hb)
  | @str raw h =>
    rw [isUtf8_cons (by decide), isUtf8_append_cons (by decide)]
    exact Bool.and_true _
  | @emptyArr w h =>
    rw [isUtf8_cons (by decide), isUtf8_append_cons (by decide), isUtf8_of_ascii (hspace h)]
    rfl
  | arr h ih =>
    rw [isUtf8_cons (by decide), isUtf8_append_cons (by decide), ih]
    exact Bool.and_true _
  | @emptyObj w h =>
    rw [isUtf8_cons (by decide), isUtf8_append_cons (by decide), isUtf8_of_ascii (hspace h)]
    rfl
  | obj h ih =>
    rw [isUtf8_cons (by decide), isUtf8_append_cons (by decide), ih]
    exact Bool.and_true _
  | element hw h hw' ih =>
    rw [isUtf8_append (isUtf8_of_ascii (hspace hw)), isUtf8_append_ascii (hspace hw'), ih]
    rfl
  | member hw hkey hw' h ih =>
    rw [isUtf8_append (isUtf8_of_ascii (hspace hw)), isUtf8_cons (by decide), isUtf8_append_cons (by decide),
      isUtf8_append (isUtf8_of_ascii (hspace hw')), isUtf8_cons (by decide), ih]
    rfl
  | item h ih =>
    rw [ih]
    exact (Bool.and_true _).symm
  | items h hrest ih ihrest =>
    rw [isUtf8_append_cons (by decide), ih, ihrest]
    rfl
  | single h ih =>
    rw [ih]
    exact (Bool.and_true _).symm
  | members h hrest ih ihrest =>
    rw [isUtf8_append_cons (by decide), ih, ihrest]
    rfl

def Part.Sound : Part → Prop
  | .value t => t.Sound
  | .element t => t.Sound
  | .member key t => IsString key ∧ t.Sound
  | .items ts => SoundItems ts
  | .members ms => SoundMembers ms

theorem Derives.sound {text : Bytes} {part : Part} (h : Derives text part) : part.Sound := by
  induction h with
  | scalar h => exact h
  | str h => exact h
  | emptyArr _ => exact trivial
  | arr _ ih => exact ih
  | emptyObj _ => exact trivial
  | obj _ ih => exact ih
  | element _ _ _ ih => exact ih
  | member _ hkey _ _ ih => exact ⟨hkey, ih⟩
  | item _ ih => exact ⟨ih, trivial⟩
  | items _ _ ih ihrest => exact ⟨ih, ihrest⟩
  | single _ ih => exact ⟨ih, trivial⟩
  | members _ _ ih ihrest => exact ⟨ih, ihrest⟩

theorem Derives.items_ne_nil {text : Bytes} {ts : List Tree} (h : Derives text (.items ts)) : ts ≠ [] := by
  cases h with
  | item h => exact List.cons_ne_nil _ _
  | items h hrest => exact List.cons_ne_nil _ _

theorem Derives.members_ne_nil {text : Bytes} {ms : List (Bytes × Tree)} (h : Derives text (.members ms)) : ms ≠ [] := by
  cases h with
  | single h => exact List.cons_ne_nil _ _
  | members h hrest => exact List.cons_ne_nil _ _

theorem compactItems_cons {ts : List Tree} (h : ts ≠ []) (t : Tree) :
    compactItems (t :: ts) = t.compact ++ 44 :: compactItems ts := by
  cases ts with
  | nil => exact absurd rfl h
  | cons s ts => rfl

theorem compactMembers_cons {ms : List (Bytes × Tree)} (h : ms ≠ []) (key : Bytes) (t : Tree) :
    compactMembers ((key, t) :: ms) = 34 :: (key ++ 34 :: 58 :: (t.compact ++ 44 :: compactMembers ms)) := by
  cases ms with
  | nil => exact absurd rfl h
  | cons m ms => rfl

theorem ws_nil : Ws [] := fun _ hb => nomatch List.not_mem_nil hb

/-- A value is an element by itself. -/
theorem Derives.alone {text : Bytes} {t : Tree} (h : Derives text (.value t)) : Derives text (.element t) := by
  have hpadded := Derives.element ws_nil h ws_nil
  rwa [List.nil_append, List.append_nil] at hpadded

mutual

/-- The compact text of a tree is derived, with the tree itself. -/
theorem Tree.Sound.derives : (t : Tree) → t.Sound → ∃ t', Derives t.compact (.value t') ∧ t'.plain = t.plain
  | .scalar _, h => ⟨_, .scalar h, rfl⟩
  | .str _, h => ⟨_, .str h, rfl⟩
  | .arr _ ts, h => by
    by_cases hts : ts = []
    · subst hts
      exact ⟨_, .emptyArr ws_nil, rfl⟩
    · obtain ⟨ts', hts', hplain⟩ := SoundItems.derives ts h hts
      exact ⟨_, .arr hts', by rw [Tree.plain, Tree.plain, hplain]⟩
  | .obj _ ms, h => by
    by_cases hms : ms = []
    · subst hms
      exact ⟨_, .emptyObj ws_nil, rfl⟩
    · obtain ⟨ms', hms', hplain⟩ := SoundMembers.derives ms h hms
      exact ⟨_, .obj hms', by rw [Tree.plain, Tree.plain, hplain]⟩

theorem SoundItems.derives : (ts : List Tree) → SoundItems ts → ts ≠ [] →
    ∃ ts', Derives (compactItems ts) (.items ts') ∧ plainItems ts' = plainItems ts
  | [], _, hne => absurd rfl hne
  | t :: ts, h, _ => by
    obtain ⟨t', ht', hplain⟩ := Tree.Sound.derives t h.1
    by_cases hts : ts = []
    · subst hts
      exact ⟨[t'], .item ht'.alone, by rw [plainItems, plainItems, plainItems, plainItems, hplain]⟩
    · obtain ⟨ts', hts', hplains⟩ := SoundItems.derives ts h.2 hts
      rw [compactItems_cons hts]
      exact ⟨t' :: ts', .items ht'.alone hts', by rw [plainItems, plainItems, hplain, hplains]⟩

theorem SoundMembers.derives : (ms : List (Bytes × Tree)) → SoundMembers ms → ms ≠ [] →
    ∃ ms', Derives (compactMembers ms) (.members ms') ∧ plainMembers ms' = plainMembers ms
  | [], _, hne => absurd rfl hne
  | (key, t) :: ms, h, _ => by
    obtain ⟨t', ht', hplain⟩ := Tree.Sound.derives t h.1.2
    have hmember : Derives (34 :: (key ++ 34 :: 58 :: t.compact)) (.member key t') :=
      .member ws_nil h.1.1 ws_nil ht'.alone
    by_cases hms : ms = []
    · subst hms
      exact ⟨[(key, t')], .single hmember, by rw [plainMembers, plainMembers, plainMembers, plainMembers, hplain]⟩
    · obtain ⟨ms', hms', hplains⟩ := SoundMembers.derives ms h.2 hms
      have hall := Derives.members hmember hms'
      simp only [List.cons_append, List.append_assoc] at hall
      rw [compactMembers_cons hms]
      exact ⟨(key, t') :: ms', hall, by rw [plainMembers, plainMembers, hplain, hplains]⟩

end

mutual

/-- The texts of the containers have no part in it. -/
theorem Tree.utf8_plain : (t : Tree) → t.plain.utf8 = t.utf8
  | .scalar _ => rfl
  | .str _ => rfl
  | .arr _ ts => utf8_plainItems ts
  | .obj _ ms => utf8_plainMembers ms

theorem utf8_plainItems : (ts : List Tree) → utf8Items (plainItems ts) = utf8Items ts
  | [] => rfl
  | t :: ts => by rw [plainItems, utf8Items, utf8Items, Tree.utf8_plain t, utf8_plainItems ts]

theorem utf8_plainMembers : (ms : List (Bytes × Tree)) → utf8Members (plainMembers ms) = utf8Members ms
  | [] => rfl
  | (key, t) :: ms => by rw [plainMembers, utf8Members, utf8Members, Tree.utf8_plain t, utf8_plainMembers ms]

end

end FractalSQL.Lib.JsonGrammar
