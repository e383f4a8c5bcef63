import FractalSQL.Audit.Fingerprint
import Mathlib.Data.List.DropRight

/-!
# What redaction changes in a document

The stored document is the compact text of the tree in which the strings and containers
under the sensitive keys are replaced. It is a document again, except that the truncate
mode counts bytes where its documentation counts characters: a text cut inside a
character leaves a string that is not UTF-8.
-/
namespace FractalSQL.Audit
open Lib Lib.Json Lib.JsonGrammar

/-! ### The redacted tree -/

/-- The text of a value that redaction replaces: what a string spells up to its first zero
byte, a container as it is written. -/
def ownText : Tree → Option Bytes
  | .scalar _ => none
  | .str raw => some (cString (decoded raw))
  | .arr text _ => some text
  | .obj text _ => some text

section Redacted

variable (form : Bytes → Bytes)

/-- The value under a sensitive key. -/
def replaceValue (t : Tree) : Tree :=
  match ownText t with
  | none => t
  | some s => .str (jsonEscape (form s))

mutual

def redactTree : Tree → Tree
  | .scalar lex => .scalar lex
  | .str raw => .str raw
  | .arr text ts => .arr text (redactItems ts)
  | .obj text ms => .obj text (redactMembers ms)

def redactItems : List Tree → List Tree
  | [] => []
  | t :: ts => redactTree t :: redactItems ts

def redactMembers : List (Bytes × Tree) → List (Bytes × Tree)
  | [] => []
  | (key, t) :: ms =>
    (key, if keyIsSensitive key then replaceValue form t else redactTree t) :: redactMembers ms

end

end Redacted

mutual

/-- The texts that are replaced. -/
def replacedTexts : Tree → List Bytes
  | .scalar _ => []
  | .str _ => []
  | .arr _ ts => itemTexts ts
  | .obj _ ms => memberTexts ms

def itemTexts : List Tree → List Bytes
  | [] => []
  | t :: ts => replacedTexts t ++ itemTexts ts

def memberTexts : List (Bytes × Tree) → List Bytes
  | [] => []
  | (key, t) :: ms => (if keyIsSensitive key then (ownText t).toList else replacedTexts t) ++ memberTexts ms

end

/-- Cut to the length of the truncate mode, every replaced text is UTF-8. -/
def KeepsUtf8 (mode : RedactMode) (t : Tree) : Prop :=
  mode = .truncate → ∀ s ∈ replacedTexts t, isUtf8 (s.take truncateChars) = true

/-! ### No zero byte -/

theorem hexValue_ne_zero {b : UInt8} {n : ℕ} (h : hexValue b = some n) : b ≠ 0 := by
  rintro rfl
  cases h

theorem zero_not_mem_string {raw : Bytes} (h : IsString raw) : (0 : UInt8) ∉ raw := by
  unfold IsString at h
  fun_induction pieces raw with
  | case1 => exact List.not_mem_nil
  | case2 a b c d raw ih =>
    obtain ⟨ps, hps⟩ := Option.isSome_iff_exists.mp h
    obtain ⟨n, hn, hps⟩ := Option.bind_eq_some_iff.mp hps
    obtain ⟨qs, hqs, -⟩ := Option.bind_eq_some_iff.mp hps
    unfold hex4 at hn
    obtain ⟨na, ha, hn⟩ := Option.bind_eq_some_iff.mp hn
    obtain ⟨nb, hb, hn⟩ := Option.bind_eq_some_iff.mp hn
    obtain ⟨nc, hc, hn⟩ := Option.bind_eq_some_iff.mp hn
    obtain ⟨nd, hd, hn⟩ := Option.bind_eq_some_iff.mp hn
    have hraw := ih (Option.isSome_iff_exists.mpr ⟨qs, hqs⟩)
    simp [hraw, (hexValue_ne_zero ha).symm, (hexValue_ne_zero hb).symm, (hexValue_ne_zero hc).symm,
      (hexValue_ne_zero hd).symm]
  | case3 e raw hne ih =>
    obtain ⟨ps, hps⟩ := Option.isSome_iff_exists.mp h
    obtain ⟨n, hn, hps⟩ := Option.bind_eq_some_iff.mp hps
    obtain ⟨qs, hqs, -⟩ := Option.bind_eq_some_iff.mp hps
    have hraw := ih (Option.isSome_iff_exists.mpr ⟨qs, hqs⟩)
    have he : e ≠ 0 := by
      rintro rfl
      cases hn
    simp [hraw, he.symm]
  | case4 b raw hhex hesc hbad => cases h
  | case5 b raw hhex hesc hok ih =>
    rw [Option.isSome_map] at h
    have hb : b ≠ 0 := by
      rintro rfl
      exact hok (by decide)
    exact List.not_mem_cons_of_ne_of_not_mem hb.symm (ih h)

/-- A text of the grammar is a C string. -/
theorem zero_not_mem_derived {text : Bytes} {part : Part} (h : Derives text part) : (0 : UInt8) ∉ text := by
  have hspace {w : Bytes} (hw : Ws w) : (0 : UInt8) ∉ w := fun hmem => absurd (hw 0 hmem) (by decide)
  induction h with
  | scalar h => exact fun hmem => absurd (h.scalar 0 hmem) (by decide)
  | str h => simp [zero_not_mem_string h]
  | emptyArr h => simp [hspace h]
  | arr h ih => simp [ih]
  | emptyObj h => simp [hspace h]
  | obj h ih => simp [ih]
  | element hw h hw' ih => simp [hspace hw, ih, hspace hw']
  | member hw hkey hw' h ih => simp [hspace hw, zero_not_mem_string hkey, hspace hw', ih]
  | item h ih => exact ih
  | items h hrest ih ihrest => simp [ih, ihrest]
  | single h ih => exact ih
  | members h hrest ih ihrest => simp [ih, ihrest]

/-! ### The walk -/

section Walk

variable (sha : Bytes → Block 32) (mode : RedactMode)

/-- What one turn of the loop writes for the value of a span. -/
def turnValue (sensitive : Bool) (span : Span) (p : Bytes) : Option Bytes :=
  if sensitive then
    if span.isString then some (emitRedacted sha mode (span.raw.tail.take (span.raw.length - 2)) true)
    else if opens span.raw then some (emitRedacted sha mode span.raw false)
    else some span.raw
  else if ¬ span.isString ∧ opens span.raw then redactContainer sha mode (skipWs p)
  else some span.raw

/-- What a turn gives when it has written `out` and goes on at the given position. -/
def turnEnd (op : UInt8) (key : Option Bytes) (out : Bytes) : Bytes → Option Bytes
  | [] => none
  | b :: rest =>
    if b = 44 then (redactLoop sha mode op rest).map fun more => putKey key ++ (out ++ 44 :: more)
    else if b = closer op then some (putKey key ++ (out ++ [b]))
    else none

/-- The loop, one turn at a time. -/
theorem redactLoop_eq (op : UInt8) (p : Bytes) :
    redactLoop sha mode op p = (memberKey op (skipWs p)).bind fun (key, p₁) => (valueSpan p₁).bind fun span =>
      (turnValue sha mode (key.any keyIsSensitive) span p₁).bind fun out =>
        turnEnd sha mode op key out (skipWs span.rest) := by
  rw [redactLoop]
  dsimp only
  split
  · rename_i hkey
    rw [hkey]
    rfl
  · rename_i key p₁ hkey
    rw [hkey, Option.bind_some]
    split
    · rename_i hspan
      rw [hspan]
      rfl
    · rename_i span hspan
      rw [hspan, Option.bind_some, turnValue]
      split
      · rename_i hvalue
        rw [hvalue]
        rfl
      · rename_i out hvalue
        rw [hvalue, Option.bind_some]
        split
        · rename_i hrest
          rw [hrest]
          rfl
        · rename_i b p₂ hrest
          rw [hrest]
          rfl

theorem skipWs_idem (p : Bytes) : skipWs (skipWs p) = skipWs p := List.dropWhile_idempotent _ _

theorem valueSpan_skipWs (p : Bytes) : valueSpan (skipWs p) = valueSpan p := by
  rw [valueSpan, skipWs_idem, valueSpan]

theorem turnValue_skipWs (sensitive : Bool) (span : Span) (p : Bytes) :
    turnValue sha mode sensitive span (skipWs p) = turnValue sha mode sensitive span p := by
  rw [turnValue, skipWs_idem, turnValue]

theorem redactLoop_congr {op : UInt8} {p q : Bytes} (h : skipWs p = skipWs q) :
    redactLoop sha mode op p = redactLoop sha mode op q := by
  rw [redactLoop_eq, redactLoop_eq, h]

/-- A part begins with nothing that closes a container. -/
theorem front_ne_closer {text : Bytes} {part : Part} (h : Derives text part) (rest : Bytes) :
    ∃ b q, skipWs (text ++ rest) = b :: q ∧ b ≠ 93 ∧ b ≠ 125 := by
  have hvalue {v : Bytes} {t : Tree} (hv : Derives v (.value t)) (rest : Bytes) :
      ∃ b q, skipWs (v ++ rest) = b :: q ∧ b ≠ 93 ∧ b ≠ 125 := by
    obtain ⟨b, v', rfl, hws, hne⟩ := head_of_value hv
    exact ⟨b, v' ++ rest, skipWs_cons hws _, hne⟩
  induction h generalizing rest with
  | scalar h => exact hvalue (.scalar h) rest
  | str h => exact hvalue (.str h) rest
  | emptyArr h => exact hvalue (.emptyArr h) rest
  | arr h => exact hvalue (.arr h) rest
  | emptyObj h => exact hvalue (.emptyObj h) rest
  | obj h => exact hvalue (.obj h) rest
  | element hw h hw' ih =>
    rw [List.append_assoc, List.append_assoc, skipWs_append hw]
    exact hvalue h _
  | @member w key w' text t hw hkey hw' h ih =>
    rw [List.append_assoc, List.cons_append, skipWs_append hw, skipWs_cons (by decide)]
    exact ⟨34, _, rfl, by decide⟩
  | item h ih => exact ih rest
  | items h hrest ih ihrest =>
    rw [List.append_assoc]
    exact ih _
  | single h ih => exact ih rest
  | members h hrest ih ihrest =>
    rw [List.append_assoc]
    exact ih _

theorem redactContainer_empty {op : UInt8} {w : Bytes} (hw : Ws w) (hcl : isWs (closer op) = false) (rest : Bytes) :
    redactContainer sha mode (op :: (w ++ closer op :: rest)) = some [op, closer op] := by
  rw [redactContainer, skipWs_append hw, skipWs_cons hcl, List.head?_cons, if_pos rfl]

theorem redactContainer_cons {op : UInt8} {p : Bytes} (h : (skipWs p).head? ≠ some (closer op)) :
    redactContainer sha mode (op :: p) = (redactLoop sha mode op p).map (op :: ·) := by
  rw [redactContainer, if_neg h, redactLoop_congr sha mode (skipWs_idem p)]

/-- The value of a member or an item in the stored document. -/
def storedValue (form : Bytes → Bytes) (sensitive : Bool) (t : Tree) : Tree :=
  if sensitive then replaceValue form t else redactTree form t

/-- The bytes that stand behind an element. -/
def Separates (b : UInt8) : Prop := b = 44 ∨ b = 93 ∨ b = 125

theorem Separates.not_ws {b : UInt8} (h : Separates b) : isWs b = false := by
  rcases h with rfl | rfl | rfl <;> rfl

theorem Separates.ends {b : UInt8} (h : Separates b) (rest : Bytes) : Ends (b :: rest) := by
  intro c hc
  obtain rfl := Option.some.inj hc
  rcases h with rfl | rfl | rfl <;> rfl

/-- On a part of a text the redactor writes the compact text of the redacted part. -/
def Walks (text : Bytes) : Part → Prop
  | .value t => ∀ rest, opens text = true →
      redactContainer sha mode (text ++ rest) = some (redactTree (redactedForm sha mode) t).compact
  | .element t => ∀ b rest, Separates b → ∃ span, valueSpan (text ++ b :: rest) = some span ∧
      skipWs span.rest = b :: rest ∧ ∀ sensitive, turnValue sha mode sensitive span (text ++ b :: rest) =
        some (storedValue (redactedForm sha mode) sensitive t).compact
  | .member key t => ∀ b rest, Separates b → redactLoop sha mode 123 (text ++ b :: rest) =
      turnEnd sha mode 123 (some key) (storedValue (redactedForm sha mode) (keyIsSensitive key) t).compact (b :: rest)
  | .items ts => ∀ rest, redactLoop sha mode 91 (text ++ 93 :: rest) =
      some (compactItems (redactItems (redactedForm sha mode) ts) ++ [93])
  | .members ms => ∀ rest, redactLoop sha mode 123 (text ++ 125 :: rest) =
      some (compactMembers (redactMembers (redactedForm sha mode) ms) ++ [125])

variable {sha mode}

theorem opens_scalar {lex : Bytes} (h : IsScalar lex) : opens lex = false := by
  cases lex with
  | nil => rfl
  | cons b lex =>
    have hb := h.scalar b (List.mem_cons_self ..)
    have hsquare := (scalarByte_ne (.inl ⟨rfl, rfl⟩) hb).2.1
    have hcurly := (scalarByte_ne (.inr ⟨rfl, rfl⟩) hb).2.1
    simp [opens, hsquare, hcurly]

/-- The raw text of a string without its quotes. -/
theorem string_inside (raw : Bytes) : (34 :: (raw ++ [34])).tail.take ((34 :: (raw ++ [34])).length - 2) = raw := by
  simp

/-- What a turn writes for a value. -/
theorem turnValue_value (hmode : mode ≠ .none) {v w more : Bytes} {t : Tree} (h : Derives v (.value t)) (hw : Ws w)
    (hwalk : Walks sha mode v (.value t)) (sensitive : Bool) (rest : Bytes) :
    turnValue sha mode sensitive ⟨v, isStr t, rest⟩ (w ++ (v ++ more)) =
      some (storedValue (redactedForm sha mode) sensitive t).compact := by
  have hcontainer (hopens : opens v = true) (hown : ownText t = some v) (hstr : isStr t = false) :
      turnValue sha mode sensitive ⟨v, isStr t, rest⟩ (w ++ (v ++ more)) =
        some (storedValue (redactedForm sha mode) sensitive t).compact := by
    rw [turnValue, hstr, skipWs_append hw, skipWs_value h, hwalk more hopens, emitRedacted_text hmode
      (zero_not_mem_derived h), storedValue]
    cases sensitive with
    | true =>
      rw [if_pos rfl, if_pos rfl, replaceValue, hown]
      dsimp only
      rw [if_neg Bool.false_ne_true, if_pos hopens]
      rfl
    | false => simp [hopens]
  cases h with
  | scalar h =>
    rw [turnValue, opens_scalar h]
    cases sensitive <;> rfl
  | @str raw h =>
    rw [turnValue, string_inside, emitRedacted_string hmode h]
    cases sensitive <;> rfl
  | emptyArr h => exact hcontainer rfl rfl rfl
  | arr h => exact hcontainer rfl rfl rfl
  | emptyObj h => exact hcontainer rfl rfl rfl
  | obj h => exact hcontainer rfl rfl rfl

theorem walks_arr {text : Bytes} {ts : List Tree} (h : Derives text (.items ts)) (ih : Walks sha mode text (.items ts)) :
    Walks sha mode (91 :: (text ++ [93])) (.value (.arr (91 :: (text ++ [93])) ts)) := by
  intro rest _
  obtain ⟨b, q, hfront, hne, -⟩ := front_ne_closer h (93 :: rest)
  have hhead : (skipWs (text ++ 93 :: rest)).head? ≠ some (closer 91) := by
    rw [hfront]
    exact fun heq => hne (Option.some.inj heq)
  rw [List.cons_append, List.append_assoc, List.singleton_append, redactContainer_cons sha mode hhead, ih]
  rfl

theorem walks_obj {text : Bytes} {ms : List (Bytes × Tree)} (h : Derives text (.members ms))
    (ih : Walks sha mode text (.members ms)) :
    Walks sha mode (123 :: (text ++ [125])) (.value (.obj (123 :: (text ++ [125])) ms)) := by
  intro rest _
  obtain ⟨b, q, hfront, -, hne⟩ := front_ne_closer h (125 :: rest)
  have hhead : (skipWs (text ++ 125 :: rest)).head? ≠ some (closer 123) := by
    rw [hfront]
    exact fun heq => hne (Option.some.inj heq)
  rw [List.cons_append, List.append_assoc, List.singleton_append, redactContainer_cons sha mode hhead, ih]
  rfl

theorem walks_empty {op cl : UInt8} (hpair : IsPair op cl) {w : Bytes} (hw : Ws w) (rest : Bytes) :
    redactContainer sha mode (op :: (w ++ [cl]) ++ rest) = some [op, cl] := by
  rw [List.cons_append, List.append_assoc, List.singleton_append]
  rcases hpair with ⟨rfl, rfl⟩ | ⟨rfl, rfl⟩
  · exact redactContainer_empty sha mode hw (by decide) rest
  · exact redactContainer_empty sha mode hw (by decide) rest

theorem walks_element (hmode : mode ≠ .none) {w v w' : Bytes} {t : Tree} (hw : Ws w) (h : Derives v (.value t))
    (hw' : Ws w') (ih : Walks sha mode v (.value t)) : Walks sha mode (w ++ (v ++ w')) (.element t) := by
  intro b rest hb
  have happ : w ++ (v ++ w') ++ b :: rest = w ++ (v ++ (w' ++ b :: rest)) := by
    rw [List.append_assoc, List.append_assoc]
  have hends : Ends (w' ++ b :: rest) := by
    cases w' with
    | nil => exact hb.ends rest
    | cons c w' =>
      intro d hd
      obtain rfl := Option.some.inj hd
      exact ws_not_number (hw' c (List.mem_cons_self ..))
  refine ⟨⟨v, isStr t, w' ++ b :: rest⟩, ?_, ?_, ?_⟩
  · rw [happ, valueSpan_append hw, valueSpan_value h hends]
  · rw [skipWs_append hw', skipWs_cons hb.not_ws]
  · intro sensitive
    rw [happ]
    exact turnValue_value hmode h hw ih sensitive _

theorem walks_member {w key w' text : Bytes} {t : Tree} (hw : Ws w) (hkey : IsString key) (hw' : Ws w')
    (ih : Walks sha mode text (.element t)) :
    Walks sha mode (w ++ 34 :: (key ++ 34 :: (w' ++ 58 :: text))) (.member key t) := by
  intro b rest hb
  obtain ⟨span, hspan, hrest, hvalue⟩ := ih b rest hb
  have happ : w ++ 34 :: (key ++ 34 :: (w' ++ 58 :: text)) ++ b :: rest =
      w ++ 34 :: (key ++ 34 :: (w' ++ 58 :: (text ++ b :: rest))) := by
    simp
  have hfront : memberKey 123 (34 :: (key ++ 34 :: (w' ++ 58 :: (text ++ b :: rest)))) =
      some (some key, text ++ b :: rest) := by
    rw [memberKey, if_pos rfl, stringSpan_append hkey]
    dsimp only
    rw [skipWs_append hw', skipWs_cons (by decide), List.head?_cons, if_pos rfl, List.tail_cons]
  rw [happ, redactLoop_eq, skipWs_append hw, skipWs_cons (by decide), hfront, Option.bind_some]
  dsimp only
  rw [hspan, Option.bind_some, hrest]
  change (turnValue sha mode (keyIsSensitive key) span _).bind _ = _
  rw [hvalue, Option.bind_some]

/-- An item is one turn of the loop of an array. -/
theorem redactLoop_item {text : Bytes} {t : Tree} (ih : Walks sha mode text (.element t)) {b : UInt8} (hb : Separates b)
    (rest : Bytes) : redactLoop sha mode 91 (text ++ b :: rest) =
      turnEnd sha mode 91 none (redactTree (redactedForm sha mode) t).compact (b :: rest) := by
  obtain ⟨span, hspan, hrest, hvalue⟩ := ih b rest hb
  have hfront (p : Bytes) : memberKey 91 p = some (none, p) := rfl
  rw [redactLoop_eq, hfront, Option.bind_some]
  dsimp only
  rw [valueSpan_skipWs, hspan, Option.bind_some, hrest, turnValue_skipWs]
  change (turnValue sha mode false span _).bind _ = _
  rw [hvalue, Option.bind_some]
  rfl

theorem turnEnd_closer {op : UInt8} (h : closer op ≠ 44) (key : Option Bytes) (out rest : Bytes) :
    turnEnd sha mode op key out (closer op :: rest) = some (putKey key ++ (out ++ [closer op])) := by
  rw [turnEnd, if_neg h, if_pos rfl]

theorem redactItems_ne_nil {form : Bytes → Bytes} {ts : List Tree} (h : ts ≠ []) : redactItems form ts ≠ [] := by
  cases ts with
  | nil => exact absurd rfl h
  | cons t ts => exact List.cons_ne_nil _ _

theorem redactMembers_ne_nil {form : Bytes → Bytes} {ms : List (Bytes × Tree)} (h : ms ≠ []) :
    redactMembers form ms ≠ [] := by
  cases ms with
  | nil => exact absurd rfl h
  | cons m ms => exact List.cons_ne_nil _ _

/-- The redactor walks every text of the grammar. -/
theorem walks_derived (hmode : mode ≠ .none) {text : Bytes} {part : Part} (h : Derives text part) :
    Walks sha mode text part := by
  induction h with
  | scalar h =>
    intro rest hopens
    rw [opens_scalar h] at hopens
    cases hopens
  | str h =>
    intro rest hopens
    cases hopens
  | emptyArr h => exact fun rest _ => walks_empty (.inl ⟨rfl, rfl⟩) h rest
  | arr h ih => exact walks_arr h ih
  | emptyObj h => exact fun rest _ => walks_empty (.inr ⟨rfl, rfl⟩) h rest
  | obj h ih => exact walks_obj h ih
  | element hw h hw' ih => exact walks_element hmode hw h hw' ih
  | member hw hkey hw' h ih => exact walks_member hw hkey hw' ih
  | item h ih =>
    intro rest
    rw [redactLoop_item ih (.inr (.inl rfl))]
    exact turnEnd_closer (by decide) none _ rest
  | @items text rest t ts h hrest ih ihrest =>
    intro more
    have hcons : redactItems (redactedForm sha mode) ts ≠ [] := redactItems_ne_nil hrest.items_ne_nil
    rw [List.append_assoc, List.cons_append, redactLoop_item ih (.inl rfl), turnEnd, if_pos rfl, ihrest, Option.map_some,
      redactItems, compactItems_cons hcons, List.append_assoc]
    rfl
  | single h ih =>
    intro rest
    rw [ih 125 rest (.inr (.inr rfl))]
    refine (turnEnd_closer (by decide) _ _ rest).trans ?_
    simp [putKey, redactMembers, compactMembers, storedValue, closer]
  | @members text rest key t ms h hrest ih ihrest =>
    intro more
    have hcons : redactMembers (redactedForm sha mode) ms ≠ [] := redactMembers_ne_nil hrest.members_ne_nil
    rw [List.append_assoc, List.cons_append, ih 44 _ (.inl rfl), turnEnd, if_pos rfl, ihrest, Option.map_some,
      redactMembers, compactMembers_cons hcons]
    simp [putKey, storedValue]

end Walk

/-! ### The stored document -/

section Document

variable {form : Bytes → Bytes}

theorem replaceValue_sound {t : Tree} (h : t.Sound) : (replaceValue form t).Sound := by
  rw [replaceValue]
  cases t with
  | scalar lex => exact h
  | str raw => exact isString_jsonEscape _
  | arr text ts => exact isString_jsonEscape _
  | obj text ms => exact isString_jsonEscape _

mutual

theorem redactTree_sound : (t : Tree) → t.Sound → (redactTree form t).Sound
  | .scalar _, h => h
  | .str _, h => h
  | .arr _ ts, h => redactItems_sound ts h
  | .obj _ ms, h => redactMembers_sound ms h

theorem redactItems_sound : (ts : List Tree) → SoundItems ts → SoundItems (redactItems form ts)
  | [], _ => trivial
  | t :: ts, h => ⟨redactTree_sound t h.1, redactItems_sound ts h.2⟩

theorem redactMembers_sound : (ms : List (Bytes × Tree)) → SoundMembers ms → SoundMembers (redactMembers form ms)
  | [], _ => trivial
  | (key, t) :: ms, h => by
    refine ⟨⟨h.1.1, ?_⟩, redactMembers_sound ms h.2⟩
    split_ifs
    · exact replaceValue_sound h.1.2
    · exact redactTree_sound t h.1.2

end

theorem escapeByte_ascii (b : UInt8) : escapeByte b = [b] ∨
    b < 128 ∧ ∃ esc, escapeByte b = 92 :: esc ∧ ∀ c ∈ escapeByte b, c < 128 := by
  rcases escapeByte_cases b with ⟨e, hesc, he⟩ | ⟨h32, hesc⟩ | ⟨-, hesc⟩
  · refine .inr ⟨UInt8.lt_iff_toNat_lt.mpr (escapeChar_lt he), [e], hesc, ?_⟩
    rw [hesc, List.forall_mem_cons, List.forall_mem_singleton]
    exact ⟨by decide, escapeChar_byte_lt he⟩
  · refine .inr ⟨UInt8.lt_trans h32 (by decide), _, hesc, ?_⟩
    rw [hesc, List.forall_mem_cons, List.forall_mem_cons, List.forall_mem_cons, List.forall_mem_cons]
    exact ⟨by decide, by decide, by decide, by decide, fun c hc => (hexEncode_printable [b] c hc).2⟩
  · exact .inl hesc

/-- Escaping keeps what is UTF-8, and nothing else becomes UTF-8. -/
theorem utf8From_jsonEscape {ranges : List (UInt8 × UInt8)} (hranges : ∀ r ∈ ranges, 128 ≤ r.1) (s : Bytes) :
    utf8From ranges (jsonEscape s) = utf8From ranges s := by
  induction s generalizing ranges with
  | nil => rfl
  | cons b s ih =>
    rw [jsonEscape, List.flatMap_cons, ← jsonEscape]
    rcases escapeByte_ascii b with hplain | ⟨hb, esc, hesc, hascii⟩
    · rw [hplain, List.singleton_append]
      cases ranges with
      | nil =>
        rw [utf8From, utf8From]
        cases hb : following b with
        | none => rfl
        | some more => exact ih (following_le hb)
      | cons r ranges =>
        rw [utf8From, utf8From, ih fun q hq => hranges q (List.mem_cons_of_mem r hq)]
    · cases ranges with
      | nil =>
        have hhead : utf8From [] (b :: s) = utf8From [] s := isUtf8_cons hb s
        rw [utf8From_append (isUtf8_of_ascii hascii), ih hranges, hhead]
      | cons r ranges =>
        have hr : 128 ≤ r.1 := hranges r (List.mem_cons_self ..)
        have hout {c : UInt8} (hc : c < 128) : decide (r.1 ≤ c ∧ c ≤ r.2) = false :=
          decide_eq_false fun hin => absurd (UInt8.lt_of_lt_of_le hc hr) (UInt8.not_lt.mpr hin.1)
        rw [hesc, List.cons_append, utf8From, utf8From, hout (by decide), hout hb, Bool.false_and, Bool.false_and]

theorem isUtf8_jsonEscape (s : Bytes) : isUtf8 (jsonEscape s) = isUtf8 s :=
  utf8From_jsonEscape (fun _ hr => nomatch List.not_mem_nil hr) s

theorem replaceValue_utf8 {t : Tree} (h : t.utf8 = true) :
    (replaceValue form t).utf8 = true ↔ ∀ s ∈ (ownText t).toList, isUtf8 (form s) = true := by
  rw [replaceValue]
  cases hown : ownText t with
  | none => simp [h]
  | some s => simp [Tree.utf8, isUtf8_jsonEscape]

mutual

/-- The stored document is UTF-8 exactly when every text that stands in for another is. -/
theorem redactTree_utf8 : (t : Tree) → t.utf8 = true →
    ((redactTree form t).utf8 = true ↔ ∀ s ∈ replacedTexts t, isUtf8 (form s) = true)
  | .scalar _, h => by simp [redactTree, replacedTexts, h]
  | .str _, h => by simp [redactTree, replacedTexts, h]
  | .arr _ ts, h => redactItems_utf8 ts h
  | .obj _ ms, h => redactMembers_utf8 ms h

theorem redactItems_utf8 : (ts : List Tree) → utf8Items ts = true →
    (utf8Items (redactItems form ts) = true ↔ ∀ s ∈ itemTexts ts, isUtf8 (form s) = true)
  | [], _ => by simp [redactItems, itemTexts, utf8Items]
  | t :: ts, h => by
    obtain ⟨ht, hts⟩ := Bool.and_eq_true_iff.mp h
    rw [redactItems, utf8Items, Bool.and_eq_true, redactTree_utf8 t ht, redactItems_utf8 ts hts, itemTexts,
      List.forall_mem_append]

theorem redactMembers_utf8 : (ms : List (Bytes × Tree)) → utf8Members ms = true →
    (utf8Members (redactMembers form ms) = true ↔ ∀ s ∈ memberTexts ms, isUtf8 (form s) = true)
  | [], _ => by simp [redactMembers, memberTexts, utf8Members]
  | (key, t) :: ms, h => by
    obtain ⟨hm, hms⟩ := Bool.and_eq_true_iff.mp h
    obtain ⟨hkey, ht⟩ := Bool.and_eq_true_iff.mp hm
    rw [redactMembers, utf8Members, Bool.and_eq_true, redactMembers_utf8 ms hms, memberTexts, List.forall_mem_append,
      hkey, Bool.true_and]
    split_ifs
    · rw [replaceValue_utf8 ht]
    · rw [redactTree_utf8 t ht]

end

theorem isUtf8_hashText (a : Block 32) (n : ℕ) : isUtf8 (hashText a n) = true :=
  isUtf8_of_ascii fun b hb => (hashText_printable a n b hb).2

/-- What the redactor writes for a document. -/
theorem redactValue_document {sha : Bytes → Block 32} {mode : RedactMode} (hmode : mode ≠ .none) {text : Bytes}
    {t : Tree} (h : JsonText text t) :
    redactValue sha mode text = some (redactTree (redactedForm sha mode) t).compact := by
  cases h with
  | @element w v w' t hw h hw' =>
    have hends : Ends w' := by
      cases w' with
      | nil => exact fun b hb => nomatch hb
      | cons c w' =>
        intro b hb
        obtain rfl := Option.some.inj hb
        exact ws_not_number (hw' c (List.mem_cons_self ..))
    have hskip : skipWs (w ++ (v ++ w')) = v ++ w' := by rw [skipWs_append hw, skipWs_value h]
    obtain ⟨b, v', hv, -⟩ := head_of_value h
    have hopens : opens (v ++ w') = opens v := by
      rw [hv]
      rfl
    rw [redactValue, hskip, hopens]
    split_ifs with hcontainer
    · exact walks_derived hmode h w' hcontainer
    · rw [valueSpan_value h hends, Option.map_some]
      cases h with
      | scalar h => rfl
      | str h => rfl
      | emptyArr h => exact absurd rfl hcontainer
      | arr h => exact absurd rfl hcontainer
      | emptyObj h => exact absurd rfl hcontainer
      | obj h => exact absurd rfl hcontainer

/-- For every document in UTF-8 the redactor gives a document in UTF-8, with the strings and
containers under the sensitive keys replaced and nothing else changed, if and only if the
truncate mode does not cut one of their texts inside a character. -/
theorem redaction_preserves_iff (sha : Bytes → Block 32) {env : Option Bytes} (hmode : redactMode env ≠ .none)
    {text : Bytes} {t : Tree} (h : JsonText text t) (hutf8 : isUtf8 text = true) :
    (∃ out t', auditRedactJson sha env text = some out ∧ JsonText out t' ∧ isUtf8 out = true ∧
      t'.plain = (redactTree (redactedForm sha (redactMode env)) t).plain) ↔ KeepsUtf8 (redactMode env) t := by
  have ht : t.utf8 = true := (Derives.isUtf8_eq h).symm.trans hutf8
  have hsound : (redactTree (redactedForm sha (redactMode env)) t).Sound := redactTree_sound t h.sound
  obtain ⟨t', ht', hplain⟩ := Tree.Sound.derives _ hsound
  have hout : auditRedactJson sha env text = some (redactTree (redactedForm sha (redactMode env)) t).compact := by
    rw [auditRedactJson, if_neg hmode, redactValue_document hmode h]
  have hkeeps : isUtf8 (redactTree (redactedForm sha (redactMode env)) t).compact = true ↔ KeepsUtf8 (redactMode env) t := by
    have heq : isUtf8 (redactTree (redactedForm sha (redactMode env)) t).compact = t'.utf8 := ht'.isUtf8_eq
    rw [heq, ← Tree.utf8_plain, hplain, Tree.utf8_plain, redactTree_utf8 t ht, KeepsUtf8]
    cases hm : redactMode env with
    | none => exact absurd hm hmode
    | hash =>
      refine iff_of_true (fun s _ => isUtf8_hashText _ _) fun hne => ?_
      cases hne
    | truncate => exact ⟨fun hall _ => hall, fun hall => hall rfl⟩
  constructor
  · rintro ⟨out, -, hsome, -, hu, -⟩
    rw [hout] at hsome
    rw [← hkeeps, Option.some.inj hsome, hu]
  · intro hk
    exact ⟨_, t', hout, ht'.alone, hkeeps.mpr hk, hplain⟩

/-- A record with one sensitive member. -/
def noteText (raw : Bytes) : Bytes := 123 :: (34 :: (ascii "text" ++ 34 :: 58 :: 34 :: (raw ++ [34])) ++ [125])

theorem noteText_document {raw : Bytes} (h : IsString raw) :
    JsonText (noteText raw) (.obj (noteText raw) [(ascii "text", .str raw)]) := by
  have hkey : IsString (ascii "text") := by decide
  have hmember : Derives (34 :: (ascii "text" ++ 34 :: 58 :: 34 :: (raw ++ [34]))) (.member (ascii "text") (.str raw)) :=
    .member ws_nil hkey ws_nil (Derives.str h).alone
  exact (Derives.obj (.single hmember)).alone

theorem redaction_preserves_note :
    (∃ out t', auditRedactJson (fun _ => Block.zero 32) (some (ascii "truncate")) (noteText (ascii "secret")) = some out ∧
      JsonText out t' ∧ isUtf8 out = true ∧
      t'.plain = (redactTree (redactedForm (fun _ => Block.zero 32) (redactMode (some (ascii "truncate"))))
        (.obj (noteText (ascii "secret")) [(ascii "text", .str (ascii "secret"))])).plain) ↔
    KeepsUtf8 (redactMode (some (ascii "truncate")))
      (.obj (noteText (ascii "secret")) [(ascii "text", .str (ascii "secret"))]) :=
  redaction_preserves_iff (fun _ => Block.zero 32) (by decide) (noteText_document (by decide)) (by decide)

/-- 63 letters and a character of two bytes. -/
def longNote : Bytes := List.replicate 63 97 ++ [195, 169]

/-- The cut leaves the first byte of the character. -/
theorem truncation_breaks_utf8 :
    ¬ ∀ (sha : Bytes → Block 32) (env : Option Bytes) (text : Bytes) (t : Tree), redactMode env ≠ .none →
      JsonText text t → isUtf8 text = true →
      ∃ out t', auditRedactJson sha env text = some out ∧ JsonText out t' ∧ isUtf8 out = true ∧
        t'.plain = (redactTree (redactedForm sha (redactMode env)) t).plain := by
  intro h
  obtain ⟨out, t', hout, -, hutf8, -⟩ := h (fun _ => Block.zero 32) (some (ascii "truncate")) (noteText longNote) _
    (by decide +kernel) (noteText_document (by decide +kernel)) (by decide +kernel)
  have hcut : (auditRedactJson (fun _ => Block.zero 32) (some (ascii "truncate")) (noteText longNote)).any isUtf8 = false := by
    decide +kernel
  rw [hout, Option.any_some, hutf8] at hcut
  cases hcut

end Document

end FractalSQL.Audit
