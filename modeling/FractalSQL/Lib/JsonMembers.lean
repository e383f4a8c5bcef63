import FractalSQL.Lib.Json

/-!
# Depth and members of JSON tokens

The nesting depth along a list of tokens, the items between the commas of one
level, and the members of an object: the items that begin with a key and a colon.
Two keys are the same member name when their decoded characters are.
-/
namespace FractalSQL.Lib.Json

/-! ### Keys -/

/-- The characters of the two-byte escapes. -/
def escapeChar (b : UInt8) : Option ℕ :=
  if b = 34 ∨ b = 92 ∨ b = 47 then some b.toNat
  else if b = 98 then some 8
  else if b = 102 then some 12
  else if b = 110 then some 10
  else if b = 114 then some 13
  else if b = 116 then some 9
  else none

/-- The characters of a string: an escape stands for the UTF-16 unit it names, any
other byte for itself. `none` when an escape is not one of JSON's. -/
def decode : Bytes → Option (List ℕ)
  | [] => some []
  | [92] => none
  | 92 :: 117 :: a :: b :: c :: d :: raw => do
    let a ← hexValue a
    let b ← hexValue b
    let c ← hexValue c
    let d ← hexValue d
    let rest ← decode raw
    return (4096 * a + 256 * b + 16 * c + d) :: rest
  | 92 :: e :: raw => do
    let c ← escapeChar e
    let rest ← decode raw
    return c :: rest
  | b :: raw => (decode raw).map (b.toNat :: ·)

/-- The raw content of a string spells the given ASCII text. -/
def Spells (raw : Bytes) (name : String) : Prop := decode raw = some (name.toList.map Char.toNat)

instance (raw : Bytes) (name : String) : Decidable (Spells raw name) :=
  inferInstanceAs (Decidable (_ = _))

/-! ### Depth -/

def Token.depth (d : ℕ) : Token → ℕ
  | .opening _ => d + 1
  | .closing _ => d - 1
  | _ => d

def depthAfter (d : ℕ) (ts : List Token) : ℕ := ts.foldl Token.depth d

/-- The greatest depth on the way. -/
def nesting (d : ℕ) : List Token → ℕ
  | [] => d
  | t :: ts => max d (nesting (t.depth d) ts)

@[simp] theorem depthAfter_nil (d : ℕ) : depthAfter d [] = d := rfl

@[simp] theorem depthAfter_cons (d : ℕ) (t : Token) (ts : List Token) :
    depthAfter d (t :: ts) = depthAfter (t.depth d) ts := rfl

theorem depthAfter_append (d : ℕ) (ts us : List Token) :
    depthAfter d (ts ++ us) = depthAfter (depthAfter d ts) us := List.foldl_append

theorem nesting_append (d : ℕ) (ts us : List Token) :
    nesting d (ts ++ us) = max (nesting d ts) (nesting (depthAfter d ts) us) := by
  induction ts generalizing d with
  | nil =>
    have hle : d ≤ nesting d us := by
      cases us with
      | nil => exact le_rfl
      | cons u us => exact le_max_left ..
    rw [List.nil_append, nesting, depthAfter_nil, max_eq_right hle]
  | cons t ts ih => simp [nesting, ih, max_assoc]

/-! ### Items and members -/

def addToFirst (t : Token) : List (List Token) → List (List Token)
  | [] => [[t]]
  | item :: items => (t :: item) :: items

/-- The tokens between the commas at depth zero. -/
def items : ℕ → List Token → List (List Token)
  | _, [] => [[]]
  | d, t :: ts =>
    if t = .comma ∧ d = 0 then [] :: items 0 ts else addToFirst t (items (t.depth d) ts)

def memberOf : List Token → Option (Bytes × List Token)
  | .str key :: .colon :: value => some (key, value)
  | _ => none

/-- The members among the tokens between the braces of an object. -/
def members (body : List Token) : List (Bytes × List Token) := (items 0 body).filterMap memberOf

/-- The members of a value that is an object. -/
def objectMembers : List Token → Option (List (Bytes × List Token))
  | .opening .curly :: ts =>
    if ts.getLast? = some (.closing .curly) then some (members ts.dropLast) else none
  | _ => none

theorem items_ne_nil (d : ℕ) (ts : List Token) : items d ts ≠ [] := by
  cases ts with
  | nil => simp [items]
  | cons t ts =>
    rw [items]
    split
    · simp
    · cases items (t.depth d) ts <;> simp [addToFirst]

theorem addToFirst_append {t : Token} {is js : List (List Token)} (h : is ≠ []) :
    addToFirst t (is ++ js) = addToFirst t is ++ js := by
  cases is with
  | nil => exact absurd rfl h
  | cons i is => rfl

/-- A comma at depth zero separates the items before it from those after it. -/
theorem items_append_comma {d : ℕ} {ts : List Token} (h : depthAfter d ts = 0) (us : List Token) :
    items d (ts ++ .comma :: us) = items d ts ++ items 0 us := by
  induction ts generalizing d with
  | nil =>
    obtain rfl : d = 0 := h
    simp [items]
  | cons t ts ih =>
    rw [List.cons_append, items, items]
    split
    · rename_i hc
      obtain ⟨rfl, rfl⟩ := hc
      have hts : depthAfter 0 ts = 0 := h
      rw [ih hts, List.cons_append]
    · rw [ih h, addToFirst_append (items_ne_nil _ _)]

theorem items_cons {d : ℕ} {t : Token} (h : t ≠ .comma) (ts : List Token) :
    items d (t :: ts) = addToFirst t (items (t.depth d) ts) := by
  rw [items, if_neg fun hc => h hc.1]

theorem members_append_comma {ts : List Token} (h : depthAfter 0 ts = 0) (us : List Token) :
    members (ts ++ .comma :: us) = members ts ++ members us := by
  rw [members, items_append_comma h, List.filterMap_append]
  rfl

@[simp] theorem members_nil : members [] = [] := rfl

/-- One member whose value is a bracketed value. -/
theorem members_single (key : Bytes) {value : List Token} (h : items 0 value = [value]) :
    members (.str key :: .colon :: value) = [(key, value)] := by
  rw [members, items_cons (by simp), items_cons (by simp)]
  simp only [Token.depth, h, addToFirst]
  rfl

theorem objectMembers_braces (body : List Token) :
    objectMembers (.opening .curly :: (body ++ [.closing .curly])) = some (members body) := by
  simp [objectMembers]

end FractalSQL.Lib.Json
