import FractalSQL.Lib.JsonReader
import FractalSQL.Lib.Strtod

/-!
# The readers of the params object

`json_find_key` walks a text with a counter of its brackets and looks behind every string for a colon.
The value readers take a number token where it points, and hand it to the C library.
-/
namespace FractalSQL.Search
open Lib Lib.Json Lib.JsonGrammar

/-! ### Finding a key -/

/-- The content of a string token and what follows its closing quote; none when it is not terminated. -/
def stringToken : Bytes → Option (Bytes × Bytes)
  | [] => none
  | [92] => none
  | 92 :: b :: s => (stringToken s).map fun r => (92 :: b :: r.1, r.2)
  | b :: s => if b = 34 then some ([], s) else (stringToken s).map fun r => (b :: r.1, r.2)

/-- What follows a colon, if one comes next. -/
def afterColon (s : Bytes) : Option Bytes :=
  match skipBlank s with
  | 58 :: value => some value
  | _ => none

/-- The loop of `json_find_key`: the text from the value of the key on. -/
def findFrom (key : Bytes) : ℕ → ℤ → Bytes → Option Bytes
  | 0, _, _ => none
  | _ + 1, _, [] => none
  | fuel + 1, depth, b :: s =>
    if b = 34 then
      match stringToken s with
      | none => none
      | some (raw, rest) =>
        match (afterColon rest).filter fun _ => depth ≤ 1 with
        | some value => if raw = key then some (skipBlank value) else findFrom key fuel depth value
        | none => findFrom key fuel depth rest
    else if b = 123 ∨ b = 91 then findFrom key fuel (depth + 1) s
    else if b = 125 ∨ b = 93 then findFrom key fuel (depth - 1) s
    else findFrom key fuel depth s

/-- The text from the value of a key on. -/
def valueOf (s key : Bytes) : Option Bytes := findFrom key s.length 0 s

/-- `json_find_key`: the position of the value. -/
def jsonFindKey (s key : Bytes) : Option ℕ := (valueOf s key).map fun rest => s.length - rest.length

/-! ### Number tokens -/

def digitRun (s : Bytes) : ℕ := (s.takeWhile isDigit).length

def signLength (s : Bytes) : ℕ := if s.head? = some 45 ∨ s.head? = some 43 then 1 else 0

/-- The end of a number whose exponent could begin at `j`. -/
def exponentEnd (s : Bytes) (j : ℕ) : ℕ :=
  match s.drop j with
  | [] => j
  | e :: t =>
    if e = 101 ∨ e = 69 then
      let exp := digitRun (t.drop (signLength t))
      if exp = 0 then j else j + 1 + signLength t + exp
    else j

/-- `json_number_end` at the beginning of a text: the length of the token, zero when there is none. -/
def jsonNumberEnd (s : Bytes) : ℕ :=
  let int := digitRun (s.drop (signLength s))
  let intEnd := signLength s + int
  if int = 0 then 0
  else if (s.drop intEnd).head? = some 46 then
    let frac := digitRun (s.drop (intEnd + 1))
    if frac = 0 then intEnd else exponentEnd s (intEnd + 1 + frac)
  else exponentEnd s intEnd

/-- `json_value_delim`. -/
def jsonValueDelim (s : Bytes) : Bool :=
  match s with
  | [] => true
  | c :: _ => isWs c ∨ c = 44 ∨ c = 125 ∨ c = 93

/-! ### Values -/

def intMin : ℤ := -2147483648

def intMax : ℤ := 2147483647

def jsonGetInt (s key : Bytes) (fallback : ℤ) : ℤ :=
  match valueOf s key with
  | none => fallback
  | some v =>
    let n := jsonNumberEnd v
    if n = 0 then fallback
    else if !jsonValueDelim (v.drop n) then fallback
    else if 32 ≤ n then fallback
    else
      match strtoInt (-2 ^ 63) (2 ^ 63 - 1) (v.take n) with
      | none => 0
      | some (x, _) => if intMax < x ∨ x < intMin then fallback else x

def jsonGetU64 (s key : Bytes) (fallback : ℕ) : ℕ :=
  match valueOf s key with
  | none => fallback
  | some v =>
    let n := digitRun v
    if n = 0 then fallback
    else if !jsonValueDelim (v.drop n) then fallback
    else if 32 ≤ n then fallback
    else if 2 ^ 64 ≤ digitsValue (v.take n) then fallback
    else digitsValue (v.take n)

def jsonGetDouble (underflow : ℚ → Bool) (s key : Bytes) (fallback : Signed) : Signed :=
  match valueOf s key with
  | none => fallback
  | some v =>
    let n := jsonNumberEnd v
    if n = 0 then fallback
    else if !jsonValueDelim (v.drop n) then fallback
    else if 64 ≤ n then fallback
    else
      match strtod underflow (v.take n) with
      | none => ⟨false, 0⟩
      | some r => if r.outOfRange then fallback else if !binary64.finite r.value then fallback else r.value

def jsonGetBool (s key : Bytes) (fallback : Bool) : Bool :=
  match valueOf s key with
  | none => fallback
  | some v =>
    if v.take 4 = ascii "true" then true
    else if v.take 5 = ascii "false" then false
    else fallback

def jsonHasKey (s key : Bytes) : Bool := (jsonFindKey s key).isSome

end FractalSQL.Search
