import FractalSQL.Lib.Strtod
import Mathlib.Data.List.DropRight

/-!
# Vectors as text

`parse_vector_csv` reads numbers with `strtod` and skips blanks, commas and brackets between them.
`parse_corpus` cuts a text at semicolons, and within an outer bracket also in front of opening
brackets, and reads every row that is not blank. Buffers can be had and no interrupt is pending.
-/
namespace FractalSQL.Vectors
open Lib

/-! ### One vector -/

/-- `PARSE_MAX_ELEMS`. -/
def maxElems : ℕ := 1048576

def isBlank (b : UInt8) : Bool := b = 32 ∨ b = 9 ∨ b = 10 ∨ b = 13

/-- What stands between numbers. -/
def isFiller (b : UInt8) : Bool := isBlank b ∨ b = 44 ∨ b = 91 ∨ b = 93

/-- The loop of `parse_vector_csv`, with `n` elements read, up to the end of the text. -/
def parseElements (underflow : ℚ → Bool) : ℕ → ℕ → Bytes → Except Bytes (List Signed)
  | 0, _, _ => .ok []
  | fuel + 1, n, p =>
    let p := p.dropWhile isFiller
    if p = [] then .ok []
    else
      match strtod underflow p with
      | none => .error (ascii "fractalsql: invalid number near '" ++ p.take 20 ++ ascii "'")
      | some r =>
        if r.outOfRange then .error (ascii "fractalsql: value out of range")
        else if !binary64.finite r.value then .error (ascii "fractalsql: non-finite vector element")
        else if n = maxElems then .error (ascii "fractalsql: vector exceeds 1048576 elements")
        else (parseElements underflow fuel (n + 1) r.rest).map (r.value :: ·)

/-- The copy of the source ends at its first NUL. -/
def cCopy (src : Bytes) : Bytes := src.takeWhile (· ≠ 0)

def parseVectorCsv (underflow : ℚ → Bool) (src : Bytes) : Except Bytes (List Signed) :=
  match parseElements underflow (cCopy src).length 0 (cCopy src) with
  | .error e => .error e
  | .ok [] => .error (ascii "fractalsql: vector must have at least one element")
  | .ok v => .ok v

/-! ### A corpus -/

def isBlankOrBracket (b : UInt8) : Bool := isBlank b ∨ b = 91 ∨ b = 93

/-- What is trimmed in front of a row, and behind it. -/
def isLead (b : UInt8) : Bool := isBlank b ∨ b = 91

def isTrail (b : UInt8) : Bool := isBlank b ∨ b = 93 ∨ b = 44

def trimRow (s : Bytes) : Bytes := (s.rdropWhile isTrail).dropWhile isLead

/-- The sections of a text: `acc` is what was read of the current one. -/
def cutSections (inBrackets : Bool) : Bytes → Bytes → List Bytes
  | acc, [] => [acc]
  | acc, b :: rest =>
    if b = 59 then acc :: cutSections inBrackets [] rest
    else if inBrackets ∧ b = 91 ∧ acc ≠ [] then acc :: cutSections inBrackets [91] rest
    else cutSections inBrackets (acc ++ [b]) rest

/-- The rows of a corpus, and its dimension. -/
structure Corpus where
  rows : List (List Signed)
  dim : ℕ
deriving DecidableEq

/-- The loop of `parse_corpus`, with `n` rows read. -/
def parseRows (underflow : ℚ → Bool) : ℕ → ℕ → List Bytes → Except Bytes Corpus
  | _, dim, [] => .ok ⟨[], dim⟩
  | n, dim, s :: rest =>
    if trimRow s = [] then parseRows underflow n dim rest
    else
      match parseVectorCsv underflow (trimRow s) with
      | .error e => .error e
      | .ok row =>
        let dim := if dim = 0 then row.length else dim
        if row.length ≠ dim then
          .error (ascii "fractalsql: corpus row " ++ decimal n ++ ascii " has dim " ++ decimal row.length ++
            ascii ", expected " ++ decimal dim)
        else (parseRows underflow (n + 1) dim rest).map fun c => { c with rows := row :: c.rows }

/-- An outer bracket is one with another bracket behind it. -/
def inBrackets (s : Bytes) : Bool := s.head? = some 91 ∧ ((s.drop 1).dropWhile isBlank).head? = some 91

/-- The text without its outer brackets. -/
def corpusBody (s : Bytes) : Bytes :=
  if inBrackets s then
    let s := (s.drop 1).rdropWhile isBlank
    if s.getLast? = some 93 then s.dropLast else s
  else s

def parseCorpus (underflow : ℚ → Bool) (src : Bytes) (expectedDim : ℕ) : Except Bytes Corpus :=
  let s := src.dropWhile isBlank
  if (corpusBody s).all isBlankOrBracket then .ok ⟨[], expectedDim⟩
  else parseRows underflow 0 expectedDim (cutSections (inBrackets s) [] (corpusBody s))

end FractalSQL.Vectors
