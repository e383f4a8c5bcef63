import FractalSQL.Vectors.Parse

/-!
# What a search reads

The query and the corpus of the search entries, with the limits on their sizes.
-/
namespace FractalSQL.Search
open Lib Vectors

/-- `MAX_QUERY_BYTES`, `MAX_CORPUS_BYTES` and `MAX_QUERY_DIM`. -/
def maxQueryBytes : ℕ := 4 * 1024 * 1024

def maxCorpusBytes : ℕ := 256 * 1024 * 1024

def maxQueryDim : ℕ := 1024 * 1024

/-- The query; `none` where the entry sets its error. -/
def readQuery (underflow : ℚ → Bool) (query : Bytes) : Option (List Signed) :=
  if maxQueryBytes < query.length then none
  else
    match parseVectorCsv underflow query with
    | .error _ => none
    | .ok q => if q.length = 0 ∨ maxQueryDim < q.length then none else some q

/-- The corpus for queries of a dimension; one that is missing or empty has no rows. -/
def readCorpus (underflow : ℚ → Bool) (dim : ℕ) : Option Bytes → Option (List (List Signed))
  | none => some []
  | some corpus =>
    if corpus = [] then some []
    else
      match parseCorpus underflow corpus dim with
      | .error _ => none
      | .ok c => if c.rows ≠ [] ∧ c.dim ≠ dim then none else some c.rows

structure Inputs where
  query : List Signed
  corpus : List (List Signed)
deriving DecidableEq

/-- The inputs of `fractal_search` and `fractal_search_explore`. -/
def readInputs (underflow : ℚ → Bool) (corpus : Option Bytes) (query : Bytes) : Option Inputs :=
  if corpus.any fun c => decide (maxCorpusBytes < c.length) then none
  else (readQuery underflow query).bind fun q => (readCorpus underflow q.length corpus).map fun rows => ⟨q, rows⟩

theorem readQuery_dim {underflow : ℚ → Bool} {query : Bytes} {q : List Signed} (h : readQuery underflow query = some q) :
    q.length ≠ 0 ∧ q.length ≤ maxQueryDim := by
  unfold readQuery at h
  split_ifs at h
  cases hparse : parseVectorCsv underflow query with
  | error e =>
    rw [hparse] at h
    cases h
  | ok v =>
    rw [hparse] at h
    dsimp only at h
    split_ifs at h with hdim
    cases h
    omega

end FractalSQL.Search
