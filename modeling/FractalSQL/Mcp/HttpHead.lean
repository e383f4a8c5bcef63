import FractalSQL.Lib.Lines
import FractalSQL.Lib.Text

/-!
# Reading an HTTP request

`readRequestHead` and `readRequestBody` on a byte stream. The loop over the header lines
ends at an empty line, and in the same way where no further line can be read.
-/
namespace FractalSQL.Mcp.Http
open Lib

/-- `std::tolower` in the C locale. -/
def tolower (b : UInt8) : UInt8 := if 65 ≤ b ∧ b ≤ 90 then b + 32 else b

def lowerCopy (s : Bytes) : Bytes := s.map tolower

def trimBy (p : UInt8 → Bool) (s : Bytes) : Bytes := ((s.dropWhile p).reverse.dropWhile p).reverse

/-- `trimCopy`. -/
def trimCopy (s : Bytes) : Bytes := trimBy (fun b => b = 32 ∨ b = 9 ∨ b = 13 ∨ b = 10) s

/-- The `trim` of `readRequestHead`. -/
def trim (s : Bytes) : Bytes := trimBy (fun b => b = 32 ∨ b = 9) s

structure HttpRequest where
  method : Bytes := []
  target : Bytes := []
  bearer : Bytes := []
  sessionId : Bytes := []
  keepAlive : Bool := true
  contentLength : ℕ := 0
  chunked : Bool := false
  /-- Every header, with a lower-cased name. -/
  headers : Bytes → Option Bytes := fun _ => none
  repeated : List Bytes := []
  path : Bytes := []

/-- `kHeadMax`. -/
def headMax : ℕ := 64 * 1024

/-- The cap of the request line. -/
def requestLineMax : ℕ := 16 * 1024

/-- `kMaxHeaders`. -/
def maxHeaders : ℕ := 100

/-- `kBodyMax`. -/
def bodyMax : ℕ := 32 * 1024 * 1024

/-- The carriage return before a line feed is not part of the line. -/
def dropCr (line : Bytes) : Bytes := if line.getLast? = some 13 then line.dropLast else line

/-- The lambda `readLine`: the line, how many bytes may still be read, and the stream. -/
def readLine (cap : ℕ) : Bytes → ℕ → Bytes → Option Bytes × ℕ × Bytes
  | _, left, [] => (none, left, [])
  | buf, left, b :: s =>
    if cap < buf.length ∨ left = 0 then (none, left, b :: s)
    else if b = 10 then (some (dropCr buf), left - 1, s)
    else readLine cap (buf ++ [b]) (left - 1) s

inductive HeadError where
  /-- Nothing is answered. -/
  | closed
  /-- `malformed`, answered with 400. -/
  | malformed
deriving DecidableEq

/-- `>>` into a string. -/
def nextWord (s : Bytes) : Bytes × Bytes :=
  let s := s.dropWhile isSpace
  (s.takeWhile (fun b => !isSpace b), s.dropWhile fun b => !isSpace b)

/-- The lower-cased name and the value of a line with a colon. -/
def field (line : Bytes) : Option (Bytes × Bytes) :=
  (cutAt 58 line).map fun p => (lowerCopy (trim p.1), trim p.2)

structure Head where
  req : HttpRequest
  sawLength : Bool := false
  sawEncoding : Bool := false

def digitsOk (value : Bytes) : Bool := value ≠ [] && value.length ≤ 12 && value.all isDigit

/-- What a header line does. -/
def Head.add (h : Head) (line : Bytes) : Except HeadError Head :=
  match field line with
  | none => .ok h
  | some (name, value) =>
    let req := { h.req with
      repeated := if (h.req.headers name).isSome then name :: h.req.repeated else h.req.repeated
      headers := Function.update h.req.headers name (some value) }
    if name = ascii "authorization" then
      .ok { h with req := if (ascii "bearer ").isPrefixOf (lowerCopy value) then
        { req with bearer := trimCopy (value.drop 7) } else req }
    else if name = ascii "mcp-session-id" then .ok { h with req := { req with sessionId := value } }
    else if name = ascii "content-length" then
      if h.sawLength || !digitsOk value then .error .malformed
      else .ok { h with req := { req with contentLength := digitsValue value }, sawLength := true }
    else if name = ascii "transfer-encoding" then
      if h.sawEncoding || lowerCopy value ≠ ascii "chunked" then .error .malformed
      else .ok { h with req := { req with chunked := true }, sawEncoding := true }
    else if name = ascii "connection" then
      .ok { h with req := if lowerCopy value = ascii "close" then { req with keepAlive := false } else req }
    else .ok { h with req := req }

/-- The loop over the header lines, of which `n` more are accepted. -/
def headerLoop : ℕ → Head → ℕ → Bytes → Except HeadError (Head × Bytes)
  | n, h, left, s =>
    match readLine headMax [] left s with
    | (none, _, rest) => .ok (h, rest)
    | (some line, left, rest) =>
      if line = [] then .ok (h, rest)
      else
        match n with
        | 0 => .error .closed
        | n + 1 =>
          match h.add line with
          | .error e => .error e
          | .ok h => headerLoop n h left rest

/-- The request and the stream behind its head. -/
def readRequestHead (s : Bytes) : Except HeadError (HttpRequest × Bytes) :=
  match readLine requestLineMax [] headMax s with
  | (none, _, _) => .error .closed
  | (some line, left, s) =>
    let word := nextWord line
    let req : HttpRequest := { method := word.1, target := (nextWord word.2).1 }
    match headerLoop maxHeaders { req } left s with
    | .error e => .error e
    | .ok (h, rest) =>
      if h.sawLength && h.sawEncoding then .error .malformed
      else if h.req.method = [] then .error .closed
      else .ok ({ h.req with path := h.req.target.takeWhile (· ≠ 63) }, rest)

/-- `none` at the end of the stream and over the cap. -/
def readRequestBody (req : HttpRequest) (s : Bytes) : Option Bytes :=
  if 0 < req.contentLength then
    if bodyMax < req.contentLength ∨ s.length < req.contentLength then none else some (s.take req.contentLength)
  else some []

/-- What decides between the head and `handleLine`. -/
structure Gates where
  /-- The request is answered without its body: the shutdown, the path, the Origin, the
  credential. -/
  stops : HttpRequest → Bool
  /-- The body of a POST is handed to `handleLine`. -/
  dispatches : HttpRequest → Bytes → Bool

/-- The body `serveConnection` hands to `handleLine`. -/
def handed (g : Gates) (s : Bytes) : Option Bytes :=
  match readRequestHead s with
  | .error _ => none
  | .ok (req, rest) =>
    if g.stops req || req.chunked then none
    else
      let body := if req.method = ascii "POST" ∨ 0 < req.contentLength then readRequestBody req rest else some []
      body.filter fun b => req.method = ascii "POST" && g.dispatches req b

/-! ### Complete heads -/

/-- The lines of a head without their line feeds; `last` is the empty one. -/
structure HeadText where
  requestLine : Bytes
  lines : List Bytes
  last : Bytes

def HeadText.text (t : HeadText) : Bytes := t.requestLine ++ 10 :: (unlines 10 t.lines ++ (t.last ++ [10]))

def isEmptyLine (line : Bytes) : Bool := dropCr line = []

/-- Header lines are not empty, up to their carriage returns, and the last one is. -/
structure HeadText.Wf (t : HeadText) : Prop where
  requestLine : (10 : UInt8) ∉ t.requestLine
  lines : ∀ l ∈ t.lines, (10 : UInt8) ∉ l ∧ isEmptyLine l = false
  last : (10 : UInt8) ∉ t.last ∧ isEmptyLine t.last = true

/-- The fields of header lines. -/
def fields (lines : List Bytes) : List (Bytes × Bytes) := lines.filterMap fun l => field (dropCr l)

def named (name : String) (lines : List Bytes) : List (Bytes × Bytes) :=
  (fields lines).filter fun f => f.1 = ascii name

def declaredLength (lines : List Bytes) : ℕ :=
  ((named "content-length" lines).head?.map fun f => digitsValue f.2).getD 0

/-- Past its head a stream begins with a complete and unambiguous one, and the body that is
dispatched is what follows it, as long as declared. -/
def OnlyComplete (g : Gates) (s : Bytes) : Prop :=
  ∀ req rest, readRequestHead s = .ok (req, rest) →
    ∃ (t : HeadText) (tail : Bytes), t.Wf ∧ s = t.text ++ tail ∧ t.text.length ≤ headMax ∧
      ((fields t.lines).map Prod.fst).Nodup ∧
      (named "content-length" t.lines).length + (named "transfer-encoding" t.lines).length ≤ 1 ∧
      ∀ body, handed g s = some body →
        declaredLength t.lines ≤ tail.length ∧ body = tail.take (declaredLength t.lines)

/-! ### What is read of a stream -/

/-- The request line and what follows it within the limit. -/
def requestLineOf (s : Bytes) : Option (Bytes × Bytes) :=
  (cutAt 10 (s.take headMax)).filter fun p => p.1.length ≤ requestLineMax

/-- The header lines within the limit, and what follows the empty one. -/
def headersOf (s : Bytes) : List Bytes × Option Bytes :=
  match requestLineOf s with
  | some p => linesUntil 10 isEmptyLine [] p.2
  | none => ([], none)

/-- The request is refused whatever the rest of the stream is. -/
def Refused (s : Bytes) : Prop :=
  (∀ p, requestLineOf s = some p → (dropCr p.1).all isSpace) ∨
    maxHeaders < (headersOf s).1.length ∨
    1 < (named "content-length" (headersOf s).1).length + (named "transfer-encoding" (headersOf s).1).length ∨
    (∃ f ∈ named "content-length" (headersOf s).1, digitsOk f.2 = false) ∨
    (∃ f ∈ named "transfer-encoding" (headersOf s).1, lowerCopy f.2 ≠ ascii "chunked")

/-- An empty line ends the header lines, and none of their names comes twice. -/
def Clear (s : Bytes) : Prop := (headersOf s).2 ≠ none ∧ ((fields (headersOf s).1).map Prod.fst).Nodup

/-! ### Lines -/

theorem readLine_some {cap left : ℕ} {buf s l r : Bytes} (h : cutAt 10 (s.take left) = some (l, r))
    (hcap : (buf ++ l).length ≤ cap) :
    readLine cap buf left s = (some (dropCr (buf ++ l)), left - (l.length + 1), s.drop (l.length + 1)) := by
  induction s generalizing buf left l with
  | nil => simp [cutAt] at h
  | cons b s ih =>
    cases left with
    | zero => simp [cutAt] at h
    | succ left =>
      have hroom : ¬ (cap < buf.length ∨ left + 1 = 0) := by
        rw [List.length_append] at hcap
        omega
      rw [readLine, if_neg hroom]
      rw [List.take_succ_cons, cutAt] at h
      split
      · rename_i hb
        rw [if_pos hb] at h
        cases h
        simp
      · rename_i hb
        rw [if_neg hb] at h
        obtain ⟨⟨l', r'⟩, hcut, heq⟩ := Option.map_eq_some_iff.mp h
        cases heq
        have hcap' : ((buf ++ [b]) ++ l').length ≤ cap := by simpa using hcap
        rw [Nat.add_sub_cancel, ih hcut hcap']
        simp

theorem readLine_none {cap left : ℕ} {buf s : Bytes}
    (h : ∀ l r, cutAt 10 (s.take left) = some (l, r) → cap < (buf ++ l).length) : (readLine cap buf left s).1 = none := by
  induction s generalizing buf left with
  | nil => rfl
  | cons b s ih =>
    rw [readLine]
    split
    · rfl
    · rename_i hroom
      cases left with
      | zero => exact absurd (Or.inr rfl) hroom
      | succ left =>
        split
        · rename_i hb
          have hlong := h [] (s.take left) (by rw [List.take_succ_cons, cutAt, if_pos hb])
          rw [List.append_nil] at hlong
          exact absurd (Or.inl hlong) hroom
        · rename_i hb
          apply ih
          intro l r hcut
          rw [Nat.add_sub_cancel] at hcut
          have hlong := h (b :: l) r (by rw [List.take_succ_cons, cutAt, if_neg hb, hcut]; rfl)
          simpa using hlong

/-- What follows a line within the limit and what follows the limit. -/
theorem drop_line {left : ℕ} {s l r : Bytes} (h : cutAt 10 (s.take left) = some (l, r)) :
    r = (s.drop (l.length + 1)).take (left - (l.length + 1)) ∧ s.drop (l.length + 1) = r ++ s.drop left ∧
      s.drop left = (s.drop (l.length + 1)).drop (left - (l.length + 1)) ∧ l.length < left := by
  have htake := (cutAt_eq_some.mp h).2
  have hlen : l.length + 1 + r.length ≤ left := by
    have hle : (s.take left).length ≤ left := List.length_take_le _ _
    rw [htake, List.length_append, List.length_cons] at hle
    omega
  have hr : r = (s.drop (l.length + 1)).take (left - (l.length + 1)) := by
    have hdrop : (s.take left).drop (l.length + 1) = r := by
      rw [htake, ← List.drop_drop, List.drop_left, List.drop_one, List.tail_cons]
    rw [← hdrop, List.drop_take]
  have hrest : s.drop left = (s.drop (l.length + 1)).drop (left - (l.length + 1)) := by
    rw [List.drop_drop]
    congr 1
    omega
  refine ⟨hr, ?_, hrest, by omega⟩
  rw [hrest]
  conv_rhs => rw [hr]
  exact (List.take_append_drop _ _).symm

/-! ### Fields -/

def Head.addLines (h : Head) (lines : List Bytes) : Except HeadError Head :=
  lines.foldlM (fun h line => h.add (dropCr line)) h

/-- The framing of header lines after the ones a head has seen. -/
structure Head.Framed (h : Head) (lines : List Bytes) : Prop where
  digits : ∀ f ∈ named "content-length" lines, digitsOk f.2 = true
  chunked : ∀ f ∈ named "transfer-encoding" lines, lowerCopy f.2 = ascii "chunked"
  length : (named "content-length" lines).length + h.sawLength.toNat ≤ 1
  encoding : (named "transfer-encoding" lines).length + h.sawEncoding.toNat ≤ 1

/-- What framed header lines make of a head. -/
structure Head.Result (h : Head) (lines : List Bytes) (h' : Head) : Prop where
  method : h'.req.method = h.req.method
  sawLength : h'.sawLength = (h.sawLength || !(named "content-length" lines).isEmpty)
  sawEncoding : h'.sawEncoding = (h.sawEncoding || !(named "transfer-encoding" lines).isEmpty)
  contentLength : h'.req.contentLength =
    ((named "content-length" lines).head?.map fun f => digitsValue f.2).getD h.req.contentLength

theorem named_cons (name : String) (line : Bytes) (lines : List Bytes) :
    named name (line :: lines) =
      ((field (dropCr line)).filter fun f => f.1 = ascii name).toList ++ named name lines := by
  rw [named, named, fields, fields, List.filterMap_cons]
  cases field (dropCr line) with
  | none => rfl
  | some f =>
    by_cases hf : f.1 = ascii name
    · simp [hf, Option.filter]
    · simp [hf, Option.filter]

theorem add_none {h : Head} {line : Bytes} (hline : field line = none) : h.add line = .ok h := by
  rw [Head.add, hline]

theorem add_other {h : Head} {line name value : Bytes} (hline : field line = some (name, value))
    (hlength : name ≠ ascii "content-length") (hencoding : name ≠ ascii "transfer-encoding") :
    ∃ h', h.add line = .ok h' ∧ h'.req.method = h.req.method ∧ h'.sawLength = h.sawLength ∧
      h'.sawEncoding = h.sawEncoding ∧ h'.req.contentLength = h.req.contentLength := by
  rw [Head.add, hline]
  simp only [if_neg hlength, if_neg hencoding]
  split
  · refine ⟨_, rfl, ?_, rfl, rfl, ?_⟩ <;> split <;> rfl
  · split
    · exact ⟨_, rfl, rfl, rfl, rfl, rfl⟩
    · split
      · refine ⟨_, rfl, ?_, rfl, rfl, ?_⟩ <;> split <;> rfl
      · exact ⟨_, rfl, rfl, rfl, rfl, rfl⟩

theorem add_length {h : Head} {line value : Bytes} (hline : field line = some (ascii "content-length", value)) :
    (h.sawLength = true ∨ digitsOk value = false) ∧ h.add line = .error .malformed ∨
      h.sawLength = false ∧ digitsOk value = true ∧ ∃ h', h.add line = .ok h' ∧ h'.req.method = h.req.method ∧
        h'.sawLength = true ∧ h'.sawEncoding = h.sawEncoding ∧ h'.req.contentLength = digitsValue value := by
  have h₁ : ascii "content-length" ≠ ascii "authorization" := by decide
  have h₂ : ascii "content-length" ≠ ascii "mcp-session-id" := by decide
  rw [Head.add, hline]
  simp only [if_neg h₁, if_neg h₂, if_pos]
  cases hsaw : h.sawLength with
  | true => exact .inl ⟨.inl rfl, rfl⟩
  | false =>
    cases hok : digitsOk value with
    | true => exact .inr ⟨rfl, rfl, _, rfl, rfl, rfl, rfl, rfl⟩
    | false => exact .inl ⟨.inr rfl, rfl⟩

theorem add_encoding {h : Head} {line value : Bytes} (hline : field line = some (ascii "transfer-encoding", value)) :
    (h.sawEncoding = true ∨ lowerCopy value ≠ ascii "chunked") ∧ h.add line = .error .malformed ∨
      h.sawEncoding = false ∧ lowerCopy value = ascii "chunked" ∧ ∃ h', h.add line = .ok h' ∧
        h'.req.method = h.req.method ∧ h'.sawLength = h.sawLength ∧ h'.sawEncoding = true ∧
        h'.req.contentLength = h.req.contentLength := by
  have h₁ : ascii "transfer-encoding" ≠ ascii "authorization" := by decide
  have h₂ : ascii "transfer-encoding" ≠ ascii "mcp-session-id" := by decide
  have h₃ : ascii "transfer-encoding" ≠ ascii "content-length" := by decide
  rw [Head.add, hline]
  simp only [if_neg h₁, if_neg h₂, if_neg h₃, if_pos]
  cases hsaw : h.sawEncoding with
  | true => exact .inl ⟨.inl rfl, rfl⟩
  | false =>
    by_cases hok : lowerCopy value = ascii "chunked"
    · refine .inr ⟨rfl, hok, ?_⟩
      simp [hok]
    · refine .inl ⟨.inr hok, ?_⟩
      simp [hok]

theorem Head.addLines_cons (h : Head) (line : Bytes) (lines : List Bytes) :
    h.addLines (line :: lines) = (h.add (dropCr line)).bind fun h' => h'.addLines lines := rfl

/-- A line without framing leaves the framing of the others alone. -/
theorem named_skip {name : String} {line : Bytes} (lines : List Bytes)
    (h : ∀ f, field (dropCr line) = some f → f.1 ≠ ascii name) : named name (line :: lines) = named name lines := by
  rw [named_cons]
  cases hf : field (dropCr line) with
  | none => rfl
  | some f => simp [Option.filter, h f hf]

theorem named_take {name : String} {line : Bytes} {f : Bytes × Bytes} (lines : List Bytes)
    (hf : field (dropCr line) = some f) (h : f.1 = ascii name) : named name (line :: lines) = f :: named name lines := by
  rw [named_cons, hf]
  simp [Option.filter, h]

theorem addLines_spec (lines : List Bytes) (h : Head) :
    (∃ h', h.addLines lines = .ok h' ∧ h.Framed lines ∧ h.Result lines h') ∨
      ∃ e, h.addLines lines = .error e ∧ ¬ h.Framed lines := by
  induction lines generalizing h with
  | nil =>
    refine .inl ⟨h, rfl, ⟨nofun, nofun, ?_, ?_⟩, ⟨rfl, ?_, ?_, rfl⟩⟩
    · cases h.sawLength <;> decide
    · cases h.sawEncoding <;> decide
    · simp [named, fields]
    · simp [named, fields]
  | cons line lines ih =>
    have hpass {h' : Head} (hadd : h.add (dropCr line) = .ok h') (hmethod : h'.req.method = h.req.method)
        (hlen : h'.sawLength = h.sawLength) (henc : h'.sawEncoding = h.sawEncoding)
        (hvalue : h'.req.contentLength = h.req.contentLength)
        (h₁ : named "content-length" (line :: lines) = named "content-length" lines)
        (h₂ : named "transfer-encoding" (line :: lines) = named "transfer-encoding" lines) :
        (∃ h'', h.addLines (line :: lines) = .ok h'' ∧ h.Framed (line :: lines) ∧ h.Result (line :: lines) h'') ∨
          ∃ e, h.addLines (line :: lines) = .error e ∧ ¬ h.Framed (line :: lines) := by
      rw [Head.addLines_cons, hadd]
      obtain ⟨h'', hok, hframed, hresult⟩ | ⟨e, herr, hnot⟩ := ih h'
      · refine .inl ⟨h'', hok, ⟨?_, ?_, ?_, ?_⟩, ⟨?_, ?_, ?_, ?_⟩⟩
        · rw [h₁]
          exact hframed.digits
        · rw [h₂]
          exact hframed.chunked
        · rw [h₁, ← hlen]
          exact hframed.length
        · rw [h₂, ← henc]
          exact hframed.encoding
        · exact hresult.method.trans hmethod
        · rw [h₁, ← hlen]
          exact hresult.sawLength
        · rw [h₂, ← henc]
          exact hresult.sawEncoding
        · rw [h₁, ← hvalue]
          exact hresult.contentLength
      · refine .inr ⟨e, herr, fun hframed => hnot ⟨?_, ?_, ?_, ?_⟩⟩
        · rw [← h₁]
          exact hframed.digits
        · rw [← h₂]
          exact hframed.chunked
        · rw [← h₁, hlen]
          exact hframed.length
        · rw [← h₂, henc]
          exact hframed.encoding
    cases hf : field (dropCr line) with
    | none =>
      have hskip (name : String) : named name (line :: lines) = named name lines :=
        named_skip lines fun f hsome => nomatch hf.symm.trans hsome
      exact hpass (add_none hf) rfl rfl rfl rfl (hskip _) (hskip _)
    | some f =>
      obtain ⟨name, value⟩ := f
      have hskip (other : String) (hne : name ≠ ascii other) : named other (line :: lines) = named other lines := by
        apply named_skip
        rintro g hg
        cases hf.symm.trans hg
        exact hne
      by_cases hlength : name = ascii "content-length"
      · subst hlength
        have htake := named_take lines hf rfl
        have henc := hskip "transfer-encoding" (by decide)
        obtain ⟨hbad, herr⟩ | ⟨hsaw, hdigits, h', hadd, hmethod, hlen, hsame, hvalue⟩ := add_length hf
        · refine .inr ⟨.malformed, by rw [Head.addLines_cons, herr]; rfl, fun hframed => ?_⟩
          rcases hbad with hsaw | hdigits
          · have hcount := hframed.length
            rw [htake, hsaw, List.length_cons] at hcount
            simp at hcount
          · have hok := hframed.digits _ (by rw [htake]; exact List.mem_cons_self ..)
            rw [hdigits] at hok
            cases hok
        · rw [Head.addLines_cons, hadd]
          obtain ⟨h'', hok, hframed, hresult⟩ | ⟨e, herr, hnot⟩ := ih h'
          · have hcount := hframed.length
            rw [hlen] at hcount
            have hnil : named "content-length" lines = [] := by
              apply List.eq_nil_of_length_eq_zero
              simp at hcount
              simpa using hcount
            refine .inl ⟨h'', hok, ⟨?_, ?_, ?_, ?_⟩, ⟨?_, ?_, ?_, ?_⟩⟩
            · rw [htake, hnil]
              intro f hmem
              cases List.mem_singleton.mp hmem
              exact hdigits
            · rw [henc]
              exact hframed.chunked
            · rw [htake, hnil, hsaw]
              exact Nat.le_refl 1
            · rw [henc, ← hsame]
              exact hframed.encoding
            · exact hresult.method.trans hmethod
            · rw [hresult.sawLength, hlen, htake]
              simp
            · rw [hresult.sawEncoding, hsame, henc]
            · rw [hresult.contentLength, hnil, htake, hvalue]
              rfl
          · refine .inr ⟨e, herr, fun hframed => hnot ⟨?_, ?_, ?_, ?_⟩⟩
            · intro f hmem
              exact hframed.digits f (by rw [htake]; exact List.mem_cons_of_mem _ hmem)
            · rw [← henc]
              exact hframed.chunked
            · have hcount := hframed.length
              rw [htake, hsaw, List.length_cons] at hcount
              rw [hlen]
              exact hcount
            · rw [← henc, hsame]
              exact hframed.encoding
      · by_cases hencoding : name = ascii "transfer-encoding"
        · subst hencoding
          have htake := named_take lines hf rfl
          have hlen := hskip "content-length" (by decide)
          obtain ⟨hbad, herr⟩ | ⟨hsaw, hchunked, h', hadd, hmethod, hsame, henc, hvalue⟩ := add_encoding hf
          · refine .inr ⟨.malformed, by rw [Head.addLines_cons, herr]; rfl, fun hframed => ?_⟩
            rcases hbad with hsaw | hother
            · have hcount := hframed.encoding
              rw [htake, hsaw, List.length_cons] at hcount
              simp at hcount
            · exact hother (hframed.chunked _ (by rw [htake]; exact List.mem_cons_self ..))
          · rw [Head.addLines_cons, hadd]
            obtain ⟨h'', hok, hframed, hresult⟩ | ⟨e, herr, hnot⟩ := ih h'
            · have hcount := hframed.encoding
              rw [henc] at hcount
              have hnil : named "transfer-encoding" lines = [] := by
                apply List.eq_nil_of_length_eq_zero
                simp at hcount
                simpa using hcount
              refine .inl ⟨h'', hok, ⟨?_, ?_, ?_, ?_⟩, ⟨?_, ?_, ?_, ?_⟩⟩
              · rw [hlen]
                exact hframed.digits
              · rw [htake, hnil]
                intro f hmem
                cases List.mem_singleton.mp hmem
                exact hchunked
              · rw [hlen, ← hsame]
                exact hframed.length
              · rw [htake, hnil, hsaw]
                exact Nat.le_refl 1
              · exact hresult.method.trans hmethod
              · rw [hresult.sawLength, hsame, hlen]
              · rw [hresult.sawEncoding, henc, htake]
                simp
              · rw [hresult.contentLength, hlen, hvalue]
            · refine .inr ⟨e, herr, fun hframed => hnot ⟨?_, ?_, ?_, ?_⟩⟩
              · rw [← hlen]
                exact hframed.digits
              · intro f hmem
                exact hframed.chunked f (by rw [htake]; exact List.mem_cons_of_mem _ hmem)
              · rw [← hlen, hsame]
                exact hframed.length
              · have hcount := hframed.encoding
                rw [htake, hsaw, List.length_cons] at hcount
                rw [henc]
                exact hcount
        · obtain ⟨h', hadd, hmethod, hlen, henc, hvalue⟩ := add_other hf hlength hencoding
          exact hpass hadd hmethod hlen henc hvalue (hskip _ hlength) (hskip _ hencoding)

/-! ### Heads -/

theorem headerLoop_open (n : ℕ) (h : Head) {left : ℕ} {s : Bytes} (hcut : cutAt 10 (s.take left) = none) :
    ∃ rest, headerLoop n h left s = .ok (h, rest) := by
  have hnone : (readLine headMax [] left s).1 = none := readLine_none fun l r h => nomatch hcut.symm.trans h
  refine ⟨(readLine headMax [] left s).2.2, ?_⟩
  rw [headerLoop]
  split
  · rename_i heq
    rw [heq]
  · rename_i heq
    rw [heq] at hnone
    cases hnone

theorem headerLoop_line (n : ℕ) (h : Head) {left : ℕ} {s l r : Bytes} (hcut : cutAt 10 (s.take left) = some (l, r))
    (hleft : left ≤ headMax) :
    headerLoop n h left s =
      if dropCr l = [] then .ok (h, s.drop (l.length + 1))
      else match n with
        | 0 => .error .closed
        | n + 1 =>
          match h.add (dropCr l) with
          | .error e => .error e
          | .ok h => headerLoop n h (left - (l.length + 1)) (s.drop (l.length + 1)) := by
  have hlt := (drop_line hcut).2.2.2
  have hread := @readLine_some headMax left [] s l r hcut (by rw [List.nil_append]; omega)
  rw [headerLoop, hread]
  rfl

/-- What the loop over the header lines makes of the lines it can read. -/
theorem headerLoop_spec (n : ℕ) (h : Head) {left : ℕ} (s : Bytes) (hleft : left ≤ headMax) :
    (∃ h' rest, headerLoop n h left s = .ok (h', rest) ∧
      (linesUntil 10 isEmptyLine [] (s.take left)).1.length ≤ n ∧
      h.addLines (linesUntil 10 isEmptyLine [] (s.take left)).1 = .ok h' ∧
      ∀ tail, (linesUntil 10 isEmptyLine [] (s.take left)).2 = some tail → rest = tail ++ s.drop left) ∨
    ∃ e, headerLoop n h left s = .error e ∧
      (n < (linesUntil 10 isEmptyLine [] (s.take left)).1.length ∨
        ∃ e', h.addLines (linesUntil 10 isEmptyLine [] (s.take left)).1 = .error e') := by
  induction n generalizing h left s with
  | zero =>
    cases hcut : cutAt 10 (s.take left) with
    | none =>
      obtain ⟨rest, hloop⟩ := headerLoop_open 0 h hcut
      rw [linesUntil_open _ (cutAt_eq_none.mp hcut)]
      exact .inl ⟨h, rest, hloop, Nat.le_refl 0, rfl, nofun⟩
    | some p =>
      obtain ⟨l, r⟩ := p
      obtain ⟨hl, hs⟩ := cutAt_eq_some.mp hcut
      rw [headerLoop_line 0 h hcut hleft, hs, linesUntil_cut _ hl, List.nil_append]
      by_cases hempty : dropCr l = []
      · rw [if_pos hempty, if_pos (by simpa [isEmptyLine] using hempty)]
        refine .inl ⟨h, _, rfl, Nat.le_refl 0, rfl, fun tail htail => ?_⟩
        cases htail
        exact (drop_line hcut).2.1
      · rw [if_neg hempty, if_neg (by simpa [isEmptyLine] using hempty)]
        exact .inr ⟨_, rfl, .inl (Nat.succ_pos _)⟩
  | succ n ih =>
    cases hcut : cutAt 10 (s.take left) with
    | none =>
      obtain ⟨rest, hloop⟩ := headerLoop_open (n + 1) h hcut
      rw [linesUntil_open _ (cutAt_eq_none.mp hcut)]
      exact .inl ⟨h, rest, hloop, Nat.zero_le _, rfl, nofun⟩
    | some p =>
      obtain ⟨l, r⟩ := p
      obtain ⟨hl, hs⟩ := cutAt_eq_some.mp hcut
      obtain ⟨hr, hdrop, hrest, hlt⟩ := drop_line hcut
      rw [headerLoop_line (n + 1) h hcut hleft, hs, linesUntil_cut _ hl, List.nil_append]
      by_cases hempty : dropCr l = []
      · rw [if_pos hempty, if_pos (by simpa [isEmptyLine] using hempty)]
        refine .inl ⟨h, _, rfl, Nat.zero_le _, rfl, fun tail htail => ?_⟩
        cases htail
        exact hdrop
      · rw [if_neg hempty, if_neg (by simpa [isEmptyLine] using hempty)]
        cases hadd : h.add (dropCr l) with
        | error e =>
          refine .inr ⟨e, rfl, .inr ⟨e, ?_⟩⟩
          rw [Head.addLines_cons, hadd]
          rfl
        | ok h' =>
          have hih := @ih h' (left - (l.length + 1)) (s.drop (l.length + 1)) (by omega)
          rw [← hr, ← hrest] at hih
          obtain ⟨h'', rest, hloop, hlen, hfold, htail⟩ | ⟨e, herr, hbad⟩ := hih
          · refine .inl ⟨h'', rest, hloop, Nat.succ_le_succ hlen, ?_, htail⟩
            rw [Head.addLines_cons, hadd]
            exact hfold
          · refine .inr ⟨e, herr, ?_⟩
            obtain hlong | ⟨e', hfold⟩ := hbad
            · exact .inl (Nat.succ_lt_succ hlong)
            · refine .inr ⟨e', ?_⟩
              rw [Head.addLines_cons, hadd]
              exact hfold

theorem nextWord_eq_nil (s : Bytes) : (nextWord s).1 = [] ↔ s.all isSpace = true := by
  rw [nextWord]
  induction s with
  | nil => simp
  | cons b s ih =>
    cases hb : isSpace b with
    | true => simpa [hb] using ih
    | false => simp [hb]

/-- The head is taken where it is not refused, and then it has the declared length. -/
theorem readRequestHead_spec (s : Bytes) :
    (∃ req rest, readRequestHead s = .ok (req, rest) ∧ ¬ Refused s ∧
      req.contentLength = declaredLength (headersOf s).1 ∧
      ∀ tail, (headersOf s).2 = some tail → rest = tail ++ s.drop headMax) ∨
    ∃ e, readRequestHead s = .error e ∧ Refused s := by
  cases hline : requestLineOf s with
  | none =>
    have hnone : (readLine requestLineMax [] headMax s).1 = none := by
      apply readLine_none
      intro l r hcut
      rw [requestLineOf, hcut, Option.filter] at hline
      split at hline
      · cases hline
      · rename_i hlong
        simpa using hlong
    refine .inr ⟨.closed, ?_, .inl fun p hp => nomatch hline.symm.trans hp⟩
    rw [readRequestHead]
    split
    · rfl
    · rename_i heq
      rw [heq] at hnone
      cases hnone
  | some p =>
    obtain ⟨l, r⟩ := p
    obtain ⟨hcut, hcap⟩ := Option.filter_eq_some_iff.mp hline
    obtain ⟨hr, hdrop, hrest, hlt⟩ := drop_line hcut
    have hread := @readLine_some requestLineMax headMax [] s l r hcut (by simpa using hcap)
    rw [List.nil_append] at hread
    have hheaders : headersOf s = linesUntil 10 isEmptyLine [] r := by
      rw [headersOf, hline]
    obtain ⟨start, hstart⟩ : ∃ start : Head, start =
        { req := { method := (nextWord (dropCr l)).1, target := (nextWord (nextWord (dropCr l)).2).1 } } := ⟨_, rfl⟩
    have hspec := @headerLoop_spec maxHeaders start (headMax - (l.length + 1)) (s.drop (l.length + 1)) (Nat.sub_le _ _)
    rw [← hr, ← hrest, ← hheaders] at hspec
    have hmethod : (∀ p, requestLineOf s = some p → (dropCr p.1).all isSpace) ↔ start.req.method = [] := by
      rw [hstart, nextWord_eq_nil, hline]
      simp
    have hhead : readRequestHead s = match headerLoop maxHeaders start (headMax - (l.length + 1)) (s.drop (l.length + 1)) with
        | .error e => .error e
        | .ok (h, rest) =>
          if h.sawLength && h.sawEncoding then .error .malformed
          else if h.req.method = [] then .error .closed
          else .ok ({ h.req with path := h.req.target.takeWhile (· ≠ 63) }, rest) := by
      rw [readRequestHead, hread, hstart]
    have hlength : start.sawLength = false := by rw [hstart]
    have hencoding : start.sawEncoding = false := by rw [hstart]
    have hzero : start.req.contentLength = 0 := by rw [hstart]
    rw [hhead]
    obtain ⟨h', rest, hloop, hlen, hfold, htail⟩ | ⟨e, herr, hbad⟩ := hspec
    · rw [hloop]
      obtain ⟨h'', hok, hframed, hresult⟩ | ⟨e, herr, -⟩ := addLines_spec (headersOf s).1 start
      · cases hfold.symm.trans hok
        simp only [hresult.sawLength, hresult.sawEncoding, hresult.method, hlength, hencoding, Bool.false_or]
        by_cases hboth : named "content-length" (headersOf s).1 ≠ [] ∧ named "transfer-encoding" (headersOf s).1 ≠ []
        · refine .inr ⟨.malformed, ?_, .inr (.inr (.inl ?_))⟩
          · rw [if_pos (by simpa using hboth)]
          · have h₁ := List.length_pos_iff.mpr hboth.1
            have h₂ := List.length_pos_iff.mpr hboth.2
            omega
        · rw [if_neg (by simpa using hboth)]
          by_cases hnil : start.req.method = []
          · rw [if_pos hnil]
            exact .inr ⟨.closed, rfl, .inl (hmethod.mpr hnil)⟩
          · rw [if_neg hnil]
            refine .inl ⟨_, rest, rfl, ?_, ?_, htail⟩
            · have h₁ := hframed.length
              have h₂ := hframed.encoding
              rw [hlength] at h₁
              rw [hencoding] at h₂
              rintro (hblank | hlong | hmany | ⟨f, hf, hdigits⟩ | ⟨f, hf, hchunked⟩)
              · exact hnil (hmethod.mp hblank)
              · omega
              · apply hboth
                rw [← List.length_pos_iff, ← List.length_pos_iff]
                simp only [Bool.toNat_false, Nat.add_zero] at h₁ h₂
                omega
              · rw [hframed.digits f hf] at hdigits
                cases hdigits
              · exact hchunked (hframed.chunked f hf)
            · rw [declaredLength, ← hzero]
              exact hresult.contentLength
      · cases hfold.symm.trans herr
    · rw [herr]
      refine .inr ⟨e, rfl, ?_⟩
      obtain hlong | ⟨e', hfold⟩ := hbad
      · exact .inr (.inl hlong)
      · obtain ⟨h', hok, -⟩ | ⟨-, -, hnot⟩ := addLines_spec (headersOf s).1 start
        · cases hfold.symm.trans hok
        · by_contra hrefused
          simp only [Refused, not_or, not_lt, not_exists, not_and, Bool.not_eq_false, not_not] at hrefused
          obtain ⟨-, -, hmany, hdigits, hchunked⟩ := hrefused
          refine hnot ⟨hdigits, hchunked, ?_, ?_⟩
          · rw [hlength, Bool.toNat_false]
            omega
          · rw [hencoding, Bool.toNat_false]
            omega

theorem cutAt_text {t : HeadText} (hwf : t.Wf) (tail : Bytes) (hlen : t.text.length ≤ headMax) :
    cutAt 10 ((t.text ++ tail).take headMax) = some (t.requestLine,
      unlines 10 t.lines ++ (t.last ++ 10 :: tail.take (headMax - t.text.length))) := by
  rw [cutAt_eq_some, List.take_append, List.take_of_length_le hlen]
  refine ⟨hwf.requestLine, ?_⟩
  simp [HeadText.text]

/-- The lines of a stream that begins with a complete head are its own. -/
theorem headersOf_text {t : HeadText} (hwf : t.Wf) (tail : Bytes) (hlen : t.text.length ≤ headMax)
    (hline : t.requestLine.length ≤ requestLineMax) :
    headersOf (t.text ++ tail) = (t.lines, some (tail.take (headMax - t.text.length))) := by
  rw [headersOf, requestLineOf, cutAt_text hwf tail hlen, Option.filter, if_pos (by simpa using hline)]
  exact linesUntil_unlines _ hwf.lines hwf.last _

/-- What a stream begins with when an empty line ends its header lines. -/
theorem text_of_headersOf {s tail : Bytes} (h : (headersOf s).2 = some tail) :
    ∃ t : HeadText, t.Wf ∧ t.lines = (headersOf s).1 ∧ s = t.text ++ (tail ++ s.drop headMax) ∧
      t.text.length ≤ headMax := by
  rw [headersOf] at h ⊢
  cases hline : requestLineOf s with
  | none =>
    rw [hline] at h
    cases h
  | some p =>
    rw [hline] at h
    obtain ⟨hcut, -⟩ := Option.filter_eq_some_iff.mp hline
    obtain ⟨hl, hs⟩ := cutAt_eq_some.mp (show cutAt 10 (s.take headMax) = some (p.1, p.2) from hcut)
    obtain ⟨hlines, hend⟩ := @linesUntil_cases _ _ (10 : UInt8) isEmptyLine p.2
    obtain ⟨e, hsep, he, heq⟩ := hend tail h
    have htake : s.take headMax = (HeadText.mk p.1 (linesUntil 10 isEmptyLine [] p.2).1 e).text ++ tail := by
      rw [hs]
      conv_lhs => rw [heq]
      simp [HeadText.text]
    refine ⟨⟨p.1, _, e⟩, ⟨hl, hlines, hsep, he⟩, rfl, ?_, ?_⟩
    · rw [← List.append_assoc, ← htake, List.take_append_drop]
    · have hle : (s.take headMax).length ≤ headMax := List.length_take_le _ _
      rw [htake, List.length_append] at hle
      exact (Nat.le_add_right _ _).trans hle

/-- The body that is handed on is what follows the head, as long as declared. -/
theorem handed_body {g : Gates} {s rest body : Bytes} {req : HttpRequest} (hhead : readRequestHead s = .ok (req, rest))
    (hbody : handed g s = some body) : req.contentLength ≤ rest.length ∧ body = rest.take req.contentLength := by
  rw [handed, hhead] at hbody
  simp only at hbody
  split at hbody
  · cases hbody
  · obtain ⟨hread, hpost⟩ := Option.filter_eq_some_iff.mp hbody
    simp only [Bool.and_eq_true, decide_eq_true_eq] at hpost
    rw [if_pos (.inl hpost.1), readRequestBody] at hread
    split at hread
    · split at hread
      · cases hread
      · rename_i hroom
        cases hread
        exact ⟨by omega, rfl⟩
    · rename_i hzero
      cases hread
      have hlen : req.contentLength = 0 := by omega
      rw [hlen]
      exact ⟨Nat.zero_le _, rfl⟩

/-- A stream that is read past its head as claimed has a complete head without a repeated
name. -/
theorem OnlyComplete.clear {g : Gates} {s rest : Bytes} {req : HttpRequest} (h : OnlyComplete g s)
    (hhead : readRequestHead s = .ok (req, rest)) : Clear s := by
  obtain ⟨-, -, -, hnot, -⟩ | ⟨e, herr, -⟩ := readRequestHead_spec s
  · obtain ⟨t, tail, hwf, hs, hlen, hnodup, -, -⟩ := h req rest hhead
    have hline : t.requestLine.length ≤ requestLineMax := by
      by_contra hlong
      apply hnot
      refine .inl fun p hp => ?_
      obtain ⟨hcut, hcap⟩ := Option.filter_eq_some_iff.mp hp
      rw [hs, cutAt_text hwf tail hlen] at hcut
      cases hcut
      exact absurd (of_decide_eq_true hcap) hlong
    rw [hs, Clear, headersOf_text hwf tail hlen hline]
    exact ⟨nofun, hnodup⟩
  · cases herr.symm.trans hhead

/-- Exactly the streams whose head is refused or complete and without a repeated name. -/
theorem onlyComplete_iff (g : Gates) (s : Bytes) : OnlyComplete g s ↔ Refused s ∨ Clear s := by
  obtain ⟨req, rest, hhead, hnot, hlength, htail⟩ | ⟨e, herr, hrefused⟩ := readRequestHead_spec s
  · constructor
    · intro h
      exact .inr (h.clear hhead)
    · rintro (hrefused | ⟨hended, hnodup⟩)
      · exact absurd hrefused hnot
      · obtain ⟨tail, htl⟩ := Option.ne_none_iff_exists'.mp hended
        obtain ⟨t, hwf, hlines, hs, hlen⟩ := text_of_headersOf htl
        intro req' rest' hhead'
        cases hhead.symm.trans hhead'
        refine ⟨t, tail ++ s.drop headMax, hwf, hs, hlen, hlines ▸ hnodup, ?_, fun body hbody => ?_⟩
        · rw [hlines]
          by_contra hmany
          exact hnot (.inr (.inr (.inl (by omega))))
        · have hgot := handed_body hhead hbody
          rw [hlength, htail tail htl] at hgot
          rw [hlines]
          exact hgot
  · constructor
    · intro _
      exact .inl hrefused
    · intro _ req rest hhead
      cases herr.symm.trans hhead

/-- A head that is cut before its empty line. -/
def cutHead : Bytes := ascii "POST /mcp\nAuthorization: Bearer t\n"

/-- A head with two values for a name. -/
def repeatedHead : Bytes := ascii "POST /mcp\nOrigin: a\nOrigin: b\n\n"

/-- Every body is handed over. -/
def openGates : Gates := ⟨fun _ => false, fun _ _ => true⟩

theorem incomplete_heads_accepted : ¬ OnlyComplete openGates cutHead ∧ ¬ OnlyComplete openGates repeatedHead := by
  have haccepted : (readRequestHead cutHead).isOk ∧ (readRequestHead repeatedHead).isOk := by
    decide +kernel
  have hcut : (headersOf cutHead).2 = none := by
    decide +kernel
  have hrepeated : ¬ ((fields (headersOf repeatedHead).1).map Prod.fst).Nodup := by
    decide +kernel
  constructor
  · intro h
    cases hhead : readRequestHead cutHead with
    | error e =>
      rw [hhead] at haccepted
      exact nomatch haccepted.1
    | ok p => exact (h.clear hhead).1 hcut
  · intro h
    cases hhead : readRequestHead repeatedHead with
    | error e =>
      rw [hhead] at haccepted
      exact nomatch haccepted.2
    | ok p => exact hrepeated (h.clear hhead).2

end FractalSQL.Mcp.Http
