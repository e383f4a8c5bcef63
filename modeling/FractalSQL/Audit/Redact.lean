import FractalSQL.Audit.Log
import FractalSQL.Lib.JsonGrammar

/-!
# `fsql_audit_redact_json`

The copy of a record that is stored when `FSQL_AUDIT_REDACT` asks for redaction: the
document is walked, and the strings and containers under the sensitive keys are
replaced. The text is a C string, so its end reads as a zero byte. No allocation fails.
-/
namespace FractalSQL.Audit
open Lib Lib.Json

inductive RedactMode where
  | none
  | hash
  | truncate
deriving DecidableEq

def lowerByte (b : UInt8) : UInt8 := if 65 ≤ b ∧ b ≤ 90 then b + 32 else b

/-- `fsql_str_eq_ci`. -/
def strEqCi : Bytes → Bytes → Bool
  | a :: s, b :: t => lowerByte a = lowerByte b && strEqCi s t
  | [], [] => true
  | _, _ => false

/-- `fsql_audit_redact_mode`, of the value of `FSQL_AUDIT_REDACT`. -/
def redactMode (env : Option Bytes) : RedactMode :=
  match env with
  | none => .none
  | some e =>
    if e = [] then .none
    else if strEqCi e (ascii "hash") then .hash
    else if strEqCi e (ascii "truncate") then .truncate
    else .none

/-- `FSQL_AUDIT_REDACT_MAX`. -/
def redactMax : ℕ := 128

/-- `FSQL_AUDIT_REDACT_TRUNCATE_CHARS`. -/
def truncateChars : ℕ := 64

/-- What the hash mode prints. -/
def hashText (digest : Block 32) (n : ℕ) : Bytes :=
  ascii "sha256:" ++ (hexEncode digest.val ++ (ascii " len=" ++ decimal n))

section Text

variable (sha : Bytes → Block 32)

/-- The hash form of a text; its length is printed as an `unsigned long long`. -/
def fingerprint (s : Bytes) : Bytes := hashText (sha s) (s.length % 2 ^ 64)

/-- `fsql_audit_redact_bytes` into a buffer of `cap` bytes; `none` when the result does not fit. -/
def auditRedactBytes (mode : RedactMode) (s : Bytes) (cap : ℕ) : Option Bytes :=
  if cap = 0 then none
  else match mode with
    | .truncate =>
      let keep := if truncateChars < s.length then truncateChars else s.length
      if cap < keep + 1 then none else some (s.take keep)
    | .hash => if cap ≤ (fingerprint sha s).length then none else some (fingerprint sha s)
    | .none => if cap < s.length + 1 then none else some s

end Text

/-! ### Spans -/

/-- `fsql_json_skip_ws`. -/
def skipWs (p : Bytes) : Bytes := p.dropWhile isWs

/-- The loop of `fsql_json_string_span`: the content up to the closing quote, and what follows. -/
@[simp] def stringContent : Bytes → Option (Bytes × Bytes)
  | [] => none
  | [92] => none
  | 92 :: b :: p => (stringContent p).map fun (raw, rest) => (92 :: b :: raw, rest)
  | b :: p => if b = 34 then some ([], p) else (stringContent p).map fun (raw, rest) => (b :: raw, rest)

/-- `fsql_json_string_span`. -/
def stringSpan (p : Bytes) : Option (Bytes × Bytes) := if p.head? = some 34 then stringContent p.tail else none

theorem stringContent_length {p raw rest : Bytes} (h : stringContent p = some (raw, rest)) :
    rest.length < p.length := by
  fun_induction stringContent p generalizing raw with
  | case1 => cases h
  | case2 => cases h
  | case3 b p ih =>
    obtain ⟨⟨raw', rest'⟩, hsome, heq⟩ := Option.map_eq_some_iff.mp h
    cases heq
    have := ih hsome
    simp only [List.length_cons]
    omega
  | case4 p =>
    cases h
    exact Nat.lt_succ_self _
  | case5 b p _ _ hquote ih =>
    obtain ⟨⟨raw', rest'⟩, hsome, heq⟩ := Option.map_eq_some_iff.mp h
    cases heq
    have := ih hsome
    simp only [List.length_cons]
    omega

theorem stringSpan_length {p raw rest : Bytes} (h : stringSpan p = some (raw, rest)) : rest.length < p.length := by
  unfold stringSpan at h
  split_ifs at h
  have := stringContent_length h
  rw [List.length_tail] at this
  omega

/-- The bracket counter of `fsql_json_value_span`: the position past the bracket that
closes the first one. Brackets of the other kind are not counted. -/
def bracketSpan (op cl : UInt8) (depth : ℕ) (p : Bytes) : Option Bytes :=
  match p with
  | [] => none
  | b :: rest =>
    if b = 34 then
      match h : stringSpan (b :: rest) with
      | none => none
      | some (_, after) =>
        have := stringSpan_length h
        bracketSpan op cl depth after
    else if b = op then bracketSpan op cl (depth + 1) rest
    else if b = cl then
      if depth - 1 = 0 then some rest else bracketSpan op cl (depth - 1) rest
    else bracketSpan op cl depth rest
termination_by p.length
decreasing_by all_goals simp_all

/-- The bytes that continue a number. -/
def numberByte (b : UInt8) : Bool := b ∈ ascii "+-.eE" ∨ isDigit b

/-- What `fsql_json_value_span` finds: the value as written, and what follows it. -/
structure Span where
  raw : Bytes
  isString : Bool
  rest : Bytes

/-- The bytes from `p` to the position `rest` in it. -/
def upTo (p rest : Bytes) : Bytes := p.take (p.length - rest.length)

/-- `fsql_json_value_span`. -/
def valueSpan (p : Bytes) : Option Span :=
  let p := skipWs p
  if p.head? = some 34 then (stringSpan p).map fun (_, rest) => ⟨upTo p rest, true, rest⟩
  else if p.head? = some 123 then (bracketSpan 123 125 0 p).map fun rest => ⟨upTo p rest, false, rest⟩
  else if p.head? = some 91 then (bracketSpan 91 93 0 p).map fun rest => ⟨upTo p rest, false, rest⟩
  else if (ascii "true").isPrefixOf p ∨ (ascii "null").isPrefixOf p then some ⟨p.take 4, false, p.drop 4⟩
  else if (ascii "false").isPrefixOf p then some ⟨p.take 5, false, p.drop 5⟩
  else if p.head?.any fun b => b = 45 ∨ isDigit b then
    some ⟨p.takeWhile numberByte, false, p.dropWhile numberByte⟩
  else none

def sensitiveKeys : List Bytes :=
  ["question", "questions", "generated_sql", "sql", "analysis", "reason", "rationale", "explanation", "answer",
    "result", "results", "result_json", "rows", "row", "value", "text", "note", "notes", "summary", "content",
    "prompt", "context", "objective", "payload", "data"].map ascii

/-- `fsql_json_key_is_sensitive`, of the key as written. -/
def keyIsSensitive (key : Bytes) : Bool := sensitiveKeys.contains key

/-! ### The text of a string -/

/-- `fsql_ab_put_json_string`; the escapes are those of `ent_json_escape`. -/
def putJsonString (s : Bytes) : Bytes := 34 :: (jsonEscape s ++ [34])

/-- The low half of a surrogate pair, written as an escape right behind the high one. -/
def lowSurrogate : Bytes → Option ℕ
  | 92 :: 117 :: a :: b :: c :: d :: _ => (JsonGrammar.hex4 a b c d).filter fun lo => 0xDC00 ≤ lo ∧ lo ≤ 0xDFFF
  | _ => none

/-- `fsql_json_unescape_dup`; `none` when the text is malformed. -/
@[simp] def unescapeDup : Bytes → Option Bytes
  | [] => some []
  | [92] => none
  | 92 :: 34 :: s => (unescapeDup s).map (34 :: ·)
  | 92 :: 92 :: s => (unescapeDup s).map (92 :: ·)
  | 92 :: 47 :: s => (unescapeDup s).map (47 :: ·)
  | 92 :: 98 :: s => (unescapeDup s).map (8 :: ·)
  | 92 :: 102 :: s => (unescapeDup s).map (12 :: ·)
  | 92 :: 110 :: s => (unescapeDup s).map (10 :: ·)
  | 92 :: 114 :: s => (unescapeDup s).map (13 :: ·)
  | 92 :: 116 :: s => (unescapeDup s).map (9 :: ·)
  | 92 :: 117 :: a :: b :: c :: d :: s =>
    match JsonGrammar.hex4 a b c d with
    | none => none
    | some cp =>
      match if 0xD800 ≤ cp ∧ cp ≤ 0xDBFF then lowSurrogate s else none with
      | some lo => (unescapeDup (s.drop 6)).map (JsonGrammar.utf8Encode (JsonGrammar.paired cp lo) ++ ·)
      | none => (unescapeDup s).map (JsonGrammar.utf8Encode cp ++ ·)
  | 92 :: _ :: _ => none
  | c :: s => (unescapeDup s).map (c :: ·)
termination_by s => s.length

section Walk

variable (sha : Bytes → Block 32) (mode : RedactMode)

/-- `fsql_json_emit_redacted`. A decoded text is measured with `strlen`. -/
def emitRedacted (text : Bytes) (isString : Bool) : Bytes :=
  let t := if isString then
      match unescapeDup text with
      | some d => cString d
      | none => text
    else text
  match auditRedactBytes sha mode t redactMax with
  | some red => putJsonString (cString red)
  | none => putJsonString t

def closer (op : UInt8) : UInt8 := if op = 123 then 125 else 93

/-- The value is written as an object or an array. -/
def opens (p : Bytes) : Bool := p.head? = some 123 ∨ p.head? = some 91

/-- In an object, the key in front of a value and what follows its colon. -/
def memberKey (op : UInt8) (p : Bytes) : Option (Option Bytes × Bytes) :=
  if op = 123 then
    match stringSpan p with
    | none => none
    | some (key, after) => if (skipWs after).head? = some 58 then some (some key, (skipWs after).tail) else none
  else some (none, p)

/-- A key as it is copied. -/
def putKey : Option Bytes → Bytes
  | some key => 34 :: (key ++ [34, 58])
  | none => []

theorem skipWs_length (p : Bytes) : (skipWs p).length ≤ p.length := (List.dropWhile_sublist _).length_le

theorem memberKey_length {op : UInt8} {p rest : Bytes} {key : Option Bytes} (h : memberKey op p = some (key, rest)) :
    rest.length ≤ p.length := by
  unfold memberKey at h
  split_ifs at h
  · cases hspan : stringSpan p with
    | none => simp [hspan] at h
    | some found =>
      obtain ⟨raw, after⟩ := found
      simp only [hspan] at h
      split_ifs at h
      cases h
      have := stringSpan_length hspan
      have := skipWs_length after
      rw [List.length_tail]
      omega
  · cases h
    exact le_rfl

theorem bracketSpan_length {op cl : UInt8} {depth : ℕ} {p rest : Bytes} (h : bracketSpan op cl depth p = some rest) :
    rest.length < p.length := by
  fun_induction bracketSpan op cl depth p with
  | case1 => cases h
  | case2 depth rest' hspan => cases h
  | case3 depth rest' raw after hspan hlt ih => exact (ih h).trans hlt
  | case4 depth rest' hne ih => exact (ih h).trans (Nat.lt_succ_self _)
  | case5 depth rest' hne hop hd =>
    cases h
    exact Nat.lt_succ_self _
  | case6 depth rest' hne hop hd ih => exact (ih h).trans (Nat.lt_succ_self _)
  | case7 depth b rest' hne hop hcl ih => exact (ih h).trans (Nat.lt_succ_self _)

theorem valueSpan_length {p : Bytes} {span : Span} (h : valueSpan p = some span) : span.rest.length < p.length := by
  have hskip := skipWs_length p
  have hpos {b : UInt8} {q : Bytes} (hq : q.head? = some b) : 0 < q.length := by
    cases q with
    | nil => cases hq
    | cons c q => exact Nat.succ_pos _
  unfold valueSpan at h
  dsimp only at h
  split_ifs at h with hquote hcurly hsquare htrue hfalse hnum
  · obtain ⟨⟨raw, rest⟩, hsome, rfl⟩ := Option.map_eq_some_iff.mp h
    exact (stringSpan_length hsome).trans_le hskip
  · obtain ⟨rest, hsome, rfl⟩ := Option.map_eq_some_iff.mp h
    exact (bracketSpan_length hsome).trans_le hskip
  · obtain ⟨rest, hsome, rfl⟩ := Option.map_eq_some_iff.mp h
    exact (bracketSpan_length hsome).trans_le hskip
  · cases h
    have hlen : 4 ≤ (skipWs p).length := by
      rcases htrue with h | h
      · exact (List.isPrefixOf_iff_prefix.mp h).length_le
      · exact (List.isPrefixOf_iff_prefix.mp h).length_le
    simp only [List.length_drop]
    omega
  · cases h
    have hlen : 5 ≤ (skipWs p).length := (List.isPrefixOf_iff_prefix.mp hfalse).length_le
    simp only [List.length_drop]
    omega
  · cases h
    cases hp : skipWs p with
    | nil => simp [hp] at hnum
    | cons b q =>
      have hb : numberByte b = true := by
        simp only [hp, List.head?_cons, Option.any_some, decide_eq_true_eq] at hnum
        rcases hnum with rfl | hd
        · decide
        · simp [numberByte, hd]
      have hle : (q.dropWhile numberByte).length ≤ q.length := (List.dropWhile_sublist _).length_le
      rw [hp, List.length_cons] at hskip
      rw [List.dropWhile_cons_of_pos hb]
      exact (Nat.lt_succ_of_le hle).trans_le hskip

mutual

/-- `fsql_json_redact_container`, at an opening bracket. -/
def redactContainer (p : Bytes) : Option Bytes :=
  match p with
  | [] => none
  | op :: p =>
    have := skipWs_length p
    if (skipWs p).head? = some (closer op) then some [op, closer op]
    else (redactLoop op (skipWs p)).map (op :: ·)
termination_by 2 * p.length

/-- Its loop: one member or item, and what stands behind it. -/
def redactLoop (op : UInt8) (p : Bytes) : Option Bytes :=
  match hkey : memberKey op (skipWs p) with
  | none => none
  | some (key, p₁) =>
    match hspan : valueSpan p₁ with
    | none => none
    | some span =>
      have := (memberKey_length hkey).trans (skipWs_length p)
      have := valueSpan_length hspan
      have := skipWs_length p₁
      have := skipWs_length span.rest
      let value :=
        if key.any keyIsSensitive then
          if span.isString then some (emitRedacted sha mode (span.raw.tail.take (span.raw.length - 2)) true)
          else if opens span.raw then some (emitRedacted sha mode span.raw false)
          else some span.raw
        else if ¬ span.isString ∧ opens span.raw then redactContainer (skipWs p₁)
        else some span.raw
      match value with
      | none => none
      | some out =>
        match hrest : skipWs span.rest with
        | [] => none
        | b :: p₂ =>
          have : p₂.length + 1 = (skipWs span.rest).length := by rw [hrest, List.length_cons]
          if b = 44 then (redactLoop op p₂).map fun more => putKey key ++ (out ++ 44 :: more)
          else if b = closer op then some (putKey key ++ (out ++ [b]))
          else none
termination_by 2 * p.length + 1

end

/-- `fsql_json_redact_value`. -/
def redactValue (p : Bytes) : Option Bytes :=
  if opens (skipWs p) then redactContainer sha mode (skipWs p) else (valueSpan (skipWs p)).map Span.raw

end Walk

/-- `fsql_audit_redact_json`, of a C string; `none` is NULL, and the caller keeps the text. -/
def auditRedactJson (sha : Bytes → Block 32) (env : Option Bytes) (json : Bytes) : Option Bytes :=
  if redactMode env = .none then none else redactValue sha (redactMode env) json

end FractalSQL.Audit
