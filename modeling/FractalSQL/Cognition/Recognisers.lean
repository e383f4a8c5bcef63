import FractalSQL.Cognition.Reason
import FractalSQL.Lib.JsonDocument
import FractalSQL.Mcp.VectorText

/-!
# The recognisers of the sentinel

An answer of `fractal_reason` is looked at twice. The tool parses it and asks for a member that is
not null; the SQL function asks for a document with the one key. They agree on the sentinel, and
differ on answers with the member among others, spelled with escapes, repeated, or no string.
-/
namespace FractalSQL.Cognition
open Lib Lib.JsonGrammar Mcp.VectorText

def failedKey : Bytes := ascii "reasoning_step_failed"

/-! ### The tool -/

inductive ToolReply where
  | response (raw : JsonValue)
  | failed (detail : Bytes)

/-- The handler of the `fractal_reason` tool, on the C string of the answer. What was parsed can
be dumped. -/
def reasonTool (lib : JsonLibrary) (text : Option Bytes) : ToolReply :=
  let raw := parseJsonOrValue lib (text.map cText)
  match raw.find failedKey with
  | none => .response raw
  | some detail =>
    if detail.isNull then .response raw
    else match detail.asString with
      | some s => .failed s
      | none => .failed ((lib.dump detail).getD [])

/-- The failed step that the tool reports. -/
def toolDetail (lib : JsonLibrary) (text : Option Bytes) : Option Bytes :=
  match reasonTool lib text with
  | .response _ => none
  | .failed detail => some detail

/-! ### The function -/

/-- What differs between servers: how deep documents nest, and how JSON_VALUE spells booleans. -/
structure Server where
  depthLimit : ℕ
  spell : Bool → Bytes

/-- `JSON_VALID`, with the document. -/
def Server.document (server : Server) (v : Bytes) : Option Tree :=
  (readJson v).filter fun t => t.every spelled (fun _ => true) ∧ t.depth ≤ server.depthLimit

def quotedKeys : List Bytes → Bytes
  | [] => []
  | [key] => 34 :: (key ++ [34])
  | key :: keys => 34 :: (key ++ 34 :: 44 :: 32 :: quotedKeys keys)

/-- `JSON_KEYS`: the keys as they are written, each once. -/
def jsonKeys : Tree → Option Bytes
  | .obj _ ms => some (91 :: (quotedKeys (ms.map Prod.fst).eraseDups ++ [93]))
  | _ => none

/-- The SQL value of a scalar. -/
def Server.scalar (server : Server) : Tree → Option (Option Bytes)
  | .scalar lex =>
    if lex = ascii "null" then some none
    else if lex = ascii "true" then some (some (server.spell true))
    else if lex = ascii "false" then some (some (server.spell false))
    else some (some lex)
  | .str raw => some (some (decoded raw))
  | .arr _ _ | .obj _ _ => none

/-- The first scalar of the values, where it is not null. -/
def Server.firstScalar (server : Server) (ts : List Tree) : Option Bytes := (ts.findSome? server.scalar).join

/-- `JSON_VALUE` at the path of a member. -/
def Server.jsonValue (server : Server) (name : Bytes) : Tree → Option Bytes
  | .obj _ ms => server.firstScalar (named name ms)
  | _ => none

/-- `_fractalsql_reasoning_partial`. -/
def reasoningPartial (server : Server) (v : Option Bytes) : Option Bytes :=
  match v.bind server.document with
  | none => none
  | some t =>
    if jsonKeys t = some (ascii "[\"reasoning_step_failed\"]") then server.jsonValue failedKey t else none

/-- What a TEXT parameter holds. -/
def textSize : ℕ := 65535

/-- A call of the function: an argument that is too long is refused. -/
def partialCall (server : Server) (text : Bytes) : Option (Option Bytes) :=
  if text.length ≤ textSize then some (reasoningPartial server (some text)) else none

/-- Both report a failed step with the same detail, or both report none. -/
def Agree (lib : JsonLibrary) (server : Server) (text : Bytes) : Prop := partialCall server text = some (toolDetail lib (some text))

/-! ### What the tool sees -/

/-- The members that the tool gets. -/
def toolMembers (fits : Bytes → Bool) (text : Bytes) : Option (List (Bytes × Tree)) :=
  match readFitting fits (cText text) with
  | some (.obj _ ms) => some ms
  | _ => none

/-- How the tool writes a value. -/
def toolText (lib : JsonLibrary) (t : Tree) : Bytes := t.document.asString.getD ((lib.dump t.document).getD [])

/-- The value that counts for the tool: the last of the name, unless it is null. -/
def reportedValue (fits : Bytes → Bool) (text : Bytes) : Option Tree :=
  ((toolMembers fits text).bind fun ms => (named failedKey ms).getLast?).filter fun t => !t.document.isNull

theorem brace_mem {s : Bytes} {text : Bytes} {ms : List (Bytes × Tree)} (h : readJson s = some (.obj text ms)) : (123 : UInt8) ∈ s := by
  cases readJson_iff.mp h with
  | element hw hvalue hw' => cases hvalue <;> simp

/-- A canonical vector is no object. -/
theorem toolMembers_canonical {fits : Bytes → Bool} {text : Bytes} (h : looksLikeCanonicalVectorHex (cText text) = true) :
    toolMembers fits text = none := by
  unfold toolMembers
  split
  · rename_i source ms hread
    have hbrace := brace_mem (Option.filter_eq_some_iff.mp hread).1
    obtain ⟨v, -, -, hhex⟩ := canonical_of_looksLike h
    rw [hhex] at hbrace
    exact absurd (hexValue_isSome_of_mem hbrace) (by decide)
  · rfl

theorem find_document (t : Tree) : t.document.find failedKey =
    match t with
    | .obj _ ms => ((named failedKey ms).getLast?).map Tree.document
    | _ => none := by
  cases t with
  | scalar lex =>
    rw [Tree.document]
    split_ifs <;> rfl
  | str raw => rfl
  | arr text ts => rfl
  | obj text ms =>
    rw [Tree.document, find_documentMembers rfl]
    exact Option.or_none

/-- The tool reports the value that counts. -/
theorem toolDetail_eq {lib : JsonLibrary} {fits : Bytes → Bool} (hlib : Reads lib fits) (text : Bytes) :
    toolDetail lib (some text) = (reportedValue fits text).map (toolText lib) := by
  have hdetail (raw : JsonValue) (hraw : parseJsonOrValue lib (some (cText text)) = raw) (value : Option Tree)
      (hvalue : raw.find failedKey = value.map Tree.document) :
      toolDetail lib (some text) = (value.filter fun t => !t.document.isNull).map (toolText lib) := by
    simp only [toolDetail, reasonTool, Option.map_some, hraw, hvalue]
    cases value with
    | none => rfl
    | some t =>
      simp only [Option.map_some, Option.filter_some]
      cases hnull : t.document.isNull with
      | true => rfl
      | false =>
        simp only [Bool.false_eq_true, if_false, Bool.not_false, if_true, Option.map_some, toolText]
        cases t.document.asString <;> rfl
  rw [reportedValue]
  by_cases hhex : looksLikeCanonicalVectorHex (cText text) = true
  · rw [toolMembers_canonical hhex]
    exact hdetail _ (if_pos hhex) none rfl
  · unfold toolMembers
    cases hread : readFitting fits (cText text) with
    | none =>
      have hparse : parseJsonOrValue lib (some (cText text)) = .object [(ascii "value", .string (cText text))] := by
        rw [parseJsonOrValue, if_neg hhex, hlib, hread]
        rfl
      exact hdetail _ hparse none rfl
    | some t =>
      have hparse : parseJsonOrValue lib (some (cText text)) = t.document := by
        rw [parseJsonOrValue, if_neg hhex, hlib, hread]
        rfl
      have hfind := find_document t
      cases t with
      | scalar lex => exact hdetail _ hparse none hfind
      | str raw => exact hdetail _ hparse none hfind
      | arr source ts => exact hdetail _ hparse none hfind
      | obj source ms => exact hdetail _ hparse _ hfind

/-! ### What the function sees -/

/-- The members that the function gets. -/
def sqlMembers (server : Server) (text : Bytes) : Option (List (Bytes × Tree)) :=
  match server.document text with
  | some (.obj _ ms) => some ms
  | _ => none

/-- All members have the key of the sentinel, as it is written there. -/
def SentinelKeys (ms : List (Bytes × Tree)) : Prop := ms ≠ [] ∧ ∀ m ∈ ms, m.1 = failedKey

instance (ms : List (Bytes × Tree)) : Decidable (SentinelKeys ms) := inferInstanceAs (Decidable (_ ∧ _))

theorem eraseDups_eq_singleton {α : Type} [BEq α] [LawfulBEq α] {l : List α} {a : α} :
    l.eraseDups = [a] ↔ l ≠ [] ∧ ∀ x ∈ l, x = a := by
  cases l with
  | nil => simp
  | cons b l =>
    rw [List.eraseDups_cons]
    constructor
    · intro h
      obtain ⟨rfl, hrest⟩ := List.cons.inj h
      refine ⟨nofun, fun x hx => ?_⟩
      rcases List.mem_cons.mp hx with rfl | hx
      · rfl
      · by_contra hne
        have hmem : x ∈ (l.filter fun c => !c == b).eraseDups := by
          rw [List.mem_eraseDups, List.mem_filter]
          exact ⟨hx, by simpa using hne⟩
        rw [hrest] at hmem
        cases hmem
    · rintro ⟨-, hall⟩
      obtain rfl := hall b (List.mem_cons_self ..)
      have hnone : l.filter (fun c => !c == b) = [] := by
        rw [List.filter_eq_nil_iff]
        intro c hc
        simp [hall c (List.mem_cons_of_mem _ hc)]
      rw [hnone]
      rfl

theorem quotedKeys_count (keys : List Bytes) : 2 * keys.length ≤ (quotedKeys keys).count 34 := by
  fun_induction quotedKeys keys with
  | case1 => exact le_rfl
  | case2 key =>
    rw [List.count_cons, List.count_append]
    simp
  | case3 key keys hne ih =>
    rw [List.count_cons, List.count_append, List.count_cons, List.count_cons, List.count_cons]
    simp only [List.length_cons, beq_self_eq_true, if_true]
    omega

theorem quotedKeys_eq {keys : List Bytes} :
    91 :: (quotedKeys keys ++ [93]) = ascii "[\"reasoning_step_failed\"]" ↔ keys = [failedKey] := by
  have htext : ascii "[\"reasoning_step_failed\"]" = 91 :: (34 :: (failedKey ++ [34]) ++ [93]) := by decide
  rw [htext]
  constructor
  · intro h
    have hbody : quotedKeys keys = 34 :: (failedKey ++ [34]) := List.append_cancel_right (List.cons.inj h).2
    have hcount := quotedKeys_count keys
    have htwo : (34 :: (failedKey ++ [34])).count 34 = 2 := by decide
    rw [hbody, htwo] at hcount
    cases keys with
    | nil => cases hbody
    | cons key keys =>
      obtain rfl : keys = [] := List.length_eq_zero_iff.mp (by rw [List.length_cons] at hcount; omega)
      have hkey := List.append_cancel_right (List.cons.inj hbody).2
      rw [hkey]
  · rintro rfl
    rfl

theorem jsonKeys_iff {text : Bytes} {ms : List (Bytes × Tree)} :
    jsonKeys (.obj text ms) = some (ascii "[\"reasoning_step_failed\"]") ↔ SentinelKeys ms := by
  rw [jsonKeys, Option.some.injEq, quotedKeys_eq, eraseDups_eq_singleton, SentinelKeys]
  simp only [ne_eq, List.map_eq_nil_iff, List.forall_mem_map]

/-- The function reports the first scalar of a document with the one key. -/
theorem reasoningPartial_eq (server : Server) (text : Bytes) :
    reasoningPartial server (some text) =
      (sqlMembers server text).bind fun ms => if SentinelKeys ms then server.firstScalar (named failedKey ms) else none := by
  unfold reasoningPartial sqlMembers
  rw [Option.bind_some]
  cases server.document text with
  | none => rfl
  | some t =>
    cases t with
    | obj source ms =>
      dsimp only
      rw [Option.bind_some]
      exact if_congr jsonKeys_iff rfl rfl
    | scalar lex => rfl
    | str raw => rfl
    | arr source ts => rfl

/-! ### Agreement -/

/-- What an answer must be: the value that counts for the tool stands in a document with the key of
the sentinel alone, and the first scalar there reads like it; or no value counts, and the first
scalar of such a document is null. -/
inductive Harmless (lib : JsonLibrary) (fits : Bytes → Bool) (server : Server) (text : Bytes) : Prop where
  | sentinel (t : Tree) (ms : List (Bytes × Tree)) (hvalue : reportedValue fits text = some t)
      (hdoc : sqlMembers server text = some ms) (hkeys : SentinelKeys ms)
      (hfirst : server.firstScalar (named failedKey ms) = some (toolText lib t))
  | silent (hvalue : reportedValue fits text = none)
      (hnull : ∀ ms, sqlMembers server text = some ms → SentinelKeys ms → server.firstScalar (named failedKey ms) = none)

theorem harmless_of_some {lib : JsonLibrary} {fits : Bytes → Bool} {server : Server} {text : Bytes} {t : Tree}
    (h : reportedValue fits text = some t) : Harmless lib fits server text ↔
      ∃ ms, sqlMembers server text = some ms ∧ SentinelKeys ms ∧ server.firstScalar (named failedKey ms) = some (toolText lib t) := by
  constructor
  · intro hh
    cases hh with
    | sentinel t' ms hvalue hdoc hkeys hfirst =>
      cases h.symm.trans hvalue
      exact ⟨ms, hdoc, hkeys, hfirst⟩
    | silent hvalue => cases h.symm.trans hvalue
  · rintro ⟨ms, hdoc, hkeys, hfirst⟩
    exact .sentinel t ms h hdoc hkeys hfirst

theorem harmless_of_none {lib : JsonLibrary} {fits : Bytes → Bool} {server : Server} {text : Bytes}
    (h : reportedValue fits text = none) : Harmless lib fits server text ↔
      ∀ ms, sqlMembers server text = some ms → SentinelKeys ms → server.firstScalar (named failedKey ms) = none := by
  constructor
  · intro hh
    cases hh with
    | sentinel t ms hvalue => cases h.symm.trans hvalue
    | silent _ hnull => exact hnull
  · exact .silent h

/-- A server with the usual limits. -/
def plainServer : Server where
  depthLimit := 32
  spell b := if b then ascii "1" else ascii "0"

def sentinelText : Bytes := ascii "\x7b\"reasoning_step_failed\":\"HTTP 503\"\x7d"

def amongOthers : Bytes := ascii "\x7b\"reasoning_step_failed\":\"HTTP 503\",\"plan\":1\x7d"

end FractalSQL.Cognition
