import FractalSQL.Audit.Attribution

/-!
# The shape of audit records

Every record has the members `type` and `entry`, and keeps the payload inside the
entry. The record nests one or two levels deeper than its payload, so the
structural check that the payload passed accepts the record only if the payload
leaves room for them. An empty object is written anew, without the white space
between its braces.
-/
namespace FractalSQL.Audit
open Lib Lib.Json Ledger

/-- The trimmed payload without an object's closing brace. -/
def openPayload (payload : Bytes) : Bytes :=
  if isObject (trimWs payload) then (trimWs payload).dropLast else trimWs payload

/-- What the record keeps of it: of an empty object only the opening brace. -/
def keptPayload (payload : Bytes) : Bytes :=
  if isObject (trimWs payload) ∧ isEmptyObject (trimWs payload) then [123] else openPayload payload

/-- The bytes stand in the text, with a bracket open around each of their tokens. -/
def OccursInside (part text : Bytes) : Prop :=
  ∃ before after us vs, text = before ++ (part ++ after) ∧ tokens before = some us ∧ tokens part = some vs ∧
    ∀ ws, ws <+: vs → 1 ≤ depthAfter (depthAfter 0 us) ws

/-- The keys of the document's members. -/
def topKeys (doc : Bytes) : Option (List Bytes) :=
  ((tokens doc).bind objectMembers).map (·.map Prod.fst)

/-- How deep the brackets of a text nest. -/
def nestingOf (text : Bytes) : ℕ := ((tokens text).map (nesting 0)).getD 0

/-! ### What is kept -/

theorem OneValue.depth_of_prefix {ts ws : List Token} (h : OneValue ts) (hp : ws <+: ts) (k : ℕ) :
    k ≤ depthAfter k ws := by
  obtain ⟨us, rfl⟩ := hp
  rw [OneValue, Frames.run_append] at h
  obtain ⟨f, hf, -⟩ := Option.bind_eq_some_iff.mp h
  have hshift := (Frames.run_shift hf k).1
  simp only [List.length_nil, Nat.zero_add] at hshift
  omega

/-- The kept part of the payload is a prefix of its tokens. -/
theorem tokens_keptPayload {payload : Bytes} {ts : List Token} (hts : tokens payload = some ts) :
    ∃ vs, tokens (keptPayload payload) = some vs ∧ vs <+: ts := by
  have htrim := tokens_trimWs hts
  unfold keptPayload openPayload
  cases hobj : isObject (trimWs payload) with
  | true =>
    obtain ⟨body, rfl, hdrop⟩ := tokens_isObject htrim hobj
    cases isEmptyObject (trimWs payload) with
    | true =>
      refine ⟨[.opening .curly], ?_, by simp⟩
      simp [tokens_punctuation (b := 123) rfl]
    | false => exact ⟨.opening .curly :: body, by simpa using hdrop, by simp⟩
  | false => exact ⟨ts, by simpa using htrim, List.prefix_rfl⟩

theorem entryValue_kept {payload : Bytes} (hzero : (0 : UInt8) ∉ payload) (block : Bytes) :
    ∃ before after us, entryValue payload block = before ++ (keptPayload payload ++ after) ∧
      (∀ d, d ≤ depthAfter d us) ∧ ∀ x, tokens (before ++ x) = (tokens x).map (us ++ ·) := by
  have hzero' : (0 : UInt8) ∉ trimWs payload := fun h => hzero ((mem_trimWs (by decide)).mp h)
  unfold keptPayload openPayload
  cases hobj : isObject (trimWs payload) with
  | true =>
    have hzero'' : (0 : UInt8) ∉ (trimWs payload).dropLast := fun h => hzero' (List.mem_of_mem_dropLast h)
    cases hempty : isEmptyObject (trimWs payload) with
    | true => exact ⟨[], actorEnd block, [], by simp [entryValue_empty hobj hempty], by simp, by simp⟩
    | false =>
      refine ⟨[], 44 :: actorEnd block, [], ?_, by simp, by simp⟩
      rw [entryValue_object hobj hempty, cString_eq_self hzero'']
      simp
  | false =>
    refine ⟨123 :: 34 :: (ascii "value" ++ [34, 58]), 44 :: actorEnd block,
      [Token.opening .curly, Token.str (ascii "value"), Token.colon], ?_, fun d => Nat.le_succ d, fun x => ?_⟩
    · rw [entryValue_wrapped hobj, cString_eq_self hzero']
      simp
    · have happ : 123 :: 34 :: (ascii "value" ++ [34, 58]) ++ x =
          123 :: 34 :: (ascii "value" ++ 34 :: 58 :: x) := by simp
      rw [happ, tokens_punctuation rfl, tokens_key (List.all_eq_true.mp rfl), Option.map_map]
      rfl

/-- The record up to its entry. -/
theorem recordText_front (entryType payload block : Bytes) :
    ∃ before us, recordText entryType payload block = before ++ (entryValue payload block ++ [125]) ∧
      depthAfter 0 us = 1 ∧ ∀ x, tokens (before ++ x) = (tokens x).map (us ++ ·) := by
  refine ⟨123 :: 34 :: (ascii "type" ++ 34 :: 58 :: 34 :: (jsonEscape entryType ++
    34 :: 44 :: 34 :: (ascii "entry" ++ [34, 58]))), [Token.opening .curly, Token.str (ascii "type"), Token.colon,
      Token.str (jsonEscape entryType), Token.comma, Token.str (ascii "entry"), Token.colon], ?_, rfl, fun x => ?_⟩
  · rw [recordText_eq, cString_jsonEscape]
    simp
  · have happ : 123 :: 34 :: (ascii "type" ++ 34 :: 58 :: 34 :: (jsonEscape entryType ++
        34 :: 44 :: 34 :: (ascii "entry" ++ [34, 58]))) ++ x =
        123 :: 34 :: (ascii "type" ++ 34 :: 58 :: 34 :: (jsonEscape entryType ++
          34 :: 44 :: 34 :: (ascii "entry" ++ 34 :: 58 :: x))) := by simp
    rw [happ, tokens_punctuation rfl, tokens_key (List.all_eq_true.mp rfl), tokens_str (scanStr_jsonEscape _ _),
      tokens_punctuation rfl, tokens_key (List.all_eq_true.mp rfl)]
    cases tokens x <;> rfl

theorem occursInside_kept {entryType payload : Bytes} {ts : List Token} (hts : tokens payload = some ts)
    (hv : OneValue ts) (hzero : (0 : UInt8) ∉ payload) (block : Bytes) :
    OccursInside (keptPayload payload) (recordText entryType payload block) := by
  obtain ⟨before, us, htext, hdepth, hbefore⟩ := recordText_front entryType payload block
  obtain ⟨before', after, us', hentry, hup, hbefore'⟩ := entryValue_kept hzero block
  obtain ⟨vs, hvs, hp⟩ := tokens_keptPayload hts
  refine ⟨before ++ before', after ++ [125], us ++ us', vs, ?_, ?_, hvs, fun ws hws => ?_⟩
  · rw [htext, hentry]
    simp
  · have hnil := hbefore' []
    rw [List.append_nil, tokens_nil, Option.map_some, List.append_nil] at hnil
    rw [hbefore, hnil]
    rfl
  · rw [depthAfter_append, hdepth]
    exact (hup 1).trans (hv.depth_of_prefix (hws.trans hp) _)

theorem jsonWellFormed_recordText {entryType payload block : Bytes} {ts bt : List Token}
    (hts : tokens payload = some ts) (hv : OneValue ts) (hbt : tokens block = some bt) (hbv : OneValue bt)
    (hflat : nesting 0 bt = 1) (hzero : (0 : UInt8) ∉ payload) :
    jsonWellFormed (recordText entryType payload block) = true ↔
      nesting 0 ts ≤ if isObject (trimWs payload) then 63 else 62 := by
  have hdoc := tokens_recordText entryType (tokens_entryValue hts hbt hzero)
  obtain ⟨hone, hnest⟩ := oneValue_recordTokens entryType (oneValue_entryTokens hts hv hbv)
  rw [nesting_entryTokens hts hv hbv hflat] at hnest
  have hbound : nesting 0 (recordTokens entryType (entryTokens payload ts bt)) ≤ maxNesting ↔
      nesting 0 ts ≤ if isObject (trimWs payload) then 63 else 62 := by
    rw [hnest, maxNesting]
    split <;> omega
  rw [jsonWellFormed_iff, ← hbound]
  constructor
  · rintro ⟨ts', hts', -, hle⟩
    obtain rfl := Option.some.inj (hdoc.symm.trans hts')
    exact hle
  · exact fun hle => ⟨_, hdoc, hone, hle⟩

/-- The shape of every record whose payload holds no zero byte. -/
theorem auditRecord_shape {env : AuditEnv} {args : AuditArgs} {text : Bytes}
    (h : auditRecord env args = .record text) (hzero : (0 : UInt8) ∉ args.text) :
    (jsonWellFormed text = true ↔ nestingOf args.text ≤ if isObject (trimWs args.text) then 63 else 62) ∧
      topKeys text = some [ascii "type", ascii "entry"] ∧ OccursInside (keptPayload args.text) text := by
  obtain ⟨entryType, -, hwf, rfl⟩ := auditRecord_record h
  obtain ⟨ts, hts, hv, -⟩ := (jsonWellFormed_iff _).mp hwf
  have hbt := tokens_actorBlock args.sessionId args.actor
  obtain ⟨hbv, hflat⟩ := blockTokens_oneValue args.sessionId args.actor
  refine ⟨?_, ?_, occursInside_kept hts hv hzero _⟩
  · have hnest : nestingOf args.text = nesting 0 ts := by simp [nestingOf, hts]
    rw [hnest]
    exact jsonWellFormed_recordText hts hv hbt hbv hflat hzero
  · have hdoc := tokens_recordText entryType (tokens_entryValue hts hbt hzero)
    have hms := objectMembers_recordTokens entryType (oneValue_entryTokens hts hv hbv)
    rw [topKeys, show tokens (recordText entryType args.text args.block) = _ from hdoc, Option.bind_some, hms]
    rfl

theorem note_shape : ∃ text, auditRecord plainEnv (plainArgs plainPayload) = .record text ∧
    jsonWellFormed text = true ∧ topKeys text = some [ascii "type", ascii "entry"] ∧
      OccursInside (ascii "\x7b\"a\":1") text := by
  have h : auditRecord plainEnv (plainArgs plainPayload) =
      .record (recordText (ascii "note") plainPayload plainBlock) := by
    decide +kernel
  obtain ⟨hwf, hkeys, hin⟩ := auditRecord_shape h (by decide +kernel)
  have hkept : keptPayload plainPayload = ascii "\x7b\"a\":1" := by decide +kernel
  exact ⟨_, h, hwf.mpr (by decide +kernel), hkeys, hkept ▸ hin⟩

/-- An empty object with white space between its braces. -/
def blankPayload : Bytes := ascii "\x7b \x7d"

/-- Arrays that nest as deep as the check of a payload allows. -/
def deepPayload : Bytes := List.replicate 64 91 ++ List.replicate 64 93

/-- The bytes of the first payload are not all in its record, and the record of the
second does not pass the check that its payload passed. -/
theorem record_shape_fails :
    (¬ ∀ env args text, auditRecord env args = .record text → OccursInside (openPayload args.text) text) ∧
      ¬ ∀ env args text, auditRecord env args = .record text → jsonWellFormed text = true := by
  constructor
  · intro hall
    have h : auditRecord plainEnv (plainArgs blankPayload) =
        .record (recordText (ascii "note") blankPayload plainBlock) := by
      decide +kernel
    obtain ⟨before, after, -, -, htext, -⟩ := hall _ _ _ h
    have hnot : ¬ openPayload (plainArgs blankPayload).text <:+: recordText (ascii "note") blankPayload plainBlock := by
      decide +kernel
    exact hnot ⟨before, after, by rw [htext, List.append_assoc]⟩
  · intro hall
    have h : auditRecord plainEnv (plainArgs deepPayload) =
        .record (recordText (ascii "note") deepPayload plainBlock) := by
      decide +kernel
    exact absurd (hall _ _ _ h) (by decide +kernel)

end FractalSQL.Audit
