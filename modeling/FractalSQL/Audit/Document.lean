import FractalSQL.Audit.Splice

/-!
# The stored audit document

The tokens of the text that is handed to the ledger, for every payload that passes
the checks and holds no zero byte, and what a reader of the document finds in it:
its members and the members of its entry.
-/
namespace FractalSQL.Audit
open Lib Lib.Json Ledger

/-- The payload the record is made of. -/
def AuditArgs.text (args : AuditArgs) : Bytes := args.payload.getD (ascii "null")

/-- The attribution block of the call. -/
def AuditArgs.block (args : AuditArgs) : Bytes := actorBlock args.sessionId args.actor

theorem of_guard {p : Prop} [Decidable p] {o o' : AuditOutcome} {text : Bytes} (hne : o ≠ .record text)
    (h : (if p then o else o') = .record text) : ¬ p ∧ o' = .record text := by
  split at h
  · exact absurd h hne
  · exact ⟨‹_›, h⟩

/-- What a record that reaches the ledger is, and what was checked of it. -/
theorem auditRecord_record {env : AuditEnv} {args : AuditArgs} {text : Bytes}
    (h : auditRecord env args = .record text) :
    ∃ entryType, args.entryType = some entryType ∧ jsonWellFormed args.text = true ∧
      text = recordText entryType args.text args.block := by
  cases hty : args.entryType with
  | none => simp [auditRecord, hty] at h
  | some entryType =>
    simp only [auditRecord, hty] at h
    obtain ⟨-, h⟩ := of_guard (by simp) h
    iterate 4 obtain ⟨-, h⟩ := of_guard (by simp) h
    obtain ⟨hwf, h⟩ := of_guard (by simp) h
    iterate 6 obtain ⟨-, h⟩ := of_guard (by simp) h
    exact ⟨entryType, rfl, not_not.mp hwf, (AuditOutcome.record.inj h).symm⟩

/-! ### The entry -/

/-- The tokens in front of the attribution member. -/
def entryFront (payload : Bytes) (ts : List Token) : List Token :=
  if isObject (trimWs payload) then
    if isEmptyObject (trimWs payload) then [Token.opening .curly] else ts.dropLast ++ [Token.comma]
  else [Token.opening .curly, Token.str (ascii "value"), Token.colon] ++ ts ++ [Token.comma]

def entryTokens (payload : Bytes) (ts block : List Token) : List Token :=
  entryFront payload ts ++ ([Token.str (ascii "_actor"), Token.colon] ++ block ++ [Token.closing .curly])

theorem tokens_actorEnd {block : Bytes} {bt : List Token} (h : tokens block = some bt) :
    tokens (34 :: (ascii "_actor" ++ 34 :: 58 :: (block ++ [125]))) =
      some ([Token.str (ascii "_actor"), Token.colon] ++ bt ++ [Token.closing .curly]) := by
  rw [tokens_key (List.all_eq_true.mp rfl), tokens_append h (Breaks.of_head (by decide)), tokens_punctuation rfl,
    tokens_nil]
  simp

/-- An object's text ends in its brace, and its tokens do. -/
theorem tokens_isObject {trimmed : Bytes} {ts : List Token} (h : tokens trimmed = some ts)
    (hobj : isObject trimmed = true) :
    ∃ body, ts = Token.opening .curly :: (body ++ [Token.closing .curly]) ∧
      tokens trimmed.dropLast = some (Token.opening .curly :: body) := by
  simp only [isObject, decide_eq_true_eq] at hobj
  obtain ⟨hhead, hlast⟩ := hobj
  obtain ⟨x, rfl⟩ : ∃ x, trimmed = x ++ [125] := List.getLast?_eq_some_iff.mp hlast
  obtain ⟨us, vs, hus, hvs, rfl⟩ := tokens_split h (by simp) (by rintro b ⟨⟩; rfl)
  obtain rfl : [Token.closing .curly] = vs := by
    rw [tokens_punctuation rfl, tokens_nil] at hvs
    exact Option.some.inj hvs
  cases x with
  | nil => cases hhead
  | cons b x =>
    obtain rfl : b = 123 := Option.some.inj hhead
    rw [tokens_punctuation rfl] at hus
    obtain ⟨body, hbody, rfl⟩ := Option.map_eq_some_iff.mp hus
    refine ⟨body, rfl, ?_⟩
    rw [List.dropLast_concat, tokens_punctuation rfl, hbody]
    rfl

theorem isEmptyObject_iff {trimmed : Bytes} {body : List Token} (hobj : isObject trimmed = true)
    (h : tokens trimmed.dropLast = some (Token.opening .curly :: body)) : isEmptyObject trimmed = true ↔ body = [] := by
  simp only [isObject, decide_eq_true_eq] at hobj
  obtain ⟨hhead, hlast⟩ := hobj
  obtain ⟨x, rfl⟩ : ∃ x, trimmed = x ++ [125] := List.getLast?_eq_some_iff.mp hlast
  cases x with
  | nil => cases hhead
  | cons b x =>
    obtain rfl : b = 123 := Option.some.inj hhead
    rw [List.dropLast_concat, tokens_punctuation rfl] at h
    obtain ⟨body', hbody, heq⟩ := Option.map_eq_some_iff.mp h
    obtain rfl := (List.cons.inj heq).2
    simp only [isEmptyObject, decide_eq_true_eq, List.cons_append, List.drop_succ_cons, List.drop_zero]
    constructor
    · intro hdrop
      have hx : x.dropWhile isWs = [] := by
        rw [List.dropWhile_append] at hdrop
        split at hdrop
        · simp_all
        · rename_i hne
          have hlen := congrArg List.length hdrop
          simp only [List.length_append, List.length_singleton] at hlen
          exact List.length_eq_zero_iff.mp (by omega)
      have hblank := tokens_blank_append (List.dropWhile_eq_nil_iff.mp hx) []
      rw [List.append_nil, hbody, tokens_nil] at hblank
      exact Option.some.inj hblank
    · rintro rfl
      have hblank := blank_of_tokens_nil hbody
      rw [List.dropWhile_append, List.dropWhile_eq_nil_iff.mpr hblank]
      rfl

/-- The text from the attribution key to the end of the entry. -/
def actorEnd (block : Bytes) : Bytes := 34 :: (ascii "_actor" ++ 34 :: 58 :: (block ++ [125]))

theorem entryValue_object {payload : Bytes} (hobj : isObject (trimWs payload) = true)
    (hempty : isEmptyObject (trimWs payload) = false) (block : Bytes) :
    entryValue payload block = cString (trimWs payload).dropLast ++ 44 :: actorEnd block := by
  simp [entryValue, hobj, hempty, ascii, actorEnd]

theorem entryValue_empty {payload : Bytes} (hobj : isObject (trimWs payload) = true)
    (hempty : isEmptyObject (trimWs payload) = true) (block : Bytes) :
    entryValue payload block = 123 :: actorEnd block := by
  simp [entryValue, hobj, hempty, ascii, actorEnd]

theorem entryValue_wrapped {payload : Bytes} (hobj : isObject (trimWs payload) = false) (block : Bytes) :
    entryValue payload block =
      123 :: 34 :: (ascii "value" ++ 34 :: 58 :: (cString (trimWs payload) ++ 44 :: actorEnd block)) := by
  simp [entryValue, hobj, ascii, actorEnd]

/-- The tokens of the entry, for a payload without a zero byte. -/
theorem tokens_entryValue {payload block : Bytes} {ts bt : List Token} (hts : tokens payload = some ts)
    (hbt : tokens block = some bt) (hzero : (0 : UInt8) ∉ payload) :
    tokens (entryValue payload block) = some (entryTokens payload ts bt) := by
  have htrim := tokens_trimWs hts
  have hzero' : (0 : UInt8) ∉ trimWs payload := fun h => hzero ((mem_trimWs (by decide)).mp h)
  have hend : tokens (actorEnd block) = _ := tokens_actorEnd hbt
  have hcomma : Breaks (44 :: actorEnd block) := Breaks.of_head (by decide)
  unfold entryTokens entryFront
  cases hobj : isObject (trimWs payload) with
  | true =>
    cases hempty : isEmptyObject (trimWs payload) with
    | true =>
      rw [entryValue_empty hobj hempty, tokens_punctuation rfl, hend]
      rfl
    | false =>
      obtain ⟨body, rfl, hdrop⟩ := tokens_isObject htrim hobj
      have hzero'' : (0 : UInt8) ∉ (trimWs payload).dropLast := fun h => hzero' (List.mem_of_mem_dropLast h)
      rw [entryValue_object hobj hempty, cString_eq_self hzero'', tokens_append hdrop hcomma,
        tokens_punctuation rfl, hend]
      simp [List.dropLast_cons_of_ne_nil]
  | false =>
    rw [entryValue_wrapped hobj, cString_eq_self hzero', tokens_punctuation rfl, tokens_key (List.all_eq_true.mp rfl),
      tokens_append htrim hcomma, tokens_punctuation rfl, hend]
    simp

theorem recordText_eq (entryType payload block : Bytes) :
    recordText entryType payload block =
      123 :: 34 :: (ascii "type" ++ 34 :: 58 :: 34 :: (cString (jsonEscape entryType) ++
        34 :: 44 :: 34 :: (ascii "entry" ++ 34 :: 58 :: (entryValue payload block ++ [125])))) := by
  simp [recordText, ascii]

/-- The tokens of the record around those of its entry. -/
def recordTokens (entryType : Bytes) (entry : List Token) : List Token :=
  [Token.opening .curly, Token.str (ascii "type"), Token.colon, Token.str (jsonEscape entryType), Token.comma, Token.str (ascii "entry"),
    Token.colon] ++ entry ++ [Token.closing .curly]

theorem tokens_recordText (entryType : Bytes) {payload block : Bytes} {et : List Token}
    (h : tokens (entryValue payload block) = some et) :
    tokens (recordText entryType payload block) = some (recordTokens entryType et) := by
  rw [recordText_eq, cString_jsonEscape, tokens_punctuation rfl, tokens_key (List.all_eq_true.mp rfl),
    tokens_str (scanStr_jsonEscape _ _), tokens_punctuation rfl, tokens_key (List.all_eq_true.mp rfl),
    tokens_append h (Breaks.of_head (by decide)), tokens_punctuation rfl, tokens_nil]
  simp [recordTokens]

theorem zero_not_mem_empty {trimmed : Bytes} (hobj : isObject trimmed = true)
    (hempty : isEmptyObject trimmed = true) : (0 : UInt8) ∉ trimmed := by
  simp only [isObject, isEmptyObject, decide_eq_true_eq] at hobj hempty
  cases trimmed with
  | nil => cases hobj.1
  | cons b text =>
    obtain rfl : b = 123 := Option.some.inj hobj.1
    rw [List.drop_succ_cons, List.drop_zero] at hempty
    rw [← List.takeWhile_append_dropWhile (p := isWs) (l := text), hempty]
    intro hmem
    rcases List.mem_cons.mp hmem with h | h
    · cases h
    rcases List.mem_append.mp h with h | h
    · exact absurd (List.mem_takeWhile_imp h) (by decide)
    · exact absurd h (by decide)

/-- A zero byte cuts the part of the payload that the entry takes over. -/
theorem entryValue_zero {payload : Bytes} (hzero : (0 : UInt8) ∈ trimWs payload) (block : Bytes) :
    ∃ front x y, trimWs payload = x ++ 0 :: y ∧ (0 : UInt8) ∉ x ∧
      entryValue payload block = front ++ (x ++ 44 :: actorEnd block) ∧
      ∀ w, tokens w = none → tokens (front ++ w) = none := by
  have hcut {s : Bytes} (hs : (0 : UInt8) ∈ s) : ∃ x y, s = x ++ 0 :: y ∧ (0 : UInt8) ∉ x ∧ cString s = x := by
    obtain ⟨x, y, rfl, hx⟩ := List.eq_append_cons_of_mem hs
    refine ⟨x, y, rfl, hx, ?_⟩
    rw [cString, List.takeWhile_append_of_pos]
    · simp
    · intro b hb
      simpa using fun hz : b = 0 => hx (hz ▸ hb)
  cases hobj : isObject (trimWs payload) with
  | true =>
    have hlast : (trimWs payload).getLast? = some 125 := by
      simp only [isObject, decide_eq_true_eq] at hobj
      exact hobj.2
    obtain ⟨body, hbody⟩ := List.getLast?_eq_some_iff.mp hlast
    have hmem : (0 : UInt8) ∈ (trimWs payload).dropLast := by
      rw [hbody] at hzero ⊢
      simpa using hzero
    have hempty : isEmptyObject (trimWs payload) = false := by
      by_contra hc
      exact zero_not_mem_empty hobj (by simpa using hc) hzero
    obtain ⟨x, y, hs, hx, hc⟩ := hcut hmem
    refine ⟨[], x, y ++ [125], ?_, hx, ?_, fun w hw => hw⟩
    · rw [hbody, List.dropLast_concat] at hs
      rw [hbody, hs]
      simp
    · rw [entryValue_object hobj hempty, hc, List.nil_append]
  | false =>
    obtain ⟨x, y, hs, hx, hc⟩ := hcut hzero
    refine ⟨123 :: 34 :: (ascii "value" ++ [34, 58]), x, y, hs, hx, ?_, fun w hw => ?_⟩
    · rw [entryValue_wrapped hobj, hc]
      simp
    · have happ : 123 :: 34 :: (ascii "value" ++ [34, 58]) ++ w = 123 :: 34 :: (ascii "value" ++ 34 :: 58 :: w) := by
        simp
      rw [happ, tokens_punctuation rfl, tokens_key (List.all_eq_true.mp rfl), hw]
      rfl

/-- With a zero byte in the payload the record is no JSON. -/
theorem tokens_recordText_zero {entryType payload block : Bytes} {ts : List Token} (hts : tokens payload = some ts)
    (hzero : (0 : UInt8) ∈ payload) : tokens (recordText entryType payload block) = none := by
  obtain ⟨front, x, y, hs, hx, hentry, hnone⟩ :=
    entryValue_zero ((mem_trimWs (by decide)).mpr hzero) block
  have htrim := tokens_trimWs hts
  rw [hs] at htrim
  rw [recordText_eq, cString_jsonEscape, tokens_punctuation rfl, tokens_key (List.all_eq_true.mp rfl),
    tokens_str (scanStr_jsonEscape _ _), tokens_punctuation rfl, tokens_key (List.all_eq_true.mp rfl), hentry,
    List.append_assoc, hnone]
  · rfl
  · have happ : x ++ 44 :: actorEnd block ++ [125] =
        x ++ 44 :: 34 :: 95 :: (ascii "actor" ++ 34 :: 58 :: (block ++ [125]) ++ [125]) := by
      simp [actorEnd, ascii]
    rw [happ]
    exact tokens_zero htrim hx _

end FractalSQL.Audit
