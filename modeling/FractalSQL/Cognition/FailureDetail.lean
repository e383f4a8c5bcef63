import FractalSQL.Cognition.Reason
import FractalSQL.Lib.JsonReader

/-!
# The detail of a failure

The plugin's text passes four bounds on its way into the sentinel. Only the first can cut it: it
leaves at most 270 bytes, the lead adds at most 71, and behind it the buffers are large enough.
It cuts in front of a first byte, so both parts of the text are UTF-8, and marks the cut.
-/
namespace FractalSQL.Cognition
open Lib Lib.JsonGrammar

/-! ### Cuts -/

theorem isContinuation_iff {c : UInt8} : isContinuation c = true ↔ Inside c := by
  refine forall_byte (p := fun c => isContinuation c = true ↔ Inside c) ?_ c
  decide +kernel

theorem boundary_le (detail : Bytes) (keep : ℕ) : boundary detail keep ≤ keep := by
  fun_induction boundary detail keep with
  | case1 => exact le_rfl
  | case2 keep h ih => omega
  | case3 keep h => exact le_rfl

/-- The cut stands at the front or in front of a first byte. -/
theorem boundary_stop (detail : Bytes) (keep : ℕ) :
    boundary detail keep = 0 ∨ ¬ Inside (detail.getD (boundary detail keep) 0) := by
  fun_induction boundary detail keep with
  | case1 => exact .inl rfl
  | case2 keep h ih => exact ih
  | case3 keep h => exact .inr fun hin => h (isContinuation_iff.mpr hin)

/-- Both parts of a text that is cut so are text. -/
theorem isUtf8_boundary {detail : Bytes} (h : isUtf8 detail = true) {keep : ℕ} (hkeep : keep < detail.length) :
    isUtf8 (detail.take (boundary detail keep)) = true ∧ isUtf8 (detail.drop (boundary detail keep)) = true := by
  have hfront : isUtf8 (detail.take (boundary detail keep)) = true := by
    rcases boundary_stop detail keep with hzero | hstop
    · rw [hzero]
      rfl
    · have hlt : boundary detail keep < detail.length := lt_of_le_of_lt (boundary_le detail keep) hkeep
      rw [List.getD_eq_getElem?_getD, List.getElem?_eq_getElem hlt, Option.getD_some] at hstop
      refine isUtf8_of_cut hstop (t := detail.drop (boundary detail keep + 1)) ?_
      rw [← List.drop_eq_getElem_cons hlt, List.take_append_drop]
      exact h
  refine ⟨hfront, ?_⟩
  rw [← isUtf8_append hfront, List.take_append_drop]
  exact h

theorem detailBounded_length (cap : ℕ) (detail : Bytes) (hcap : detailMark.length < cap) : (detailBounded cap detail).length < cap := by
  unfold detailBounded
  split
  · omega
  · have := boundary_le detail (min (cap - 1 - detailMark.length) detail.length)
    rw [List.length_append, List.length_take]
    omega

/-! ### The escaper -/

theorem escapeByte_length (c : UInt8) : (escapeByte c).length ≤ 6 := by
  unfold escapeByte
  split_ifs <;> simp [hexEncode]

theorem spellsByte_escapeByte (c : UInt8) : SpellsByte (escapeByte c) c := by
  unfold escapeByte
  split_ifs with hpunct hcontrol
  · rcases hpunct with rfl | rfl
    · exact spellsByte_escape rfl
    · exact spellsByte_escape rfl
  · exact spellsByte_control hcontrol
  · rw [not_or] at hpunct
    exact spellsByte_plain hpunct.2 hpunct.1 (UInt8.not_lt.mp hcontrol)

theorem escapeByte_low (c : UInt8) (h : c < 128) : ∀ b ∈ escapeByte c, b < 128 := by
  unfold escapeByte
  split_ifs with hpunct hcontrol
  · rcases hpunct with rfl | rfl <;> decide +kernel
  · have hc : c.toNat < 32 := hcontrol
    simp only [hexEncode, List.mem_cons, List.not_mem_nil, or_false, forall_eq_or_imp, forall_eq]
    exact ⟨by decide, by decide, by decide, by decide, hexDigit_lt _ (by omega), hexDigit_lt _ (by omega)⟩
  · exact List.forall_mem_singleton.mpr h

theorem escapeByte_high (c : UInt8) (h : 128 ≤ c) : escapeByte c = [c] := by
  have hc : 128 ≤ c.toNat := h
  have hpunct : ¬ (c = 34 ∨ c = 92) := by
    rintro (rfl | rfl) <;> exact absurd h (by decide)
  have hcontrol : ¬ c < 32 := by
    rw [UInt8.not_lt, UInt8.le_iff_toNat_le]
    exact le_trans (by decide) hc
  rw [escapeByte, if_neg hpunct, if_neg hcontrol]

/-- With six bytes of room for each byte the escaper does not stop. -/
theorem jsonEscapeInto_eq {dstCap w : ℕ} {src : Bytes} (h : w + 6 * src.length < dstCap) :
    jsonEscapeInto dstCap w src = src.flatMap escapeByte := by
  induction src generalizing w with
  | nil => rfl
  | cons c src ih =>
    have hlen := escapeByte_length c
    simp only [List.length_cons] at h
    rw [jsonEscapeInto, if_pos (by omega), ih (by omega), List.flatMap_cons]

/-! ### The sentinel -/

theorem le_doubled {need ncap : ℕ} (h : 0 < ncap) : need ≤ doubled need ncap := by
  fun_induction doubled need ncap with
  | case1 ncap hlt ih => exact ih (by omega)
  | case2 ncap hnot => omega

theorem strOutEnsure_alloc (cap need : ℕ) : ∃ cap', strOutEnsure true cap need = some cap' ∧ need ≤ cap' := by
  rw [strOutEnsure]
  by_cases hle : need ≤ cap
  · exact ⟨cap, if_pos hle, hle⟩
  · rw [if_neg hle, if_pos rfl]
    refine ⟨_, rfl, le_doubled ?_⟩
    split <;> omega

/-- A message that fits is in the document as a whole. -/
theorem agentPartialSentinel_eq (cap : ℕ) {errbuf : Bytes} (hne : errbuf ≠ []) (hlen : errbuf.length ≤ partialDetailMax) :
    agentPartialSentinel true cap errbuf = some (sentinelHead ++ (errbuf.flatMap escapeByte ++ [34, 125])) := by
  obtain ⟨cap', hcap, hneed⟩ := strOutEnsure_alloc cap ((errbuf.length + 16) * 6 + 48)
  have hfit : 0 + 6 * errbuf.length < cap' - 26 - 2 := by omega
  unfold agentPartialSentinel
  simp only [if_neg hne, if_neg (Nat.not_lt.mpr hlen), hcap, List.take_length, jsonEscapeInto_eq hfit, List.nil_append]

/-- The document with one member is JSON, and its value spells the message. -/
theorem sentinel_json {message : Bytes} (h : isUtf8 message = true) :
    ∃ t raw, JsonText (sentinelHead ++ (message.flatMap escapeByte ++ [34, 125])) t ∧
      t.plain = .obj [] [(ascii "reasoning_step_failed", .str raw)] ∧ decoded raw = message ∧
      isUtf8 (sentinelHead ++ (message.flatMap escapeByte ++ [34, 125])) = true := by
  have hkey : IsString (ascii "reasoning_step_failed") := by decide
  have hraw := isString_flatMap spellsByte_escapeByte message
  have hmember := (Derives.member ws_nil hkey ws_nil (Derives.str hraw).alone).single.obj.alone
  have htext : sentinelHead ++ (message.flatMap escapeByte ++ [34, 125]) = 123 :: (([] ++ 34 :: (ascii "reasoning_step_failed" ++
      34 :: ([] ++ 58 :: (34 :: (message.flatMap escapeByte ++ [34]))))) ++ [125]) := by
    simp [sentinelHead, ascii]
  rw [← htext] at hmember
  refine ⟨_, message.flatMap escapeByte, hmember, rfl, decoded_flatMap spellsByte_escapeByte message, ?_⟩
  rw [isUtf8_append (by decide), isUtf8_append (isUtf8_flatMap escapeByte_low escapeByte_high h)]
  decide

/-! ### The message -/

theorem decimalInt_lt (z : ℤ) : ∀ b ∈ decimalInt z, b < 128 := by
  have hdigits (n : ℕ) : ∀ b ∈ decimal n, b < 128 := by
    intro b hb
    have hle : b ≤ 57 := (of_decide_eq_true (decimal_isDigit n b hb)).2
    exact UInt8.lt_of_le_of_lt hle (by decide)
  unfold decimalInt
  split
  · exact List.forall_mem_cons.mpr ⟨by decide, hdigits _⟩
  · exact hdigits _

theorem decimalInt_length (n : Int32) : (decimalInt n.toInt).length ≤ 11 := by
  have hlo : -2 ^ 31 ≤ n.toInt := Int32.le_toInt n
  have hhi : n.toInt < 2 ^ 31 := Int32.toInt_lt n
  have hdigits : (decimal n.toInt.natAbs).length ≤ 9 + 1 := decimal_length_le (by omega)
  unfold decimalInt
  split
  · rw [List.length_cons]
    omega
  · omega

theorem failedLead_length (rc respRc : Int32) : (failedLead rc respRc).length ≤ 71 := by
  have hrc := decimalInt_length rc
  have hresp := decimalInt_length respRc
  have h₁ : (ascii "fractal_reason: dispatch failed (rc=").length = 36 := rfl
  have h₂ : (ascii ", resp.rc=").length = 10 := rfl
  have h₃ : (ascii "): ").length = 3 := rfl
  simp only [failedLead, List.length_append, h₁, h₂, h₃]
  omega

theorem failedLead_utf8 (rc respRc : Int32) (s : Bytes) : isUtf8 (failedLead rc respRc ++ s) = isUtf8 s := by
  rw [failedLead]
  simp only [List.append_assoc]
  rw [isUtf8_append (isUtf8_literal (by decide)), isUtf8_append (isUtf8_of_ascii (decimalInt_lt _)),
    isUtf8_append (isUtf8_literal (by decide)), isUtf8_append (isUtf8_of_ascii (decimalInt_lt _)),
    isUtf8_append (isUtf8_literal (by decide))]

/-- The buffer holds the lead and the bounded detail. -/
theorem failedMessage_eq (d : Dispatch) :
    failedMessage d = failedLead d.rc d.respRc ++ detailBounded (detailMax + (detailMark.length + 1)) (errorText d.lastError) ∧
      (failedMessage d).length ≤ partialDetailMax := by
  have hlead := failedLead_length d.rc d.respRc
  have hmark : detailMark.length = 14 := rfl
  have hdetail := detailBounded_length (detailMax + (detailMark.length + 1)) (errorText d.lastError) (by omega)
  have hsize : detailMax + (detailMark.length + 1) = 271 := rfl
  have hlen : (failedLead d.rc d.respRc ++ detailBounded (detailMax + (detailMark.length + 1)) (errorText d.lastError)).length ≤ 341 := by
    rw [List.length_append]
    omega
  rw [failedMessage, initError, List.take_of_length_le (le_trans hlen (by decide))]
  exact ⟨rfl, le_trans hlen (by decide)⟩

/-! ### A failed dispatch -/

/-- The call gets to the dispatch, which fails. -/
structure FailsWith (env : ReasonEnv) (args : ReasonArgs) (d : Dispatch) : Prop where
  session : args.sessionId ≠ none
  fits : (args.context.getD (ascii "\x7b\x7d")).length ≤ maxInputBytes
  acquired : env.acquireOk = true
  loaded : env.load = .ok
  reloaded : env.reload = .ok
  dispatched : ∃ query, args.query = some query ∧ query.length ≤ maxInputBytes ∧
    d = env.dispatch query (args.context.getD (ascii "\x7b\x7d"))
  failed : d.rc ≠ 0 ∨ d.respRc ≠ 0

theorem fractalReason_failed {env : ReasonEnv} {args : ReasonArgs} {d : Dispatch} (h : FailsWith env args d) :
    fractalReason env args = agentPartialOrError env (failedMessage d) := by
  obtain ⟨hsession, hfits, hacq, hload, hreload, ⟨query, hquery, hlen, rfl⟩, hfail⟩ := h
  obtain ⟨sid, hsid⟩ := Option.ne_none_iff_exists'.mp hsession
  have hsizes : ¬ (maxInputBytes < query.length ∨ maxInputBytes < (args.context.getD (ascii "\x7b\x7d")).length) := by
    omega
  simp only [fractalReason, hsid, hquery, if_neg hsizes, hacq, hload, hreload, reasonReply, if_pos hfail, not_true_eq_false,
    if_false]

/-- What the value of the sentinel says about an error text: all of it, or a part that ends at a
character and is marked, or that there was none. -/
def Reports (lead err value : Bytes) : Prop :=
  err ≠ [] ∧ err.length ≤ 270 ∧ value = lead ++ err ∨
    270 < err.length ∧ (∃ cut rest, err = cut ++ rest ∧ isUtf8 cut = true ∧ isUtf8 rest = true ∧
      value = lead ++ (cut ++ detailMark)) ∨
    err = [] ∧ value = lead ++ ascii "(no detail)"

/-- The reply is a JSON object with the one member, whose value reports the error text. -/
def RepliesWith (lead err : Bytes) : Reply → Prop
  | .text text => isUtf8 text = true ∧ ∃ t raw, JsonText text t ∧
      t.plain = .obj [] [(ascii "reasoning_step_failed", .str raw)] ∧ Reports lead err (decoded raw)
  | _ => False

theorem reports_detailBounded (lead : Bytes) {err : Bytes} (hnul : 0 ∉ err) (hutf8 : isUtf8 err = true) :
    isUtf8 (detailBounded (detailMax + (detailMark.length + 1)) (errorText (some err))) = true ∧
      Reports lead err (lead ++ detailBounded (detailMax + (detailMark.length + 1)) (errorText (some err))) := by
  have hall : cText err = err := List.takeWhile_eq_self_iff.mpr fun b hb => decide_eq_true fun h => hnul (h ▸ hb)
  have htext : errorText (some err) = if err = [] then ascii "(no detail)" else err := by
    rw [errorText, Option.getD_some, hall]
  have hcap : detailMax + (detailMark.length + 1) = 271 := rfl
  rw [htext, hcap]
  by_cases hempty : err = []
  · rw [if_pos hempty]
    have hwhole : detailBounded 271 (ascii "(no detail)") = ascii "(no detail)" := rfl
    rw [hwhole]
    exact ⟨isUtf8_literal (by decide), .inr (.inr ⟨hempty, rfl⟩)⟩
  · rw [if_neg hempty]
    by_cases hfit : err.length ≤ 270
    · rw [detailBounded, if_pos (by omega)]
      exact ⟨hutf8, .inl ⟨hempty, hfit, rfl⟩⟩
    · rw [not_le] at hfit
      have hmark : detailMark.length = 14 := rfl
      have hkeep : min (271 - 1 - detailMark.length) err.length < err.length := by omega
      obtain ⟨hcut, hrest⟩ := isUtf8_boundary hutf8 hkeep
      rw [detailBounded, if_neg (by omega)]
      refine ⟨?_, .inr (.inl ⟨hfit, _, _, (List.take_append_drop ..).symm, hcut, hrest, rfl⟩)⟩
      rw [isUtf8_append hcut]
      exact isUtf8_literal (by decide)

/-- In partial mode a failed dispatch is reported with its error text. -/
theorem failure_detail_reported (env : ReasonEnv) (args : ReasonArgs) (d : Dispatch) (err : Bytes) (hfail : FailsWith env args d)
    (hmode : env.agentPartial = true) (halloc : env.alloc = true) (herr : d.lastError = some err) (hnul : 0 ∉ err)
    (hutf8 : isUtf8 err = true) : RepliesWith (failedLead d.rc d.respRc) err (fractalReason env args) := by
  obtain ⟨hmessage, hlen⟩ := failedMessage_eq d
  obtain ⟨hdetail, hreports⟩ := reports_detailBounded (failedLead d.rc d.respRc) hnul hutf8
  rw [← herr] at hdetail hreports
  rw [← hmessage] at hreports
  have hne : failedMessage d ≠ [] := by
    rw [hmessage, failedLead]
    exact fun h => absurd (List.append_eq_nil_iff.mp (List.append_eq_nil_iff.mp h).1).1 (by decide)
  have hmsg : isUtf8 (failedMessage d) = true := by
    rw [hmessage, failedLead_utf8]
    exact hdetail
  obtain ⟨t, raw, hjson, hplain, hraw, htext⟩ := sentinel_json hmsg
  rw [fractalReason_failed hfail, agentPartialOrError, hmode, if_pos rfl, halloc, agentPartialSentinel_eq env.cap hne hlen]
  exact ⟨htext, t, raw, hjson, hplain, hraw ▸ hreports⟩

/-- A dispatch that is refused with an error text. -/
def refusal (err : Bytes) : Dispatch where
  rc := -3
  respRc := 0
  summary := none
  lastError := some err

def refusing (err : Bytes) : ReasonEnv where
  acquireOk := true
  load := .ok
  reload := .ok
  dispatch _ _ := refusal err
  agentPartial := true
  alloc := true
  cap := 0

def oneQuestion : ReasonArgs where
  sessionId := some 1
  query := some (ascii "why")
  context := none

theorem refusing_fails (err : Bytes) : FailsWith (refusing err) oneQuestion (refusal err) where
  session := by decide
  fits := by decide
  acquired := rfl
  loaded := rfl
  reloaded := rfl
  dispatched := ⟨ascii "why", rfl, by decide, rfl⟩
  failed := .inl (show (-3 : Int32) ≠ 0 by decide)

theorem refusal_reported :
    RepliesWith (failedLead (-3) 0) (ascii "HTTP 503") (fractalReason (refusing (ascii "HTTP 503")) oneQuestion) :=
  failure_detail_reported (refusing (ascii "HTTP 503")) oneQuestion (refusal (ascii "HTTP 503")) (ascii "HTTP 503")
    (refusing_fails _) rfl rfl rfl (by decide) (by decide)

/-- The value is the lead with all of the error text, or with a part of it that is marked. -/
def ReportsText (lead err value : Bytes) : Prop :=
  value = lead ++ err ∨ ∃ cut rest, err = cut ++ rest ∧ value = lead ++ (cut ++ detailMark)

/-- An empty error text is replaced. -/
theorem empty_error_replaced : ¬ ∀ (env : ReasonEnv) (args : ReasonArgs) (d : Dispatch) (err : Bytes), FailsWith env args d →
    env.agentPartial = true → env.alloc = true → d.lastError = some err → 0 ∉ err → isUtf8 err = true →
      ∃ text t raw, fractalReason env args = .text text ∧ JsonText text t ∧
        t.plain = .obj [] [(ascii "reasoning_step_failed", .str raw)] ∧ ReportsText (failedLead d.rc d.respRc) err (decoded raw) := by
  intro hall
  obtain ⟨text, t, raw, htext, hjson, hplain, hreports⟩ :=
    hall (refusing []) oneQuestion (refusal []) [] (refusing_fails []) rfl rfl rfl nofun rfl
  have hmsg : failedMessage (refusal []) = failedLead (-3) 0 ++ ascii "(no detail)" := by decide +kernel
  have hutf8 : isUtf8 (failedMessage (refusal [])) = true := by
    rw [hmsg, failedLead_utf8]
    exact isUtf8_literal (by decide)
  have hne : failedMessage (refusal []) ≠ [] := by decide +kernel
  have hmode : (refusing []).agentPartial = true := rfl
  have hsentinel : agentPartialSentinel (refusing []).alloc (refusing []).cap (failedMessage (refusal [])) = some _ :=
    agentPartialSentinel_eq 0 hne (failedMessage_eq _).2
  rw [fractalReason_failed (refusing_fails []), agentPartialOrError, if_pos hmode, hsentinel] at htext
  cases htext
  obtain ⟨t', raw', hjson', hplain', hraw', -⟩ := sentinel_json hutf8
  obtain rfl := hjson.unique hjson'
  rw [hplain] at hplain'
  obtain rfl : raw = raw' := by simpa using hplain'
  rw [hraw', hmsg] at hreports
  rcases hreports with h | ⟨cut, rest, hcut, h⟩
  · exact absurd h (by decide +kernel)
  · obtain ⟨rfl, -⟩ := List.append_eq_nil_iff.mp hcut.symm
    exact absurd h (by decide +kernel)

end FractalSQL.Cognition
