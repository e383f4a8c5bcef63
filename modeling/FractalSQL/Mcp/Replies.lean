import FractalSQL.Mcp.Dispatch
import FractalSQL.Lib.JsonSchema

/-!
# One reply per request

A request is answered once, under its own id, except in three places: a cancel that has an id
is not answered, a notification with the wrong parameters is, and an error whose text is not
UTF-8 cannot be written under the id, which the backstop no longer has.
-/
namespace FractalSQL.Mcp.Rpc
open Lib

variable {lib : JsonLibrary} {srv : JsonRpcServer} {h : Handling} {opts : CallOptions} {line method : Bytes}
  {req id : JsonValue}

/-- The line is a JSON object with the members `jsonrpc` and `method`, a string. -/
structure IsRequest (lib : JsonLibrary) (line : Bytes) (req : JsonValue) (method : Bytes) : Prop where
  shallow : jsonNestsTooDeep line = false
  parsed : lib.parse line = some req
  object : req.isObject = true
  version : (req.find (ascii "jsonrpc")).isSome = true
  named : req.stringMember (ascii "method") = some method

/-- One reply under the id of the request, none to a notification. -/
def RepliesOnce (req : JsonValue) (reply : Option JsonValue) : Prop :=
  match req.find (ascii "id") with
  | some id => ∃ r, reply = some r ∧ r.find (ascii "id") = some id
  | none => reply = none

/-! ### What is asked of the call -/

/-- The parameters are an object, when there are any. -/
def ParamsFit (req : JsonValue) : Prop := ∀ p, req.find (ascii "params") = some p → p.isObject = true

def callName (params : JsonValue) : Bytes := (params.stringMember (ascii "name")).getD []

def callArguments (params : JsonValue) : JsonValue := (params.find (ascii "arguments")).getD (.obj [])

/-- The credential is not limited to other tools. -/
def Allowed (opts : CallOptions) (name : Bytes) : Prop := ∀ allow, opts.toolAllow = some allow → name ∈ allow

/-- A call that may not execute what it generates asks for it. -/
def ExecutesItself (srv : JsonRpcServer) (spec : ToolSpec) (params : JsonValue) : Prop :=
  takesAutoExecute spec.name = true ∧
    (((callArguments params).erase (ascii "context_id")).find (ascii "auto_execute")).bind JsonValue.asBool = some true ∧
      srv.autoExecuteAllowed = false

/-- A tool call is refused with a text that is not UTF-8: the list of the tools it may call, or
what the concurrency gate says. -/
inductive CallGarbles (srv : JsonRpcServer) (h : Handling) (opts : CallOptions) (params : JsonValue) : Prop where
  | allowlist (spec : ToolSpec) (allow : List Bytes) (hspec : srv.byName (callName params) = some spec)
    (hread : (srv.readOnlyMode && spec.destructiveHint) = false) (hallow : opts.toolAllow = some allow)
    (hout : callName params ∉ allow) (htext : isUtf8 ((ascii ", ").intercalate allow) = false)
  | gate (spec : ToolSpec) (e : ToolError) (hspec : srv.byName (callName params) = some spec)
    (hread : (srv.readOnlyMode && spec.destructiveHint) = false) (hallow : Allowed opts (callName params))
    (hargs : (callArguments params).isObject = true) (hexec : ¬ ExecutesItself srv spec params)
    (hgate : h.acquire spec = some e) (htext : isUtf8 e.message = false)

/-- The method answers with an error whose text is not UTF-8. -/
structure Garbles (srv : JsonRpcServer) (h : Handling) (opts : CallOptions) (req : JsonValue) (method : Bytes) : Prop where
  running : srv.shuttingDown = false
  known : methods.contains method = true
  era : ¬ (method = ascii "initialize" ∧ srv.modernOnly = true)
  text : method = ascii "tools/call" ∧ CallGarbles srv h opts ((req.find (ascii "params")).getD (.obj [])) ∨
    method ≠ ascii "tools/call" ∧ method ≠ ascii "ping" ∧
      ∃ e, h.handle method ((req.find (ascii "params")).getD (.obj [])) = .error (.tool e) ∧ isUtf8 e.message = false

/-! ### Texts -/

theorem utf8_makeError (id : JsonValue) (code : ℤ) (message : Bytes) :
    (makeError id code message).utf8 = (id.utf8 && isUtf8 message) := by
  simp (disch := decide) [makeError, JsonValue.obj, JsonValue.utf8, JsonValue.utf8Members, JsonValue.text,
    JsonValue.utf8_int, isUtf8_ascii]

theorem find_id_makeError (id : JsonValue) (code : ℤ) (message : Bytes) :
    (makeError id code message).find (ascii "id") = some id := by
  rw [makeError, JsonValue.find_obj_of_ne (by decide), JsonValue.find_obj_self]

theorem find_id_makeResult (id result : JsonValue) : (makeResult id result).find (ascii "id") = some id := by
  rw [makeResult, JsonValue.find_obj_of_ne (by decide), JsonValue.find_obj_self]

/-! ### A tool call -/

/-- What a refusal says of the name is as the name was parsed. -/
theorem isUtf8_named {name : Bytes} {before after : String} (hname : isUtf8 name = true)
    (hbefore : (before.toList.all fun c => c.toNat < 128) = true) (hafter : (after.toList.all fun c => c.toNat < 128) = true) :
    isUtf8 (ascii before ++ name ++ ascii after) = true := by
  rw [List.append_assoc, isUtf8_append (isUtf8_ascii hbefore), isUtf8_append hname, isUtf8_ascii hafter]

theorem finishCall_error {outcome : RunOutcome} {e : ToolError} (hend : finishCall lib h opts outcome = .error (.tool e)) :
    isUtf8 e.message = true := by
  have hcancelled : isUtf8 (ascii "call was cancelled; result discarded") = true := isUtf8_literal (by decide)
  unfold finishCall at hend
  split at hend
  · cases hend
  · split_ifs at hend
    cases hend
    exact hcancelled
  · split_ifs at hend
    · cases hend
      exact hcancelled
    · split at hend <;> cases hend

theorem executesItself_iff {spec : ToolSpec} {params : JsonValue} : ExecutesItself srv spec params ↔
    (takesAutoExecute spec.name &&
      (((callArguments params).erase (ascii "context_id")).find (ascii "auto_execute")).bind JsonValue.asBool == some true &&
        !srv.autoExecuteAllowed) = true := by
  simp [ExecutesItself, and_assoc]

theorem allowed_iff {name : Bytes} :
    Allowed opts name ↔ ¬ (opts.toolAllow.any fun allow => !allow.contains name) = true := by
  cases hallow : opts.toolAllow <;> simp [Allowed, hallow]

theorem callGarbles_of_error {params : JsonValue} {e : ToolError} (hparams : params.utf8 = true)
    (herr : handleToolsCall lib srv h opts params = .error (.tool e)) (htext : isUtf8 e.message = false) :
    CallGarbles srv h opts params := by
  have hname : isUtf8 (callName params) = true := JsonValue.isUtf8_stringMember hparams (ascii "name")
  have hfine {message : Bytes} (hm : isUtf8 message = true) (heq : schemaError message = .error (.tool e)) :
      CallGarbles srv h opts params := by
    cases heq
    exact absurd htext (by rw [hm]; exact nofun)
  unfold handleToolsCall at herr
  simp only [← callName.eq_1, ← callArguments.eq_1] at herr
  cases hspec : srv.byName (callName params) with
  | none =>
    rw [hspec] at herr
    exact hfine (isUtf8_named hname (all_literal (by decide)) (all_literal (by decide))) herr
  | some spec =>
    rw [hspec] at herr
    dsimp only at herr
    split_ifs at herr with hread hallow hargs hexec
    · refine hfine ?_ herr
      exact isUtf8_named hname (all_literal (by decide)) (all_literal (by decide))
    · -- only the list of the tools can be anything else
      obtain ⟨allow, hlist, hout⟩ := (Option.any_eq_true _ _).mp hallow
      rw [hlist, Option.getD_some] at herr
      cases herr
      refine .allowlist spec allow hspec (eq_false_of_ne_true hread) hlist (by simpa using hout) ?_
      rwa [isUtf8_append (isUtf8_named hname (all_literal (by decide)) (all_append (all_literal (by decide)) (all_literal (by decide))))] at htext
    · exact hfine (isUtf8_literal (by decide)) herr
    · refine hfine (isUtf8_ascii ?_) herr
      exact all_append (all_append (all_literal (by decide)) (all_literal (by decide))) (all_literal (by decide))
    · cases hgate : h.acquire spec with
      | some refusal =>
        rw [hgate] at herr
        cases herr
        exact .gate spec e hspec (eq_false_of_ne_true hread) (allowed_iff.mpr hallow) (by simpa using hargs)
          (mt executesItself_iff.mp hexec) hgate htext
      | none =>
        rw [hgate] at herr
        rw [finishCall_error herr] at htext
        cases htext

theorem error_of_callGarbles (lib : JsonLibrary) {params : JsonValue} (hparams : params.utf8 = true) (hg : CallGarbles srv h opts params) :
    ∃ e, handleToolsCall lib srv h opts params = .error (.tool e) ∧ isUtf8 e.message = false := by
  have hname : isUtf8 (callName params) = true := JsonValue.isUtf8_stringMember hparams (ascii "name")
  unfold handleToolsCall
  simp only [← callName.eq_1, ← callArguments.eq_1]
  cases hg with
  | allowlist spec allow hspec hread hallow hout htext =>
    rw [hspec]
    dsimp only
    rw [if_neg (ne_true_of_eq_false hread), if_pos (by simpa [hallow] using hout), hallow, Option.getD_some]
    exact ⟨_, rfl, by rw [isUtf8_append (isUtf8_named hname (all_literal (by decide)) (all_append (all_literal (by decide)) (all_literal (by decide)))), htext]⟩
  | gate spec e hspec hread hallow hargs hexec hgate htext =>
    rw [hspec]
    dsimp only
    rw [if_neg (ne_true_of_eq_false hread), if_neg (allowed_iff.mp hallow), if_neg (by simp [hargs])]
    exact ⟨e, (if_neg (mt executesItself_iff.mpr hexec)).trans (by rw [hgate]), htext⟩

/-! ### The answer -/

theorem find_id_answer : (answer lib srv h opts req id method).find (ascii "id") = some id := by
  unfold answer
  dsimp only
  split
  · exact find_id_makeError ..
  split
  · exact find_id_makeError ..
  split
  · exact find_id_makeError ..
  generalize (if method = ascii "tools/call" then _ else _ : Except Thrown JsonValue) = result
  cases result with
  | ok r =>
    dsimp only
    split
    · exact find_id_makeResult ..
    · exact find_id_makeError ..
  | error thrown => cases thrown <;> exact find_id_makeError ..

theorem utf8_internalServerError (hid : id.utf8 = true) : (makeError id (-32000) internalServerError).utf8 = true := by
  rw [utf8_makeError, hid, internalServerError, isUtf8_literal (by decide)]
  rfl

/-- The answer cannot be written exactly when an error text is no UTF-8. -/
theorem utf8_answer_iff (lib : JsonLibrary) (hreq : req.utf8 = true) (hid : id.utf8 = true) (hmethod : isUtf8 method = true) :
    (answer lib srv h opts req id method).utf8 = false ↔ Garbles srv h opts req method := by
  have hparams : ((req.find (ascii "params")).getD (.obj [])).utf8 = true := by
    cases hp : req.find (ascii "params") with
    | none => rfl
    | some p => exact JsonValue.utf8_find hreq hp
  have hfine {reply : JsonValue} (hok : reply.utf8 = true) (hno : ¬ Garbles srv h opts req method) :
      reply.utf8 = false ↔ Garbles srv h opts req method := iff_of_false (by rw [hok]; exact nofun) hno
  unfold answer
  generalize hgiven : (req.find (ascii "params")).getD (.obj []) = params at hparams
  dsimp only
  by_cases hrunning : srv.shuttingDown = true
  · rw [if_pos hrunning]
    apply hfine
    · rw [utf8_makeError, hid, isUtf8_literal (by decide)]
      rfl
    · exact fun hg => absurd hrunning (by rw [hg.running]; exact nofun)
  rw [if_neg hrunning]
  by_cases hera : method = ascii "initialize" ∧ srv.modernOnly = true
  · rw [if_pos hera]
    apply hfine
    · rw [utf8_makeError, hid, Bool.true_and]
      apply isUtf8_ascii
      exact all_append (all_literal (by decide)) (all_literal (by decide))
    · exact fun hg => hg.era hera
  rw [if_neg hera]
  by_cases hknown : methods.contains method = true
  swap
  · rw [if_pos (by simpa using hknown)]
    apply hfine
    · rw [utf8_makeError, hid, isUtf8_append (isUtf8_literal (by decide)), hmethod]
      rfl
    · exact fun hg => hknown hg.known
  rw [if_neg (by simpa using hknown)]
  have hwritten (e : ToolError) : (makeError id (if e.errorClass = .schema then -32602 else -32000) e.message).utf8 = false ↔
      isUtf8 e.message = false := by
    rw [utf8_makeError, hid, Bool.true_and]
  have hresult (r : JsonValue) : (if (lib.dump (makeResult id (envelope opts method r))).isSome then
      makeResult id (envelope opts method r) else makeError id (-32000) internalServerError).utf8 = true := by
    split_ifs with hdump
    · rw [← lib.dump_isSome, hdump]
    · exact utf8_internalServerError hid
  have hrun : srv.shuttingDown = false := eq_false_of_ne_true hrunning
  by_cases hcall : method = ascii "tools/call"
  · rw [if_pos hcall]
    have hgarbles : Garbles srv h opts req method ↔ CallGarbles srv h opts params :=
      ⟨fun hg => hg.text.elim (fun hc => hgiven ▸ hc.2) fun hc => absurd hcall hc.1,
        fun hc => ⟨hrun, hknown, hera, .inl ⟨hcall, hgiven ▸ hc⟩⟩⟩
    rw [hgarbles]
    cases hdone : handleToolsCall lib srv h opts params with
    | ok r =>
      refine iff_of_false (by rw [hresult r]; exact nofun) fun hc => ?_
      obtain ⟨e, he, -⟩ := error_of_callGarbles lib hparams hc
      rw [hdone] at he
      cases he
    | error thrown =>
      cases thrown with
      | tool e =>
        rw [hwritten e]
        constructor
        · exact callGarbles_of_error hparams hdone
        · intro hc
          obtain ⟨e', he, htext⟩ := error_of_callGarbles lib hparams hc
          rw [hdone] at he
          cases he
          exact htext
      | other =>
        refine iff_of_false (by rw [utf8_internalServerError hid]; exact nofun) fun hc => ?_
        obtain ⟨e, he, -⟩ := error_of_callGarbles lib hparams hc
        rw [hdone] at he
        cases he
  rw [if_neg hcall]
  by_cases hping : method = ascii "ping"
  · rw [if_pos hping]
    exact hfine (hresult _) fun hg => hg.text.elim (fun hc => hcall hc.1) fun hc => hc.2.1 hping
  rw [if_neg hping]
  have hgarbles : Garbles srv h opts req method ↔ ∃ e, h.handle method params = .error (.tool e) ∧ isUtf8 e.message = false :=
    ⟨fun hg => hg.text.elim (fun hc => absurd hc.1 hcall) fun hc => hgiven ▸ hc.2.2,
      fun hc => ⟨hrun, hknown, hera, .inr ⟨hcall, hping, hgiven ▸ hc⟩⟩⟩
  rw [hgarbles]
  cases hdone : h.handle method params with
  | ok r => exact iff_of_false (by rw [hresult r]; exact nofun) (by simp)
  | error thrown =>
    cases thrown with
    | tool e => simpa using hwritten e
    | other => exact iff_of_false (by rw [utf8_internalServerError hid]; exact nofun) (by simp)

/-! ### The reply -/

/-- A notification has parameters that fit. A request whose parameters fit is no cancel, and an
error it is answered with can be written, unless its id is null anyhow. -/
structure Answerable (srv : JsonRpcServer) (h : Handling) (opts : CallOptions) (req : JsonValue) (method : Bytes) : Prop where
  notification : req.find (ascii "id") = none → ParamsFit req
  request : ∀ id, req.find (ascii "id") = some id → ParamsFit req →
    method ≠ ascii "notifications/cancelled" ∧ (id ≠ .null → ¬ Garbles srv h opts req method)

theorem handleLine_of_impl {reply : JsonValue} (himpl : handleLineImpl lib srv h opts line = some reply)
    (hdump : reply.utf8 = true) : handleLine lib srv h opts line = some reply := by
  rw [handleLine, himpl, Option.map_some, if_pos (by rw [lib.dump_isSome, hdump])]

/-- What is decided before the method is looked at. -/
theorem handleLineImpl_request (srv : JsonRpcServer) (h : Handling) (opts : CallOptions) (hreq : IsRequest lib line req method) :
    handleLineImpl lib srv h opts line =
      if (req.find (ascii "params")).any fun p => !p.isObject then
        some (makeError ((req.find (ascii "id")).getD .null) (-32602) (ascii "invalid params (must be a JSON object)"))
      else if method = ascii "notifications/cancelled" ∨ (req.find (ascii "id")).isNone then none
      else some (answer lib srv h opts req ((req.find (ascii "id")).getD .null) method) := by
  have hversion : ¬ ((req.find (ascii "jsonrpc")).isNone ∨ (req.find (ascii "method")).isNone) := by
    have hmember : (req.find (ascii "method")).isSome = true := by
      obtain ⟨v, hv, -⟩ := Option.bind_eq_some_iff.mp hreq.named
      rw [hv]
      rfl
    rw [not_or, Option.isNone_iff_eq_none, Option.isNone_iff_eq_none]
    exact ⟨Option.isSome_iff_ne_none.mp hreq.version, Option.isSome_iff_ne_none.mp hmember⟩
  unfold handleLineImpl
  rw [hreq.shallow, hreq.parsed]
  dsimp only
  rw [if_neg Bool.false_ne_true, if_neg (by simp [hreq.object]), if_neg hversion, hreq.named]

theorem paramsFit_iff : ParamsFit req ↔ ¬ ((req.find (ascii "params")).any fun p => !p.isObject) = true := by
  cases hp : req.find (ascii "params") <;> simp [ParamsFit, hp]

/-- For every request there is one reply under its id, and for every notification none, exactly
when parameters that are no object come with an id, cancels come without, and no method ends with
an error text that is not UTF-8. -/
theorem replies_once_iff (lib : JsonLibrary) (srv : JsonRpcServer) (h : Handling) (opts : CallOptions) (line method : Bytes)
    (req : JsonValue) (hreq : IsRequest lib line req method) :
    RepliesOnce req (handleLine lib srv h opts line) ↔ Answerable srv h opts req method := by
  have hutf8 := lib.parse_utf8 hreq.parsed
  have hmethod : isUtf8 method = true := by
    have hs := JsonValue.isUtf8_stringMember hutf8 (ascii "method")
    rwa [hreq.named] at hs
  have himpl := handleLineImpl_request srv h opts hreq
  cases hid : req.find (ascii "id") with
  | none =>
    have hanswerable : Answerable srv h opts req method ↔ ParamsFit req :=
      ⟨fun ha => ha.notification hid, fun hp => ⟨fun _ => hp, fun id hsome => absurd (hid.symm.trans hsome) nofun⟩⟩
    rw [hanswerable, RepliesOnce, hid, paramsFit_iff]
    rw [hid] at himpl
    by_cases hparams : ((req.find (ascii "params")).any fun p => !p.isObject) = true
    · rw [if_pos hparams] at himpl
      rw [handleLine, himpl]
      exact iff_of_false nofun fun hc => hc hparams
    · rw [if_neg hparams, if_pos (.inr rfl)] at himpl
      rw [handleLine, himpl]
      exact iff_of_true rfl hparams
  | some id =>
    have hidutf8 := JsonValue.utf8_find hutf8 hid
    have hanswerable : Answerable srv h opts req method ↔ (ParamsFit req → method ≠ ascii "notifications/cancelled" ∧
        (id ≠ .null → ¬ Garbles srv h opts req method)) := by
      constructor
      · exact fun ha => ha.request id hid
      · intro ha
        refine ⟨fun hnone => absurd (hid.symm.trans hnone) nofun, fun id' hsome => ?_⟩
        cases hid.symm.trans hsome
        exact ha
    rw [hanswerable, RepliesOnce, hid, paramsFit_iff]
    rw [hid] at himpl
    by_cases hparams : ((req.find (ascii "params")).any fun p => !p.isObject) = true
    · rw [if_pos hparams] at himpl
      refine iff_of_true ⟨_, handleLine_of_impl himpl ?_, find_id_makeError ..⟩ fun hc => absurd hparams hc
      rw [utf8_makeError, Option.getD_some, hidutf8, isUtf8_literal (by decide)]
      rfl
    rw [if_neg hparams] at himpl
    rw [forall_prop_of_true hparams]
    by_cases hcancel : method = ascii "notifications/cancelled"
    · rw [if_pos (.inl hcancel)] at himpl
      rw [handleLine, himpl]
      exact iff_of_false (by simp) fun hc => hc.1 hcancel
    rw [if_neg (not_or.mpr ⟨hcancel, nofun⟩), Option.getD_some] at himpl
    rw [← utf8_answer_iff lib hutf8 hidutf8 hmethod]
    by_cases hdump : (answer lib srv h opts req id method).utf8 = true
    · refine iff_of_true ⟨_, handleLine_of_impl himpl hdump, find_id_answer⟩ ⟨hcancel, fun _ hc => ?_⟩
      rw [hdump] at hc
      cases hc
    · -- the backstop replies under the id null
      have hback : handleLine lib srv h opts line = some (makeError .null (-32603) (ascii "internal error handling the request")) := by
        rw [handleLine, himpl, Option.map_some, if_neg (by rw [lib.dump_isSome]; exact hdump)]
      simp only [hback, Option.some.injEq, exists_eq_left', find_id_makeError]
      constructor
      · exact fun heq => ⟨hcancel, fun hne => absurd heq.symm hne⟩
      · intro hc
        by_contra hne
        exact hc.2 (fun heq => hne heq.symm) (eq_false_of_ne_true hdump)

/-! ### A ping, and a notification with the wrong parameters -/

def pingLine : Bytes := ascii "\x7b\"jsonrpc\":\"2.0\",\"id\":\"1\",\"method\":\"ping\"\x7d"

def pingRequest : JsonValue := .obj [("jsonrpc", .text "2.0"), ("id", .text "1"), ("method", .text "ping")]

def initializedLine : Bytes := ascii "\x7b\"jsonrpc\":\"2.0\",\"method\":\"notifications/initialized\",\"params\":[]\x7d"

def initialized : JsonValue :=
  .obj [("jsonrpc", .text "2.0"), ("method", .text "notifications/initialized"), ("params", .array [])]

theorem samples_utf8 : ([(pingLine, pingRequest), (initializedLine, initialized)].all fun d => d.2.utf8) = true := by
  simp only [List.all_cons, List.all_nil, pingRequest, initialized, JsonValue.obj, JsonValue.text, List.map_cons,
    List.map_nil]
  repeat rw [ascii_ofList]
  decide

def sampleLibrary : JsonLibrary := .documents [(pingLine, pingRequest), (initializedLine, initialized)] samples_utf8

def idle : Handling := ⟨fun _ => none, fun _ _ => .threw, false, fun _ _ => .error .other⟩

theorem pingLine_isRequest : IsRequest sampleLibrary pingLine pingRequest (ascii "ping") where
  shallow := by
    rw [pingLine, ascii_ofList]
    decide
  parsed := by
    have hne : pingLine ≠ [] := by
      rw [pingLine, ascii_ofList]
      exact List.cons_ne_nil _ _
    exact JsonLibrary.documents_parse hne (List.find?_cons_of_pos (decide_eq_true rfl))
  object := rfl
  version := by
    simp only [pingRequest, JsonValue.obj, List.map_cons, List.map_nil]
    repeat rw [ascii_ofList]
    rfl
  named := by
    simp only [pingRequest, JsonValue.obj, JsonValue.text, List.map_cons, List.map_nil]
    repeat rw [ascii_ofList]
    decide

theorem initializedLine_isRequest :
    IsRequest sampleLibrary initializedLine initialized (ascii "notifications/initialized") where
  shallow := by
    rw [initializedLine, ascii_ofList]
    decide
  parsed := by
    have hne : initializedLine ≠ [] := by
      rw [initializedLine, ascii_ofList]
      exact List.cons_ne_nil _ _
    have hping : pingLine ≠ initializedLine := by
      rw [pingLine, initializedLine, ascii_ofList, ascii_ofList]
      decide
    refine JsonLibrary.documents_parse hne ?_
    rw [List.find?_cons_of_neg (by rwa [decide_eq_true_eq])]
    exact List.find?_cons_of_pos (decide_eq_true rfl)
  object := rfl
  version := by
    simp only [initialized, JsonValue.obj, List.map_cons, List.map_nil]
    repeat rw [ascii_ofList]
    rfl
  named := by
    simp only [initialized, JsonValue.obj, JsonValue.text, List.map_cons, List.map_nil]
    repeat rw [ascii_ofList]
    decide

theorem replies_once_ping : RepliesOnce pingRequest (handleLine sampleLibrary ⟨[], false, false, false, false⟩ idle {} pingLine) := by
  apply (replies_once_iff sampleLibrary ⟨[], false, false, false, false⟩ idle {} pingLine (ascii "ping") pingRequest
    pingLine_isRequest).mpr
  have hid : pingRequest.find (ascii "id") = some (.text "1") := by
    simp only [pingRequest, JsonValue.obj, List.map_cons, List.map_nil]
    repeat rw [ascii_ofList]
    rfl
  refine ⟨fun hnone => absurd (hid.symm.trans hnone) (Option.some_ne_none _), fun id _ _ => ⟨by decide, fun _ hg => ?_⟩⟩
  rcases hg.text with ⟨hcall, -⟩ | ⟨-, hping, -⟩
  · exact absurd hcall (by decide)
  · exact hping rfl

/-- The notification gets a reply. -/
theorem notification_replied :
    ¬ RepliesOnce initialized (handleLine sampleLibrary ⟨[], false, false, false, false⟩ idle {} initializedLine) := by
  have hid : initialized.find (ascii "id") = none := by
    simp only [initialized, JsonValue.obj, List.map_cons, List.map_nil]
    repeat rw [ascii_ofList]
    rfl
  have hparams : ((initialized.find (ascii "params")).any fun p => !p.isObject) = true := by
    simp only [initialized, JsonValue.obj, List.map_cons, List.map_nil]
    repeat rw [ascii_ofList]
    decide
  have himpl := handleLineImpl_request ⟨[], false, false, false, false⟩ idle {} initializedLine_isRequest
  rw [if_pos hparams] at himpl
  rw [handleLine_of_impl himpl (by rw [utf8_makeError, hid, isUtf8_literal (by decide)]; rfl), RepliesOnce, hid]
  exact Option.some_ne_none _

end FractalSQL.Mcp.Rpc
