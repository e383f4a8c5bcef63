import FractalSQL.Lib.JsonStrings

/-!
# `fractal_reason`

A question goes to the reasoning plugin. Where the endpoint fails and the session asked for
partial results, the answer is a document that carries the message of the failure. The message
is bounded where the plugin's own text enters it, formatted into a buffer of fixed size, and
escaped into the document.
-/
namespace FractalSQL.Cognition
open Lib Lib.JsonGrammar

/-- `SFS_DETAIL_MAX`. -/
def detailMax : ℕ := 256

/-- `SFS_DETAIL_MARK`, and the mark of the sentinel. -/
def detailMark : Bytes := ascii "...[truncated]"

/-- `MYSQL_ERRMSG_SIZE`. -/
def errmsgSize : ℕ := 512

/-- `FRACTAL_PARTIAL_DETAIL_MAX`. -/
def partialDetailMax : ℕ := 512

/-- `FRACTAL_COGNITION_MAX_INPUT_BYTES`. -/
def maxInputBytes : ℕ := 4 * 1024 * 1024

/-- `FRACTAL_MAX_AI_RESPONSE_BYTES`. -/
def maxAiResponseBytes : ℕ := 16 * 1024 * 1024

/-- What a C string holds. -/
def cText (s : Bytes) : Bytes := s.takeWhile (· ≠ 0)

/-- `(c & 0xC0) == 0x80`. -/
def isContinuation (c : UInt8) : Bool := c &&& 0xC0 = 0x80

/-- The loop that leaves a cut inside a character; behind the text stands its zero byte. -/
def boundary (detail : Bytes) : ℕ → ℕ
  | 0 => 0
  | keep + 1 => if isContinuation (detail.getD (keep + 1) 0) then boundary detail keep else keep + 1

/-- `sfs_detail_bounded`. -/
def detailBounded (cap : ℕ) (detail : Bytes) : Bytes :=
  if detail.length + 1 ≤ cap then detail
  else detail.take (boundary detail (min (cap - 1 - detailMark.length) detail.length)) ++ detailMark

/-- The text that `SFS_INIT_ERROR` leaves in the buffer. -/
def initError (message : Bytes) : Bytes := message.take (errmsgSize - 1)

/-! ### The sentinel -/

def escapeByte (c : UInt8) : Bytes :=
  if c = 34 ∨ c = 92 then [92, c]
  else if c < 32 then 92 :: 117 :: 48 :: 48 :: hexEncode [c]
  else [c]

/-- `json_escape_into` behind `w` bytes: it stops where an escape might not fit. -/
def jsonEscapeInto (dstCap w : ℕ) : Bytes → Bytes
  | [] => []
  | c :: src =>
    if w + 6 < dstCap then escapeByte c ++ jsonEscapeInto dstCap (w + (escapeByte c).length) src
    else []

/-- The doubling in `str_out_ensure`. -/
def doubled (need ncap : ℕ) : ℕ :=
  if 0 < ncap ∧ ncap < need then doubled need (2 * ncap) else ncap
termination_by need - ncap
decreasing_by omega

/-- `str_out_ensure`: the capacity afterwards, unless the allocation fails. -/
def strOutEnsure (alloc : Bool) (cap need : ℕ) : Option ℕ :=
  if need ≤ cap then some cap
  else if alloc then some (doubled need (if cap = 0 then 256 else cap))
  else none

def sentinelHead : Bytes := ascii "\x7b\"reasoning_step_failed\":\""

/-- `agent_partial_sentinel`. -/
def agentPartialSentinel (alloc : Bool) (cap : ℕ) (errbuf : Bytes) : Option Bytes :=
  let detail := if errbuf = [] then ascii "(no detail)" else errbuf
  let kept := if partialDetailMax < detail.length then boundary detail partialDetailMax else detail.length
  match strOutEnsure alloc cap ((kept + 16) * 6 + 48) with
  | none => none
  | some cap =>
    let body := jsonEscapeInto (cap - 26 - 2) 0 (detail.take kept)
    let mark :=
      if partialDetailMax < detail.length then jsonEscapeInto (cap - (26 + body.length) - 2) 0 detailMark else []
    some (sentinelHead ++ (body ++ (mark ++ [34, 125])))

/-! ### The call -/

/-- The arguments; one that is missing or NULL is `none`. -/
structure ReasonArgs where
  sessionId : Option Int64
  query : Option Bytes
  context : Option Bytes

/-- How a step in front of the dispatch ends. -/
inductive Step where
  | ok
  | failed (endpoint : Bool) (message : Bytes)

/-- What `fsql_dispatch_ai` leaves: both result codes, the summary, and what
`fsql_last_error` points to. -/
structure Dispatch where
  rc : Int32
  respRc : Int32
  summary : Option Bytes
  lastError : Option Bytes

/-- What the process, the session and the plugin decide. -/
structure ReasonEnv where
  acquireOk : Bool
  /-- `ensure_reason_loaded`. -/
  load : Step
  /-- `reason_env_and_reload`. -/
  reload : Step
  dispatch : Bytes → Bytes → Dispatch
  /-- `fractal_session_get_agent_partial`. -/
  agentPartial : Bool
  /-- The allocation of the result buffer succeeds. -/
  alloc : Bool
  /-- The capacity that earlier rows left. -/
  cap : ℕ

inductive Reply where
  | null
  | error
  | text (b : Bytes)

/-- `agent_partial_or_error`. -/
def agentPartialOrError (env : ReasonEnv) (errbuf : Bytes) : Reply :=
  if env.agentPartial then
    match agentPartialSentinel env.alloc env.cap errbuf with
    | some p => .text p
    | none => .error
  else .error

/-- The fixed text in front of the plugin's own. -/
def failedLead (rc respRc : Int32) : Bytes :=
  ascii "fractal_reason: dispatch failed (rc=" ++ (decimalInt rc.toInt ++ (ascii ", resp.rc=" ++ (decimalInt respRc.toInt ++ ascii "): ")))

/-- `err && *err ? err : "(no detail)"`. -/
def errorText (lastError : Option Bytes) : Bytes :=
  let err := cText (lastError.getD [])
  if err = [] then ascii "(no detail)" else err

/-- The message of a failed dispatch. -/
def failedMessage (d : Dispatch) : Bytes :=
  initError (failedLead d.rc d.respRc ++ detailBounded (detailMax + (detailMark.length + 1)) (errorText d.lastError))

/-- The part behind the dispatch. -/
def reasonReply (env : ReasonEnv) (d : Dispatch) : Reply :=
  if d.rc ≠ 0 ∨ d.respRc ≠ 0 then agentPartialOrError env (failedMessage d)
  else if maxAiResponseBytes < (d.summary.getD []).length then
    agentPartialOrError env (initError (ascii "fractal_reason: response of " ++ decimal (d.summary.getD []).length ++
      ascii " bytes exceeds the " ++ decimal maxAiResponseBytes ++ ascii "-byte cap"))
  else match d.summary with
    | none => agentPartialOrError env (initError (ascii ("fractal_reason: reasoning plugin returned a NULL summary on a " ++
        "success status -- likely a plugin bug")))
    | some summary => if (strOutEnsure env.alloc env.cap (summary.length + 1)).isSome then .text summary else .error

/-- `fractal_reason`. -/
def fractalReason (env : ReasonEnv) (args : ReasonArgs) : Reply :=
  match args.sessionId, args.query with
  | some _, some query =>
    let context := args.context.getD (ascii "\x7b\x7d")
    if maxInputBytes < query.length ∨ maxInputBytes < context.length then .error
    else if ¬ env.acquireOk then .error
    else match env.load with
      | .failed endpoint message => if endpoint then agentPartialOrError env message else .error
      | .ok =>
        match env.reload with
        | .failed _ message => agentPartialOrError env message
        | .ok => reasonReply env (env.dispatch query context)
  | _, _ => .null

end FractalSQL.Cognition
