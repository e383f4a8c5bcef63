import FractalSQL.Mcp.ConfigEdit

/-!
# What a configuration edit logs

A tool call ends with a log line, and a verbose line and that of a schema error carry the
arguments. They are redacted by the name of each member; the value of a secret key stands
under the member `value`, which is no such name.
-/
namespace FractalSQL.Mcp.Admin
open Lib Rpc Tools

/-! ### The log -/

/-- `logging::Level`. -/
inductive Level where
  | error
  | info
  | debug
deriving DecidableEq

/-- What the log uses of its libraries. -/
structure LogLibrary where
  dump : JsonValue → Bytes
  sha256 : Bytes → Bytes
  sanitizeSecrets : Bytes → Bytes

variable (lib : LogLibrary)

def LogLibrary.sha256_8 (s : Bytes) : Bytes := hexEncode ((lib.sha256 s).take 4)

def looksSecretKey (key : Bytes) : Bool :=
  (["token", "password", "key", "secret"].map ascii).any fun needle => needle <:+: key.map Provider.lower

/-- What a string is logged as. -/
def capString (s : Bytes) : Bytes :=
  if 256 < s.length then
    ascii "<str len=" ++ decimal s.length ++ ascii " sha256_8=" ++ lib.sha256_8 s ++ ascii ">"
  else s

/-- `redactAndCap`, with the levels that are left. -/
def redactAndCap : ℕ → JsonValue → JsonValue
  | 0, .object _ => .text "<object>"
  | depth + 1, .object ms =>
    .object (ms.map fun m => (m.1, if looksSecretKey m.1 then .text "***" else redactAndCap depth m.2))
  | _, .array xs =>
    .string (ascii "<array len=" ++ decimal xs.length ++ ascii " sha256_8=" ++ lib.sha256_8 (lib.dump (.array xs)) ++
      ascii ">")
  | _, .string s => .string (capString lib s)
  | _, v => v

/-- What a call brings besides its arguments. -/
structure CallCtx where
  level : Level
  clientTag : Bytes
  era : ProtocolEra
  cancelled : Bool
  latency : JsonValue

/-- `CallCtx::era`. -/
def eraName : ProtocolEra → String
  | .legacy => "legacy"
  | .modern => "modern"

/-- The log shows the arguments. -/
def showsArgs (level : Level) (errorClass : Option ErrorClass) : Bool := level = .debug ∨ errorClass = some .schema

/-- The line of a call, without the arguments. -/
def callLine (tool : Bytes) (ctx : CallCtx) (errorClass : Option ErrorClass) : JsonValue :=
  let line := JsonValue.obj [("event", .text "tool_call"), ("tool", .string tool), ("latency_ms", ctx.latency)]
  let line := if ctx.clientTag = [] then line else line.set (ascii "client") (.string ctx.clientTag)
  let line := line.set (ascii "era") (.text (eraName ctx.era))
  match errorClass with
  | none => line
  | some c => line.set (ascii "error_class") (.text c.name)

/-- The line of `toolCall`. Every level is at least `Info`. -/
def toolCall (tool : Bytes) (argsRedactedCapped : JsonValue) (ctx : CallCtx) (errorClass : Option ErrorClass) : JsonValue :=
  let line := callLine tool ctx errorClass
  if showsArgs ctx.level errorClass then line.set (ascii "args") argsRedactedCapped else line

def exceptionDetail (tool detail : Bytes) : JsonValue :=
  .obj [("event", .text "exception"), ("where", .string tool), ("detail", .string detail), ("level", .text "error")]

/-! ### The run of a tool -/

/-- What a handler throws. -/
inductive Raised where
  | tool (e : ToolError)
  | std (what : Bytes)

/-- What a handler or a run leaves: its log lines and its result. -/
structure Done (ε : Type) where
  lines : List JsonValue
  result : Except ε JsonValue

/-- The checks and the handler. -/
def attempt (spec : Tools.ToolSpec) (handler : JsonValue → Done Raised) (args : JsonValue) (cancelled : Bool) : Done Raised :=
  match validateArgs spec args with
  | .error e => ⟨[], .error (.tool e)⟩
  | .ok () =>
    let done := handler (withoutNullDefaults spec args)
    match done.result with
    | .ok r =>
      if cancelled then ⟨done.lines, .error (.tool ⟨.cancelled, ascii "call was cancelled by the client"⟩)⟩
      else ⟨done.lines, .ok r⟩
    | .error e => ⟨done.lines, .error e⟩

/-- `runTool`: the line of the call comes last, whatever happened. -/
def runTool (tool : Bytes) (spec : Tools.ToolSpec) (handler : JsonValue → Done Raised) (args : JsonValue) (ctx : CallCtx) :
    Done ToolError :=
  let done := attempt spec handler args ctx.cancelled
  let line := toolCall tool (redactAndCap lib 2 args) ctx
  match done.result with
  | .ok r => ⟨done.lines ++ [line none], .ok r⟩
  | .error (.tool e) => ⟨done.lines ++ [line (some e.errorClass)], .error e⟩
  | .error (.std what) =>
    ⟨done.lines ++ [exceptionDetail tool (lib.sanitizeSecrets what), line (some .serverInternal)],
      .error ⟨.serverInternal, ascii "internal error"⟩⟩

/-! ### The call of `fractalsql_set_config` -/

def setConfigName : Bytes := ascii "fractalsql_set_config"

def setConfigSpec : Tools.ToolSpec :=
  ⟨[{ name := ascii "key", type := .string, required := true }, { name := ascii "value", type := .string, required := true }]⟩

def Edit.done (e : Edit) : Done Raised := ⟨e.lines, e.result.mapError .tool⟩

/-- The run on the arguments. -/
def runSetConfig (mode : ConfigWritesMode) (env : EditEnv) (ctx : CallCtx) (args : JsonValue) : Done ToolError :=
  runTool lib setConfigName setConfigSpec
    (fun a => (setConfig mode env ctx.clientTag ((a.stringMember (ascii "key")).getD [])
      ((a.stringMember (ascii "value")).getD [])).done)
    args ctx

/-- What `handleToolsCall` hands to `runTool`, when nothing refuses the call before. -/
def handedOver (srv : JsonRpcServer) (acquire : Rpc.ToolSpec → Option ToolError) (opts : CallOptions) (params : JsonValue) :
    Option (Rpc.ToolSpec × JsonValue) :=
  match srv.byName ((params.stringMember (ascii "name")).getD []) with
  | none => none
  | some spec =>
    let args := (params.find (ascii "arguments")).getD (.obj [])
    if srv.readOnlyMode && spec.destructiveHint then none
    else if opts.toolAllow.any fun allow => !allow.contains ((params.stringMember (ascii "name")).getD []) then none
    else if !args.isObject then none
    else
      let args := args.erase (ascii "context_id")
      if takesAutoExecute spec.name && (args.find (ascii "auto_execute")).bind JsonValue.asBool == some true &&
          !srv.autoExecuteAllowed then none
      else if (acquire spec).isSome then none
      else some (spec, args)

section HandedOver
variable {json : JsonLibrary} {srv : JsonRpcServer} {h : Handling} {opts : CallOptions} {params : JsonValue}

/-- The result of a call that is handed over is that of the tool. -/
theorem handleToolsCall_of_some {spec : Rpc.ToolSpec} {args : JsonValue}
    (hover : handedOver srv h.acquire opts params = some (spec, args)) :
    handleToolsCall json srv h opts params = finishCall json h opts (h.runTool spec args) := by
  unfold handedOver at hover
  unfold handleToolsCall
  dsimp only at hover ⊢
  cases hspec : srv.byName ((params.stringMember (ascii "name")).getD []) with
  | none =>
    rw [hspec] at hover
    cases hover
  | some found =>
    rw [hspec] at hover
    dsimp only at hover ⊢
    split_ifs at hover ⊢ with _ _ _ _ hgate
    cases hover
    rw [Option.not_isSome_iff_eq_none.mp hgate]

/-- A call that is not handed over is an error, whatever the tool does. -/
theorem handleToolsCall_of_none (hover : handedOver srv h.acquire opts params = none) :
    ∃ e, handleToolsCall json srv h opts params = .error (.tool e) := by
  unfold handedOver at hover
  unfold handleToolsCall
  dsimp only at hover ⊢
  cases hspec : srv.byName ((params.stringMember (ascii "name")).getD []) with
  | none => exact ⟨_, rfl⟩
  | some found =>
    rw [hspec] at hover
    dsimp only at hover ⊢
    split_ifs at hover ⊢ with _ _ _ _ hgate
    any_goals exact ⟨_, rfl⟩
    obtain ⟨e, he⟩ := Option.isSome_iff_exists.mp hgate
    exact ⟨e, by rw [he]⟩

end HandedOver

section Call
variable (srv : JsonRpcServer) (acquire : Rpc.ToolSpec → Option ToolError) (opts : CallOptions) (mode : ConfigWritesMode)
  (env : EditEnv) (ctx : CallCtx) (params args : JsonValue)

/-- The parameters of a call with a value. -/
def callWith (v : Bytes) : JsonValue := params.set (ascii "arguments") (args.set (ascii "value") (.string v))

def ranSetConfig (v : Bytes) : Option (Done ToolError) :=
  (handedOver srv acquire opts (callWith params args v)).map fun a => runSetConfig lib mode env ctx a.2

/-- Everything that is logged for the call. -/
def logLines (v : Bytes) : List JsonValue := ((ranSetConfig lib srv acquire opts mode env ctx params args v).map Done.lines).getD []

def errorClassOf {α : Type} : Except ToolError α → Option ErrorClass
  | .ok _ => none
  | .error e => some e.errorClass

/-- The way the call ends. -/
def outcome (v : Bytes) : Option (Option ErrorClass) :=
  (ranSetConfig lib srv acquire opts mode env ctx params args v).map fun done => errorClassOf done.result

/-- Of two values of one length on one path the log shows the same. -/
def Hidden (v v' : Bytes) : Prop :=
  v.length = v'.length →
    outcome lib srv acquire opts mode env ctx params args v = outcome lib srv acquire opts mode env ctx params args v' →
    logLines lib srv acquire opts mode env ctx params args v = logLines lib srv acquire opts mode env ctx params args v'

/-- The call gets as far as the tool. -/
def Passes : Prop :=
  ∃ spec, srv.byName setConfigName = some spec ∧ (srv.readOnlyMode && spec.destructiveHint) = false ∧
    (opts.toolAllow.any fun allow => !allow.contains setConfigName) = false ∧ acquire spec = none

/-- The edit of a secret key is refused for what it asks. -/
def schemaRefused (key v : Bytes) : Bool :=
  key ≠ ascii "reasoning_token" || !configWriteAllowed mode key || v.all isSpace ||
    env.file.any fun text => (confProblem ((readConf text).assign key v)).isSome

end Call

/-! ### Redaction -/

section Redaction
variable {lib : LogLibrary}

theorem redactAndCap_set (j : JsonValue) (depth : ℕ) {key : Bytes} (v : JsonValue) (h : looksSecretKey key = false)
    (hobj : j.isObject = true) :
    redactAndCap lib (depth + 1) (j.set key v) = (redactAndCap lib (depth + 1) j).set key (redactAndCap lib depth v) := by
  cases j with
  | object ms =>
    simp only [JsonValue.set, redactAndCap, List.map_cons, h, Bool.false_eq_true, if_false, List.filter_map]
    rfl
  | _ => cases hobj

theorem redactAndCap_isObject {j : JsonValue} (depth : ℕ) (h : j.isObject = true) :
    (redactAndCap lib (depth + 1) j).isObject = true := by
  cases j with
  | object ms => rfl
  | _ => cases h

/-- Two strings of one length are logged alike only if they are one or have one digest. -/
theorem capString_eq_iff {v v' : Bytes} (h : v.length = v'.length) :
    capString lib v = capString lib v' ↔ v = v' ∨ 256 < v.length ∧ lib.sha256_8 v = lib.sha256_8 v' := by
  unfold capString
  rw [← h]
  by_cases hlong : 256 < v.length
  · rw [if_pos hlong, if_pos hlong, List.append_left_inj, List.append_right_inj]
    constructor
    · exact fun heq => .inr ⟨hlong, heq⟩
    · rintro (rfl | ⟨-, heq⟩)
      · rfl
      · exact heq
  · rw [if_neg hlong, if_neg hlong]
    exact ⟨.inl, fun hc => hc.elim id fun hd => absurd hd.1 hlong⟩

theorem callLine_isObject (tool : Bytes) (ctx : CallCtx) (c : Option ErrorClass) : (callLine tool ctx c).isObject = true := by
  unfold callLine
  cases c <;> simp only [JsonValue.isObject_set] <;> split <;> rfl

/-- The lines of two calls that end alike are the same exactly when they show the same. -/
theorem toolCall_eq_iff {tool : Bytes} {shown shown' : JsonValue} {ctx : CallCtx} {c : Option ErrorClass} :
    toolCall tool shown ctx c = toolCall tool shown' ctx c ↔ (showsArgs ctx.level c = true → shown = shown') := by
  unfold toolCall
  by_cases hshow : showsArgs ctx.level c = true
  · rw [forall_prop_of_true hshow]
    simp only [if_pos hshow]
    constructor
    · intro heq
      have hfind := congrArg (JsonValue.find (ascii "args")) heq
      rw [JsonValue.find_set_self (callLine_isObject ..), JsonValue.find_set_self (callLine_isObject ..)] at hfind
      exact Option.some.inj hfind
    · rintro rfl
      rfl
  · simp only [if_neg hshow]
    exact iff_of_true trivial fun hc => absurd hc hshow

/-- The arguments are shown with the value as it is capped. -/
theorem redacted_args_eq_iff {args : JsonValue} (hargs : args.isObject = true) {v v' : Bytes} :
    redactAndCap lib 2 (args.set (ascii "value") (.string v)) = redactAndCap lib 2 (args.set (ascii "value") (.string v')) ↔
      capString lib v = capString lib v' := by
  have hname : looksSecretKey (ascii "value") = false := by decide
  have hobj : (redactAndCap lib (1 + 1) args).isObject = true := redactAndCap_isObject 1 hargs
  rw [redactAndCap_set _ _ _ hname hargs, redactAndCap_set _ _ _ hname hargs]
  constructor
  · intro heq
    have hfind := congrArg (JsonValue.find (ascii "value")) heq
    rw [JsonValue.find_set_self hobj, JsonValue.find_set_self hobj] at hfind
    exact JsonValue.string.inj (Option.some.inj hfind)
  · intro heq
    simp only [redactAndCap, heq]

end Redaction

/-! ### The edit of a secret key -/

theorem secretKey_cases {key : Bytes} (h : isSecretKey key = true) :
    key = ascii "reasoning_token" ∨ key ≠ ascii "reasoning_token" ∧
      (isOperatorOnlyKey key = true ∨ isOperatorOnlyKey key = false ∧ isEditableKey key = false) := by
  have hall : kSecretKeys.all (fun k => k = ascii "reasoning_token" ∨ k ≠ ascii "reasoning_token" ∧
      (isOperatorOnlyKey k = true ∨ isOperatorOnlyKey k = false ∧ isEditableKey k = false)) = true := by
    simp only [kSecretKeys, isOperatorOnlyKey, kOperatorOnlyKeys, isEditableKey, kEditableKeys, List.map_cons, List.map_nil]
    repeat rw [ascii_ofList]
    decide
  exact of_decide_eq_true (List.all_eq_true.mp hall key (List.contains_iff_mem.mp h))

theorem reasoningToken_keys : isOperatorOnlyKey (ascii "reasoning_token") = false ∧
    isEditableKey (ascii "reasoning_token") = true ∧ isSecretKey (ascii "reasoning_token") = true := by
  simp only [isSecretKey, kSecretKeys, isOperatorOnlyKey, kOperatorOnlyKeys, isEditableKey, kEditableKeys, List.map_cons,
    List.map_nil]
  repeat rw [ascii_ofList]
  decide

theorem storedValue_reasoningToken (v : Bytes) : storedValue (ascii "reasoning_token") v = v := by
  apply if_neg
  rw [ascii_ofList, ascii_ofList]
  decide

theorem valueProblem_reasoningToken (v : Bytes) : valueProblem (ascii "reasoning_token") v =
    if v.all isSpace then some (ascii "empty value: the daemon's config refuses empty values") else none := by
  have hstored := storedValue_reasoningToken v
  have hpath : pathProblem (ascii "reasoning_token") v = none := if_pos (by decide)
  have hattempts : ascii "reasoning_token" ≠ ascii "t2s_max_attempts" := by
    rw [ascii_ofList, ascii_ofList]
    decide
  have hallowed : ascii "reasoning_token" ≠ ascii "t2s_allowed_statements" := by
    rw [ascii_ofList, ascii_ofList]
    decide
  have hnumCtx : ascii "reasoning_token" ≠ ascii "think_num_ctx" := by
    rw [ascii_ofList, ascii_ofList]
    decide
  rw [valueProblem, if_neg fun h => hattempts h.1, if_neg fun h => hallowed h.1, if_neg fun h => hnumCtx h.1, hstored, hpath]

/-- What the edit of a secret key logs and how it ends, by whether it is refused for what it asks. -/
def settled (mode : ConfigWritesMode) (env : EditEnv) (client key : Bytes) (refused : Bool) :
    List JsonValue × Option ErrorClass :=
  if refused then
    (if key = ascii "reasoning_token" ∧ configWriteAllowed mode key = false then [configWriteRefused mode client key] else [],
      some .schema)
  else if env.file = none ∨ env.replaceable = false then ([], some .connectivity)
  else ([configChange key (ascii "<redacted>") (ascii "<redacted>")], none)

/-- The value decides no more than that. -/
theorem setConfig_settled (mode : ConfigWritesMode) (env : EditEnv) (client : Bytes) {key : Bytes}
    (h : isSecretKey key = true) (v : Bytes) :
    ((setConfig mode env client key v).lines, errorClassOf (setConfig mode env client key v).result) =
      settled mode env client key (schemaRefused mode env key v) := by
  obtain ⟨hoper, hedit, hsecret⟩ := reasoningToken_keys
  rcases secretKey_cases h with rfl | ⟨hne, hkey⟩
  · have hstored := storedValue_reasoningToken v
    unfold setConfig schemaRefused
    rw [if_neg (by simp [hoper]), if_neg (by simp [hedit]), valueProblem_reasoningToken, hstored]
    cases hallow : configWriteAllowed mode (ascii "reasoning_token") with
    | false => simp [settled, refuseConfigWrite, errorClassOf, hallow]
    | true =>
      by_cases hspace : v.all isSpace = true
      · simp [settled, Edit.refused, errorClassOf, hspace, hallow]
      · simp only [hspace, changeKey, EditEnv.readConf]
        cases hfile : env.file with
        | none => simp [settled, Edit.refused, errorClassOf, hfile, unreadable]
        | some text =>
          cases hproblem : confProblem ((readConf text).assign (ascii "reasoning_token") v) with
          | some message => simp [settled, Edit.refused, errorClassOf, hproblem, EditEnv.writeConf, hallow]
          | none =>
            cases hplace : env.replaceable with
            | false => simp [settled, Edit.refused, errorClassOf, hproblem, EditEnv.writeConf, hfile, hplace, notReplaced]
            | true =>
              simp [settled, errorClassOf, hproblem, EditEnv.writeConf, hfile, hplace, redacted, hsecret]
  · have hrefused : schemaRefused mode env key v = true := by simp [schemaRefused, hne]
    rw [hrefused, settled, if_pos rfl, if_neg fun hc => hne hc.1]
    unfold setConfig
    rcases hkey with hoper | ⟨hoper, hedit⟩
    · rw [if_pos hoper]
      rfl
    · rw [if_neg (by simp [hoper]), if_pos (by simp [hedit])]
      rfl

/-! ### The call -/

theorem erase_set_comm (j v : JsonValue) {key other : Bytes} (h : key ≠ other) :
    (j.set key v).erase other = (j.erase other).set key v := by
  cases j with
  | object ms =>
    simp only [JsonValue.set, JsonValue.erase, List.filter_cons, decide_eq_true (show key ≠ other from h), if_true,
      List.filter_comm]
  | _ => rfl

/-- The line of `runTool` stands behind the lines of the handler. -/
theorem runTool_of_done {tool : Bytes} {spec : Tools.ToolSpec} {handler : JsonValue → Done Raised} {args : JsonValue}
    {ctx : CallCtx} {lines : List JsonValue} {result : Except ToolError JsonValue}
    (h : attempt spec handler args ctx.cancelled = ⟨lines, result.mapError .tool⟩) :
    runTool lib tool spec handler args ctx =
      ⟨lines ++ [toolCall tool (redactAndCap lib 2 args) ctx (errorClassOf result)], result⟩ := by
  cases result <;> rw [runTool, h] <;> rfl

/-- How a run ends by how its handler ended. -/
def finalClass (cancelled : Bool) (c : Option ErrorClass) : Option ErrorClass :=
  if cancelled && c.isNone then some .cancelled else c

section Run
variable {mode : ConfigWritesMode} {env : EditEnv} (ctx : CallCtx) {args : JsonValue} {key : Bytes}

theorem withoutNullDefaults_setConfig (hobj : args.isObject = true) (hkey : args.find (ascii "key") = some (.string key))
    (v : Bytes) : withoutNullDefaults setConfigSpec (args.set (ascii "value") (.string v)) =
      args.set (ascii "value") (.string v) := by
  have hk : (args.set (ascii "value") (.string v)).find (ascii "key") = some (.string key) := by
    rw [JsonValue.find_set_of_ne _ _ (by decide), hkey]
  simp [withoutNullDefaults, setConfigSpec, hk, JsonValue.find_set_self hobj, JsonValue.isNull]

theorem validateArgs_setConfig (hobj : args.isObject = true) (hkey : args.find (ascii "key") = some (.string key))
    (v : Bytes) : validateArgs setConfigSpec (args.set (ascii "value") (.string v)) = .ok () := by
  have hk : (args.set (ascii "value") (.string v)).find (ascii "key") = some (.string key) := by
    rw [JsonValue.find_set_of_ne _ _ (by decide), hkey]
  refine validateArgs_ok_iff.mpr ⟨(JsonValue.isObject_set ..).trans hobj, List.forall_mem_cons.mpr ⟨?_,
    List.forall_mem_singleton.mpr ?_⟩⟩
  · rw [hk]
    exact ⟨rfl, nofun⟩
  · rw [JsonValue.find_set_self hobj]
    exact ⟨rfl, nofun⟩

/-- A run on a secret key: the lines of the edit, and the line of the call. -/
theorem runSetConfig_eq (hobj : args.isObject = true) (hkey : args.find (ascii "key") = some (.string key))
    (hsecret : isSecretKey key = true) (v : Bytes) {refused : Bool} (hrefused : schemaRefused mode env key v = refused) :
    let done := runSetConfig lib mode env ctx (args.set (ascii "value") (.string v))
    let out := settled mode env ctx.clientTag key refused
    errorClassOf done.result = finalClass ctx.cancelled out.2 ∧
      done.lines = out.1 ++ [toolCall setConfigName (redactAndCap lib 2 (args.set (ascii "value") (.string v))) ctx
        (finalClass ctx.cancelled out.2)] := by
  subst hrefused
  have hsettled := setConfig_settled mode env ctx.clientTag hsecret v
  rw [← hsettled]
  dsimp only
  have hgiven : ((args.set (ascii "value") (.string v)).stringMember (ascii "key")).getD [] = key ∧
      ((args.set (ascii "value") (.string v)).stringMember (ascii "value")).getD [] = v := by
    rw [JsonValue.stringMember, JsonValue.stringMember, JsonValue.find_set_self hobj,
      JsonValue.find_set_of_ne _ _ (by decide), hkey]
    exact ⟨rfl, rfl⟩
  have hattempt (r : Except ToolError JsonValue)
      (hr : r = if ctx.cancelled && (errorClassOf (setConfig mode env ctx.clientTag key v).result).isNone then
        .error ⟨.cancelled, ascii "call was cancelled by the client"⟩ else (setConfig mode env ctx.clientTag key v).result) :
      runSetConfig lib mode env ctx (args.set (ascii "value") (.string v)) =
        ⟨(setConfig mode env ctx.clientTag key v).lines ++ [toolCall setConfigName
          (redactAndCap lib 2 (args.set (ascii "value") (.string v))) ctx (errorClassOf r)], r⟩ := by
    apply runTool_of_done
    rw [attempt, validateArgs_setConfig hobj hkey v]
    dsimp only
    rw [withoutNullDefaults_setConfig hobj hkey v, hgiven.1, hgiven.2, hr, Edit.done]
    cases (setConfig mode env ctx.clientTag key v).result with
    | error e => cases ctx.cancelled <;> rfl
    | ok out => cases ctx.cancelled <;> rfl
  rw [hattempt _ rfl]
  have hclass (r : Except ToolError JsonValue) : errorClassOf (if ctx.cancelled && (errorClassOf r).isNone then
      .error ⟨.cancelled, ascii "call was cancelled by the client"⟩ else r) = finalClass ctx.cancelled (errorClassOf r) := by
    unfold finalClass
    split <;> rfl
  exact ⟨hclass _, by rw [hclass]⟩

end Run

/-! ### Two values -/

section Values
variable {srv : JsonRpcServer} {acquire : Rpc.ToolSpec → Option ToolError} {opts : CallOptions} {mode : ConfigWritesMode}
  {env : EditEnv} {ctx : CallCtx} {params args : JsonValue} {key : Bytes}

theorem handedOver_callWith (hparams : params.isObject = true) (hname : params.stringMember (ascii "name") = some setConfigName)
    (hargs : args.isObject = true) (v : Bytes) (r : Option JsonValue) :
    (handedOver srv acquire opts (callWith params args v)).map Prod.snd = r ↔
      Passes srv acquire opts ∧ r = some ((args.erase (ascii "context_id")).set (ascii "value") (.string v)) ∨
        ¬ Passes srv acquire opts ∧ r = none := by
  have hcall : (callWith params args v).stringMember (ascii "name") = some setConfigName := by
    rw [callWith, JsonValue.stringMember, JsonValue.find_set_of_ne _ _ (by decide)]
    exact hname
  have harguments : (callWith params args v).find (ascii "arguments") = some (args.set (ascii "value") (.string v)) :=
    JsonValue.find_set_self hparams _ _
  have hobj : (args.set (ascii "value") (.string v)).isObject = true := (JsonValue.isObject_set ..).trans hargs
  have hnone (hp : ¬ Passes srv acquire opts) : (none = r ↔ Passes srv acquire opts ∧
      r = some ((args.erase (ascii "context_id")).set (ascii "value") (.string v)) ∨ ¬ Passes srv acquire opts ∧ r = none) := by
    simp [hp, eq_comm]
  unfold handedOver
  simp only [hcall, harguments, Option.getD_some, hobj]
  cases hspec : srv.byName setConfigName with
  | none =>
    apply hnone
    rintro ⟨spec, hs, -⟩
    rw [hspec] at hs
    cases hs
  | some spec =>
    have hauto : takesAutoExecute spec.name = false := by
      rw [JsonRpcServer.byName] at hspec
      have hsame := List.find?_some hspec
      rw [of_decide_eq_true hsame]
      decide
    have hgate : Passes srv acquire opts ↔ (srv.readOnlyMode && spec.destructiveHint) = false ∧
        (opts.toolAllow.any fun allow => !allow.contains setConfigName) = false ∧ acquire spec = none := by
      simp only [Passes, hspec, Option.some.injEq, exists_eq_left']
    dsimp only
    by_cases hread : (srv.readOnlyMode && spec.destructiveHint) = true
    · rw [if_pos hread]
      exact hnone fun hp => absurd (hgate.mp hp).1 (by simp [hread])
    rw [if_neg hread]
    by_cases hallow : (opts.toolAllow.any fun allow => !allow.contains setConfigName) = true
    · rw [if_pos hallow]
      exact hnone fun hp => absurd (hgate.mp hp).2.1 (by rw [hallow]; exact nofun)
    rw [if_neg hallow, if_neg (by simp), if_neg (by simp [hauto])]
    cases hacquire : acquire spec with
    | some e =>
      rw [Option.isSome_some, if_pos rfl]
      exact hnone fun hp => absurd (hgate.mp hp).2.2 (by simp [hacquire])
    | none =>
      have hp : Passes srv acquire opts := hgate.mpr ⟨eq_false_of_ne_true hread, eq_false_of_ne_true hallow, hacquire⟩
      rw [Option.isSome_none, if_neg Bool.false_ne_true, Option.map_some, erase_set_comm _ _ (by decide)]
      simp [hp, eq_comm]

theorem showsArgs_settled (refused : Bool) :
    showsArgs ctx.level (finalClass ctx.cancelled (settled mode env ctx.clientTag key refused).2) = true ↔
      ctx.level = .debug ∨ refused = true := by
  cases refused with
  | true => simp [showsArgs, finalClass, settled]
  | false =>
    by_cases hfile : env.file = none ∨ env.replaceable = false
    · simp [showsArgs, finalClass, settled, hfile]
    · cases hc : ctx.cancelled <;> simp [showsArgs, finalClass, settled, hfile]

/-- The way the call ends tells no more than whether it is refused for what it asks. -/
theorem finalClass_settled_inj {refused refused' : Bool} :
    finalClass ctx.cancelled (settled mode env ctx.clientTag key refused).2 =
        finalClass ctx.cancelled (settled mode env ctx.clientTag key refused').2 ↔ refused = refused' := by
  constructor
  · intro heq
    have hinfo (b : Bool) := @showsArgs_settled mode env { ctx with level := .info } key b
    have hboth := (hinfo refused).symm.trans ((Iff.of_eq (by rw [heq])).trans (hinfo refused'))
    simpa using hboth
  · rintro rfl
    rfl

theorem ranSetConfig_eq (hparams : params.isObject = true) (hname : params.stringMember (ascii "name") = some setConfigName)
    (hargs : args.isObject = true) (v : Bytes) :
    (Passes srv acquire opts → ranSetConfig lib srv acquire opts mode env ctx params args v =
        some (runSetConfig lib mode env ctx ((args.erase (ascii "context_id")).set (ascii "value") (.string v)))) ∧
      (¬ Passes srv acquire opts → ranSetConfig lib srv acquire opts mode env ctx params args v = none) := by
  have hran : ranSetConfig lib srv acquire opts mode env ctx params args v =
      ((handedOver srv acquire opts (callWith params args v)).map Prod.snd).map (runSetConfig lib mode env ctx) := by
    rw [ranSetConfig, Option.map_map]
    rfl
  rw [hran]
  constructor
  · intro hp
    rw [(handedOver_callWith hparams hname hargs v _).mpr (.inl ⟨hp, rfl⟩)]
    rfl
  · intro hp
    rw [(handedOver_callWith hparams hname hargs v _).mpr (.inr ⟨hp, rfl⟩)]
    rfl

/-- The values of a call that reaches the tool. -/
theorem hidden_iff_of_passes (hparams : params.isObject = true)
    (hname : params.stringMember (ascii "name") = some setConfigName) (hargs : args.isObject = true)
    (hkey : args.stringMember (ascii "key") = some key) (hsecret : isSecretKey key = true)
    (hp : Passes srv acquire opts) (v v' : Bytes) :
    Hidden lib srv acquire opts mode env ctx params args v v' ↔
      ((ctx.level = .debug ∨ schemaRefused mode env key v = true) → v.length = v'.length →
        schemaRefused mode env key v = schemaRefused mode env key v' →
          v = v' ∨ 256 < v.length ∧ lib.sha256_8 v = lib.sha256_8 v') := by
  have hbase : (args.erase (ascii "context_id")).isObject = true := (JsonValue.isObject_erase ..).trans hargs
  have hbasekey : (args.erase (ascii "context_id")).find (ascii "key") = some (.string key) := by
    obtain ⟨j, hj, hs⟩ := Option.bind_eq_some_iff.mp hkey
    rw [JsonValue.find_erase, if_neg (by decide), hj]
    cases j <;> cases hs
    rfl
  obtain ⟨hclass, hlines⟩ := runSetConfig_eq lib ctx hbase hbasekey hsecret v (rfl : schemaRefused mode env key v = _)
  obtain ⟨hclass', hlines'⟩ := runSetConfig_eq lib ctx hbase hbasekey hsecret v' (rfl : schemaRefused mode env key v' = _)
  unfold Hidden outcome logLines
  simp only [(ranSetConfig_eq lib hparams hname hargs _).1 hp, Option.map_some, Option.some.injEq, Option.getD_some, hclass,
    hclass', hlines, hlines', finalClass_settled_inj]
  constructor
  · intro h hshow hlen hsame
    have heq := h hlen hsame
    rw [hsame, List.append_cancel_left_eq, List.cons.injEq, toolCall_eq_iff, ← hsame, showsArgs_settled,
      redacted_args_eq_iff hbase] at heq
    exact (capString_eq_iff hlen).mp (heq.1 hshow)
  · intro h hlen hsame
    rw [hsame, List.append_cancel_left_eq, List.cons.injEq, toolCall_eq_iff, ← hsame, showsArgs_settled,
      redacted_args_eq_iff hbase]
    exact ⟨fun hshow => (capString_eq_iff hlen).mpr (h hshow hlen hsame), rfl⟩

/-- Of a call with a secret key, the log hides the value from whoever knows its length and the way
the call ends exactly when the arguments are not shown, or their redaction happens to be the same:
the values are one, or both are long with one digest. -/
theorem secret_hidden_iff (lib : LogLibrary) (srv : JsonRpcServer) (acquire : Rpc.ToolSpec → Option ToolError)
    (opts : CallOptions) (mode : ConfigWritesMode) (env : EditEnv) (ctx : CallCtx) (params args : JsonValue) (key : Bytes)
    (hparams : params.isObject = true) (hname : params.stringMember (ascii "name") = some setConfigName)
    (hargs : args.isObject = true) (hkey : args.stringMember (ascii "key") = some key) (hsecret : isSecretKey key = true)
    (v v' : Bytes) :
    Hidden lib srv acquire opts mode env ctx params args v v' ↔
      (Passes srv acquire opts → (ctx.level = .debug ∨ schemaRefused mode env key v = true) → v.length = v'.length →
        schemaRefused mode env key v = schemaRefused mode env key v' →
          v = v' ∨ 256 < v.length ∧ lib.sha256_8 v = lib.sha256_8 v') := by
  by_cases hp : Passes srv acquire opts
  · rw [forall_prop_of_true hp]
    exact hidden_iff_of_passes lib hparams hname hargs hkey hsecret hp v v'
  · refine iff_of_true (fun _ _ => ?_) fun hpass => absurd hpass hp
    simp only [logLines, (ranSetConfig_eq lib hparams hname hargs _).2 hp]

end Values

/-! ### A server that logs no verbose lines -/

def sampleLog : LogLibrary := ⟨fun _ => [], fun s => s, fun s => s⟩

def sampleServer : JsonRpcServer := { tools := [⟨setConfigName, true⟩] }

def sampleCtx : CallCtx := ⟨.info, [], .legacy, false, .number (ascii "3")⟩

def sampleParams : JsonValue := .obj [("name", .string setConfigName)]

def sampleArgs : JsonValue := .obj [("key", .text "reasoning_token")]

theorem secret_hidden_accepted :
    Hidden sampleLog sampleServer (fun _ => none) {} .all ⟨[], some [], true, none⟩ sampleCtx sampleParams sampleArgs
      (ascii "s3cr") (ascii "abcd") := by
  apply (secret_hidden_iff sampleLog sampleServer _ _ _ _ _ _ _ (ascii "reasoning_token") rfl rfl rfl rfl
    reasoningToken_keys.2.2 _ _).mpr
  intro _ hshow
  have hquiet : sampleCtx.level ≠ .debug := nofun
  have haccepted : schemaRefused .all ⟨[], some [], true, none⟩ (ascii "reasoning_token") (ascii "s3cr") = false := by decide
  rw [haccepted] at hshow
  exact absurd hshow (not_or.mpr ⟨hquiet, Bool.false_ne_true⟩)

/-- A token that the config-writes switch refuses is in the line of the refusal. -/
theorem refused_token_logged :
    ¬ Hidden sampleLog sampleServer (fun _ => none) {} .safe ⟨[], some [], true, none⟩ sampleCtx sampleParams sampleArgs
      (ascii "s3cr") (ascii "abcd") := by
  intro h
  have hp : Passes sampleServer (fun _ => none) {} := ⟨⟨setConfigName, true⟩, rfl, rfl, rfl, rfl⟩
  have hrefused (v : Bytes) : schemaRefused .safe ⟨[], some [], true, none⟩ (ascii "reasoning_token") v = true := by
    have hsafe : isSafeConfigKey (ascii "reasoning_token") = false := by
      simp only [isSafeConfigKey, List.map_cons, List.map_nil]
      repeat rw [ascii_ofList]
      decide
    simp [schemaRefused, configWriteAllowed, hsafe]
  have hsame := (hidden_iff_of_passes sampleLog rfl rfl rfl rfl reasoningToken_keys.2.2 hp _ _).mp h (.inr (hrefused _))
  rw [ascii_ofList, ascii_ofList] at hsame
  exact absurd (hsame rfl ((hrefused _).trans (hrefused _).symm)) (not_or.mpr ⟨by decide, fun hc => absurd hc.1 (by decide)⟩)

end FractalSQL.Mcp.Admin
