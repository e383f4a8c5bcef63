import FractalSQL.Lib.Machine
import FractalSQL.Provider.Config

/-!
# What a reload derives from the configuration on Windows

The `_WIN32` part of `handle_reload`: the security descriptor of the pipe and the log file
follow the configuration. Whether to rebuild them is decided by the snapshot the requesting
connection borrowed when it began, which need not be the published one.
-/
namespace FractalSQL.Provider.Windows
open Lib

/-- The members of `struct fsq_config` a reload on Windows looks at. -/
structure Config where
  socketPath : Bytes
  keyPath : Bytes
  logPath : Bytes
  allowedSids : List Bytes
deriving DecidableEq

/-- `sids_changed`: the comparison of the entries is `_stricmp`. -/
def sidsChanged (next cur : Config) : Bool :=
  next.allowedSids.length ≠ cur.allowedSids.length ||
    (next.allowedSids.zip cur.allowedSids).any fun p => p.1.map lower ≠ p.2.map lower

/-- Where a reload can fail after its checks. -/
inductive Fault where
  | checks
  | pipeSd
  | logFile
  | provider
  | publish
deriving DecidableEq

structure State (SD : Type) where
  published : Config
  /-- `g_pipe_sd`. -/
  pipeSd : SD
  /-- The path of the file `g_logf` writes to. -/
  logFile : Option Bytes
  /-- The snapshots the connections have borrowed. -/
  borrowed : List Config := []

inductive Label where
  | connect
  /-- A RELOAD over connection `k`, which reads `next`. -/
  | reload (k : ℕ) (next : Config) (fault : Option Fault)

/-- The reply to a RELOAD. -/
inductive Event where
  | ok
  | refused
deriving DecidableEq

variable {SD : Type} (buildPipeSd : List Bytes → SD)

/-- The startup with a configuration, `logFile` being the default where it names none. -/
def State.start (cfg : Config) (logFile : Option Bytes) : State SD where
  published := cfg
  pipeSd := buildPipeSd cfg.allowedSids
  logFile := if cfg.logPath ≠ [] then some cfg.logPath else logFile

/-- `handle_reload` for a connection that borrowed `cur`. -/
def State.reload (s : State SD) (cur next : Config) (fault : Option Fault) : State SD × List Event :=
  if next.socketPath ≠ cur.socketPath ∨ next.keyPath ≠ cur.keyPath ∨ fault = some .checks then (s, [.refused])
  else
    let changed := sidsChanged next cur
    if changed ∧ fault = some .pipeSd then (s, [.refused])
    else
      let s := if changed then { s with pipeSd := buildPipeSd next.allowedSids } else s
      let relog := next.logPath ≠ [] ∧ next.logPath ≠ cur.logPath
      if relog ∧ fault = some .logFile then (s, [.refused])
      else
        let s := if relog then { s with logFile := some next.logPath } else s
        if fault = some .provider ∨ fault = some .publish then (s, [.refused])
        else ({ s with published := next }, [.ok])

def State.step (s : State SD) : Label → Option (State SD × List Event)
  | .connect => some ({ s with borrowed := s.borrowed ++ [s.published] }, [])
  | .reload k next fault => (s.borrowed[k]?).map fun cur => s.reload buildPipeSd cur next fault

/-- What is derived is derived from the published snapshot. -/
structure State.InStep (s : State SD) : Prop where
  pipeSd : s.pipeSd = buildPipeSd s.published.allowedSids
  logFile : s.published.logPath ≠ [] → s.logFile = some s.published.logPath

/-- The reload is answered OK, and what it leaves alone because it agrees with the borrowed
snapshot agrees with what is in force. -/
def Agrees (s : State SD) (_ : List Event) : Label → Prop
  | .connect => True
  | .reload k next fault => fault = none ∧ ∀ cur ∈ s.borrowed[k]?,
    (next.socketPath = cur.socketPath ∧ next.keyPath = cur.keyPath) ∧
    (sidsChanged next cur = false → sidsChanged next s.published = false) ∧
    (next.logPath ≠ [] → next.logPath = cur.logPath → s.logFile = some next.logPath)

instance (s : State SD) (log : List Event) : (a : Label) → Decidable (Agrees s log a)
  | .connect => isTrue trivial
  | .reload k next fault =>
    inferInstanceAs (Decidable (fault = none ∧ ∀ cur ∈ s.borrowed[k]?,
      (next.socketPath = cur.socketPath ∧ next.keyPath = cur.keyPath) ∧
      (sidsChanged next cur = false → sidsChanged next s.published = false) ∧
      (next.logPath ≠ [] → next.logPath = cur.logPath → s.logFile = some next.logPath)))

/-! ### One reload -/

variable {buildPipeSd}

theorem map_eq_of_not_changed {a b : Config} (h : sidsChanged a b = false) :
    a.allowedSids.map (List.map lower) = b.allowedSids.map (List.map lower) := by
  simp only [sidsChanged, Bool.or_eq_false_iff, decide_eq_false_iff_not, not_not] at h
  obtain ⟨hlen, hzip⟩ := h
  refine List.ext_getElem (by simpa using hlen) fun i ha hb => ?_
  rw [List.length_map] at ha hb
  rw [List.getElem_map, List.getElem_map]
  have hmem : (a.allowedSids[i], b.allowedSids[i]) ∈ a.allowedSids.zip b.allowedSids := by
    have hi : i < (a.allowedSids.zip b.allowedSids).length := by
      rw [List.length_zip]
      omega
    rw [← List.getElem_zip (h := hi)]
    exact List.getElem_mem hi
  simpa using List.any_eq_false.mp hzip _ hmem

/-- A reload that meets the condition is answered OK and leaves everything in step. -/
theorem State.InStep.reload (hcase : ∀ l l' : List Bytes, l.map (List.map lower) = l'.map (List.map lower) →
    buildPipeSd l = buildPipeSd l') {s : State SD} (h : s.InStep buildPipeSd) {cur next : Config}
    (hpaths : next.socketPath = cur.socketPath ∧ next.keyPath = cur.keyPath)
    (hsids : sidsChanged next cur = false → sidsChanged next s.published = false)
    (hlog : next.logPath ≠ [] → next.logPath = cur.logPath → s.logFile = some next.logPath) :
    (s.reload buildPipeSd cur next none).1.InStep buildPipeSd ∧ (s.reload buildPipeSd cur next none).2 = [.ok] := by
  have hnone : ¬ (next.socketPath ≠ cur.socketPath ∨ next.keyPath ≠ cur.keyPath ∨ (none : Option Fault) = some .checks) := by
    simp [hpaths]
  rw [State.reload, if_neg hnone]
  simp only [reduceCtorEq, and_false, or_self, if_false]
  refine ⟨⟨?_, fun hne => ?_⟩, trivial⟩
  · cases hchanged : sidsChanged next cur with
    | true => split <;> rfl
    | false =>
      have hsame : s.pipeSd = buildPipeSd next.allowedSids :=
        h.pipeSd.trans (hcase _ _ (map_eq_of_not_changed (hsids hchanged)).symm)
      split <;> exact hsame
  · by_cases hcur : next.logPath = cur.logPath
    · rw [if_neg (fun hr => hr.2 hcur)]
      split <;> exact hlog hne hcur
    · rw [if_pos ⟨hne, hcur⟩]

theorem State.InStep.step (hcase : ∀ l l' : List Bytes, l.map (List.map lower) = l'.map (List.map lower) →
    buildPipeSd l = buildPipeSd l') {s s' : State SD} {log es : List Event} {a : Label} (h : s.InStep buildPipeSd)
    (hagrees : Agrees s log a) (hstep : s.step buildPipeSd a = some (s', es)) : s'.InStep buildPipeSd := by
  cases a with
  | connect =>
    cases hstep
    exact ⟨h.pipeSd, h.logFile⟩
  | reload k next fault =>
    obtain ⟨cur, hcur, heq⟩ := Option.map_eq_some_iff.mp hstep
    obtain ⟨rfl, hagrees⟩ := hagrees
    obtain ⟨hpaths, hsids, hlog⟩ := hagrees cur hcur
    have hreload := (h.reload hcase hpaths hsids hlog).1
    rw [heq] at hreload
    exact hreload

/-! ### Runs -/

/-- In a run of reloads that agree with what is in force the pipe and the log follow the
published snapshot; a descriptor does not depend on how its SIDs are cased. -/
theorem agreeing_inStep (hcase : ∀ l l' : List Bytes, l.map (List.map lower) = l'.map (List.map lower) →
    buildPipeSd l = buildPipeSd l') {cfg : Config} {logFile : Option Bytes} {as : List Label}
    {c : Lib.Config (State SD) Event}
    (hmeet : StepsMeet (State.step buildPipeSd) Agrees ⟨State.start buildPipeSd cfg logFile, []⟩ as)
    (hrun : exec (State.step buildPipeSd) ⟨State.start buildPipeSd cfg logFile, []⟩ as = some c) :
    c.state.InStep buildPipeSd := by
  refine exec_invariant_of (I := fun s _ => s.InStep buildPipeSd) (fun hi hp hs => hi.step hcase hp hs) hmeet ?_ hrun
  refine ⟨rfl, fun hne => ?_⟩
  exact if_pos hne

/-- A descriptor that is its list of SIDs in lower case. -/
def foldedSids (l : List Bytes) : List Bytes := l.map (List.map lower)

def configWith (sid log : String) : Config := ⟨[112], [107], ascii log, [ascii sid]⟩

/-- The old connection reloads what differs from its snapshot and from the published one. -/
def newKeys : List Label :=
  [.connect, .reload 0 (configWith "S-1-5-20" "b.log") none, .connect,
    .reload 1 (configWith "S-1-5-19" "a.log") none, .reload 0 (configWith "S-1-5-18" "c.log") none]

/-- The old connection reloads the file it began with. -/
def backToFirst : List Label :=
  [.connect, .connect, .reload 1 (configWith "S-1-5-20" "b.log") none,
    .reload 0 (configWith "S-1-5-19" "a.log") none]

theorem newKeys_inStep :
    ∃ c, exec (State.step foldedSids) ⟨State.start foldedSids (configWith "S-1-5-19" "a.log") none, []⟩ newKeys =
        some c ∧ c.log = [.ok, .ok, .ok] ∧ c.state.InStep foldedSids := by
  have hmeet : StepsMeet (State.step foldedSids) Agrees
      ⟨State.start foldedSids (configWith "S-1-5-19" "a.log") none, []⟩ newKeys := by
    decide
  have hsome : (exec (State.step foldedSids) ⟨State.start foldedSids (configWith "S-1-5-19" "a.log") none, []⟩
      newKeys).any (fun c => c.log = [.ok, .ok, .ok]) = true := by
    decide
  obtain ⟨c, hrun, hc⟩ := (Option.any_eq_true _ _).mp hsome
  exact ⟨c, hrun, of_decide_eq_true hc, agreeing_inStep (fun _ _ h => h) hmeet hrun⟩

/-- Every reload is answered OK, and the pipe and the log stay those of the second file. -/
theorem stale_snapshot_keeps_descriptor :
    ¬ ∀ (cfg : Config) (logFile : Option Bytes) (as : List Label) (c : Lib.Config (State (List Bytes)) Event),
      exec (State.step foldedSids) ⟨State.start foldedSids cfg logFile, []⟩ as = some c → .refused ∉ c.log →
        c.state.InStep foldedSids := by
  intro h
  have hsome : (exec (State.step foldedSids) ⟨State.start foldedSids (configWith "S-1-5-19" "a.log") none, []⟩
      backToFirst).any (fun c => c.log = [.ok, .ok] ∧ c.state.published = configWith "S-1-5-19" "a.log" ∧
        c.state.logFile = some (ascii "b.log")) = true := by
    decide
  obtain ⟨c, hrun, hc⟩ := (Option.any_eq_true _ _).mp hsome
  obtain ⟨hlog, hpub, hfile⟩ := of_decide_eq_true hc
  have hstep := (h _ _ _ c hrun (by rw [hlog]; simp)).logFile (by rw [hpub]; simp [configWith, ascii])
  rw [hfile, hpub] at hstep
  revert hstep
  decide

end FractalSQL.Provider.Windows
