import FractalSQL.Mcp.StdioReplies

/-!
# The stdio transport comes back

When the client has closed its end, the threads of the server can bring the transport back from any
state without it: no thread waits for another one that waits for it.
-/
namespace FractalSQL.Mcp.Stdio
open Lib Rpc

/-- A step of the server. -/
def Label.own : Label → Bool
  | .main | .answer _ _ | .write _ | .store _ => true
  | _ => false

/-! ### What is left to be done -/

def Phase.left : Phase → ℕ
  | .handling => 3
  | .writing _ => 2
  | .storing => 1
  | .finished => 0

/-- Where the main thread gets without reading a byte. -/
def Reader.left : Reader → ℕ
  | .reading out => if out = [] then 3 else 7
  | .line _ => 6
  | .spawning _ _ => 5
  | .top => 4
  | .draining => 2
  | .joining _ => 1
  | .returned => 0

/-- The workers that a loop still looks at. -/
def State.ahead (s : State) : ℕ :=
  match s.reader with
  | .spawning _ i => if i = 0 then 0 else 1
  | .joining i => s.workers.length - i
  | _ => 0

def State.left (s : State) : ℕ ×ₗ ℕ ×ₗ ℕ ×ₗ ℕ ×ₗ ℕ :=
  toLex (s.input.length - s.pos, toLex (s.reader.left, toLex ((s.workers.map fun w => w.phase.left).sum,
    toLex (s.workers.length, s.ahead))))

section Left
variable {s s' : State}

theorem left_lt_of_pos (h : s'.input.length - s'.pos < s.input.length - s.pos) : s'.left < s.left :=
  Prod.Lex.toLex_lt_toLex.mpr (.inl h)

theorem left_lt_of_reader (hpos : s'.input.length - s'.pos = s.input.length - s.pos)
    (h : s'.reader.left < s.reader.left) : s'.left < s.left := by
  apply Prod.Lex.toLex_lt_toLex.mpr
  exact .inr ⟨hpos, Prod.Lex.toLex_lt_toLex.mpr (.inl h)⟩

theorem left_lt_of_phase (hpos : s'.input.length - s'.pos = s.input.length - s.pos)
    (hreader : s'.reader.left = s.reader.left)
    (h : (s'.workers.map fun w => w.phase.left).sum < (s.workers.map fun w => w.phase.left).sum) : s'.left < s.left := by
  apply Prod.Lex.toLex_lt_toLex.mpr
  refine .inr ⟨hpos, Prod.Lex.toLex_lt_toLex.mpr (.inr ⟨hreader, ?_⟩)⟩
  exact Prod.Lex.toLex_lt_toLex.mpr (.inl h)

theorem left_lt_of_ahead (hpos : s'.input.length - s'.pos = s.input.length - s.pos)
    (hreader : s'.reader.left = s.reader.left)
    (hphase : (s'.workers.map fun w => w.phase.left).sum = (s.workers.map fun w => w.phase.left).sum)
    (h : s'.workers.length < s.workers.length ∨ s'.workers.length = s.workers.length ∧ s'.ahead < s.ahead) :
    s'.left < s.left := by
  apply Prod.Lex.toLex_lt_toLex.mpr
  refine .inr ⟨hpos, Prod.Lex.toLex_lt_toLex.mpr (.inr ⟨hreader, ?_⟩)⟩
  refine Prod.Lex.toLex_lt_toLex.mpr (.inr ⟨hphase, ?_⟩)
  exact Prod.Lex.toLex_lt_toLex.mpr h

end Left

/-! ### Every step goes down -/

section Progress
variable (lib : JsonLibrary) (srv : JsonRpcServer)

/-- The client is gone, and has written what it has. -/
def State.Given (input : Bytes) (signalled : Bool) (s : State) : Prop :=
  s.closed = true ∧ s.input = input ∧ s.signalled = signalled

/-- A step of the server leads from `s` to `s'`, and less is left there. -/
structure State.Nearer (s s' : State) : Prop where
  closed : s'.closed = s.closed
  input : s'.input = s.input
  signalled : s'.signalled = s.signalled
  left : s'.left < s.left

theorem State.Nearer.given {s s' : State} {input : Bytes} {signalled : Bool} (h : s.Nearer s')
    (hs : s.Given input signalled) : s'.Given input signalled :=
  ⟨h.closed.trans hs.1, h.input.trans hs.2.1, h.signalled.trans hs.2.2⟩

/-- A worker that is not finished can go on. -/
theorem worker_progress (h : Handling) {s : State} {n : ℕ} {w : Worker} (hn : s.workers[n]? = some w)
    (hw : w.phase ≠ .finished) :
    ∃ (a : Label) (s' : State) (es : List Event), a.own = true ∧ step lib srv s a = some (s', es) ∧ s.Nearer s' := by
  obtain ⟨line, phase⟩ := w
  have hdown (p : Phase) (out : Bytes) (hp : p.left < phase.left) :
      s.Nearer ⟨s.input, s.closed, s.pos, s.signalled, s.reader, s.workers.set n ⟨line, p⟩, out, s.shuttingDown⟩ := by
    have hsum := sum_map_set_add hn (fun w => w.phase.left) ⟨line, p⟩
    dsimp only at hsum
    exact ⟨rfl, rfl, rfl, left_lt_of_phase rfl rfl (by dsimp only; omega)⟩
  cases phase with
  | handling =>
    refine ⟨.answer n h, _, _, rfl, by simp only [step, hn]; rfl, ?_⟩
    apply hdown
    cases lineReply lib { srv with shuttingDown := s.shuttingDown } h line with
    | none => decide
    | some reply =>
      change 2 < 3
      decide
  | writing response =>
    refine ⟨.write n, _, _, rfl, by simp only [step, hn]; rfl, ?_⟩
    apply hdown
    change 1 < 2
    decide
  | storing =>
    refine ⟨.store n, _, _, rfl, by simp only [step, hn]; rfl, ?_⟩
    apply hdown .finished s.stdout
    decide
  | finished => exact absurd rfl hw

/-- The main thread can go on. -/
def State.Goes (s : State) : Prop := ∃ (s' : State) (es : List Event), s.main = some (s', es) ∧ s.Nearer s'

variable {s : State}

/-- A step to a later place of the loop. -/
theorem State.Goes.of_reader {s' : State} {es : List Event} (hstep : s.main = some (s', es)) (hpos : s'.pos = s.pos)
    (hclosed : s'.closed = s.closed) (hinput : s'.input = s.input) (hsignalled : s'.signalled = s.signalled)
    (h : s'.reader.left < s.reader.left) : s.Goes := by
  refine ⟨s', es, hstep, hclosed, hinput, hsignalled, ?_⟩
  apply left_lt_of_reader
  · rw [hinput, hpos]
  · exact h

/-- Each byte that is read is one less, and behind the last one the loop ends. -/
theorem reading_goes {out : Bytes} (hclosed : s.closed = true) (hr : s.reader = .reading out) : s.Goes := by
  cases hc : s.input[s.pos]? with
  | some c =>
    have hlt := (List.getElem?_eq_some_iff.mp hc).1
    have hless : s.input.length - (s.pos + 1) < s.input.length - s.pos := by omega
    by_cases hnewline : c = 10
    · refine ⟨{ s with pos := s.pos + 1, reader := .line out }, [], ?_, rfl, rfl, rfl, left_lt_of_pos hless⟩
      simp only [State.main, hr, hc, if_pos hnewline]
    · refine ⟨{ s with
        pos := s.pos + 1
        reader := .reading (if out.length < maxLineBytes then out ++ [c] else out) }, [], ?_, rfl, rfl, rfl,
        left_lt_of_pos hless⟩
      simp only [State.main, hr, hc, if_neg hnewline]
  | none =>
    have hstep : s.main = some ({ s with reader := if out = [] then .draining else .line out }, []) := by
      simp only [State.main, hr, hc, if_pos hclosed]
    apply State.Goes.of_reader hstep rfl rfl rfl rfl
    rw [hr]
    by_cases hout : out = []
    · simp only [if_pos hout, Reader.left]
      decide
    · simp only [if_neg hout, Reader.left]
      decide

theorem sum_left_finished {ws : List Worker} (h : ∀ w ∈ ws, w.phase = .finished) :
    (ws.map fun w => w.phase.left).sum = 0 := by
  apply List.sum_eq_zero
  intro k hk
  obtain ⟨w, hw, rfl⟩ := List.mem_map.mp hk
  rw [h w hw]
  rfl

/-- The search for a place takes finished workers away, and starts again only in front of a full table. -/
theorem spawning_goes {line : Bytes} {i : ℕ} (hr : s.reader = .spawning line i)
    (hall : ∀ w ∈ s.workers, w.phase = .finished) : s.Goes := by
  cases hi : s.workers[i]? with
  | some w =>
    have hw := hall w (List.mem_of_getElem? hi)
    have hlt := (List.getElem?_eq_some_iff.mp hi).1
    refine ⟨{ s with workers := s.workers.eraseIdx i }, [], ?_, rfl, rfl, rfl, ?_⟩
    · simp only [State.main, hr, hi, if_pos hw]
    apply left_lt_of_ahead
    · rfl
    · rfl
    · rw [sum_left_finished hall, sum_left_finished fun u hu => hall u (List.mem_of_mem_eraseIdx hu)]
    · left
      change (s.workers.eraseIdx i).length < _
      rw [List.length_eraseIdx_of_lt hlt]
      omega
  | none =>
    by_cases hplace : s.workers.length < kMaxLiveWorkers ∨ s.signalled = true
    · have hstep : s.main = some ({ s with workers := s.workers ++ [⟨line, .handling⟩], reader := .top }, [.taken line]) := by
        simp only [State.main, hr, hi, if_pos hplace]
      apply State.Goes.of_reader hstep rfl rfl rfl rfl
      rw [hr]
      change 4 < 5
      decide
    · refine ⟨{ s with reader := .spawning line 0 }, [], ?_, rfl, rfl, rfl, ?_⟩
      · simp only [State.main, hr, hi, if_neg hplace]
      have hlen := List.getElem?_eq_none_iff.mp hi
      have hpos : i ≠ 0 := by
        rintro rfl
        apply hplace
        left
        rw [Nat.le_zero.mp hlen]
        decide
      apply left_lt_of_ahead
      · rfl
      · rw [hr]
        rfl
      · rfl
      · right
        refine ⟨rfl, ?_⟩
        rw [State.ahead, State.ahead, hr]
        simp only [if_neg hpos]
        decide

/-- One worker after the other is joined, then the transport returns. -/
theorem joining_goes {i : ℕ} (hr : s.reader = .joining i) (hall : ∀ w ∈ s.workers, w.phase = .finished) : s.Goes := by
  cases hi : s.workers[i]? with
  | some w =>
    have hw := hall w (List.mem_of_getElem? hi)
    have hlt := (List.getElem?_eq_some_iff.mp hi).1
    refine ⟨{ s with reader := .joining (i + 1) }, [], by simp only [State.main, hr, hi, if_pos hw], rfl, rfl, rfl, ?_⟩
    apply left_lt_of_ahead
    · rfl
    · rw [hr]
      rfl
    · rfl
    · right
      refine ⟨rfl, ?_⟩
      rw [State.ahead, State.ahead, hr]
      change s.workers.length - (i + 1) < s.workers.length - i
      omega
  | none =>
    have hstep : s.main = some ({ s with shuttingDown := true, reader := .returned }, []) := by
      simp only [State.main, hr, hi]
    apply State.Goes.of_reader hstep rfl rfl rfl rfl
    rw [hr]
    change 0 < 1
    decide

/-- When all workers are finished, the main thread can go on. -/
theorem main_progress (hclosed : s.closed = true) (hreturned : s.reader ≠ .returned)
    (hall : ∀ w ∈ s.workers, w.phase = .finished) : s.Goes := by
  cases hr : s.reader with
  | top =>
    have hstep : s.main = some ({ s with reader := if s.signalled then .draining else .reading [] }, []) := by
      simp only [State.main, hr]
    apply State.Goes.of_reader hstep rfl rfl rfl rfl
    rw [hr]
    change Reader.left (if _ then _ else _) < 4
    split
    · decide
    · decide
  | reading out => exact reading_goes hclosed hr
  | line line =>
    have hstep : s.main = some ({ s with reader := if isBlank line ∨ s.shuttingDown then .top else .spawning line 0 }, []) := by
      simp only [State.main, hr]
    apply State.Goes.of_reader hstep rfl rfl rfl rfl
    rw [hr]
    change Reader.left (if _ then _ else _) < 6
    split
    · decide
    · change 5 < 6
      decide
  | spawning line i => exact spawning_goes hr hall
  | draining =>
    have hstep : s.main = some ({ s with reader := .joining 0 }, []) := by
      simp only [State.main, hr]
    apply State.Goes.of_reader hstep rfl rfl rfl rfl
    rw [hr]
    change 1 < 2
    decide
  | joining i => exact joining_goes hr hall
  | returned => exact absurd hr hreturned

end Progress

/-- Whatever state the transport is in when the client closes its end, steps of the server alone
bring it back, and they take no more input and no signal. -/
theorem closed_transport_returns (lib : JsonLibrary) (srv : JsonRpcServer) (h : Handling) (s : State)
    (hclosed : s.closed = true) :
    ∃ (as : List Label) (c : Config State Event), (∀ a ∈ as, a.own = true) ∧ exec (step lib srv) ⟨s, []⟩ as = some c ∧
      c.state.reader = .returned ∧ c.state.input = s.input ∧ c.state.signalled = s.signalled := by
  have hwf : WellFounded fun s' s : State => s'.left < s.left := InvImage.wf State.left wellFounded_lt
  have hstep : ∀ t : State, t.Given s.input s.signalled → ¬ t.reader = .returned → ∃ (a : Label) (t' : State) (es : List Event),
      a.own = true ∧ step lib srv t a = some (t', es) ∧ t'.Given s.input s.signalled ∧ t'.left < t.left := by
    intro t ht hreturned
    by_cases hall : ∀ w ∈ t.workers, w.phase = .finished
    · obtain ⟨t', es, hmain, hnearer⟩ := main_progress ht.1 hreturned hall
      exact ⟨.main, t', es, rfl, hmain, hnearer.given ht, hnearer.left⟩
    · push Not at hall
      obtain ⟨w, hmem, hw⟩ := hall
      obtain ⟨n, hn⟩ := List.getElem?_of_mem hmem
      obtain ⟨a, t', es, ha, hnext, hnearer⟩ := worker_progress lib srv h hn hw
      exact ⟨a, t', es, ha, hnext, hnearer.given ht, hnearer.left⟩
  obtain ⟨as, c, has, hrun, hgiven, hreturned⟩ := exists_run_of_progress hwf hstep (s := s) ⟨hclosed, rfl, rfl⟩ []
  exact ⟨as, c, has, hrun, hreturned, hgiven.2.1, hgiven.2.2⟩

/-- The client has closed its end within its first line. -/
theorem closed_transport_returns_open_line :
    ∃ (as : List Label) (c : Config State Event), (∀ a ∈ as, a.own = true) ∧
      exec (step noDocuments noTools) ⟨{ input := [120], closed := true }, []⟩ as = some c ∧
      c.state.reader = .returned ∧ c.state.input = [120] ∧ c.state.signalled = false :=
  closed_transport_returns noDocuments noTools unasked { input := [120], closed := true } rfl

end FractalSQL.Mcp.Stdio
