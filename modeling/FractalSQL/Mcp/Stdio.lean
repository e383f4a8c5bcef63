import FractalSQL.Lib.Count
import FractalSQL.Lib.Lines
import FractalSQL.Lib.Machine
import FractalSQL.Mcp.Dispatch

/-!
# The stdio transport

`runStdioTransport`: one thread reads lines and starts a worker for each of them, the workers
answer at the same time and take turns on stdout. A label says which thread goes on, so a run is
any interleaving of the reader, the workers, the client and a signal.
-/
namespace FractalSQL.Mcp.Stdio
open Lib Rpc

/-- The bound that `readLineBounded` is called with. -/
def maxLineBytes : ℕ := 8 * 1024 * 1024

def kMaxLiveWorkers : ℕ := 64

/-- Nothing in the line but `" \t\r\n"`. -/
def isBlank (line : Bytes) : Bool := line.all fun c => c = 32 ∨ c = 9 ∨ c = 13 ∨ c = 10

/-- Where the main thread is. -/
inductive Reader where
  /-- At the head of the loop. -/
  | top
  /-- In `readLineBounded`. -/
  | reading (out : Bytes)
  | line (line : Bytes)
  /-- Looking at worker `i` on the way to a free place. -/
  | spawning (line : Bytes) (i : ℕ)
  /-- At the wait that ends at the deadline. -/
  | draining
  | joining (i : ℕ)
  | returned
deriving DecidableEq

inductive Phase where
  /-- In `handleLine`. -/
  | handling
  /-- At `writeLine`. -/
  | writing (response : Bytes)
  | storing
  /-- `done` is set. -/
  | finished
deriving DecidableEq

structure Worker where
  line : Bytes
  phase : Phase
deriving DecidableEq

structure State where
  /-- All that the client wrote so far, of which the first `pos` bytes are read. -/
  input : Bytes := []
  closed : Bool := false
  pos : ℕ := 0
  /-- `g_signalled`. -/
  signalled : Bool := false
  reader : Reader := .top
  workers : List Worker := []
  stdout : Bytes := []
  /-- `isShuttingDown`. -/
  shuttingDown : Bool := false
deriving DecidableEq

inductive Event where
  | taken (line : Bytes)
  | answered (line : Bytes) (reply : Option Bytes)
  | wrote (reply : Bytes)
deriving DecidableEq

inductive Label where
  | feed (bytes : Bytes)
  | close
  | signal
  | main
  | answer (n : ℕ) (h : Handling)
  | write (n : ℕ)
  | store (n : ℕ)

section Step
variable (lib : JsonLibrary) (srv : JsonRpcServer)

/-- What `handleLine` returns for a line. -/
def lineReply (h : Handling) (line : Bytes) : Option Bytes := (handleLine lib srv h {} line).bind lib.dump

/-- The next step of the main thread. -/
def State.main (s : State) : Option (State × List Event) :=
  match s.reader with
  | .top => some ({ s with reader := if s.signalled then .draining else .reading [] }, [])
  | .reading out =>
    match s.input[s.pos]? with
    | some c =>
      if c = 10 then some ({ s with pos := s.pos + 1, reader := .line out }, [])
      else some ({ s with pos := s.pos + 1, reader := .reading (if out.length < maxLineBytes then out ++ [c] else out) }, [])
    | none =>
      -- At the end of the input a last line needs no newline.
      if s.closed then some ({ s with reader := if out = [] then .draining else .line out }, []) else none
  | .line line => some ({ s with reader := if isBlank line ∨ s.shuttingDown then .top else .spawning line 0 }, [])
  | .spawning line i =>
    match s.workers[i]? with
    | some w =>
      if w.phase = .finished then some ({ s with workers := s.workers.eraseIdx i }, [])
      else some ({ s with reader := .spawning line (i + 1) }, [])
    | none =>
      if s.workers.length < kMaxLiveWorkers ∨ s.signalled then
        some ({ s with workers := s.workers ++ [⟨line, .handling⟩], reader := .top }, [.taken line])
      else some ({ s with reader := .spawning line 0 }, [])
  | .draining => some ({ s with reader := .joining 0 }, [])
  | .joining i =>
    match s.workers[i]? with
    | some w => if w.phase = .finished then some ({ s with reader := .joining (i + 1) }, []) else none
    | none => some ({ s with shuttingDown := true, reader := .returned }, [])
  | .returned => none

def State.put (s : State) (n : ℕ) (w : Worker) : State := { s with workers := s.workers.set n w }

def step (s : State) : Label → Option (State × List Event)
  | .feed bytes => if s.closed then none else some ({ s with input := s.input ++ bytes }, [])
  | .close => some ({ s with closed := true }, [])
  | .signal => some ({ s with signalled := true }, [])
  | .main => s.main
  | .answer n h =>
    match s.workers[n]? with
    | some ⟨line, .handling⟩ =>
      let reply := lineReply lib { srv with shuttingDown := s.shuttingDown } h line
      some (s.put n ⟨line, reply.elim .storing .writing⟩, [.answered line reply])
    | _ => none
  | .write n =>
    match s.workers[n]? with
    | some ⟨line, .writing response⟩ =>
      some ({ s.put n ⟨line, .storing⟩ with stdout := s.stdout ++ (response ++ [10]) }, [.wrote response])
    | _ => none
  | .store n =>
    match s.workers[n]? with
    | some ⟨line, .storing⟩ => some (s.put n ⟨line, .finished⟩, [])
    | _ => none

end Step

/-! ### What a run is to do with its input -/

/-- Of lines that are read, those that get a worker, each within the bound. -/
def kept (lines : List Bytes) : List Bytes := (lines.map fun line => line.take maxLineBytes).filter fun line => !isBlank line

def requestLines (input : Bytes) : List Bytes := kept (input.splitOn 10)

def Event.line : Event → Option Bytes
  | .taken line => some line
  | _ => none

def Event.answer : Event → Option (Bytes × Option Bytes)
  | .answered line reply => some (line, reply)
  | _ => none

def Event.reply : Event → Option Bytes
  | .wrote reply => some reply
  | _ => none

/-- The lines that workers were started for, in their order. -/
def taken (log : List Event) : List Bytes := log.filterMap Event.line

def answered (log : List Event) : List (Bytes × Option Bytes) := log.filterMap Event.answer

def wrote (log : List Event) : List Bytes := log.filterMap Event.reply

@[simp] theorem taken_append (log es : List Event) : taken (log ++ es) = taken log ++ taken es := List.filterMap_append

@[simp] theorem answered_append (log es : List Event) : answered (log ++ es) = answered log ++ answered es :=
  List.filterMap_append

@[simp] theorem wrote_append (log es : List Event) : wrote (log ++ es) = wrote log ++ wrote es := List.filterMap_append

theorem kept_append (ls ms : List Bytes) : kept (ls ++ ms) = kept ls ++ kept ms := by
  rw [kept, List.map_append, List.filter_append]
  rfl

theorem kept_nil_line : kept [[]] = [] := rfl

theorem splitOn_unlines_append {ls : List Bytes} (h : ∀ l ∈ ls, 10 ∉ l) (rest : Bytes) :
    (unlines 10 ls ++ rest).splitOn 10 = ls ++ rest.splitOn 10 := by
  induction ls with
  | nil => rfl
  | cons l ls ih =>
    have hcons : unlines 10 (l :: ls) ++ rest = l ++ 10 :: (unlines 10 ls ++ rest) := by simp [unlines]
    rw [hcons, List.splitOn_append_cons_self_of_not_mem (h l (List.mem_cons_self ..)),
      ih fun m hm => h m (List.mem_cons_of_mem _ hm)]
    rfl

/-! ### The input that is read -/

/-- The whole lines that are read, and what is read of the next one. Behind an end of the input
within a line that line is whole too. -/
structure Seen (s : State) (ls : List Bytes) (cur : Bytes) : Prop where
  pos_le : s.pos ≤ s.input.length
  lines : ∀ l ∈ ls, 10 ∉ l
  open_line : 10 ∉ cur
  consumed : s.input.take s.pos = unlines 10 ls ++ cur ∨
    s.closed = true ∧ s.pos = s.input.length ∧ cur = [] ∧ unlines 10 ls = s.input ++ [10]

/-- Nothing is left to be read. -/
def State.ended (s : State) : Prop := s.closed = true ∧ s.pos = s.input.length

/-- Where the lines that are read are: those of `taken` and the one at hand. -/
def State.Agrees (s : State) (tk ls : List Bytes) (cur : Bytes) : Prop :=
  match s.reader with
  | .top => cur = [] ∧ kept ls = tk
  | .reading out => out = cur.take maxLineBytes ∧ kept ls = tk
  | .line line => cur = [] ∧ kept ls = tk ++ [line].filter fun line => !isBlank line
  | .spawning line _ => cur = [] ∧ kept ls = tk ++ [line]
  | .draining | .joining _ | .returned => kept ls = tk ∧ (s.signalled = true ∨ s.ended ∧ cur = [])

section Seen
variable {s : State} {ls : List Bytes} {cur : Bytes}

theorem Seen.front (h : Seen s ls cur) : kept ls <+: requestLines s.input := by
  rcases h.consumed with hread | ⟨-, -, -, hall⟩
  · have hinput : s.input = unlines 10 ls ++ (cur ++ s.input.drop s.pos) := by
      rw [← List.append_assoc, ← hread, List.take_append_drop]
    rw [requestLines, hinput, splitOn_unlines_append h.lines, kept_append]
    exact List.prefix_append ..
  · have hlines := splitOn_unlines h.lines
    rw [hall, List.splitOn_append_cons_self, List.splitOn_nil] at hlines
    rw [requestLines, List.append_cancel_right hlines]

/-- At the end of the input every line is read. -/
theorem Seen.whole (h : Seen s ls cur) (hend : s.ended) (hcur : cur = []) : kept ls = requestLines s.input := by
  rcases h.consumed with hread | ⟨-, -, -, hall⟩
  · rw [hend.2, List.take_length, hcur, List.append_nil] at hread
    rw [requestLines, hread, splitOn_unlines h.lines, kept_append, kept_nil_line, List.append_nil]
  · have hlines := splitOn_unlines h.lines
    rw [hall, List.splitOn_append_cons_self, List.splitOn_nil] at hlines
    rw [requestLines, List.append_cancel_right hlines]

/-- A byte that ends the line. -/
theorem Seen.newline (h : Seen s ls cur) (hc : s.input[s.pos]? = some 10) (r : Reader) :
    Seen { s with pos := s.pos + 1, reader := r } (ls ++ [cur]) [] := by
  obtain ⟨hlt, hget⟩ := List.getElem?_eq_some_iff.mp hc
  have hread : s.input.take s.pos = unlines 10 ls ++ cur := by
    rcases h.consumed with hread | ⟨-, hpos, -, -⟩
    · exact hread
    · omega
  refine ⟨hlt, ?_, List.not_mem_nil, .inl ?_⟩
  · intro l hl
    rcases List.mem_append.mp hl with hl | hl
    · exact h.lines l hl
    · rw [List.mem_singleton.mp hl]
      exact h.open_line
  · change s.input.take (s.pos + 1) = _
    rw [List.take_add_one, hc, hread, unlines_concat, List.append_nil, List.append_assoc]
    rfl

/-- A byte of the line. -/
theorem Seen.byte (h : Seen s ls cur) {c : UInt8} (hc : s.input[s.pos]? = some c) (hne : c ≠ 10) (r : Reader) :
    Seen { s with pos := s.pos + 1, reader := r } ls (cur ++ [c]) := by
  obtain ⟨hlt, hget⟩ := List.getElem?_eq_some_iff.mp hc
  have hread : s.input.take s.pos = unlines 10 ls ++ cur := by
    rcases h.consumed with hread | ⟨-, hpos, -, -⟩
    · exact hread
    · omega
  refine ⟨hlt, h.lines, ?_, .inl ?_⟩
  · rw [List.mem_append, List.mem_singleton]
    exact not_or.mpr ⟨h.open_line, Ne.symm hne⟩
  · change s.input.take (s.pos + 1) = _
    rw [List.take_add_one, hc, hread, List.append_assoc]
    rfl

/-- The end of the input within a line. -/
theorem Seen.last (h : Seen s ls cur) (hend : s.ended) (hcur : cur ≠ []) (r : Reader) :
    Seen { s with reader := r } (ls ++ [cur]) [] := by
  have hread : s.input.take s.pos = unlines 10 ls ++ cur := by
    rcases h.consumed with hread | ⟨-, -, hnil, -⟩
    · exact hread
    · exact absurd hnil hcur
  rw [hend.2, List.take_length] at hread
  refine ⟨h.pos_le, ?_, List.not_mem_nil, .inr ⟨hend.1, hend.2, rfl, ?_⟩⟩
  · intro l hl
    rcases List.mem_append.mp hl with hl | hl
    · exact h.lines l hl
    · rw [List.mem_singleton.mp hl]
      exact h.open_line
  · change _ = s.input ++ [10]
    rw [unlines_concat, hread, List.append_assoc]

theorem Seen.congr {s' : State} (h : Seen s ls cur) (hinput : s'.input = s.input) (hclosed : s'.closed = s.closed)
    (hpos : s'.pos = s.pos) : Seen s' ls cur := by
  refine ⟨?_, h.lines, h.open_line, ?_⟩
  · rw [hpos, hinput]
    exact h.pos_le
  · rw [hpos, hinput, hclosed]
    exact h.consumed

/-- The bound holds back what is past it. -/
theorem take_maxLineBytes_concat (c : UInt8) :
    (if (cur.take maxLineBytes).length < maxLineBytes then cur.take maxLineBytes ++ [c] else cur.take maxLineBytes) =
      (cur ++ [c]).take maxLineBytes := by
  rw [List.length_take]
  split
  · rename_i hlt
    have hcur : cur.length < maxLineBytes := by omega
    rw [List.take_of_length_le hcur.le, List.take_of_length_le]
    rw [List.length_append, List.length_singleton]
    exact hcur
  · rename_i hge
    rw [List.take_append_of_le_length]
    omega

end Seen

end FractalSQL.Mcp.Stdio
