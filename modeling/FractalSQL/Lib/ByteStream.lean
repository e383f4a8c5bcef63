import FractalSQL.Lib.Bytes

/-!
# Bytes through a stream

One call of `recv` or `send` moves some of the bytes that are asked for, is interrupted, or
fails. The loops around them go on until everything is moved. A program that reads exact
amounts then reads from the calls what it would read from the bytes themselves, and what
reaches the other end of a loop that writes is a front part of what was to be written.
-/
namespace FractalSQL.Lib.Stream

/-- What the system does with one call: it moves up to `n + 1` bytes, interrupts it or fails it. -/
inductive Xfer where
  | moves (n : ℕ)
  | interrupts
  | fails
deriving DecidableEq

/-- How a loop of calls ends: with a value, with a failure, or not as long as no more calls return. -/
inductive Ending (α : Type*) where
  | done (value : α)
  | failed
  | waiting

/-- Reads `n` bytes. The bytes of `fd` are all that ever arrive; a call behind them finds the end. -/
def readAll : List Xfer → ℕ → Bytes → Ending (Bytes × Bytes × List Xfer)
  | calls, 0, fd => .done ([], fd, calls)
  | [], _ + 1, _ => .waiting
  | .interrupts :: calls, n + 1, fd => readAll calls (n + 1) fd
  | .fails :: _, _ + 1, _ => .failed
  | .moves _ :: _, _ + 1, [] => .failed
  | .moves k :: calls, n + 1, b :: fd =>
    match readAll calls (n + 1 - ((b :: fd).take (min k n + 1)).length) ((b :: fd).drop (min k n + 1)) with
    | .done (more, rest, calls) => .done ((b :: fd).take (min k n + 1) ++ more, rest, calls)
    | .failed => .failed
    | .waiting => .waiting

/-- Writes all of `p`: what the other end gets, and how the loop ends. -/
def writeAll : List Xfer → Bytes → Bytes × Ending (List Xfer)
  | calls, [] => ([], .done calls)
  | [], _ :: _ => ([], .waiting)
  | .interrupts :: calls, b :: p => writeAll calls (b :: p)
  | .fails :: _, _ :: _ => ([], .failed)
  | .moves k :: calls, b :: p =>
    ((b :: p).take (k + 1) ++ (writeAll calls ((b :: p).drop (k + 1))).1, (writeAll calls ((b :: p).drop (k + 1))).2)

/-- The calls that move something. -/
def Xfer.isMoves : Xfer → Bool
  | .moves _ => true
  | _ => false

/-- No call fails. -/
def Quiet (calls : List Xfer) : Prop := ∀ c ∈ calls, c ≠ .fails

/-! ### Reading -/

theorem readAll_done {calls left : List Xfer} {n : ℕ} {fd got rest : Bytes}
    (h : readAll calls n fd = .done (got, rest, left)) : fd = got ++ rest ∧ got.length = n := by
  induction calls generalizing n fd got with
  | nil =>
    cases n with
    | zero =>
      cases h
      exact ⟨rfl, rfl⟩
    | succ n => cases h
  | cons c calls ih =>
    cases n with
    | zero =>
      cases h
      exact ⟨rfl, rfl⟩
    | succ n =>
      cases c with
      | interrupts => exact ih h
      | fails => cases h
      | moves k =>
        cases fd with
        | nil => cases h
        | cons b fd =>
          rw [readAll] at h
          split at h
          · rename_i more rest' calls' hmore
            cases h
            obtain ⟨hdrop, hlen⟩ := ih hmore
            constructor
            · rw [List.append_assoc, ← hdrop, List.take_append_drop]
            · rw [List.length_append, hlen]
              have hle : ((b :: fd).take (min k n + 1)).length ≤ n + 1 := by
                rw [List.length_take]
                omega
              omega
          · cases h
          · cases h

/-- Enough calls that move something and none that fails read what is there. -/
theorem readAll_quiet {calls : List Xfer} {n : ℕ} {fd : Bytes} (hquiet : Quiet calls) (hfd : n ≤ fd.length)
    (hcalls : n ≤ calls.countP Xfer.isMoves) : ∃ left : List Xfer, readAll calls n fd = .done (fd.take n, fd.drop n, left) ∧
      Quiet left ∧ calls.countP Xfer.isMoves ≤ left.countP Xfer.isMoves + n := by
  induction calls generalizing n fd with
  | nil =>
    obtain rfl : n = 0 := Nat.le_zero.mp hcalls
    exact ⟨[], rfl, hquiet, by simp⟩
  | cons c calls ih =>
    cases n with
    | zero => exact ⟨c :: calls, rfl, hquiet, by simp⟩
    | succ n =>
      have htail : Quiet calls := fun d hd => hquiet d (List.mem_cons_of_mem c hd)
      cases c with
      | fails => exact absurd rfl (hquiet .fails (List.mem_cons_self ..))
      | interrupts =>
        obtain ⟨left, hread, hleft, hcount⟩ := ih htail hfd (by simpa [Xfer.isMoves] using hcalls)
        exact ⟨left, hread, hleft, by simpa [Xfer.isMoves] using hcount⟩
      | moves k =>
        cases fd with
        | nil => cases hfd
        | cons b fd =>
          have hlen : ((b :: fd).take (min k n + 1)).length = min k n + 1 := by
            rw [List.length_take]
            omega
          have hmoves : (Xfer.moves k :: calls).countP Xfer.isMoves = calls.countP Xfer.isMoves + 1 :=
            List.countP_cons_of_pos rfl
          rw [hmoves] at hcalls
          have hfd' : n + 1 - (min k n + 1) ≤ ((b :: fd).drop (min k n + 1)).length := by
            rw [List.length_drop]
            omega
          obtain ⟨left, hread, hleft, hcount⟩ := ih htail hfd' (by omega)
          apply Exists.intro left
          refine ⟨?_, hleft, by omega⟩
          have hall : min k n + 1 + (n + 1 - (min k n + 1)) = n + 1 := by omega
          rw [readAll, hlen, hread]
          dsimp only
          rw [List.drop_drop, ← List.take_add, hall]

/-! ### Writing -/

theorem writeAll_front (calls : List Xfer) (p : Bytes) : (writeAll calls p).1 <+: p := by
  induction calls generalizing p with
  | nil => cases p <;> exact List.nil_prefix
  | cons c calls ih =>
    cases p with
    | nil => exact List.nil_prefix
    | cons b p =>
      cases c with
      | interrupts => exact ih (b :: p)
      | fails => exact List.nil_prefix
      | moves k =>
        have hfront := (List.prefix_append_right_inj ((b :: p).take (k + 1))).mpr (ih ((b :: p).drop (k + 1)))
        rwa [List.take_append_drop] at hfront

theorem writeAll_done {calls left : List Xfer} {p wire : Bytes} (h : writeAll calls p = (wire, .done left)) :
    wire = p := by
  induction calls generalizing p wire with
  | nil =>
    cases p with
    | nil =>
      cases h
      rfl
    | cons b p => cases h
  | cons c calls ih =>
    cases p with
    | nil =>
      cases h
      rfl
    | cons b p =>
      cases c with
      | interrupts => exact ih h
      | fails => cases h
      | moves k =>
        rw [writeAll] at h
        obtain ⟨rfl, hend⟩ := Prod.mk.inj h
        have hrest : (writeAll calls ((b :: p).drop (k + 1))).1 = (b :: p).drop (k + 1) := ih (Prod.ext rfl hend)
        rw [hrest, List.take_append_drop]

theorem writeAll_quiet {calls : List Xfer} {p : Bytes} (hquiet : Quiet calls)
    (hcalls : p.length ≤ calls.countP Xfer.isMoves) : ∃ left : List Xfer, writeAll calls p = (p, .done left) ∧
      Quiet left ∧ calls.countP Xfer.isMoves ≤ left.countP Xfer.isMoves + p.length := by
  induction calls generalizing p with
  | nil =>
    obtain rfl : p = [] := List.length_eq_zero_iff.mp (Nat.le_zero.mp hcalls)
    exact ⟨[], rfl, hquiet, by simp⟩
  | cons c calls ih =>
    cases p with
    | nil => exact ⟨c :: calls, rfl, hquiet, by simp⟩
    | cons b p =>
      have htail : Quiet calls := fun d hd => hquiet d (List.mem_cons_of_mem c hd)
      cases c with
      | fails => exact absurd rfl (hquiet .fails (List.mem_cons_self ..))
      | interrupts =>
        obtain ⟨left, hwrite, hleft, hcount⟩ := ih htail (p := b :: p) (by simpa [Xfer.isMoves] using hcalls)
        exact ⟨left, hwrite, hleft, by simpa [Xfer.isMoves] using hcount⟩
      | moves k =>
        have hmoves : (Xfer.moves k :: calls).countP Xfer.isMoves = calls.countP Xfer.isMoves + 1 :=
          List.countP_cons_of_pos rfl
        rw [hmoves] at hcalls
        have hdrop : ((b :: p).drop (k + 1)).length + 1 ≤ (b :: p).length := by
          rw [List.length_drop, List.length_cons]
          omega
        obtain ⟨left, hwrite, hleft, hcount⟩ := ih htail (p := (b :: p).drop (k + 1)) (by omega)
        apply Exists.intro left
        refine ⟨?_, hleft, by omega⟩
        rw [writeAll, hwrite, List.take_append_drop]

/-! ### Programs that read exact amounts -/

/-- A program that reads amounts it knows and goes on with what it read. -/
inductive Reader (α : Type*) where
  | done (value : α)
  | refuse
  | read (n : ℕ) (k : Block n → Reader α)

namespace Reader
variable {α : Type*}

/-- The program on the bytes themselves. -/
def run : Reader α → Bytes → Option (α × Bytes)
  | .done a, fd => some (a, fd)
  | .refuse, _ => none
  | .read n k, fd => (takeExact n fd).bind fun p => (k p.1).run p.2

/-- The program on the calls. -/
def runOn : Reader α → List Xfer → Bytes → Ending (α × Bytes × List Xfer)
  | .done a, calls, fd => .done (a, fd, calls)
  | .refuse, _, _ => .failed
  | .read n k, calls, fd =>
    match readAll calls n fd with
    | .done (got, rest, calls) =>
      match takeExact n got with
      | some (b, _) => (k b).runOn calls rest
      | none => .failed
    | .failed => .failed
    | .waiting => .waiting

/-- What the program reads from the calls it reads from the bytes. -/
theorem run_of_runOn {r : Reader α} {calls left : List Xfer} {fd rest : Bytes} {a : α}
    (h : r.runOn calls fd = .done (a, rest, left)) : r.run fd = some (a, rest) := by
  induction r generalizing calls fd with
  | done a =>
    cases h
    rfl
  | refuse => cases h
  | read n k ih =>
    rw [runOn] at h
    split at h
    · rename_i got rest' calls' hread
      obtain ⟨rfl, hlen⟩ := readAll_done hread
      have hgot : takeExact n got = some (⟨got, hlen⟩, []) := takeExact_eq_some.mpr (List.append_nil got).symm
      have hfd : takeExact n (got ++ rest') = some (⟨got, hlen⟩, rest') := takeExact_eq_some.mpr rfl
      rw [hgot] at h
      rw [run, hfd]
      exact ih _ h
    · cases h
    · cases h

/-- With enough calls, none of which fails, it reads from the calls all that it reads from the bytes. -/
theorem runOn_of_run {r : Reader α} {calls : List Xfer} {fd rest : Bytes} {a : α} (h : r.run fd = some (a, rest))
    (hquiet : Quiet calls) (hcalls : fd.length ≤ calls.countP Xfer.isMoves) :
    ∃ left : List Xfer, r.runOn calls fd = .done (a, rest, left) ∧ Quiet left ∧
      rest.length ≤ left.countP Xfer.isMoves := by
  induction r generalizing calls fd with
  | done a' =>
    cases h
    exact ⟨calls, rfl, hquiet, hcalls⟩
  | refuse => cases h
  | read n k ih =>
    rw [run] at h
    obtain ⟨⟨b, mid⟩, htake, hrest⟩ := Option.bind_eq_some_iff.mp h
    obtain rfl := takeExact_eq_some.mp htake
    have hb : b.val.length = n := b.property
    rw [List.length_append] at hcalls
    have hfd : n ≤ (b.val ++ mid).length := by
      rw [List.length_append]
      omega
    obtain ⟨left, hread, hleft, hcount⟩ := readAll_quiet hquiet hfd (by omega)
    rw [List.take_left' hb, List.drop_left' hb] at hread
    have hgot : takeExact n b.val = some (b, []) := takeExact_eq_some.mpr (List.append_nil _).symm
    rw [runOn, hread]
    dsimp only
    rw [hgot]
    exact ih b hrest hleft (by omega)

end Reader
end FractalSQL.Lib.Stream
