import FractalSQL.Mcp.Stdio

/-!
# Every line is answered once

What holds of the transport however its threads interleave: what stands on stdout is whole reply
lines, no line of the input has more than one worker, and there are never more than 65 of them.
When the transport has returned without a signal, every line has been answered.
-/
namespace FractalSQL.Mcp.Stdio
open Lib Rpc

/-- The line that a worker has no answer for yet. -/
def Worker.unanswered (w : Worker) : List Bytes := if w.phase = .handling then [w.line] else []

/-- The answer that a worker has not written yet. -/
def Worker.unwritten (w : Worker) : List Bytes :=
  match w.phase with
  | .writing response => [response]
  | _ => []

/-- No worker is started any more once a signal is seen there. -/
def Reader.pastSpawn : Reader → Bool
  | .top | .draining | .joining _ | .returned => true
  | _ => false

section Inv
variable (lib : JsonLibrary) (srv : JsonRpcServer)

structure Inv (s : State) (log : List Event) : Prop where
  read : ∃ ls cur, Seen s ls cur ∧ s.Agrees (taken log) ls cur
  stdout : s.stdout = unlines 10 (wrote log)
  answers : (taken log).Perm ((answered log).map Prod.fst ++ s.workers.flatMap Worker.unanswered)
  written : ((answered log).filterMap Prod.snd).Perm (wrote log ++ s.workers.flatMap Worker.unwritten)
  replies : ∀ a ∈ answered log, ∃ h, a.2 = lineReply lib { srv with shuttingDown := false } h a.1
  bound : s.workers.length ≤ kMaxLiveWorkers ∨
    s.signalled = true ∧ s.workers.length ≤ kMaxLiveWorkers + 1 ∧ s.reader.pastSpawn = true
  running : s.shuttingDown = true → s.reader = .returned
  joined : ∀ i, s.reader = .joining i → ∀ w ∈ s.workers.take i, w.phase = .finished
  done : s.reader = .returned → ∀ w ∈ s.workers, w.phase = .finished

variable {lib srv} {s : State} {log : List Event}

theorem inv_start : Inv lib srv {} [] := by
  have hseen : Seen {} [] [] := ⟨le_rfl, (fun l hl => by cases hl), List.not_mem_nil, .inl rfl⟩
  refine ⟨⟨[], [], hseen, rfl, rfl⟩, rfl, .nil, .nil, ?_, .inl (Nat.zero_le _), ?_, ?_, ?_⟩
  · intro a ha
    cases ha
  · intro h
    cases h
  · intro i h
    cases h
  · intro h
    cases h

/-! ### The client and the signal -/

theorem Inv.feed (h : Inv lib srv s log) (hopen : s.closed = false) (bytes : Bytes) :
    Inv lib srv { s with input := s.input ++ bytes } log := by
  obtain ⟨ls, cur, hseen, hagrees⟩ := h.read
  have hread : s.input.take s.pos = unlines 10 ls ++ cur := by
    rcases hseen.consumed with hread | ⟨hclosed, -⟩
    · exact hread
    · rw [hopen] at hclosed
      cases hclosed
  have hseen' : Seen { s with input := s.input ++ bytes } ls cur := by
    refine ⟨?_, hseen.lines, hseen.open_line, .inl ?_⟩
    · change s.pos ≤ (s.input ++ bytes).length
      rw [List.length_append]
      exact hseen.pos_le.trans (Nat.le_add_right ..)
    · change (s.input ++ bytes).take s.pos = _
      rw [List.take_append_of_le_length hseen.pos_le, hread]
  have hended : ∀ {p : Prop}, (s.signalled = true ∨ s.ended ∧ p) → s.signalled = true := by
    intro p hp
    rcases hp with hsignal | ⟨⟨hclosed, -⟩, -⟩
    · exact hsignal
    · rw [hopen] at hclosed
      cases hclosed
  have hagrees' : ({ s with input := s.input ++ bytes } : State).Agrees (taken log) ls cur := by
    unfold State.Agrees at hagrees ⊢
    cases hr : s.reader with
    | draining | joining | returned =>
      simp only [hr] at hagrees ⊢
      exact ⟨hagrees.1, .inl (hended hagrees.2)⟩
    | top | reading | line | spawning =>
      simp only [hr] at hagrees ⊢
      exact hagrees
  exact ⟨⟨ls, cur, hseen', hagrees'⟩, h.stdout, h.answers, h.written, h.replies, h.bound, h.running, h.joined, h.done⟩

theorem Inv.close (h : Inv lib srv s log) : Inv lib srv { s with closed := true } log := by
  obtain ⟨ls, cur, hseen, hagrees⟩ := h.read
  have hseen' : Seen { s with closed := true } ls cur :=
    ⟨hseen.pos_le, hseen.lines, hseen.open_line, hseen.consumed.imp id fun hall => ⟨rfl, hall.2⟩⟩
  have hagrees' : ({ s with closed := true } : State).Agrees (taken log) ls cur := by
    unfold State.Agrees at hagrees ⊢
    cases hr : s.reader with
    | draining | joining | returned =>
      simp only [hr] at hagrees ⊢
      exact ⟨hagrees.1, hagrees.2.imp id fun hend => ⟨⟨rfl, hend.1.2⟩, hend.2⟩⟩
    | top | reading | line | spawning =>
      simp only [hr] at hagrees ⊢
      exact hagrees
  exact ⟨⟨ls, cur, hseen', hagrees'⟩, h.stdout, h.answers, h.written, h.replies, h.bound, h.running, h.joined, h.done⟩

theorem Inv.signal (h : Inv lib srv s log) : Inv lib srv { s with signalled := true } log := by
  obtain ⟨ls, cur, hseen, hagrees⟩ := h.read
  have hagrees' : ({ s with signalled := true } : State).Agrees (taken log) ls cur := by
    unfold State.Agrees at hagrees ⊢
    cases hr : s.reader with
    | draining | joining | returned =>
      simp only [hr] at hagrees ⊢
      exact ⟨hagrees.1, .inl trivial⟩
    | top | reading | line | spawning =>
      simp only [hr] at hagrees ⊢
      exact hagrees
  exact ⟨⟨ls, cur, hseen.congr rfl rfl rfl, hagrees'⟩, h.stdout, h.answers, h.written, h.replies,
    h.bound.imp id fun hb => ⟨rfl, hb.2⟩, h.running, h.joined, h.done⟩

/-! ### The workers -/

/-- A worker goes on, with what it reports. -/
theorem Inv.change (h : Inv lib srv s log) {n : ℕ} {w w' : Worker} {out : Bytes} {es : List Event}
    (hn : s.workers[n]? = some w) (hw : w.phase ≠ .finished) (htaken : taken es = [])
    (hout : out = s.stdout ++ unlines 10 (wrote es))
    (hanswers : w.unanswered = (answered es).map Prod.fst ++ w'.unanswered)
    (hwritten : (answered es).filterMap Prod.snd ++ w.unwritten = wrote es ++ w'.unwritten)
    (hreplies : ∀ a ∈ answered es, ∃ h, a.2 = lineReply lib { srv with shuttingDown := false } h a.1) :
    Inv lib srv { s.put n w' with stdout := out } (log ++ es) := by
  obtain ⟨ls, cur, hseen, hagrees⟩ := h.read
  have hmem := List.mem_of_getElem? hn
  have hset {f : Worker → List Bytes} := flatMap_set_perm hn f w'
  have hold {f : Worker → List Bytes} := flatMap_perm hn f
  refine ⟨⟨ls, cur, hseen.congr rfl rfl rfl, ?_⟩, ?_, ?_, ?_, ?_, ?_, h.running, ?_, ?_⟩
  · rw [taken_append, htaken, List.append_nil]
    exact hagrees
  · rw [wrote_append, unlines, List.flatMap_append, hout, h.stdout]
    rfl
  · rw [taken_append, htaken, List.append_nil, answered_append, List.map_append, List.append_assoc]
    have hrest := (h.answers.trans (hold.append_left _)).trans (by rw [hanswers, List.append_assoc])
    exact hrest.trans ((hset.symm.append_left _).append_left _)
  · rw [answered_append, List.filterMap_append, wrote_append, List.append_assoc]
    have hbefore := (h.written.trans (hold.append_left _)).append_right ((answered es).filterMap Prod.snd)
    have hmoved : ((answered es).filterMap Prod.snd ++ (w.unwritten ++ (s.workers.eraseIdx n).flatMap Worker.unwritten)) =
        wrote es ++ (w'.unwritten ++ (s.workers.eraseIdx n).flatMap Worker.unwritten) := by
      rw [← List.append_assoc, hwritten, List.append_assoc]
    have hafter : (wrote log ++ ((w.unwritten ++ (s.workers.eraseIdx n).flatMap Worker.unwritten) ++
        (answered es).filterMap Prod.snd)).Perm
        (wrote log ++ (wrote es ++ (w'.unwritten ++ (s.workers.eraseIdx n).flatMap Worker.unwritten))) := by
      rw [← hmoved]
      exact List.perm_append_comm.append_left _
    rw [List.append_assoc] at hbefore
    exact (hbefore.trans hafter).trans ((hset.symm.append_left _).append_left _)
  · rw [answered_append]
    intro a ha
    rcases List.mem_append.mp ha with ha | ha
    · exact h.replies a ha
    · exact hreplies a ha
  · change (s.workers.set n w').length ≤ _ ∨ _ ∧ (s.workers.set n w').length ≤ _ ∧ _
    rw [List.length_set]
    exact h.bound
  · intro i hi u hu
    change u ∈ (s.workers.set n w').take i at hu
    have hle : i ≤ n := by
      by_contra hlt
      have hin : w ∈ s.workers.take i := by
        apply List.mem_of_getElem?
        rw [List.getElem?_take_of_lt (not_le.mp hlt)]
        exact hn
      exact hw (h.joined i hi w hin)
    rw [List.take_set_of_le hle] at hu
    exact h.joined i hi u hu
  · intro hreturned
    exact absurd (h.done hreturned w hmem) hw

/-- No worker runs behind the shutdown. -/
theorem Inv.not_shuttingDown (h : Inv lib srv s log) {n : ℕ} {w : Worker} (hn : s.workers[n]? = some w)
    (hw : w.phase ≠ .finished) : s.shuttingDown = false := by
  cases hdown : s.shuttingDown with
  | false => rfl
  | true => exact absurd (h.done (h.running hdown) w (List.mem_of_getElem? hn)) hw

theorem Inv.answer (h : Inv lib srv s log) {n : ℕ} {line : Bytes} (hn : s.workers[n]? = some ⟨line, .handling⟩)
    (hd : Handling) :
    Inv lib srv (s.put n ⟨line, (lineReply lib { srv with shuttingDown := s.shuttingDown } hd line).elim .storing .writing⟩)
      (log ++ [.answered line (lineReply lib { srv with shuttingDown := s.shuttingDown } hd line)]) := by
  have hne : Phase.handling ≠ .finished := nofun
  have hdown := h.not_shuttingDown hn hne
  rw [hdown]
  apply h.change hn hne rfl (List.append_nil _).symm
  · cases lineReply lib { srv with shuttingDown := false } hd line with
    | none => rfl
    | some reply => rfl
  · cases lineReply lib { srv with shuttingDown := false } hd line with
    | none => rfl
    | some reply => rfl
  · intro a ha
    cases List.mem_singleton.mp ha
    exact ⟨hd, rfl⟩

theorem Inv.write (h : Inv lib srv s log) {n : ℕ} {line response : Bytes}
    (hn : s.workers[n]? = some ⟨line, .writing response⟩) :
    Inv lib srv { s.put n ⟨line, .storing⟩ with stdout := s.stdout ++ (response ++ [10]) } (log ++ [.wrote response]) := by
  have hne : Phase.writing response ≠ .finished := nofun
  have hline : unlines 10 (wrote [.wrote response]) = response ++ [10] := List.append_nil _
  apply h.change hn hne rfl (by rw [hline]) rfl rfl
  intro a ha
  cases ha

theorem Inv.store (h : Inv lib srv s log) {n : ℕ} {line : Bytes} (hn : s.workers[n]? = some ⟨line, .storing⟩) :
    Inv lib srv (s.put n ⟨line, .finished⟩) log := by
  have hne : Phase.storing ≠ .finished := nofun
  rw [← List.append_nil log]
  apply h.change hn hne rfl (List.append_nil _).symm rfl rfl
  intro a ha
  cases ha

/-! ### The main thread -/

theorem Inv.up (h : Inv lib srv s log) (hr : s.reader ≠ .returned) : s.shuttingDown = false := by
  cases hdown : s.shuttingDown with
  | false => rfl
  | true => exact absurd (h.running hdown) hr

/-- The reader moves on without a worker. -/
theorem Inv.move (h : Inv lib srv s log) (pos : ℕ) (r : Reader)
    (hread : ∃ ls cur, Seen { s with pos := pos, reader := r } ls cur ∧
      ({ s with pos := pos, reader := r } : State).Agrees (taken log) ls cur)
    (hbound : s.reader.pastSpawn = true → r.pastSpawn = true ∨ s.signalled = false)
    (hrunning : s.shuttingDown = false) (hjoined : ∀ i, r = .joining i → ∀ w ∈ s.workers.take i, w.phase = .finished)
    (hdone : r ≠ .returned) : Inv lib srv { s with pos := pos, reader := r } log := by
  refine ⟨hread, h.stdout, h.answers, h.written, h.replies, ?_, ?_, hjoined, fun heq => absurd heq hdone⟩
  · rcases h.bound with hle | ⟨hsignal, hle, hpast⟩
    · exact .inl hle
    · rcases hbound hpast with hr | hr
      · exact .inr ⟨hsignal, hle, hr⟩
      · rw [hsignal] at hr
        cases hr
  · intro hdown
    rw [hrunning] at hdown
    cases hdown

/-- A finished worker is reaped. -/
theorem Inv.reap (h : Inv lib srv s log) {line : Bytes} {i : ℕ} {w : Worker} (hr : s.reader = .spawning line i)
    (hi : s.workers[i]? = some w) (hw : w.phase = .finished) :
    Inv lib srv { s with workers := s.workers.eraseIdx i } log := by
  obtain ⟨ls, cur, hseen, hagrees⟩ := h.read
  have hnone : w.unanswered = [] := by
    rw [Worker.unanswered, hw]
    rfl
  have hwritten : w.unwritten = [] := by
    rw [Worker.unwritten, hw]
  have hold {f : Worker → List Bytes} := flatMap_perm hi f
  refine ⟨⟨ls, cur, hseen.congr rfl rfl rfl, hagrees⟩, h.stdout, ?_, ?_, h.replies, ?_, h.running, ?_, ?_⟩
  · have hrest := h.answers.trans (hold.append_left _)
    rw [hnone, List.nil_append] at hrest
    exact hrest
  · have hrest := h.written.trans (hold.append_left _)
    rw [hwritten, List.nil_append] at hrest
    exact hrest
  · rcases h.bound with hle | ⟨-, -, hpast⟩
    · exact .inl ((List.length_eraseIdx_le ..).trans hle)
    · rw [hr] at hpast
      cases hpast
  · intro j hj
    rw [hr] at hj
    cases hj
  · intro hreturned
    rw [hr] at hreturned
    cases hreturned

/-- A worker is started. -/
theorem Inv.spawn (h : Inv lib srv s log) {line : Bytes} {i : ℕ} (hr : s.reader = .spawning line i)
    (hplace : s.workers.length < kMaxLiveWorkers ∨ s.signalled = true) :
    Inv lib srv { s with workers := s.workers ++ [⟨line, .handling⟩], reader := .top } (log ++ [.taken line]) := by
  obtain ⟨ls, cur, hseen, hagrees⟩ := h.read
  have htaken : taken (log ++ [.taken line]) = taken log ++ [line] := taken_append ..
  have hanswered : answered (log ++ [.taken line]) = answered log := by
    rw [answered_append]
    exact List.append_nil _
  have hwrote : wrote (log ++ [.taken line]) = wrote log := by
    rw [wrote_append]
    exact List.append_nil _
  have hshort : s.workers.length ≤ kMaxLiveWorkers := by
    rcases h.bound with hle | ⟨-, -, hpast⟩
    · exact hle
    · rw [hr] at hpast
      cases hpast
  simp only [State.Agrees, hr] at hagrees
  refine ⟨⟨ls, cur, hseen.congr rfl rfl rfl, hagrees.1, ?_⟩, ?_, ?_, ?_, ?_, ?_, ?_, ?_, ?_⟩
  · rw [htaken, hagrees.2]
  · rw [hwrote]
    exact h.stdout
  · rw [htaken, hanswered, List.flatMap_append, ← List.append_assoc]
    exact h.answers.append_right [line]
  · rw [hanswered, hwrote, List.flatMap_append]
    exact h.written.trans (by rw [List.flatMap_singleton]; exact List.Perm.of_eq (by simp [Worker.unwritten]))
  · rw [hanswered]
    exact h.replies
  · have hlen : (s.workers ++ [(⟨line, .handling⟩ : Worker)]).length = s.workers.length + 1 := List.length_append
    rcases hplace with hlt | hsignal
    · exact .inl (hlen.trans_le hlt)
    · exact .inr ⟨hsignal, hlen.trans_le (Nat.add_le_add_right hshort 1), rfl⟩
  · intro hdown
    have hreturned := h.running hdown
    rw [hr] at hreturned
    cases hreturned
  · intro j hj
    cases hj
  · intro hreturned
    cases hreturned

theorem Inv.top (h : Inv lib srv s log) (hr : s.reader = .top) :
    Inv lib srv { s with reader := if s.signalled then .draining else .reading [] } log := by
  obtain ⟨ls, cur, hseen, hagrees⟩ := h.read
  have hup := h.up (by rw [hr]; nofun)
  simp only [State.Agrees, hr] at hagrees
  by_cases hsignal : s.signalled = true
  · rw [if_pos hsignal]
    apply h.move s.pos .draining ⟨ls, cur, hseen.congr rfl rfl rfl, hagrees.2, .inl hsignal⟩ (fun _ => .inl rfl) hup
    · intro i hi
      cases hi
    · nofun
  · rw [if_neg hsignal]
    have hout : ([] : Bytes) = cur.take maxLineBytes := by rw [hagrees.1, List.take_nil]
    apply h.move s.pos (.reading []) ⟨ls, cur, hseen.congr rfl rfl rfl, hout, hagrees.2⟩
      (fun _ => .inr (Bool.eq_false_iff.mpr hsignal)) hup
    · intro i hi
      cases hi
    · nofun

/-- A byte is read. -/
theorem Inv.byte (h : Inv lib srv s log) {out : Bytes} (hr : s.reader = .reading out) {c : UInt8}
    (hc : s.input[s.pos]? = some c) :
    Inv lib srv { s with
      pos := s.pos + 1
      reader := if c = 10 then .line out else .reading (if out.length < maxLineBytes then out ++ [c] else out) } log := by
  obtain ⟨ls, cur, hseen, hagrees⟩ := h.read
  have hup := h.up (by rw [hr]; nofun)
  have hspawn : s.reader.pastSpawn = false := by rw [hr]; rfl
  simp only [State.Agrees, hr] at hagrees
  obtain ⟨rfl, htaken⟩ := hagrees
  by_cases hnewline : c = 10
  · rw [if_pos hnewline]
    rw [hnewline] at hc
    have hkept : kept (ls ++ [cur]) = taken log ++ [cur.take maxLineBytes].filter fun line => !isBlank line := by
      rw [kept_append, htaken]
      rfl
    apply h.move (s.pos + 1) (.line (cur.take maxLineBytes)) ⟨ls ++ [cur], [], hseen.newline hc _, rfl, hkept⟩ _ hup
    · intro i hi
      cases hi
    · nofun
    · intro hpast
      rw [hspawn] at hpast
      cases hpast
  · rw [if_neg hnewline, take_maxLineBytes_concat]
    apply h.move (s.pos + 1) (.reading ((cur ++ [c]).take maxLineBytes))
      ⟨ls, cur ++ [c], hseen.byte hc hnewline _, rfl, htaken⟩ _ hup
    · intro i hi
      cases hi
    · nofun
    · intro hpast
      rw [hspawn] at hpast
      cases hpast

/-- The input is at its end. -/
theorem Inv.ends (h : Inv lib srv s log) {out : Bytes} (hr : s.reader = .reading out) (hc : s.input[s.pos]? = none)
    (hclosed : s.closed = true) :
    Inv lib srv { s with reader := if out = [] then .draining else .line out } log := by
  obtain ⟨ls, cur, hseen, hagrees⟩ := h.read
  have hup := h.up (by rw [hr]; nofun)
  have hspawn : s.reader.pastSpawn = false := by rw [hr]; rfl
  have hended : s.ended := ⟨hclosed, le_antisymm hseen.pos_le (List.getElem?_eq_none_iff.mp hc)⟩
  simp only [State.Agrees, hr] at hagrees
  obtain ⟨rfl, htaken⟩ := hagrees
  have hnil : cur.take maxLineBytes = [] ↔ cur = [] := by
    rw [List.take_eq_nil_iff]
    exact or_iff_right (by decide)
  by_cases hcur : cur = []
  · rw [if_pos (hnil.mpr hcur)]
    apply h.move s.pos .draining ⟨ls, cur, hseen.congr rfl rfl rfl, htaken, .inr ⟨hended, hcur⟩⟩ (fun _ => .inl rfl) hup
    · intro i hi
      cases hi
    · nofun
  · rw [if_neg (mt hnil.mp hcur)]
    have hkept : kept (ls ++ [cur]) = taken log ++ [cur.take maxLineBytes].filter fun line => !isBlank line := by
      rw [kept_append, htaken]
      rfl
    apply h.move s.pos (.line (cur.take maxLineBytes)) ⟨ls ++ [cur], [], hseen.last hended hcur _, rfl, hkept⟩ _ hup
    · intro i hi
      cases hi
    · nofun
    · intro hpast
      rw [hspawn] at hpast
      cases hpast

/-- A line is checked. -/
theorem Inv.line (h : Inv lib srv s log) {line : Bytes} (hr : s.reader = .line line) :
    Inv lib srv { s with reader := if isBlank line ∨ s.shuttingDown then .top else .spawning line 0 } log := by
  obtain ⟨ls, cur, hseen, hagrees⟩ := h.read
  have hup := h.up (by rw [hr]; nofun)
  have hspawn : s.reader.pastSpawn = false := by rw [hr]; rfl
  simp only [State.Agrees, hr] at hagrees
  by_cases hblank : isBlank line = true
  · rw [if_pos (.inl hblank)]
    have htaken : kept ls = taken log := by
      rw [hagrees.2, List.filter_singleton, hblank]
      exact List.append_nil _
    apply h.move s.pos .top ⟨ls, cur, hseen.congr rfl rfl rfl, hagrees.1, htaken⟩ (fun _ => .inl rfl) hup
    · intro i hi
      cases hi
    · nofun
  · have hcheck : ¬ (isBlank line = true ∨ s.shuttingDown = true) := by
      rw [hup]
      exact not_or.mpr ⟨hblank, Bool.false_ne_true⟩
    rw [if_neg hcheck]
    have htaken : kept ls = taken log ++ [line] := by
      rw [hagrees.2, List.filter_singleton, Bool.eq_false_iff.mpr hblank]
      rfl
    apply h.move s.pos (.spawning line 0) ⟨ls, cur, hseen.congr rfl rfl rfl, hagrees.1, htaken⟩ _ hup
    · intro i hi
      cases hi
    · nofun
    · intro hpast
      rw [hspawn] at hpast
      cases hpast

/-- The search for a place goes on. -/
theorem Inv.look (h : Inv lib srv s log) {line : Bytes} {i : ℕ} (hr : s.reader = .spawning line i) (j : ℕ) :
    Inv lib srv { s with reader := .spawning line j } log := by
  obtain ⟨ls, cur, hseen, hagrees⟩ := h.read
  have hup := h.up (by rw [hr]; nofun)
  have hspawn : s.reader.pastSpawn = false := by rw [hr]; rfl
  simp only [State.Agrees, hr] at hagrees
  apply h.move s.pos (.spawning line j) ⟨ls, cur, hseen.congr rfl rfl rfl, hagrees⟩ _ hup
  · intro i hi
    cases hi
  · nofun
  · intro hpast
    rw [hspawn] at hpast
    cases hpast

/-- Worker `i` is joined, or the loop before that begins. -/
theorem Inv.join (h : Inv lib srv s log) (hr : s.reader = .draining ∨ ∃ i, s.reader = .joining i) (j : ℕ)
    (hj : ∀ w ∈ s.workers.take j, w.phase = .finished) : Inv lib srv { s with reader := .joining j } log := by
  obtain ⟨ls, cur, hseen, hagrees⟩ := h.read
  have hne : s.reader ≠ .returned := by
    rcases hr with hr | ⟨i, hr⟩ <;> rw [hr] <;> nofun
  have hread : kept ls = taken log ∧ (s.signalled = true ∨ s.ended ∧ cur = []) := by
    rcases hr with hr | ⟨i, hr⟩ <;> simpa only [State.Agrees, hr] using hagrees
  apply h.move s.pos (.joining j) ⟨ls, cur, hseen.congr rfl rfl rfl, hread⟩ (fun _ => .inl rfl) (h.up hne)
  · intro i hi
    cases hi
    exact hj
  · nofun

/-- All the workers are joined. -/
theorem Inv.finish (h : Inv lib srv s log) {i : ℕ} (hr : s.reader = .joining i) (hi : s.workers[i]? = none) :
    Inv lib srv { s with shuttingDown := true, reader := .returned } log := by
  obtain ⟨ls, cur, hseen, hagrees⟩ := h.read
  simp only [State.Agrees, hr] at hagrees
  have hall : ∀ w ∈ s.workers, w.phase = .finished := by
    intro w hw
    apply h.joined i hr w
    rw [List.take_of_length_le (List.getElem?_eq_none_iff.mp hi)]
    exact hw
  refine ⟨⟨ls, cur, hseen.congr rfl rfl rfl, hagrees⟩, h.stdout, h.answers, h.written, h.replies, ?_, fun _ => rfl, ?_,
    fun _ => hall⟩
  · exact h.bound.imp id fun hb => ⟨hb.1, hb.2.1, rfl⟩
  · intro j hj
    cases hj

theorem Inv.main (h : Inv lib srv s log) {s' : State} {es : List Event} (hstep : s.main = some (s', es)) :
    Inv lib srv s' (log ++ es) := by
  unfold State.main at hstep
  cases hr : s.reader with
  | top =>
    simp only [hr, Option.some.injEq, Prod.mk.injEq] at hstep
    obtain ⟨rfl, rfl⟩ := hstep
    rw [List.append_nil]
    exact h.top hr
  | reading out =>
    simp only [hr] at hstep
    cases hc : s.input[s.pos]? with
    | some c =>
      have hbyte := h.byte hr hc
      simp only [hc] at hstep
      split at hstep
      · rename_i hnewline
        cases hstep
        rw [if_pos hnewline] at hbyte
        rw [List.append_nil]
        exact hbyte
      · rename_i hnewline
        cases hstep
        rw [if_neg hnewline] at hbyte
        rw [List.append_nil]
        exact hbyte
    | none =>
      simp only [hc] at hstep
      split at hstep
      · rename_i hclosed
        cases hstep
        rw [List.append_nil]
        exact h.ends hr hc hclosed
      · cases hstep
  | line line =>
    simp only [hr, Option.some.injEq, Prod.mk.injEq] at hstep
    obtain ⟨rfl, rfl⟩ := hstep
    rw [List.append_nil]
    exact h.line hr
  | spawning line i =>
    simp only [hr] at hstep
    cases hi : s.workers[i]? with
    | some w =>
      simp only [hi] at hstep
      split at hstep
      · rename_i hw
        cases hstep
        have hreap := h.reap hr hi hw
        rw [List.append_nil]
        rw [← hr]
        exact hreap
      · cases hstep
        rw [List.append_nil]
        exact h.look hr (i + 1)
    | none =>
      simp only [hi] at hstep
      split at hstep
      · rename_i hplace
        cases hstep
        exact h.spawn hr hplace
      · cases hstep
        rw [List.append_nil]
        exact h.look hr 0
  | draining =>
    simp only [hr, Option.some.injEq, Prod.mk.injEq] at hstep
    obtain ⟨rfl, rfl⟩ := hstep
    rw [List.append_nil]
    apply h.join (.inl hr)
    intro w hw
    cases hw
  | joining i =>
    simp only [hr] at hstep
    cases hi : s.workers[i]? with
    | some w =>
      simp only [hi] at hstep
      split at hstep
      · rename_i hw
        cases hstep
        rw [List.append_nil]
        apply h.join (.inr ⟨i, hr⟩)
        intro u hu
        rw [List.take_add_one, hi] at hu
        rcases List.mem_append.mp hu with hu | hu
        · exact h.joined i hr u hu
        · rw [List.mem_singleton.mp hu]
          exact hw
      · cases hstep
    | none =>
      simp only [hi] at hstep
      cases hstep
      rw [List.append_nil]
      exact h.finish hr hi
  | returned =>
    simp only [hr] at hstep
    cases hstep

theorem Inv.step (h : Inv lib srv s log) {a : Label} {s' : State} {es : List Event}
    (hstep : step lib srv s a = some (s', es)) : Inv lib srv s' (log ++ es) := by
  cases a with
  | feed bytes =>
    simp only [Stdio.step] at hstep
    split at hstep
    · cases hstep
    · rename_i hopen
      cases hstep
      rw [List.append_nil]
      exact h.feed (Bool.eq_false_iff.mpr hopen) bytes
  | close =>
    cases hstep
    rw [List.append_nil]
    exact h.close
  | signal =>
    cases hstep
    rw [List.append_nil]
    exact h.signal
  | main => exact h.main hstep
  | answer n hd =>
    simp only [Stdio.step] at hstep
    split at hstep
    · rename_i line hn
      cases hstep
      exact h.answer hn hd
    · cases hstep
  | write n =>
    simp only [Stdio.step] at hstep
    split at hstep
    · rename_i line response hn
      cases hstep
      exact h.write hn
    · cases hstep
  | store n =>
    simp only [Stdio.step] at hstep
    split at hstep
    · rename_i line hn
      cases hstep
      rw [List.append_nil]
      exact h.store hn
    · cases hstep

theorem Inv.run {as : List Label} {c : Config State Event} (hrun : exec (Stdio.step lib srv) ⟨{}, []⟩ as = some c) :
    Inv lib srv c.state c.log :=
  exec_invariant (fun h hstep => h.step hstep) inv_start hrun

end Inv

/-! ### Stdout -/

section Stdout
variable (lib : JsonLibrary) (srv : JsonRpcServer)

/-- Some of the lines of an input have been answered, each at most once, and stdout is lines that
are some of the answers. -/
structure Framed (s : State) : Prop where
  /-- The lines that workers were started for, and those of them that are answered. -/
  once : ∃ (lines : List Bytes) (answers : List (Bytes × Option Bytes)), lines <+: requestLines s.input ∧
    (answers.map Prod.fst).Subperm lines ∧
    (∀ a ∈ answers, ∃ h, a.2 = lineReply lib { srv with shuttingDown := false } h a.1) ∧
    ∃ replies, s.stdout = unlines 10 replies ∧ replies.Subperm (answers.filterMap Prod.snd)
  workers : s.workers.length ≤ kMaxLiveWorkers + 1
  unsignalled : s.signalled = false → s.workers.length ≤ kMaxLiveWorkers

theorem State.Agrees.taken_front {s : State} {tk ls : List Bytes} {cur : Bytes} (h : s.Agrees tk ls cur) : tk <+: kept ls := by
  unfold State.Agrees at h
  split at h
  · rw [h.2]
  · rw [h.2]
  · rw [h.2]
    exact List.prefix_append ..
  · rw [h.2]
    exact List.prefix_append ..
  · rw [h.1]
  · rw [h.1]
  · rw [h.1]

variable {lib srv}

theorem Inv.framed {s : State} {log : List Event} (h : Inv lib srv s log) : Framed lib srv s := by
  obtain ⟨ls, cur, hseen, hagrees⟩ := h.read
  have hanswers : ((answered log).map Prod.fst).Subperm (taken log) :=
    (List.sublist_append_left ..).subperm.trans h.answers.symm.subperm
  have hreplies : (wrote log).Subperm ((answered log).filterMap Prod.snd) :=
    (List.sublist_append_left ..).subperm.trans h.written.symm.subperm
  refine ⟨⟨taken log, answered log, hagrees.taken_front.trans hseen.front, hanswers, h.replies, wrote log, h.stdout,
    hreplies⟩, ?_, ?_⟩
  · rcases h.bound with hle | ⟨-, hle, -⟩
    · exact hle.trans (Nat.le_succ _)
    · exact hle
  · intro hsignal
    rcases h.bound with hle | ⟨hsignal', -, -⟩
    · exact hle
    · rw [hsignal] at hsignal'
      cases hsignal'

/-- When the transport is back, what was taken is answered and written. -/
theorem Inv.returned {s : State} {log : List Event} (h : Inv lib srv s log) (hr : s.reader = .returned)
    (hsignal : s.signalled = false) : taken log = requestLines s.input ∧
      ((answered log).map Prod.fst).Perm (requestLines s.input) ∧
      (wrote log).Perm ((answered log).filterMap Prod.snd) := by
  obtain ⟨ls, cur, hseen, hagrees⟩ := h.read
  simp only [State.Agrees, hr] at hagrees
  have hend : s.ended ∧ cur = [] := by
    rcases hagrees.2 with hsignal' | hend
    · rw [hsignal] at hsignal'
      cases hsignal'
    · exact hend
  have htaken : taken log = requestLines s.input := hagrees.1.symm.trans (hseen.whole hend.1 hend.2)
  have hnone : s.workers.flatMap Worker.unanswered = [] ∧ s.workers.flatMap Worker.unwritten = [] := by
    constructor
    · apply List.flatMap_eq_nil_iff.mpr
      intro w hw
      rw [Worker.unanswered, h.done hr w hw]
      rfl
    · apply List.flatMap_eq_nil_iff.mpr
      intro w hw
      rw [Worker.unwritten, h.done hr w hw]
  have hanswers := h.answers
  have hwritten := h.written
  rw [hnone.1, List.append_nil, htaken] at hanswers
  rw [hnone.2, List.append_nil] at hwritten
  exact ⟨htaken, hanswers.symm, hwritten.symm⟩

end Stdout

/-- At every moment of every run: stdout is whole lines, which are answers of `handleLine` to lines
of the input, none of them answered twice and none refused for a shutdown; at most 64 workers are
live, or 65 behind a signal. -/
theorem stdout_framed (lib : JsonLibrary) (srv : JsonRpcServer) (as : List Label) (c : Config State Event)
    (hrun : exec (step lib srv) ⟨{}, []⟩ as = some c) : Framed lib srv c.state :=
  (Inv.run hrun).framed

def noDocuments : JsonLibrary := .documents [] rfl

def noTools : JsonRpcServer := ⟨[], false, false, false, false⟩

def unasked : Handling := ⟨fun _ => none, fun _ _ => .threw, false, fun _ _ => .error .other⟩

/-- One line that is no document, its worker, and the end. -/
def oneLine : List Label :=
  [.feed [120, 10], .close, .main, .main, .main, .main, .main, .answer 0 unasked, .write 0, .store 0, .main, .main, .main,
    .main, .main]

theorem stdout_framed_one_line : ∃ c, exec (step noDocuments noTools) ⟨{}, []⟩ oneLine = some c ∧
    Framed noDocuments noTools c.state := by
  have hsome : (exec (step noDocuments noTools) ⟨{}, []⟩ oneLine).isSome = true := by decide
  obtain ⟨c, hrun⟩ := Option.isSome_iff_exists.mp hsome
  exact ⟨c, hrun, stdout_framed noDocuments noTools oneLine c hrun⟩

/-- When the transport is back without a signal, every line of the input has its answer, the last
one also without a newline, and the lines of stdout are the answers. -/
theorem every_line_answered (lib : JsonLibrary) (hdump : ∀ j text, lib.dump j = some text → 10 ∉ text)
    (srv : JsonRpcServer) (as : List Label) (c : Config State Event)
    (hrun : exec (step lib srv) ⟨{}, []⟩ as = some c) (hreturned : c.state.reader = .returned)
    (hsignal : c.state.signalled = false) :
    ∃ answers : List (Bytes × Option Bytes), (answers.map Prod.fst).Perm (requestLines c.state.input) ∧
      (∀ a ∈ answers, ∃ h, a.2 = lineReply lib { srv with shuttingDown := false } h a.1) ∧
      ((c.state.stdout.splitOn 10).dropLast).Perm (answers.filterMap Prod.snd) := by
  have h := Inv.run hrun
  obtain ⟨-, hanswers, hwritten⟩ := h.returned hreturned hsignal
  refine ⟨answered c.log, hanswers, h.replies, ?_⟩
  have hplain : ∀ reply ∈ wrote c.log, 10 ∉ reply := by
    intro reply hreply
    obtain ⟨a, ha, hsnd⟩ := List.mem_filterMap.mp (hwritten.mem_iff.mp hreply)
    obtain ⟨hd, hline⟩ := h.replies a ha
    rw [hline, lineReply, Option.bind_eq_some_iff] at hsnd
    obtain ⟨j, -, hj⟩ := hsnd
    exact hdump j reply hj
  rw [h.stdout, splitOn_unlines hplain, List.dropLast_concat]
  exact hwritten

theorem every_line_answered_one_line : ∃ c, exec (step noDocuments noTools) ⟨{}, []⟩ oneLine = some c ∧
    ∃ answers : List (Bytes × Option Bytes), (answers.map Prod.fst).Perm (requestLines c.state.input) ∧
      (∀ a ∈ answers, ∃ h, a.2 = lineReply noDocuments { noTools with shuttingDown := false } h a.1) ∧
      ((c.state.stdout.splitOn 10).dropLast).Perm (answers.filterMap Prod.snd) := by
  have hdump : ∀ j text, noDocuments.dump j = some text → 10 ∉ text := by
    intro j text htext
    change (if j.utf8 then some (ascii "\x7b\x7d") else none) = some text at htext
    split at htext
    · rw [← Option.some.inj htext]
      decide
    · cases htext
  have hend : ((exec (step noDocuments noTools) ⟨{}, []⟩ oneLine).map fun c => (c.state.reader, c.state.signalled)) =
      some (.returned, false) := by decide
  obtain ⟨c, hrun, hc⟩ := Option.map_eq_some_iff.mp hend
  obtain ⟨hreturned, hsignal⟩ := Prod.mk.inj hc
  exact ⟨c, hrun, every_line_answered noDocuments hdump noTools oneLine c hrun hreturned hsignal⟩

end FractalSQL.Mcp.Stdio
