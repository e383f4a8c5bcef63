import FractalSQL.Lib.JsonMembers

/-!
# The structural check of audit payloads

`ent_json_well_formed` walks the bytes once, with a stack of at most 64 open
brackets and one of three states for the innermost container. It is read here as
a walk over tokens: brackets match, values are separated, a separator is followed
by a value. Commas and colons are not told apart, so it accepts more than JSON.
-/
namespace FractalSQL.Audit
open Lib Lib.Json

/-- `ST_EMPTY`, `ST_VALUE` and `ST_SEP`. -/
inductive St where
  | empty
  | value
  | sep
deriving DecidableEq

/-- The variables of the walk. The state of an outer container is not kept: it is
set when the inner one is closed. -/
structure Walk where
  stack : List Bracket := []
  st : St := .empty
  inStr : Bool := false
  esc : Bool := false
  seenAny : Bool := false
deriving DecidableEq

/-- The size of `stack`. -/
def maxNesting : ℕ := 64

/-- The loop of `ent_json_well_formed`; `none` is an early `return false`. -/
def walkLoop (w : Walk) (text : Bytes) : Option Walk :=
  match text with
  | [] => some w
  | c :: text =>
    if w.inStr then
      if w.esc then walkLoop { w with esc := false } text
      else if c = 92 then walkLoop { w with esc := true } text
      else if c = 34 then walkLoop { w with inStr := false } text
      else if c < 32 then none
      else walkLoop w text
    else if c = 34 then
      if w.st = .value then none
      else walkLoop { w with inStr := true, st := .value, seenAny := true } text
    else if isWs c then walkLoop w text
    else match punctuation c with
      | some (.opening b) =>
        if w.st = .value then none
        else if maxNesting ≤ w.stack.length then none
        else walkLoop { w with stack := b :: w.stack, st := .empty, seenAny := true } text
      | some (.closing b) =>
        match w.stack with
        | [] => none
        | o :: stack =>
          if w.st = .sep then none
          else if o ≠ b then none
          else walkLoop { w with stack, st := .value } text
      | some _ =>
        -- The branches for a comma and for a colon are the same.
        if w.stack = [] ∨ w.st ≠ .value then none else walkLoop { w with st := .sep } text
      | none =>
        if w.st = .value then none
        else match h : scanScalar (c :: text) with
          | none => none
          | some rest =>
            have := scanScalar_length h
            walkLoop { w with st := .value, seenAny := true } rest
termination_by text.length
decreasing_by all_goals simp_all

/-- `ent_json_well_formed`. -/
def jsonWellFormed (text : Bytes) : Bool :=
  match walkLoop {} text with
  | none => false
  | some w => w.seenAny ∧ ¬ w.inStr ∧ w.stack = [] ∧ w.st = .value

/-! ### The walk over tokens -/

/-- The brackets that are open and the state of the innermost container. -/
structure Frames where
  stack : List Bracket := []
  st : St := .empty
deriving DecidableEq

def Frames.step (f : Frames) : Token → Option Frames
  | .opening b => if f.st = .value then none else some ⟨b :: f.stack, .empty⟩
  | .closing b =>
    match f.stack with
    | [] => none
    | o :: stack => if f.st = .sep ∨ o ≠ b then none else some ⟨stack, .value⟩
  | .comma | .colon => if f.stack = [] ∨ f.st ≠ .value then none else some ⟨f.stack, .sep⟩
  | .str _ | .scalar _ => if f.st = .value then none else some ⟨f.stack, .value⟩

def Frames.run (f : Frames) : List Token → Option Frames
  | [] => some f
  | t :: ts => (f.step t).bind fun f => f.run ts

/-- The tokens form one value. -/
def OneValue (ts : List Token) : Prop := Frames.run {} ts = some ⟨[], .value⟩

@[simp] theorem Frames.run_nil (f : Frames) : f.run [] = some f := rfl

theorem Frames.run_cons (f : Frames) (t : Token) (ts : List Token) :
    f.run (t :: ts) = (f.step t).bind fun f => f.run ts := rfl

theorem Frames.run_append (f : Frames) (ts us : List Token) :
    f.run (ts ++ us) = (f.run ts).bind fun f => f.run us := by
  induction ts generalizing f with
  | nil => rfl
  | cons t ts ih =>
    rw [List.cons_append, run_cons, run_cons, Option.bind_assoc]
    exact congrArg _ (funext fun f => ih f)

/-- What one token does to the stack. -/
theorem Frames.step_depth {f f' : Frames} {t : Token} (h : f.step t = some f') :
    f'.stack.length = t.depth f.stack.length := by
  cases t with
  | opening b =>
    simp only [step] at h
    split at h <;> cases h
    rfl
  | closing b =>
    simp only [step] at h
    split at h
    · cases h
    · rename_i o stack hstack
      split at h <;> cases h
      simp [Token.depth, hstack]
  | comma | colon =>
    simp only [step] at h
    split at h <;> cases h
    rfl
  | str raw | scalar raw =>
    simp only [step] at h
    split at h <;> cases h
    rfl

theorem Frames.run_depth {f f' : Frames} {ts : List Token} (h : f.run ts = some f') :
    f'.stack.length = depthAfter f.stack.length ts := by
  induction ts generalizing f with
  | nil =>
    cases h
    rfl
  | cons t ts ih =>
    obtain ⟨g, hg, hrest⟩ := Option.bind_eq_some_iff.mp h
    rw [depthAfter_cons, ← step_depth hg, ih hrest]

/-! ### The walk over bytes is the walk over tokens -/

/-- The frames at the end of the text, outside strings. -/
def walkEnd (w : Walk) (text : Bytes) : Option Frames :=
  (walkLoop w text).bind fun w => if w.inStr then none else some ⟨w.stack, w.st⟩

/-- A walk outside strings. -/
def Frames.walk (f : Frames) (seen : Bool) : Walk := ⟨f.stack, f.st, false, false, seen⟩

theorem walkEnd_str (f : Frames) (seen : Bool) (text : Bytes) :
    walkEnd { f.walk seen with inStr := true } text =
      (scanStr text).bind fun p => walkEnd (f.walk seen) p.2 := by
  fun_induction scanStr text with
  | case1 => simp [walkEnd, walkLoop]
  | case2 => simp [walkEnd, walkLoop, Frames.walk]
  | case3 b text ih =>
    have hstep : walkEnd { f.walk seen with inStr := true } (92 :: b :: text) =
        walkEnd { f.walk seen with inStr := true } text := by
      simp [walkEnd, walkLoop, Frames.walk]
    rw [hstep, ih]
    cases scanStr text <;> rfl
  | case4 text => simp [walkEnd, walkLoop, Frames.walk]
  | case5 b text hnil hesc hquote hctl =>
    have hb : b ≠ 92 := by
      rintro rfl
      exact absurd hctl (by decide)
    simp [walkEnd, walkLoop, Frames.walk, hb, hquote, hctl]
  | case6 b text hnil hesc hquote hctl ih =>
    have hb : b ≠ 92 := by
      rintro rfl
      cases text with
      | nil => exact hnil rfl rfl
      | cons c text => exact hesc c text rfl rfl
    have hstep : walkEnd { f.walk seen with inStr := true } (b :: text) =
        walkEnd { f.walk seen with inStr := true } text := by
      simp [walkEnd, walkLoop, Frames.walk, hb, hquote, hctl]
    rw [hstep, ih]
    cases scanStr text <;> rfl

/-- What the token walk says of a text, with the bound on the stack. -/
def boundedRun (f : Frames) (ts : List Token) : Option Frames :=
  if nesting f.stack.length ts ≤ maxNesting then f.run ts else none

theorem boundedRun_cons {f : Frames} (hf : f.stack.length ≤ maxNesting) (t : Token) (ts : List Token) :
    boundedRun f (t :: ts) = (f.step t).bind fun f' =>
      if f'.stack.length ≤ maxNesting then boundedRun f' ts else none := by
  rw [boundedRun, Frames.run_cons, nesting]
  cases hstep : f.step t with
  | none => simp
  | some f' =>
    have hdepth := Frames.step_depth hstep
    have hle : f'.stack.length ≤ nesting f'.stack.length ts := by
      cases ts with
      | nil => exact le_rfl
      | cons u us => exact le_max_left ..
    simp only [Option.bind_some, boundedRun, ← hdepth]
    split
    · rename_i hmax
      have hn := (max_le_iff.mp hmax).2
      rw [if_pos (hle.trans hn), if_pos hn]
    · rename_i hmax
      split
      · rw [if_neg fun hn => hmax (max_le hf hn)]
      · rfl

theorem punctuation_ne {c : UInt8} {t : Token} (h : punctuation c = some t) : c ≠ 34 ∧ isWs c = false := by
  constructor
  · rintro rfl
    cases h
  · by_contra hc
    simp only [isWs, Bool.not_eq_false, decide_eq_true_eq] at hc
    rcases hc with rfl | rfl | rfl | rfl <;> cases h

theorem punctuation_cases {c : UInt8} {t : Token} (h : punctuation c = some t) :
    (∃ b, t = .opening b) ∨ (∃ b, t = .closing b) ∨ t = .comma ∨ t = .colon := by
  unfold punctuation at h
  split_ifs at h <;> cases h <;> simp

/-- One byte of punctuation. -/
theorem walkEnd_punctuation {f : Frames} (hf : f.stack.length ≤ maxNesting) (seen : Bool) {c : UInt8}
    {t : Token} (hp : punctuation c = some t) (text : Bytes) :
    ∃ seen', walkEnd (f.walk seen) (c :: text) = (f.step t).bind fun f' =>
      if f'.stack.length ≤ maxNesting then walkEnd (f'.walk seen') text else none := by
  obtain ⟨hquote, hws⟩ := punctuation_ne hp
  obtain ⟨stack, st⟩ := f
  rcases punctuation_cases hp with ⟨b, rfl⟩ | ⟨b, rfl⟩ | rfl | rfl
  · refine ⟨true, ?_⟩
    by_cases hv : st = .value
    · simp [walkEnd, walkLoop, Frames.walk, hquote, hws, hp, Frames.step, hv]
    · by_cases hlen : maxNesting ≤ stack.length
      · simp [walkEnd, walkLoop, Frames.walk, hquote, hws, hp, Frames.step, hv, hlen]
      · simp [walkEnd, walkLoop, Frames.walk, hquote, hws, hp, Frames.step, hv, hlen]
  · refine ⟨seen, ?_⟩
    cases stack with
    | nil => simp [walkEnd, walkLoop, Frames.walk, hquote, hws, hp, Frames.step]
    | cons o stack =>
      have hlen : stack.length ≤ maxNesting := Nat.le_of_succ_le hf
      by_cases hsep : st = .sep
      · simp [walkEnd, walkLoop, Frames.walk, hquote, hws, hp, Frames.step, hsep]
      · by_cases hob : o = b
        · simp [walkEnd, walkLoop, Frames.walk, hquote, hws, hp, Frames.step, hsep, hob, hlen]
        · simp [walkEnd, walkLoop, Frames.walk, hquote, hws, hp, Frames.step, hsep, hob]
  all_goals
    refine ⟨seen, ?_⟩
    have hlen : stack.length ≤ maxNesting := hf
    by_cases hsep : stack = [] ∨ st ≠ .value
    · simp [walkEnd, walkLoop, Frames.walk, hquote, hws, hp, Frames.step, hsep]
    · simp [walkEnd, walkLoop, Frames.walk, hquote, hws, hp, Frames.step, hsep, hlen]

/-- A literal or a number. -/
theorem walkEnd_scalar (f : Frames) (seen : Bool) {c : UInt8} (hws : isWs c = false) (hq : c ≠ 34)
    (hp : punctuation c = none) (text : Bytes) :
    walkEnd (f.walk seen) (c :: text) =
      if f.st = .value then none
      else (scanScalar (c :: text)).bind fun rest => walkEnd (Frames.walk ⟨f.stack, .value⟩ true) rest := by
  by_cases hv : f.st = .value
  · simp [walkEnd, walkLoop, Frames.walk, hq, hws, hp, hv]
  · have hscan : (match h : scanScalar (c :: text) with
        | none => none
        | some rest => walkLoop ⟨f.stack, .value, false, false, true⟩ rest) =
        (scanScalar (c :: text)).bind (walkLoop ⟨f.stack, .value, false, false, true⟩) := by
      split <;> simp [*]
    rw [walkEnd, walkLoop, if_neg hv]
    simp [Frames.walk, hq, hws, hp, hv, hscan, Option.bind_assoc, walkEnd]

/-- The loop over bytes computes the walk over tokens. -/
theorem walkEnd_eq {f : Frames} (hf : f.stack.length ≤ maxNesting) (seen : Bool) (text : Bytes) :
    walkEnd (f.walk seen) text = (tokens text).bind (boundedRun f) := by
  fun_induction tokens text generalizing f seen with
  | case1 => simp [walkEnd, walkLoop, Frames.walk, boundedRun, nesting, hf]
  | case2 c text hws ih =>
    rw [← ih hf seen]
    have hquote : c ≠ 34 := by
      rintro rfl
      exact absurd hws (by decide)
    simp [walkEnd, walkLoop, Frames.walk, hws, hquote]
  | case3 text h hws =>
    by_cases hv : f.st = .value
    · simp [walkEnd, walkLoop, Frames.walk, hv]
    · have hstr := walkEnd_str ⟨f.stack, .value⟩ true text
      rw [h, Option.bind_none] at hstr
      simpa [walkEnd, walkLoop, Frames.walk, hv] using hstr
  | case4 text raw rest h hlt hws ih =>
    by_cases hv : f.st = .value
    · have hnone (ts : List Token) : boundedRun f (.str raw :: ts) = none := by
        simp [boundedRun_cons hf, Frames.step, hv]
      cases tokens rest <;> simp [walkEnd, walkLoop, Frames.walk, hv, hnone]
    · have hstr := walkEnd_str ⟨f.stack, .value⟩ true text
      have hrest := ih (f := ⟨f.stack, .value⟩) hf true
      rw [h, Option.bind_some, hrest] at hstr
      have hcons (ts : List Token) : boundedRun f (.str raw :: ts) = boundedRun ⟨f.stack, .value⟩ ts := by
        simp [boundedRun_cons hf, Frames.step, hv, hf]
      rw [Option.bind_map, show (boundedRun f ∘ fun ts => Token.str raw :: ts) =
        boundedRun ⟨f.stack, .value⟩ from funext hcons, ← hstr]
      simp [walkEnd, walkLoop, Frames.walk, hv]
  | case5 c text hws hq t hp ih =>
    obtain ⟨seen', hstep⟩ := walkEnd_punctuation hf seen hp text
    rw [hstep, Option.bind_map]
    cases hf' : f.step t with
    | none =>
      cases tokens text <;> simp [boundedRun_cons hf, hf']
    | some f' =>
      simp only [Option.bind_some]
      split
      · rename_i hle
        rw [ih hle seen']
        cases tokens text <;> simp [boundedRun_cons hf, hf', hle]
      · rename_i hle
        cases tokens text <;> simp [boundedRun_cons hf, hf', hle]
  | case6 c text hws hq hp h =>
    rw [walkEnd_scalar f seen (by simpa using hws) hq hp, h]
    split <;> rfl
  | case7 c text hws hq hp rest h hlt ih =>
    rw [walkEnd_scalar f seen (by simpa using hws) hq hp, h, Option.bind_map]
    split
    · rename_i hv
      cases tokens rest <;> simp [boundedRun_cons hf, Frames.step, hv]
    · rename_i hv
      rw [Option.bind_some, ih (f := ⟨f.stack, .value⟩) hf true]
      cases tokens rest <;> simp [boundedRun_cons hf, Frames.step, hv, hf]

/-- Something has been seen, or the walk is where it began. -/
def Walk.Started (w : Walk) : Prop := w.seenAny = true ∨ w.stack = [] ∧ w.st = .empty

theorem walkLoop_started {w w' : Walk} {text : Bytes} (h : w.Started) (hw : walkLoop w text = some w') :
    w'.Started := by
  fun_induction walkLoop w text
  all_goals simp_all [Walk.Started]

/-- Accepted are the texts whose tokens form one value that nests at most 64 deep. -/
theorem jsonWellFormed_iff (text : Bytes) :
    jsonWellFormed text = true ↔
      ∃ ts, tokens text = some ts ∧ OneValue ts ∧ nesting 0 ts ≤ maxNesting := by
  have hwalk := walkEnd_eq (f := {}) (Nat.zero_le _) false text
  have hstart : Walk.Started {} := .inr ⟨rfl, rfl⟩
  have hend : jsonWellFormed text = true ↔ walkEnd {} text = some ⟨[], .value⟩ := by
    unfold jsonWellFormed walkEnd
    cases h : walkLoop {} text with
    | none => simp
    | some w =>
      have hseen : w.stack = [] → w.st = .value → w.seenAny = true := fun _ hst =>
        (walkLoop_started hstart h).resolve_right fun hw => by simp [hst] at hw
      simp only [Option.bind_some, decide_eq_true_eq]
      constructor
      · rintro ⟨-, hstr, hstack, hst⟩
        simp [hstr, hstack, hst]
      · intro heq
        split at heq
        · cases heq
        · rename_i hstr
          obtain ⟨hstack, hst⟩ := Frames.mk.inj (Option.some.inj heq)
          exact ⟨hseen hstack hst, hstr, hstack, hst⟩
  rw [hend, show ({} : Walk) = Frames.walk {} false from rfl, hwalk, Option.bind_eq_some_iff]
  simp only [boundedRun, OneValue]
  constructor
  · rintro ⟨ts, hts, hrun⟩
    split at hrun
    · rename_i hn
      exact ⟨ts, hts, hrun, hn⟩
    · cases hrun
  · rintro ⟨ts, hts, hrun, hn⟩
    exact ⟨ts, hts, by rw [if_pos (show nesting (List.length []) ts ≤ maxNesting from hn), hrun]⟩

end FractalSQL.Audit
