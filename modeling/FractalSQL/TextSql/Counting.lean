import FractalSQL.TextSql.Statements

/-!
# The number of statements

`t2s_count_statements` against the segments between semicolons. A dash directly in front
of a dash is the one token that it passes by, so it misses the segments that have nothing
else.
-/
namespace FractalSQL.TextSql
open Lib Lib.Sql

/-- What stands between the semicolons. -/
def segments (ts : List Lexeme) : List (List Lexeme) := ts.splitOnP fun t => t = .symbol 59

def hasToken (seg : List Lexeme) : Bool := seg.any fun t => !t.isTrivia

/-- The first byte of the next token. -/
def headByte (ts : List Lexeme) : Option UInt8 := ts.head?.bind (·.raw.head?)

/-- A token other than a dash directly in front of a dash. -/
def showsToken : List Lexeme → Bool
  | [] => false
  | t :: seg => (!t.isTrivia && !(t = .symbol 45 && headByte seg = some 45)) || showsToken seg

/-- The segments that are counted, `n` having been counted before and the first one
having content already. -/
def counted (n : ℕ) (content : Bool) : List (List Lexeme) → ℕ
  | [] => n
  | seg :: segs => n + (if content || showsToken seg then 1 else 0) + segs.countP showsToken

theorem segments_semicolon (ts : List Lexeme) : segments (.symbol 59 :: ts) = [] :: segments ts := by
  rw [segments, List.splitOnP_cons_eq_if_modifyHead, if_pos (by simp)]
  rfl

theorem segments_cons {t : Lexeme} (h : t ≠ .symbol 59) (ts : List Lexeme) :
    segments (t :: ts) = (segments ts).modifyHead (t :: ·) := by
  rw [segments, List.splitOnP_cons_eq_if_modifyHead, if_neg (by simpa using h)]
  rfl

theorem segments_ne_nil (ts : List Lexeme) : segments ts ≠ [] := List.splitOnP_ne_nil _ _

/-- A segment begins with the same dash. -/
theorem headByte_segment {ts seg : List Lexeme} {segs : List (List Lexeme)} (h : segments ts = seg :: segs) :
    headByte seg = some 45 ↔ headByte ts = some 45 := by
  cases ts with
  | nil =>
    cases h
    exact Iff.rfl
  | cons t ts =>
    by_cases hsemi : t = .symbol 59
    · subst hsemi
      rw [segments_semicolon] at h
      cases h
      simp [headByte, Lexeme.raw]
    · rw [segments_cons hsemi] at h
      obtain ⟨seg', segs', hts⟩ := List.exists_cons_of_ne_nil (segments_ne_nil ts)
      rw [hts] at h
      cases h
      exact Iff.rfl

theorem headByte_lexes {text : Bytes} {ts : List Lexeme} (h : Lexes true text ts []) : text.head? = headByte ts := by
  cases ts with
  | nil =>
    cases h
    rfl
  | cons t ts => exact head_of_lexes h

/-- One token of the first segment. -/
theorem counted_cons {t : Lexeme} (h : t ≠ .symbol 59) (ts : List Lexeme) (n : ℕ) (content : Bool) :
    counted n content (segments (t :: ts)) =
      counted n (content || (!t.isTrivia && !(t = .symbol 45 && headByte ts = some 45))) (segments ts) := by
  obtain ⟨seg, segs, hts⟩ := List.exists_cons_of_ne_nil (segments_ne_nil ts)
  have hhead := headByte_segment hts
  rw [segments_cons h, hts, List.modifyHead_cons, counted, counted, showsToken]
  simp only [hhead, Bool.or_assoc]

theorem countLoop_lexes {text : Bytes} {ts : List Lexeme} (h : Lexes true text ts []) (n : ℕ) (content : Bool) :
    countLoop n content text = counted n content (segments ts) := by
  induction ts generalizing text n content with
  | nil =>
    cases h
    cases content <;> simp [countLoop, counted, segments, showsToken]
  | cons t ts ih =>
    obtain ⟨rest, hn, hts⟩ := h.head
    by_cases htriv : t.isTrivia = true
    · have hsemi : t ≠ .symbol 59 := by
        rintro rfl
        cases htriv
      rw [countLoop_trivia hn htriv, ih hts, counted_cons hsemi]
      simp [htriv]
    · rw [Bool.not_eq_true] at htriv
      by_cases hsemi : t = .symbol 59
      · subst hsemi
        rw [countLoop_step hn htriv (by simp), ih hts, segments_semicolon]
        obtain ⟨seg, segs, hsegs⟩ := List.exists_cons_of_ne_nil (segments_ne_nil ts)
        rw [hsegs]
        cases content <;> simp [Tally.step, Tally.total, Lexeme.isTrivia, counted, showsToken, List.countP_cons] <;> omega
      · rw [counted_cons hsemi]
        by_cases hdash : t = .symbol 45 ∧ rest.head? = some 45
        · obtain ⟨rfl, hhead⟩ := hdash
          rw [countLoop_dash hn hhead, ih hts]
          simp [← headByte_lexes hts, hhead]
        · rw [countLoop_step hn htriv fun ht hr => hdash ⟨ht, hr⟩, ih hts]
          have hshows : (!t.isTrivia && !(t = .symbol 45 && headByte ts = some 45)) = true := by
            rw [← headByte_lexes hts]
            simp only [htriv, Bool.not_false, Bool.true_and, Bool.not_eq_true', Bool.and_eq_false_iff,
              decide_eq_false_iff_not]
            exact not_and_or.mp hdash
          rw [hshows, Tally.step, if_neg (by simp [htriv]), if_neg hsemi, Bool.or_true]

/-- The counter counts the segments that show a token. -/
theorem countStatements_eq (text : Bytes) : countStatements text = (segments (lex true text)).countP showsToken := by
  rw [countStatements, countLoop_lexes (lexes_lex true text)]
  obtain ⟨seg, segs, h⟩ := List.exists_cons_of_ne_nil (segments_ne_nil (lex true text))
  rw [h, counted, List.countP_cons]
  simp [Nat.add_comm]

theorem hasToken_of_showsToken {seg : List Lexeme} (h : showsToken seg = true) : hasToken seg = true := by
  induction seg with
  | nil => cases h
  | cons t seg ih =>
    rw [showsToken, Bool.or_eq_true, Bool.and_eq_true] at h
    rw [hasToken, List.any_cons, Bool.or_eq_true]
    rcases h with ⟨ht, -⟩ | h
    · exact .inl ht
    · exact .inr (ih h)

/-- One count equals a larger one where what is in the larger is in the smaller. -/
theorem countP_eq_iff {α : Type*} {p q : α → Bool} (hpq : ∀ a, p a = true → q a = true) (l : List α) :
    l.countP p = l.countP q ↔ ∀ a ∈ l, q a = true → p a = true := by
  induction l with
  | nil => simp
  | cons a l ih =>
    have hle : l.countP p ≤ l.countP q := List.countP_mono_left fun b _ => hpq b
    rw [List.countP_cons, List.countP_cons, List.forall_mem_cons, ← ih]
    cases hp : p a <;> cases hq : q a
    · simp
    · simp
      omega
    · exact absurd (hpq a hp) (by simp [hq])
    · simp

/-- The count is exact where every segment with a token shows one. -/
theorem countStatements_exact_iff (text : Bytes) :
    countStatements text = (segments (lex true text)).countP hasToken ↔
      ∀ seg ∈ segments (lex true text), hasToken seg = true → showsToken seg = true := by
  rw [countStatements_eq]
  exact countP_eq_iff (fun _ => hasToken_of_showsToken) _

/-- The second statement is one dash and a comment. -/
def dashStatement : Bytes := ascii "SELECT 1; --- x"

theorem dashStatement_miscounted :
    countStatements dashStatement = 1 ∧ (segments (lex true dashStatement)).countP hasToken = 2 := by decide +kernel

end FractalSQL.TextSql
