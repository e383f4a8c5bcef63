import FractalSQL.TextSql.Scanners

/-!
# Scanners and lexer

The parts that the scanners share are those of the lexer with backslash escapes:
quoted tokens, block comments, white space and comments between tokens.
-/
namespace FractalSQL.TextSql
open Lib Lib.Sql

theorem skipQuoted_eq (q : UInt8) (text : Bytes) : skipQuoted q text = (splitQuoted true q text).2 := by
  fun_induction splitQuoted true q text with
  | case1 | case2 => rfl
  | case3 c d text h ih => rw [skipQuoted, if_pos h.2, ih]
  | case4 text h ih => rw [skipQuoted, if_neg fun hc => h ⟨rfl, hc⟩, if_pos rfl, if_pos rfl, ih]
  | case5 d text hd h => rw [skipQuoted, if_neg fun hc => h ⟨rfl, hc⟩, if_pos rfl, if_neg hd]
  | case6 c d text h hc ih => rw [skipQuoted, if_neg fun hc => h ⟨rfl, hc⟩, if_neg hc, ih]

theorem skipBlock_eq (text : Bytes) : skipBlock text = (splitBlock text).2 := by
  fun_induction splitBlock text with
  | case1 | case2 => rfl
  | case3 c d text h => rw [skipBlock, if_pos h]
  | case4 c d text h ih => rw [skipBlock, if_neg h, ih]

theorem atLineComment_eq (text : Bytes) : atLineComment text = opensLine text := by
  fun_cases opensLine text <;> simp [atLineComment, or_comm]

theorem atBlockComment_eq (text : Bytes) : atBlockComment text = opensBlock text := by
  fun_cases opensBlock text <;> simp_all [atBlockComment]

theorem opensBlock_cons {b : UInt8} {text : Bytes} (h : opensBlock (b :: text) = true) :
    ∃ rest, b = 47 ∧ text = 42 :: rest := by
  cases text with
  | nil => cases h
  | cons c text =>
    simp only [opensBlock, decide_eq_true_eq] at h
    exact ⟨text, h.1, by rw [h.2]⟩

/-- The bytes of words open neither a quote nor a comment. -/
theorem identByte_plain {b : UInt8} (h : identByte b = true) :
    isQuote b = false ∧ isSpace b = false ∧ b ∉ ([35, 45, 47, 40, 41, 59, 44] : Bytes) := by
  refine ⟨isQuote_of_identByte h, isSpace_of_identByte h, fun hb => ?_⟩
  exact notMem_of_identByte h (List.mem_append_right [39, 34, 96, 32, 9, 10, 11, 12, 13] hb)

/-- Letters, in either case, are bytes of words. -/
theorem identByte_of_letter {b : UInt8} : isLetter (toLower b) = true → identByte b = true :=
  forall_byte (p := fun b => isLetter (toLower b) = true → identByte b = true) (by decide +kernel) b

theorem not_letter_of_not_identByte {b : UInt8} (h : identByte b = false) : isLetter (toLower b) = false := by
  rw [← Bool.not_eq_true] at h ⊢
  exact fun hb => h (identByte_of_letter hb)

theorem isSpace_plain {b : UInt8} (h : isSpace b = true) :
    isQuote b = false ∧ identByte b = false ∧ b ∉ ([35, 45, 47, 40, 41, 59, 44] : Bytes) := by
  have hall : ∀ b ∈ ([32, 9, 10, 11, 12, 13] : Bytes), isQuote b = false ∧ identByte b = false ∧
      b ∉ ([35, 45, 47, 40, 41, 59, 44] : Bytes) := by decide +kernel
  exact hall b (mem_of_isSpace h)

theorem opensBlock_of_ne {b : UInt8} (h : b ≠ 47) (text : Bytes) : opensBlock (b :: text) = false := by
  cases text <;> simp [opensBlock, h]

/-! ### White space and comments -/

theorem opensLine_dashes {b : UInt8} {text : Bytes} (h : opensLine (b :: text) = true) :
    b = 35 ∨ b = 45 ∧ text.head? = some 45 := by
  match text with
  | [] => exact .inl (by simpa [opensLine] using h)
  | [c] =>
    simp only [opensLine, decide_eq_true_eq] at h
    exact h.imp_right fun h => ⟨h.1, by rw [h.2]; rfl⟩
  | c :: d :: text =>
    simp only [opensLine, decide_eq_true_eq] at h
    exact h.imp_right fun h => ⟨h.1, by rw [h.2.1]; rfl⟩

theorem opensLine_head {b : UInt8} {text : Bytes} (h : opensLine (b :: text) = true) : b = 35 ∨ b = 45 :=
  (opensLine_dashes h).imp_right And.left

theorem opensLine_of_ne {b : UInt8} (h35 : b ≠ 35) (h45 : b ≠ 45) (text : Bytes) : opensLine (b :: text) = false := by
  by_contra hc
  exact (opensLine_head (by simpa using hc)).elim h35 h45

/-- A line ends at its newline. -/
theorem dropWhile_notNewline {raw rest : Bytes} (hraw : ∀ b ∈ raw, b ≠ 10) (hend : ∀ b ∈ rest.head?, b = 10) :
    (raw ++ rest).dropWhile notNewline = rest := by
  rw [List.dropWhile_append_of_pos fun b hb => by simpa [notNewline] using hraw b hb]
  cases rest with
  | nil => rfl
  | cons b rest => simp [notNewline, hend b rfl]

theorem skipWsComments_space {b : UInt8} (h : isSpace b = true) (text : Bytes) :
    skipWsComments (b :: text) = skipWsComments text := by
  have hdrop : (b :: text).dropWhile isSpace = text.dropWhile isSpace := by simp [h]
  rw [skipWsComments, hdrop, ← skipWsComments]

theorem skipWsComments_line {text : Bytes} (h : opensLine text = true) :
    skipWsComments text = skipWsComments (text.dropWhile notNewline) := by
  have hdrop : text.dropWhile isSpace = text := by
    cases text with
    | nil => rfl
    | cons b text =>
      have hb : isSpace b = false := by
        rcases opensLine_head h with rfl | rfl <;> decide
      simp [hb]
  rw [skipWsComments]
  simp [hdrop, atLineComment_eq, h]

theorem skipWsComments_block (text : Bytes) :
    skipWsComments (47 :: 42 :: text) = skipWsComments (splitBlock text).2 := by
  have hline : atLineComment (47 :: 42 :: text) = false := by cases text <;> simp [atLineComment]
  rw [skipWsComments]
  simp [show isSpace 47 = false from by decide, hline, atBlockComment, skipBlock_eq]

/-- White space and comments are skipped. -/
theorem skipWsComments_trivia {bs : Bool} {text rest : Bytes} {t : Lexeme} (h : next bs text = some (t, rest))
    (ht : t.isTrivia = true) : skipWsComments text = skipWsComments rest := by
  cases next_cases h with
  | quoted | word | symbol => cases ht
  | space hs => exact skipWsComments_space hs _
  | line hopen hraw hend hne => rw [skipWsComments_line hopen, dropWhile_notNewline hraw hend]
  | block hsplit => rw [skipWsComments_block, hsplit]

/-- Nothing else is. -/
theorem skipWsComments_self {bs : Bool} {text rest : Bytes} {t : Lexeme} (h : next bs text = some (t, rest))
    (ht : t.isTrivia = false) : skipWsComments text = text := by
  have hself {b : UInt8} {text : Bytes} (hs : isSpace b = false) (hline : opensLine (b :: text) = false)
      (hblock : opensBlock (b :: text) = false) : skipWsComments (b :: text) = b :: text := by
    rw [skipWsComments]
    simp [hs, atLineComment_eq, hline, atBlockComment_eq, hblock]
  have hhead {b : UInt8} (text : Bytes) (hne : b ∉ ([35, 45, 47, 40, 41, 59, 44] : Bytes)) :
      opensLine (b :: text) = false ∧ opensBlock (b :: text) = false :=
    ⟨opensLine_of_ne (fun hb => hne (by simp [hb])) (fun hb => hne (by simp [hb])) text,
      opensBlock_of_ne (fun hb => hne (by simp [hb])) text⟩
  cases next_cases h with
  | space | line | block => cases ht
  | @quoted q body rest hq hsplit =>
    have hquotes : ∀ q ∈ ([39, 34, 96] : Bytes), isSpace q = false ∧ q ∉ ([35, 45, 47, 40, 41, 59, 44] : Bytes) := by
      decide +kernel
    have hq' := hquotes q (mem_of_isQuote hq)
    obtain ⟨hline, hblock⟩ := hhead (body ++ rest) hq'.2
    exact hself hq'.1 hline hblock
  | @word raw rest hne hraw hend =>
    cases raw with
    | nil => exact absurd rfl hne
    | cons b raw =>
      obtain ⟨-, hs, hb⟩ := identByte_plain (hraw b (by simp))
      obtain ⟨hline, hblock⟩ := hhead (raw ++ rest) hb
      exact hself hs hline hblock
  | symbol hq hline hblock hs hi => exact hself hs hline hblock

theorem skipWsComments_lexes {bs : Bool} {text rest : Bytes} {ts : List Lexeme} (h : Lexes bs text ts rest)
    (hts : ∀ t ∈ ts, t.isTrivia = true) : skipWsComments text = skipWsComments rest := by
  induction h with
  | nil text => rfl
  | cons hn _ ih =>
    rw [skipWsComments_trivia hn (hts _ (by simp)), ih fun t ht => hts t (by simp [ht])]

end FractalSQL.TextSql
