import FractalSQL.Vectors.Corpus

/-!
# The spellings of a corpus

Rows of number tokens as a nested array, as arrays between semicolons and as plain lists between
semicolons. The sections that `parse_corpus` cuts out are the rows with fillers around them, whichever
of the three was written.
-/
namespace FractalSQL.Vectors
open Lib

/-! ### Spellings -/

def Blanks (w : Bytes) : Prop := ∀ b ∈ w, isBlank b = true

/-- A text that is one finite number and nothing else. -/
structure IsToken (underflow : ℚ → Bool) (t : Bytes) (x : Signed) : Prop where
  reads : strtod underflow t = some ⟨x, false, []⟩
  finite : binary64.finite x = true
  begins : ∀ b ∈ t.head?, isSpace b = false

/-- The numbers of a row with commas between them. -/
inductive RowText (underflow : ℚ → Bool) : List Signed → Bytes → Prop where
  | last {w t w' : Bytes} {x : Signed} (hw : Blanks w) (ht : IsToken underflow t x) (hw' : Blanks w') :
    RowText underflow [x] (w ++ (t ++ w'))
  | more {w t w' s : Bytes} {x : Signed} {xs : List Signed} (hw : Blanks w) (ht : IsToken underflow t x) (hw' : Blanks w')
    (h : RowText underflow xs s) : RowText underflow (x :: xs) (w ++ (t ++ w') ++ 44 :: s)

/-- A row in brackets. -/
inductive RowArray (underflow : ℚ → Bool) (row : List Signed) : Bytes → Prop where
  | mk {w s w' : Bytes} (hw : Blanks w) (h : RowText underflow row s) (hw' : Blanks w') :
    RowArray underflow row (w ++ 91 :: (s ++ 93 :: w'))

/-- Rows with a byte between them. -/
inductive RowTexts (form : List Signed → Bytes → Prop) (sep : UInt8) : List (List Signed) → Bytes → Prop where
  | last {row : List Signed} {s : Bytes} (h : form row s) : RowTexts form sep [row] s
  | more {row : List Signed} {rows : List (List Signed)} {s t : Bytes} (h : form row s) (hrest : RowTexts form sep rows t) :
    RowTexts form sep (row :: rows) (s ++ sep :: t)

/-- The spellings of a corpus. -/
inductive CorpusSpelling (underflow : ℚ → Bool) : List (List Signed) → Bytes → Prop where
  | empty {w : Bytes} (hw : Blanks w) : CorpusSpelling underflow [] w
  | emptyArray {w w' w'' : Bytes} (hw : Blanks w) (hw' : Blanks w') (hw'' : Blanks w'') :
    CorpusSpelling underflow [] (w ++ 91 :: (w' ++ 93 :: w''))
  | nested {w t w' : Bytes} {rows : List (List Signed)} (hw : Blanks w)
    (h : RowTexts (RowArray underflow) 44 rows t) (hw' : Blanks w') : CorpusSpelling underflow rows (w ++ 91 :: (t ++ 93 :: w'))
  | arrays {t : Bytes} {rows : List (List Signed)} (h : RowTexts (RowArray underflow) 59 rows t) : CorpusSpelling underflow rows t
  | plain {t : Bytes} {rows : List (List Signed)} (h : RowTexts (RowText underflow) 59 rows t) : CorpusSpelling underflow rows t

/-! ### The numbers of a row -/

section
variable {underflow : ℚ → Bool}

theorem elements_of_numbers {fuel n : ℕ} {p : Bytes} {vs : List Signed} (h : numbers underflow isFiller p = some vs)
    (hmax : n + vs.length ≤ maxElems) (hfuel : p.length ≤ fuel) : parseElements underflow fuel n p = .ok vs := by
  induction fuel generalizing n p vs with
  | zero =>
    rw [List.length_eq_zero_iff.mp (Nat.le_zero.mp hfuel)] at h
    cases h
    rfl
  | succ fuel ih =>
    rw [numbers_eq] at h
    rw [parseElements]
    by_cases hdrop : p.dropWhile isFiller = []
    · rw [if_pos hdrop] at h
      cases h
      exact if_pos hdrop
    · rw [if_neg hdrop] at h
      obtain ⟨r, hstr, hr⟩ := Option.bind_eq_some_iff.mp h
      split_ifs at hr with hbad
      obtain ⟨ws, hws, rfl⟩ := Option.map_eq_some_iff.mp hr
      rw [Bool.or_eq_true, not_or] at hbad
      rw [List.length_cons] at hmax
      have hrest := (strtod_length hstr).trans_le (dropWhile_length_le isFiller p)
      simp only [if_neg hdrop, hstr]
      rw [if_neg hbad.1, if_neg hbad.2, if_neg (by omega), ih hws (by omega) (by omega)]
      rfl

theorem filler_of_blank {b : UInt8} (h : isBlank b = true) : isFiller b = true := decide_eq_true (.inl h)

theorem isStop_of_filler {b : UInt8} (h : isFiller b = true) : isStop b = true := isStop_of_gap (gap_of_filler h)

theorem Blanks.filler {w : Bytes} (h : Blanks w) : ∀ b ∈ w, isFiller b = true := fun b hb => filler_of_blank (h b hb)

theorem Blanks.not_mem {w : Bytes} (h : Blanks w) {c : UInt8} (hc : isBlank c = false) : c ∉ w := by
  intro hmem
  rw [h c hmem] at hc
  cases hc

section
variable {t : Bytes} {x : Signed}

theorem IsToken.ne_nil (h : IsToken underflow t x) : t ≠ [] := by
  rintro rfl
  have hlen := strtod_length h.reads
  cases hlen

/-- No byte of a token ends numbers. -/
theorem IsToken.not_stop (h : IsToken underflow t x) : ∀ b ∈ t, isStop b = false := by
  intro b hb
  by_contra hstop
  rw [Bool.not_eq_false] at hstop
  obtain ⟨s, rest, rfl⟩ := List.append_of_mem hb
  have hspace : isSpace b = false ∨ s.dropWhile isSpace ≠ [] := by
    cases s with
    | nil => exact .inl (h.begins b rfl)
    | cons c s =>
      right
      rw [List.dropWhile_cons_of_neg (by simp [h.begins c rfl])]
      exact List.cons_ne_nil _ _
  have hreads := h.reads
  rw [strtod_stop hstop hspace] at hreads
  obtain ⟨r, -, heq⟩ := Option.map_eq_some_iff.mp hreads
  have hrest := congrArg Strtod.rest heq
  exact absurd hrest (by simp)

theorem IsToken.not_filler (h : IsToken underflow t x) {b : UInt8} (hb : b ∈ t) : isFiller b = false := by
  by_contra hfiller
  rw [Bool.not_eq_false] at hfiller
  have hstop := h.not_stop b hb
  rw [isStop_of_filler hfiller] at hstop
  cases hstop

theorem IsToken.numbers (h : IsToken underflow t x) : numbers underflow isFiller t = some [x] := by
  have hdrop : t.dropWhile isFiller = t := by
    obtain ⟨b, s, rfl⟩ := List.exists_cons_of_ne_nil h.ne_nil
    rw [List.dropWhile_cons_of_neg (by simp [h.not_filler (List.mem_cons_self ..)])]
  rw [numbers_eq, hdrop, if_neg h.ne_nil, h.reads, Option.bind_some, if_neg (by simp [h.finite])]
  rfl

/-- Blanks around a token do not matter. -/
theorem numbers_padded {w w' : Bytes} (hw : Blanks w) (h : IsToken underflow t x) (hw' : Blanks w') :
    Vectors.numbers underflow isFiller (w ++ (t ++ w')) = some [x] := by
  rw [numbers_fill hw.filler, numbers_trail (fun _ => isStop_of_filler) hw'.filler, h.numbers]

end

theorem RowText.numbers {row : List Signed} {s : Bytes} (h : RowText underflow row s) : numbers underflow isFiller s = some row := by
  induction h with
  | last hw ht hw' => exact numbers_padded hw ht hw'
  | more hw ht hw' h ih =>
    rw [numbers_append (by decide) (by decide) (by decide), numbers_padded hw ht hw', ih]
    rfl

theorem RowText.ne_nil {row : List Signed} {s : Bytes} (h : RowText underflow row s) : row ≠ [] := by
  cases h <;> exact List.cons_ne_nil _ _

/-- A byte that stands in a row is a blank, a comma or part of a token. -/
theorem RowText.not_mem {row : List Signed} {s : Bytes} (h : RowText underflow row s) {c : UInt8} (hstop : isStop c = true)
    (hblank : isBlank c = false) (hcomma : c ≠ 44) : c ∉ s := by
  have hpadded {w t w' : Bytes} {x : Signed} (hw : Blanks w) (ht : IsToken underflow t x) (hw' : Blanks w') :
      c ∉ w ++ (t ++ w') := by
    rw [List.mem_append, List.mem_append, not_or, not_or]
    refine ⟨hw.not_mem hblank, fun hmem => ?_, hw'.not_mem hblank⟩
    rw [ht.not_stop c hmem] at hstop
    cases hstop
  induction h with
  | last hw ht hw' => exact hpadded hw ht hw'
  | more hw ht hw' h ih =>
    rw [List.mem_append, List.mem_cons, not_or, not_or]
    exact ⟨hpadded hw ht hw', hcomma, ih⟩

/-! ### Sections -/

/-- A section that holds nothing or one row. -/
inductive Section (underflow : ℚ → Bool) : Bytes → List (List Signed) → Prop where
  | blank {s : Bytes} (h : Blanks s) : Section underflow s []
  | row {s : Bytes} {row : List Signed} (h : numbers underflow isFiller s = some row) (hne : row ≠ []) (hnul : 0 ∉ s) :
    Section underflow s [row]

inductive Sections (underflow : ℚ → Bool) : List Bytes → List (List Signed) → Prop where
  | nil : Sections underflow [] []
  | cons {s : Bytes} {ss : List Bytes} {row rows : List (List Signed)} (h : Section underflow s row)
    (hs : Sections underflow ss rows) : Sections underflow (s :: ss) (row ++ rows)

theorem numbers_trimmed (s : Bytes) : numbers underflow isFiller (trimRow s) = numbers underflow isFiller s := by
  obtain ⟨w, w', hs, hw, hw'⟩ := trimRow_spec s
  conv_rhs => rw [hs]
  rw [numbers_fill hw, numbers_trail (fun _ => isStop_of_filler) hw']

theorem trimRow_blank {s : Bytes} (h : Blanks s) : trimRow s = [] := by
  have htrail : s.rdropWhile isTrail = [] := List.rdropWhile_eq_nil_iff.mpr fun b hb => decide_eq_true (.inl (h b hb))
  rw [trimRow, htrail, List.dropWhile_nil]

theorem parse_of_numbers {s : Bytes} {row : List Signed} (h : numbers underflow isFiller s = some row) (hne : row ≠ [])
    (hnul : 0 ∉ s) (hmax : row.length ≤ maxElems) : parseVectorCsv underflow s = .ok row := by
  have hcopy : cCopy s = s := by
    refine List.takeWhile_eq_self_iff.mpr fun c hc => ?_
    have hzero : c ≠ 0 := fun heq => hnul (heq ▸ hc)
    simpa using hzero
  rw [parseVectorCsv, hcopy, elements_of_numbers h (by rwa [Nat.zero_add]) le_rfl]
  cases row with
  | nil => exact absurd rfl hne
  | cons x xs => rfl

/-- The sections that are not blank are read as the rows. -/
theorem Sections.rowTexts {ss : List Bytes} {rows : List (List Signed)} (h : Sections underflow ss rows)
    (hmax : ∀ row ∈ rows, row.length ≤ maxElems) : (rowTexts ss).map (parseVectorCsv underflow) = rows.map .ok := by
  induction h with
  | nil => rfl
  | @cons s ss row rows h hs ih =>
    rw [List.forall_mem_append] at hmax
    rw [Vectors.rowTexts] at ih ⊢
    rw [List.map_cons]
    cases h with
    | blank hblank => rw [List.filter_cons_of_neg (by simp [trimRow_blank hblank]), ih hmax.2, List.nil_append]
    | row hrow hne hnul =>
      have htrimmed := (numbers_trimmed s).trans hrow
      have hpresent : trimRow s ≠ [] := by
        intro hnil
        rw [hnil] at htrimmed
        exact hne (Option.some.inj htrimmed).symm
      rw [List.filter_cons_of_pos (by simpa using hpresent), List.map_cons, ih hmax.2,
        parse_of_numbers htrimmed hne (fun hmem => hnul (mem_trimRow hmem)) (hmax.1 _ (List.mem_singleton_self _))]
      rfl

theorem Section.append {s w : Bytes} {row : List (List Signed)} (h : Section underflow s row) (hw : Blanks w) :
    Section underflow (s ++ w) row := by
  cases h with
  | blank hs => exact .blank (List.forall_mem_append.mpr ⟨hs, hw⟩)
  | row hrow hne hnul =>
    refine .row ((numbers_trail (fun _ => isStop_of_filler) hw.filler s).trans hrow) hne ?_
    rw [List.mem_append, not_or]
    exact ⟨hnul, hw.not_mem rfl⟩

theorem Section.of_nil {row : List (List Signed)} (h : Section underflow [] row) : row = [] := by
  cases h with
  | blank => rfl
  | row hrow hne => exact absurd (Option.some.inj hrow).symm hne

/-- Bytes at which no section ends. -/
theorem cutSections_pass {inBrackets : Bool} {s : Bytes} (h59 : 59 ∉ s) (h91 : inBrackets = true → 91 ∉ s) (acc t : Bytes) :
    cutSections inBrackets acc (s ++ t) = cutSections inBrackets (acc ++ s) t := by
  induction s generalizing acc with
  | nil => rw [List.nil_append, List.append_nil]
  | cons b s ih =>
    rw [List.mem_cons, not_or] at h59
    have h91' : ¬ (inBrackets = true ∧ b = 91 ∧ acc ≠ []) := fun h => h91 h.1 (h.2.1 ▸ List.mem_cons_self ..)
    rw [List.cons_append, cutSections, if_neg (Ne.symm h59.1), if_neg h91',
      ih h59.2 (fun h hmem => h91 h (List.mem_cons_of_mem _ hmem)), List.append_assoc, List.singleton_append]

/-! ### Forms of rows -/

/-- What the spellings need of the form of a row. -/
structure IsForm (underflow : ℚ → Bool) (form : List Signed → Bytes → Prop) : Prop where
  numbers : ∀ row s, form row s → numbers underflow isFiller s = some row
  ne_nil : ∀ row s, form row s → row ≠ []
  semicolon : ∀ row s, form row s → 59 ∉ s
  nul : ∀ row s, form row s → 0 ∉ s
  blank : ∀ row s, form row s → s.dropWhile isBlank ≠ [] ∧ form row (s.dropWhile isBlank)
  inner : ∀ row s, form row s → ∀ rest, inBrackets (s.dropWhile isBlank ++ rest) = false

theorem IsToken.dropWhile {t : Bytes} {x : Signed} (h : IsToken underflow t x) (w' : Bytes) :
    (t ++ w').dropWhile isBlank = t ++ w' := by
  obtain ⟨b, s, rfl⟩ := List.exists_cons_of_ne_nil h.ne_nil
  have hblank : isBlank b = false := by
    by_contra hblank
    rw [Bool.not_eq_false] at hblank
    have hfiller := h.not_filler (List.mem_cons_self ..)
    rw [filler_of_blank hblank] at hfiller
    cases hfiller
  rw [List.cons_append, List.dropWhile_cons_of_neg (by simp [hblank])]

/-- Without the blanks in front a row begins with a token. -/
theorem RowText.dropWhile {row : List Signed} {s : Bytes} (h : RowText underflow row s) :
    RowText underflow row (s.dropWhile isBlank) ∧ ∃ t x rest, IsToken underflow t x ∧ s.dropWhile isBlank = t ++ rest := by
  cases h with
  | @last w t w' x hw ht hw' =>
    rw [List.dropWhile_append_of_pos hw, ht.dropWhile]
    exact ⟨.last (w := []) (List.forall_mem_nil _) ht hw', t, x, w', ht, rfl⟩
  | @more w t w' s x xs hw ht hw' h =>
    rw [List.append_assoc, List.dropWhile_append_of_pos hw, List.append_assoc, ht.dropWhile]
    refine ⟨?_, t, x, w' ++ 44 :: s, ht, rfl⟩
    have hmore : RowText underflow (x :: xs) ([] ++ (t ++ w') ++ 44 :: s) := .more (List.forall_mem_nil _) ht hw' h
    rwa [List.nil_append, List.append_assoc] at hmore

theorem IsToken.head_ne {t rest : Bytes} {x : Signed} (h : IsToken underflow t x) : (t ++ rest).head? ≠ some 91 := by
  obtain ⟨b, s, rfl⟩ := List.exists_cons_of_ne_nil h.ne_nil
  intro heq
  have hfiller := h.not_filler (List.mem_cons_self ..)
  rw [Option.some.inj heq] at hfiller
  cases hfiller

theorem rowText_isForm : IsForm underflow (RowText underflow) where
  numbers _ _ h := h.numbers
  ne_nil _ _ h := h.ne_nil
  semicolon _ _ h := h.not_mem rfl rfl (by decide)
  nul _ _ h := h.not_mem rfl rfl (by decide)
  blank row s h := by
    obtain ⟨hrow, t, x, rest, ht, heq⟩ := h.dropWhile
    refine ⟨?_, hrow⟩
    rw [heq]
    exact fun hnil => ht.ne_nil (List.append_eq_nil_iff.mp hnil).1
  inner row s h rest := by
    obtain ⟨-, t, x, more, ht, heq⟩ := h.dropWhile
    rw [heq, List.append_assoc, inBrackets]
    exact decide_eq_false fun hbr => ht.head_ne hbr.1

theorem rowArray_isForm : IsForm underflow (RowArray underflow) where
  numbers row s h := by
    cases h with
    | @mk w s w' hw h hw' =>
      have htrail : ∀ b ∈ 93 :: w', isFiller b = true := List.forall_mem_cons.mpr ⟨rfl, hw'.filler⟩
      have hopen : numbers underflow isFiller (91 :: (s ++ 93 :: w')) = numbers underflow isFiller (s ++ 93 :: w') :=
        numbers_fill (w := [91]) (List.forall_mem_singleton.mpr rfl) _
      rw [numbers_fill hw.filler, hopen, numbers_trail (fun _ => isStop_of_filler) htrail, h.numbers]
  ne_nil row s h := by
    cases h with
    | mk hw h hw' => exact h.ne_nil
  semicolon row s h := by
    cases h with
    | mk hw h hw' =>
      simp only [List.mem_append, List.mem_cons, not_or]
      exact ⟨hw.not_mem rfl, by decide, h.not_mem rfl rfl (by decide), by decide, hw'.not_mem rfl⟩
  nul row s h := by
    cases h with
    | mk hw h hw' =>
      simp only [List.mem_append, List.mem_cons, not_or]
      exact ⟨hw.not_mem rfl, by decide, h.not_mem rfl rfl (by decide), by decide, hw'.not_mem rfl⟩
  blank row s h := by
    cases h with
    | @mk w s w' hw h hw' =>
      rw [List.dropWhile_append_of_pos hw, List.dropWhile_cons_of_neg (by decide)]
      exact ⟨List.cons_ne_nil _ _, .mk (w := []) (List.forall_mem_nil _) h hw'⟩
  inner row s h rest := by
    cases h with
    | @mk w s w' hw h hw' =>
      obtain ⟨-, t, x, more, ht, heq⟩ := h.dropWhile
      have hne : s.dropWhile isBlank ≠ [] := by
        rw [heq]
        exact fun hnil => ht.ne_nil (List.append_eq_nil_iff.mp hnil).1
      rw [List.dropWhile_append_of_pos hw, List.dropWhile_cons_of_neg (by decide), inBrackets]
      refine decide_eq_false fun hbr => ?_
      have hinner := hbr.2
      rw [List.cons_append, List.drop_one, List.tail_cons, List.append_assoc, List.dropWhile_append,
        if_neg (by simpa using hne), heq, List.append_assoc] at hinner
      exact ht.head_ne hinner

/-! ### The sections of a spelling -/

section
variable {form : List Signed → Bytes → Prop} {rows : List (List Signed)} {t : Bytes}

theorem IsForm.section_of (hform : IsForm underflow form) {row : List Signed} {s : Bytes} (h : form row s) :
    Section underflow s [row] :=
  .row (hform.numbers row s h) (hform.ne_nil row s h) (hform.nul row s h)

theorem sections_semicolon (hform : IsForm underflow form) (h : RowTexts form 59 rows t) :
    Sections underflow (cutSections false [] t) rows := by
  induction h with
  | @last row s h =>
    have hcut : cutSections false [] (s ++ []) = cutSections false ([] ++ s) [] :=
      cutSections_pass (hform.semicolon row s h) (fun h => absurd h Bool.false_ne_true) [] []
    rw [List.append_nil, List.nil_append] at hcut
    rw [hcut]
    exact .cons (hform.section_of h) .nil
  | @more row rows s t h hrest ih =>
    have hcut : cutSections false [] (s ++ 59 :: t) = cutSections false ([] ++ s) (59 :: t) :=
      cutSections_pass (hform.semicolon row s h) (fun h => absurd h Bool.false_ne_true) [] _
    rw [hcut, List.nil_append, cutSections, if_pos rfl]
    exact .cons (hform.section_of h) ih

/-- Blanks in front of the first row are not part of it. -/
theorem RowTexts.dropWhile (hform : IsForm underflow form) {sep : UInt8} (h : RowTexts form sep rows t) :
    RowTexts form sep rows (t.dropWhile isBlank) := by
  cases h with
  | last h => exact .last (hform.blank _ _ h).2
  | @more row rows s t h hrest =>
    obtain ⟨hne, hdrop⟩ := hform.blank row s h
    rw [List.dropWhile_append, if_neg (by simpa using hne)]
    exact .more hdrop hrest

theorem RowTexts.inner (hform : IsForm underflow form) {sep : UInt8} (h : RowTexts form sep rows t) :
    inBrackets (t.dropWhile isBlank) = false := by
  cases h with
  | last h =>
    have hinner := hform.inner _ _ h []
    rwa [List.append_nil] at hinner
  | @more row rows s t h hrest =>
    rw [List.dropWhile_append, if_neg (by simpa using (hform.blank row s h).1)]
    exact hform.inner row s h (sep :: t)

/-- A text with rows in it is not blank. -/
theorem RowTexts.not_blank (hform : IsForm underflow form) {sep : UInt8} (h : RowTexts form sep rows t) :
    ¬ t.all isBlankOrBracket = true := by
  have hnot {row : List Signed} {s : Bytes} (h : form row s) : ¬ s.all isBlankOrBracket = true := by
    intro hall
    have hnone : numbers underflow isFiller s = some [] := numbers_of_fill fun b hb => by
      rcases of_decide_eq_true (List.all_eq_true.mp hall b hb) with h | h | h
      · exact filler_of_blank h
      · rw [h]; rfl
      · rw [h]; rfl
    exact hform.ne_nil row s h (Option.some.inj ((hform.numbers row s h).symm.trans hnone))
  cases h with
  | last h => exact hnot h
  | more h hrest =>
    rw [List.all_append, Bool.and_eq_true]
    exact fun hall => hnot h hall.1

/-- The opening bracket of a row begins a section, unless the text begins with it. -/
theorem sections_array {acc w r w' rest : Bytes} {row : List Signed} {before after : List (List Signed)}
    (hacc : Section underflow acc before) (hw : Blanks w) (hr : RowText underflow row r) (hw' : Blanks w')
    (h : Sections underflow (cutSections true (91 :: (r ++ 93 :: w')) rest) after) :
    Sections underflow (cutSections true acc (w ++ 91 :: (r ++ 93 :: w') ++ rest)) (before ++ after) := by
  have hpass : cutSections true [91] (r ++ 93 :: w' ++ rest) = cutSections true (91 :: (r ++ 93 :: w')) rest := by
    refine cutSections_pass ?_ (fun _ => ?_) [91] rest
    · simp only [List.mem_append, List.mem_cons, not_or]
      exact ⟨hr.not_mem rfl rfl (by decide), by decide, hw'.not_mem rfl⟩
    · simp only [List.mem_append, List.mem_cons, not_or]
      exact ⟨hr.not_mem rfl rfl (by decide), by decide, hw'.not_mem rfl⟩
  rw [List.append_assoc, cutSections_pass (hw.not_mem rfl) (fun _ => hw.not_mem rfl), List.cons_append, cutSections,
    if_neg (by decide)]
  have hsection := hacc.append hw
  by_cases hnil : acc ++ w = []
  · rw [if_neg (by simp [hnil]), hnil, List.nil_append, hpass]
    rw [hnil] at hsection
    rw [hsection.of_nil, List.nil_append]
    exact h
  · rw [if_pos ⟨rfl, rfl, hnil⟩, hpass]
    exact .cons hsection h

theorem sections_nested (h : RowTexts (RowArray underflow) 44 rows t) {acc : Bytes} {before : List (List Signed)}
    (hacc : Section underflow acc before) : Sections underflow (cutSections true acc t) (before ++ rows) := by
  have hrow {row : List Signed} {r w' : Bytes} (hr : RowText underflow row r) (hw' : Blanks w') :
      Section underflow (91 :: (r ++ 93 :: w')) [row] :=
    rowArray_isForm.section_of (.mk (w := []) (List.forall_mem_nil _) hr hw')
  induction h generalizing acc before with
  | @last row s h =>
    cases h with
    | @mk w r w' hw hr hw' =>
      have hcut : Sections underflow (cutSections true acc (w ++ 91 :: (r ++ 93 :: w') ++ [])) (before ++ [row]) :=
        sections_array hacc hw hr hw' (.cons (hrow hr hw') .nil)
      rwa [List.append_nil] at hcut
  | @more row rows s t h hrest ih =>
    cases h with
    | @mk w r w' hw hr hw' =>
      have hcomma : Section underflow (91 :: (r ++ 93 :: w') ++ [44]) [row] := by
        cases hrow hr hw' with
        | row hnum hne hnul =>
          have htrail : ∀ b ∈ ([44] : Bytes), isFiller b = true := List.forall_mem_singleton.mpr rfl
          refine .row ((numbers_trail (fun _ => isStop_of_filler) htrail _).trans hnum) hne ?_
          rw [List.mem_append, List.mem_singleton, not_or]
          exact ⟨hnul, by decide⟩
      refine sections_array hacc hw hr hw' ?_
      have hpass : cutSections true (91 :: (r ++ 93 :: w')) ([44] ++ t) = cutSections true (91 :: (r ++ 93 :: w') ++ [44]) t :=
        cutSections_pass (by decide) (fun _ => by decide) _ t
      change Sections underflow (cutSections true (91 :: (r ++ 93 :: w')) ([44] ++ t)) (row :: rows)
      rw [hpass]
      exact ih hcomma

end

/-! ### Reading a spelling -/

/-- A dimension that is not given is that of the first row. -/
theorem parseRows_infer {n dim : ℕ} (hdim : dim ≠ 0) {ss : List Bytes} {rows : List (List Signed)} (hne : rows ≠ [])
    (hrows : (rowTexts ss).map (parseVectorCsv underflow) = rows.map .ok) (hall : ∀ row ∈ rows, row.length = dim) :
    parseRows underflow n 0 ss = parseRows underflow n dim ss := by
  induction ss with
  | nil => exact absurd (List.map_eq_nil_iff.mp hrows.symm) hne
  | cons s ss ih =>
    rw [parseRows, parseRows]
    by_cases hs : trimRow s = []
    · have hrow : rowTexts (s :: ss) = rowTexts ss := List.filter_cons_of_neg (by simpa using hs)
      rw [hrow] at hrows
      rw [if_pos hs, if_pos hs, ih hrows]
    · have hrow : rowTexts (s :: ss) = trimRow s :: rowTexts ss := List.filter_cons_of_pos (by simpa using hs)
      rw [hrow, List.map_cons] at hrows
      obtain ⟨row, rows, rfl⟩ := List.exists_cons_of_ne_nil hne
      have hparse : parseVectorCsv underflow (trimRow s) = .ok row := (List.cons.inj hrows).1
      have hlen := hall row (List.mem_cons_self ..)
      simp only [if_neg hs, hparse, if_true, if_neg hdim, hlen, ne_eq, not_true_eq_false, if_false]

/-- Sections that hold rows of one length are read as these rows. -/
theorem parseRows_sections {expected dim : ℕ} (hdim : dim ≠ 0) (hexpected : expected = 0 ∨ expected = dim) {ss : List Bytes}
    {rows : List (List Signed)} (h : Sections underflow ss rows) (hne : rows ≠ []) (hall : ∀ row ∈ rows, row.length = dim)
    (hmax : dim ≤ maxElems) : parseRows underflow 0 expected ss = .ok ⟨rows, dim⟩ := by
  have hrows := h.rowTexts fun row hrow => (hall row hrow).trans_le hmax
  have hread : parseRows underflow 0 dim ss = .ok ⟨rows, dim⟩ := (parseRows_iff hdim).mpr ⟨rfl, hrows, hall⟩
  rcases hexpected with rfl | rfl
  · rw [parseRows_infer hdim hne hrows hall, hread]
  · exact hread

theorem RowTexts.ne_nil {form : List Signed → Bytes → Prop} {sep : UInt8} {rows : List (List Signed)} {t : Bytes}
    (h : RowTexts form sep rows t) : rows ≠ [] := by
  cases h <;> exact List.cons_ne_nil _ _

/-- A text without an outer bracket. -/
theorem parseCorpus_semicolon {form : List Signed → Bytes → Prop} (hform : IsForm underflow form) {expected dim : ℕ} (hdim : dim ≠ 0)
    (hexpected : expected = 0 ∨ expected = dim) {rows : List (List Signed)} {t : Bytes} (h : RowTexts form 59 rows t)
    (hall : ∀ row ∈ rows, row.length = dim) (hmax : dim ≤ maxElems) :
    parseCorpus underflow t expected = .ok ⟨rows, dim⟩ := by
  have hdrop := h.dropWhile hform
  have hinner := h.inner hform
  have hbody : corpusBody (t.dropWhile isBlank) = t.dropWhile isBlank := by
    rw [corpusBody, if_neg (by simp [hinner])]
  rw [parseCorpus]
  simp only [hbody, if_neg (hdrop.not_blank hform), hinner]
  exact parseRows_sections hdim hexpected (sections_semicolon hform hdrop) h.ne_nil hall hmax

/-- The outer brackets of an array of arrays. -/
theorem nested_body {w t w' : Bytes} {rows : List (List Signed)} (hw : Blanks w) (h : RowTexts (RowArray underflow) 44 rows t)
    (hw' : Blanks w') : inBrackets ((w ++ 91 :: (t ++ 93 :: w')).dropWhile isBlank) = true ∧
      corpusBody ((w ++ 91 :: (t ++ 93 :: w')).dropWhile isBlank) = t := by
  have hsrc : (w ++ 91 :: (t ++ 93 :: w')).dropWhile isBlank = 91 :: (t ++ 93 :: w') := by
    rw [List.dropWhile_append_of_pos hw, List.dropWhile_cons_of_neg (by decide)]
  have hopen {row : List Signed} {s : Bytes} (h : RowArray underflow row s) (rest : Bytes) :
      ((s ++ rest).dropWhile isBlank).head? = some 91 := by
    cases h with
    | mk hw h hw' =>
      rw [List.append_assoc, List.dropWhile_append_of_pos hw, List.cons_append, List.dropWhile_cons_of_neg (by decide)]
      rfl
  have hbrackets : inBrackets (91 :: (t ++ 93 :: w')) = true := by
    refine decide_eq_true ⟨rfl, ?_⟩
    rw [List.drop_one, List.tail_cons]
    cases h with
    | last h => exact hopen h _
    | more h hrest =>
      rw [List.append_assoc]
      exact hopen h _
  have hclose : (t ++ 93 :: w').rdropWhile isBlank = t ++ [93] := by
    have hback : ∀ b ∈ w'.reverse, isBlank b = true := fun b hb => hw' b (List.mem_reverse.mp hb)
    rw [List.rdropWhile, List.reverse_append, List.reverse_cons, List.append_assoc, List.dropWhile_append_of_pos hback,
      List.singleton_append, List.dropWhile_cons_of_neg (by decide), List.reverse_cons, List.reverse_reverse]
  rw [hsrc]
  refine ⟨hbrackets, ?_⟩
  rw [corpusBody, if_pos hbrackets, List.drop_one, List.tail_cons, hclose]
  simp

theorem parseCorpus_nested {expected dim : ℕ} (hdim : dim ≠ 0) (hexpected : expected = 0 ∨ expected = dim)
    {rows : List (List Signed)} {w t w' : Bytes} (hw : Blanks w) (h : RowTexts (RowArray underflow) 44 rows t) (hw' : Blanks w')
    (hall : ∀ row ∈ rows, row.length = dim) (hmax : dim ≤ maxElems) :
    parseCorpus underflow (w ++ 91 :: (t ++ 93 :: w')) expected = .ok ⟨rows, dim⟩ := by
  obtain ⟨hbrackets, hbody⟩ := nested_body hw h hw'
  have hsections := sections_nested h (.blank (List.forall_mem_nil _))
  rw [parseCorpus]
  simp only [hbody, hbrackets, if_neg (h.not_blank rowArray_isForm)]
  exact parseRows_sections hdim hexpected hsections h.ne_nil hall hmax

/-- The rows of a spelling have numbers in them. -/
theorem RowTexts.dim_ne_zero {form : List Signed → Bytes → Prop} (hform : IsForm underflow form) {sep : UInt8}
    {rows : List (List Signed)} {t : Bytes} (h : RowTexts form sep rows t) {dim : ℕ} (hall : ∀ row ∈ rows, row.length = dim) :
    dim ≠ 0 := by
  rintro rfl
  cases h with
  | last h => exact hform.ne_nil _ _ h (List.length_eq_zero_iff.mp (hall _ (List.mem_cons_self ..)))
  | more h hrest => exact hform.ne_nil _ _ h (List.length_eq_zero_iff.mp (hall _ (List.mem_cons_self ..)))

/-- Every spelling is read as the rows that it spells. -/
theorem parseCorpus_spelling {rows : List (List Signed)} {t : Bytes} (h : CorpusSpelling underflow rows t) {expected dim : ℕ}
    (hall : ∀ row ∈ rows, row.length = dim) (hmax : dim ≤ maxElems) (hexpected : expected = 0 ∨ expected = dim) :
    parseCorpus underflow t expected = .ok ⟨rows, if rows = [] then expected else dim⟩ := by
  cases h with
  | empty hw =>
    rw [parseCorpus, List.dropWhile_eq_nil_iff.mpr hw]
    rfl
  | @emptyArray w w' w'' hw hw' hw'' =>
    have hsrc : (w ++ 91 :: (w' ++ 93 :: w'')).dropWhile isBlank = 91 :: (w' ++ 93 :: w'') := by
      rw [List.dropWhile_append_of_pos hw, List.dropWhile_cons_of_neg (by decide)]
    have hinner : inBrackets (91 :: (w' ++ 93 :: w'')) = false := by
      refine decide_eq_false fun hbr => ?_
      have hnext := hbr.2
      rw [List.drop_one, List.tail_cons, List.dropWhile_append_of_pos hw', List.dropWhile_cons_of_neg (by decide)] at hnext
      cases hnext
    have hblank {v : Bytes} (hv : Blanks v) : ∀ b ∈ v, isBlankOrBracket b = true := fun b hb => decide_eq_true (.inl (hv b hb))
    have hall : ∀ b ∈ 91 :: (w' ++ 93 :: w''), isBlankOrBracket b = true := by
      rw [List.forall_mem_cons, List.forall_mem_append, List.forall_mem_cons]
      exact ⟨rfl, hblank hw', rfl, hblank hw''⟩
    have hbody : corpusBody (91 :: (w' ++ 93 :: w'')) = 91 :: (w' ++ 93 :: w'') := by
      rw [corpusBody, hinner, if_neg Bool.false_ne_true]
    rw [parseCorpus, hsrc, hbody]
    exact if_pos (List.all_eq_true.mpr hall)
  | nested hw h hw' =>
    rw [if_neg h.ne_nil]
    exact parseCorpus_nested (h.dim_ne_zero rowArray_isForm hall) hexpected hw h hw' hall hmax
  | arrays h =>
    rw [if_neg h.ne_nil]
    exact parseCorpus_semicolon rowArray_isForm (h.dim_ne_zero rowArray_isForm hall) hexpected h hall hmax
  | plain h =>
    rw [if_neg h.ne_nil]
    exact parseCorpus_semicolon rowText_isForm (h.dim_ne_zero rowText_isForm hall) hexpected h hall hmax

end

end FractalSQL.Vectors
