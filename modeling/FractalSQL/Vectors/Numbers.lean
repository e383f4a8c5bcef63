import FractalSQL.Vectors.Parse

/-!
# The numbers of a text

Whatever a text is cut into, its numbers are those of its parts in order: a number ends in front of
every comma, bracket and semicolon. So a corpus holds the numbers of the text it is read from.
-/
namespace FractalSQL.Vectors
open Lib

/-! ### Numbers between fillers -/

/-- The numbers of a text, where the bytes of `fill` may stand between them. -/
def scanNumbers (underflow : ℚ → Bool) (fill : UInt8 → Bool) : ℕ → Bytes → Option (List Signed)
  | 0, _ => some []
  | fuel + 1, s =>
    let p := s.dropWhile fill
    if p = [] then some []
    else
      match strtod underflow p with
      | none => none
      | some r =>
        if r.outOfRange || !binary64.finite r.value then none
        else (scanNumbers underflow fill fuel r.rest).map (r.value :: ·)

def numbers (underflow : ℚ → Bool) (fill : UInt8 → Bool) (s : Bytes) : Option (List Signed) :=
  scanNumbers underflow fill s.length s

section
variable {underflow : ℚ → Bool} {fill : UInt8 → Bool}

/-- Fuel beyond the length of the text changes nothing. -/
theorem scanNumbers_fuel {n : ℕ} {s : Bytes} (h : s.length ≤ n) : scanNumbers underflow fill n s = numbers underflow fill s := by
  induction n using Nat.strong_induction_on generalizing s with
  | _ n ih =>
    cases n with
    | zero =>
      rw [List.length_eq_zero_iff.mp (Nat.le_zero.mp h)]
      rfl
    | succ n =>
      cases hlen : s.length with
      | zero =>
        rw [List.length_eq_zero_iff.mp hlen]
        rfl
      | succ m =>
        rw [numbers, hlen, scanNumbers, scanNumbers]
        cases hstr : strtod underflow (s.dropWhile fill) with
        | none => rfl
        | some r =>
          have hrest := (strtod_length hstr).trans_le (dropWhile_length_le fill s)
          have hleft := ih n (Nat.lt_succ_self n) (s := r.rest) (by omega)
          have hright := ih m (by omega) (s := r.rest) (by omega)
          dsimp only
          rw [hleft, hright]

/-- One number, and those of the rest. -/
theorem numbers_eq (s : Bytes) : numbers underflow fill s =
    if s.dropWhile fill = [] then some []
    else (strtod underflow (s.dropWhile fill)).bind fun r =>
      if r.outOfRange || !binary64.finite r.value then none else (numbers underflow fill r.rest).map (r.value :: ·) := by
  rw [← scanNumbers_fuel (Nat.le_succ s.length), scanNumbers]
  cases hstr : strtod underflow (s.dropWhile fill) with
  | none => rfl
  | some r =>
    have hrest := (strtod_length hstr).trans_le (dropWhile_length_le fill s)
    dsimp only
    rw [scanNumbers_fuel hrest.le, Option.bind_some]

/-- Fillers in front do not matter. -/
theorem numbers_congr {s t : Bytes} (h : s.dropWhile fill = t.dropWhile fill) :
    numbers underflow fill s = numbers underflow fill t := by
  rw [numbers_eq, h, ← numbers_eq]

theorem numbers_fill {w : Bytes} (hw : ∀ b ∈ w, fill b = true) (s : Bytes) :
    numbers underflow fill (w ++ s) = numbers underflow fill s :=
  numbers_congr (List.dropWhile_append_of_pos hw)

theorem numbers_of_fill {w : Bytes} (hw : ∀ b ∈ w, fill b = true) : numbers underflow fill w = some [] := by
  have h : numbers underflow fill (w ++ []) = numbers underflow fill [] := numbers_fill hw []
  rw [List.append_nil] at h
  exact h

theorem fill_of_numbers {s : Bytes} (h : numbers underflow fill s = some []) : ∀ b ∈ s, fill b = true := by
  rw [numbers_eq] at h
  split_ifs at h with hdrop
  · exact List.dropWhile_eq_nil_iff.mp hdrop
  · obtain ⟨r, -, hr⟩ := Option.bind_eq_some_iff.mp h
    split_ifs at hr
    obtain ⟨vs, -, hvs⟩ := Option.map_eq_some_iff.mp hr
    cases hvs

/-- The numbers of one text and then those of another. -/
def andThen (x y : Option (List Signed)) : Option (List Signed) := x.bind fun vs => y.map (vs ++ ·)

@[simp] theorem andThen_nil_left (y : Option (List Signed)) : andThen (some []) y = y := by
  simp [andThen]

@[simp] theorem andThen_nil_right (x : Option (List Signed)) : andThen x (some []) = x := by
  simp [andThen]

theorem andThen_cons (v : Signed) (x y : Option (List Signed)) : andThen (x.map (v :: ·)) y = (andThen x y).map (v :: ·) := by
  cases x <;> cases y <;> rfl

theorem andThen_assoc (x y z : Option (List Signed)) : andThen (andThen x y) z = andThen x (andThen y z) := by
  cases x <;> cases y <;> cases z <;> simp [andThen]

theorem andThen_eq_some {x y : Option (List Signed)} {vs : List Signed} :
    andThen x y = some vs ↔ ∃ a b, x = some a ∧ y = some b ∧ vs = a ++ b := by
  cases x <;> cases y <;> simp [andThen, eq_comm]

/-- A text is read up to a filler that ends numbers, and then behind it. -/
theorem numbers_append {c : UInt8} (hfill : fill c = true) (hstop : isStop c = true) (hspace : isSpace c = false) (a b : Bytes) :
    numbers underflow fill (a ++ c :: b) = andThen (numbers underflow fill a) (numbers underflow fill b) := by
  induction hn : a.length using Nat.strong_induction_on generalizing a with
  | _ n ih =>
    by_cases hdrop : a.dropWhile fill = []
    · rw [numbers_of_fill (List.dropWhile_eq_nil_iff.mp hdrop), andThen_nil_left, numbers_fill (List.dropWhile_eq_nil_iff.mp hdrop)]
      exact numbers_fill (w := [c]) (List.forall_mem_singleton.mpr hfill) b
    · have happ : (a ++ c :: b).dropWhile fill = a.dropWhile fill ++ c :: b := by
        rw [List.dropWhile_append, if_neg (by simpa using hdrop)]
      rw [numbers_eq (a ++ c :: b), numbers_eq a, happ, if_neg (by simp), if_neg hdrop, strtod_stop hstop (.inl hspace)]
      cases hstr : strtod underflow (a.dropWhile fill) with
      | none => rfl
      | some r =>
        have hrest := (strtod_length hstr).trans_le (dropWhile_length_le fill a)
        have hih := ih r.rest.length (by omega) r.rest rfl
        simp only [Option.map_some, Option.bind_some, hih]
        split_ifs
        · rfl
        · exact (andThen_cons _ _ _).symm

/-- Fillers behind do not matter. -/
theorem numbers_trail (hfill : ∀ c, fill c = true → isStop c = true) {w : Bytes} (hw : ∀ b ∈ w, fill b = true) (s : Bytes) :
    numbers underflow fill (s ++ w) = numbers underflow fill s := by
  cases w with
  | nil => rw [List.append_nil]
  | cons c w =>
    have hc := hw c (List.mem_cons_self ..)
    induction hn : s.length using Nat.strong_induction_on generalizing s with
    | _ n ih =>
      by_cases hdrop : s.dropWhile fill = []
      · have hs := List.dropWhile_eq_nil_iff.mp hdrop
        rw [numbers_of_fill hs, numbers_of_fill (List.forall_mem_append.mpr ⟨hs, hw⟩)]
      · have happ : (s ++ c :: w).dropWhile fill = s.dropWhile fill ++ c :: w := by
          rw [List.dropWhile_append, if_neg (by simpa using hdrop)]
        rw [numbers_eq (s ++ c :: w), numbers_eq s, happ, if_neg (by simp), if_neg hdrop]
        by_cases hblank : (s.dropWhile fill).dropWhile isSpace = []
        · -- nothing but white space in front of the fillers
          have hleft : strtod underflow (s.dropWhile fill) = none := strtod_none (by rw [hblank]; exact nofun)
          have hright : strtod underflow (s.dropWhile fill ++ c :: w) = none := by
            refine strtod_none fun b hb => hfill b (hw b ?_)
            rw [List.dropWhile_append, hblank] at hb
            simp only [List.isEmpty_nil, if_true] at hb
            exact (List.dropWhile_suffix isSpace).subset (List.mem_of_mem_head? hb)
          rw [hleft, hright]
        · rw [strtod_stop (hfill c hc) (.inr hblank)]
          cases hstr : strtod underflow (s.dropWhile fill) with
          | none => rfl
          | some r =>
            have hrest := (strtod_length hstr).trans_le (dropWhile_length_le fill s)
            have hih := ih r.rest.length (by omega) r.rest rfl
            simp only [Option.map_some, Option.bind_some, hih]

/-! ### What the parsers read -/

/-- What stands between the numbers of a corpus. -/
def isGap (b : UInt8) : Bool := isFiller b ∨ b = 59

theorem gap_of_filler {c : UInt8} (h : isFiller c = true) : isGap c = true := decide_eq_true (.inl h)

theorem isStop_of_gap {c : UInt8} (h : isGap c = true) : isStop c = true := by
  have hmem : c ∈ ([32, 9, 10, 13, 44, 91, 93, 59] : Bytes) := by simpa [isGap, isFiller, isBlank, or_assoc] using h
  have hall : ∀ c ∈ ([32, 9, 10, 13, 44, 91, 93, 59] : Bytes), isStop c = true := by decide +kernel
  exact hall c hmem

theorem filler_of_gap {c : UInt8} (h : isGap c = true) (h59 : c ≠ 59) : isFiller c = true :=
  (of_decide_eq_true h).resolve_right h59

/-- Numbers that are read without a semicolon are read with one allowed too. -/
theorem numbers_gap {s : Bytes} {vs : List Signed} (h : numbers underflow isFiller s = some vs) :
    numbers underflow isGap s = some vs := by
  induction hn : s.length using Nat.strong_induction_on generalizing s vs with
  | _ n ih =>
    rw [numbers_eq] at h
    by_cases hdrop : s.dropWhile isFiller = []
    · rw [if_pos hdrop] at h
      rw [numbers_of_fill fun b hb => gap_of_filler (List.dropWhile_eq_nil_iff.mp hdrop b hb)]
      exact h
    · rw [if_neg hdrop] at h
      obtain ⟨r, hstr, hr⟩ := Option.bind_eq_some_iff.mp h
      have hsame : s.dropWhile isGap = s.dropWhile isFiller := by
        have hsplit := List.takeWhile_append_dropWhile (p := isFiller) (l := s)
        have hpass : ∀ b ∈ s.takeWhile isFiller, isGap b = true := fun b hb => gap_of_filler (List.mem_takeWhile_imp hb)
        rw [← hsplit, List.dropWhile_append_of_pos hpass, hsplit]
        cases hp : s.dropWhile isFiller with
        | nil => rfl
        | cons c t =>
          have hfill : isFiller c = false := head_dropWhile isFiller s c (by rw [hp]; rfl)
          refine List.dropWhile_cons_of_neg fun hgap => ?_
          -- a semicolon begins no number
          have h59 : c = 59 := by
            by_contra h59
            rw [filler_of_gap hgap h59] at hfill
            cases hfill
          subst h59
          have hnone : strtod underflow (59 :: t) = none := strtod_none (by rintro b ⟨⟩; decide)
          rw [hp, hnone] at hstr
          cases hstr
      rw [numbers_eq, hsame, if_neg hdrop, hstr]
      have hrest := (strtod_length hstr).trans_le (dropWhile_length_le isFiller s)
      split_ifs at hr with hbad
      obtain ⟨ws, hws, rfl⟩ := Option.map_eq_some_iff.mp hr
      rw [Option.bind_some, if_neg hbad, ih r.rest.length (by omega) hws rfl]
      rfl

theorem numbers_of_elements {fuel n : ℕ} {p : Bytes} {vs : List Signed} (h : parseElements underflow fuel n p = .ok vs)
    (hfuel : p.length ≤ fuel) : numbers underflow isFiller p = some vs := by
  induction fuel generalizing n p vs with
  | zero =>
    rw [List.length_eq_zero_iff.mp (Nat.le_zero.mp hfuel)]
    cases h
    rfl
  | succ fuel ih =>
    rw [numbers_eq]
    rw [parseElements] at h
    by_cases hdrop : p.dropWhile isFiller = []
    · simp only [if_pos hdrop] at h
      rw [if_pos hdrop]
      cases h
      rfl
    · simp only [if_neg hdrop] at h
      rw [if_neg hdrop]
      cases hstr : strtod underflow (p.dropWhile isFiller) with
      | none =>
        rw [hstr] at h
        cases h
      | some r =>
        have hrest := (strtod_length hstr).trans_le (dropWhile_length_le isFiller p)
        rw [hstr] at h
        dsimp only at h
        split_ifs at h with hrange hfinite hmax
        cases hmore : parseElements underflow fuel (n + 1) r.rest with
        | error e =>
          rw [hmore] at h
          cases h
        | ok ws =>
          rw [hmore] at h
          cases h
          rw [Option.bind_some, ih hmore (by omega), if_neg (by simpa [hrange] using hfinite)]
          rfl

/-- The elements of a text vector are its numbers. -/
theorem numbers_of_parse {s : Bytes} {vs : List Signed} (h : parseVectorCsv underflow s = .ok vs) (hnul : 0 ∉ s) :
    numbers underflow isFiller s = some vs ∧ vs ≠ [] := by
  have hcopy : cCopy s = s := by
    refine List.takeWhile_eq_self_iff.mpr fun c hc => ?_
    simp only [ne_eq, decide_eq_true_eq]
    rintro rfl
    exact hnul hc
  unfold parseVectorCsv at h
  rw [hcopy] at h
  cases helem : parseElements underflow s.length 0 s with
  | error e =>
    rw [helem] at h
    cases h
  | ok ws =>
    rw [helem] at h
    cases ws with
    | nil => cases h
    | cons w ws =>
      cases h
      exact ⟨numbers_of_elements helem le_rfl, nofun⟩

/-! ### The sections of a corpus -/

/-- The numbers of texts, one text after the other. -/
def allNumbers (underflow : ℚ → Bool) (fill : UInt8 → Bool) : List Bytes → Option (List Signed)
  | [] => some []
  | s :: ss => andThen (numbers underflow fill s) (allNumbers underflow fill ss)

/-- Cutting keeps the numbers. -/
theorem allNumbers_cutSections (inBrackets : Bool) (acc rest : Bytes) :
    allNumbers underflow isGap (cutSections inBrackets acc rest) = numbers underflow isGap (acc ++ rest) := by
  induction rest generalizing acc with
  | nil => rw [cutSections, allNumbers, allNumbers, andThen_nil_right, List.append_nil]
  | cons b rest ih =>
    rw [cutSections]
    split_ifs with hsemi hopen
    · rw [hsemi, allNumbers, ih, List.nil_append, numbers_append (by decide) (by decide) (by decide)]
    · have hdrop : numbers underflow isGap ([91] ++ rest) = numbers underflow isGap rest :=
        numbers_fill (List.forall_mem_singleton.mpr (by decide)) rest
      rw [hopen.2.1, allNumbers, ih, hdrop, numbers_append (by decide) (by decide) (by decide)]
    · rw [ih, List.append_assoc]
      rfl

theorem mem_cutSections {inBrackets : Bool} {acc rest s : Bytes} (h : s ∈ cutSections inBrackets acc rest) {b : UInt8} (hb : b ∈ s) :
    b ∈ acc ++ rest := by
  induction rest generalizing acc with
  | nil =>
    rw [cutSections, List.mem_singleton] at h
    rw [List.append_nil, ← h]
    exact hb
  | cons c rest ih =>
    rw [cutSections] at h
    split_ifs at h with hsemi hopen
    · rcases List.mem_cons.mp h with rfl | h
      · exact List.mem_append_left _ hb
      · exact List.mem_append_right _ (List.mem_cons_of_mem _ (ih h))
    · rcases List.mem_cons.mp h with rfl | h
      · exact List.mem_append_left _ hb
      · rw [hopen.2.1]
        exact List.mem_append_right _ (ih h)
    · have hmem := ih h
      rwa [List.append_assoc] at hmem

theorem filler_of_lead {b : UInt8} (h : isLead b = true) : isFiller b = true := by
  rcases of_decide_eq_true h with h | h <;> simp [isFiller, h]

theorem filler_of_trail {b : UInt8} (h : isTrail b = true) : isFiller b = true := by
  rcases of_decide_eq_true h with h | h | h <;> simp [isFiller, h]

/-- A row is trimmed of fillers. -/
theorem trimRow_spec (s : Bytes) : ∃ w w', s = w ++ (trimRow s ++ w') ∧ (∀ b ∈ w, isFiller b = true) ∧ ∀ b ∈ w', isFiller b = true := by
  refine ⟨(s.rdropWhile isTrail).takeWhile isLead, s.rtakeWhile isTrail, ?_, fun b hb => ?_, fun b hb => ?_⟩
  · rw [trimRow, ← List.append_assoc, List.takeWhile_append_dropWhile, List.rdropWhile_append_rtakeWhile]
  · exact filler_of_lead (List.mem_takeWhile_imp hb)
  · exact filler_of_trail (List.mem_rtakeWhile_imp hb)

theorem numbers_trimRow (s : Bytes) : numbers underflow isGap (trimRow s) = numbers underflow isGap s := by
  obtain ⟨w, w', hs, hw, hw'⟩ := trimRow_spec s
  conv_rhs => rw [hs]
  rw [numbers_fill (fun b hb => gap_of_filler (hw b hb)), numbers_trail (fun c hc => isStop_of_gap hc) fun b hb => gap_of_filler (hw' b hb)]

theorem mem_trimRow {s : Bytes} {b : UInt8} (h : b ∈ trimRow s) : b ∈ s := by
  obtain ⟨w, w', hs, -⟩ := trimRow_spec s
  rw [hs]
  exact List.mem_append_right _ (List.mem_append_left _ h)

/-- The rows of sections that are not blank. -/
def rowTexts (ss : List Bytes) : List Bytes := (ss.map trimRow).filter (· ≠ [])

/-- A vector of the dimension. -/
def IsVector (underflow : ℚ → Bool) (dim : ℕ) (s : Bytes) : Prop := ∃ v, parseVectorCsv underflow s = .ok v ∧ v.length = dim

theorem allNumbers_rowTexts (ss : List Bytes) :
    allNumbers underflow isGap (rowTexts ss) = allNumbers underflow isGap ss := by
  induction ss with
  | nil => rfl
  | cons s ss ih =>
    by_cases hs : trimRow s = []
    · have hrow : rowTexts (s :: ss) = rowTexts ss := List.filter_cons_of_neg (by simpa using hs)
      have hnone : numbers underflow isGap s = some [] := by rw [← numbers_trimRow, hs]; rfl
      rw [hrow, ih, allNumbers, hnone, andThen_nil_left]
    · have hrow : rowTexts (s :: ss) = trimRow s :: rowTexts ss := List.filter_cons_of_pos (by simpa using hs)
      rw [hrow, allNumbers, allNumbers, ih, numbers_trimRow]

/-- The rows are read exactly when all are vectors of the dimension. -/
theorem parseRows_iff {n dim : ℕ} (hdim : dim ≠ 0) {ss : List Bytes} {c : Corpus} : parseRows underflow n dim ss = .ok c ↔
    c.dim = dim ∧ (rowTexts ss).map (parseVectorCsv underflow) = c.rows.map .ok ∧ ∀ row ∈ c.rows, row.length = dim := by
  induction ss generalizing n c with
  | nil =>
    rw [parseRows]
    constructor
    · rintro ⟨⟩
      exact ⟨rfl, rfl, nofun⟩
    · rintro ⟨hc, hrows, -⟩
      obtain ⟨rows, d⟩ := c
      cases hc
      obtain rfl : rows = [] := List.map_eq_nil_iff.mp hrows.symm
      rfl
  | cons s ss ih =>
    rw [parseRows]
    by_cases hs : trimRow s = []
    · have hrow : rowTexts (s :: ss) = rowTexts ss := List.filter_cons_of_neg (by simpa using hs)
      rw [if_pos hs, ih, hrow]
    · have hrow : rowTexts (s :: ss) = trimRow s :: rowTexts ss := List.filter_cons_of_pos (by simpa using hs)
      rw [if_neg hs, hrow, List.map_cons]
      cases hparse : parseVectorCsv underflow (trimRow s) with
      | error e =>
        refine iff_of_false nofun ?_
        rintro ⟨-, hrows, -⟩
        cases hc : c.rows with
        | nil => rw [hc] at hrows; cases hrows
        | cons row rows => rw [hc] at hrows; cases (List.cons.inj hrows).1
      | ok row =>
        dsimp only
        rw [if_neg hdim]
        by_cases hlen : row.length = dim
        · rw [if_neg (not_not.mpr hlen)]
          constructor
          · intro h
            cases hmore : parseRows underflow (n + 1) dim ss with
            | error e => rw [hmore] at h; cases h
            | ok c' =>
              rw [hmore] at h
              cases h
              obtain ⟨hd, hrows, hall⟩ := ih.mp hmore
              exact ⟨hd, by rw [hrows]; rfl, List.forall_mem_cons.mpr ⟨hlen, hall⟩⟩
          · rintro ⟨hd, hrows, hall⟩
            obtain ⟨rows, d⟩ := c
            cases rows with
            | nil => cases hrows
            | cons row' rows =>
              obtain ⟨hrow, hmap⟩ := List.cons.inj hrows
              cases hrow
              have hmore := (ih (n := n + 1) (c := ⟨rows, d⟩)).mpr ⟨hd, hmap, (List.forall_mem_cons.mp hall).2⟩
              rw [hmore]
              rfl
        · rw [if_pos hlen]
          refine iff_of_false nofun ?_
          rintro ⟨-, hrows, hall⟩
          cases hc : c.rows with
          | nil => rw [hc] at hrows; cases hrows
          | cons row' rows =>
            rw [hc] at hrows hall
            cases (List.cons.inj hrows).1
            exact hlen (hall row (List.mem_cons_self ..))

end

end FractalSQL.Vectors
