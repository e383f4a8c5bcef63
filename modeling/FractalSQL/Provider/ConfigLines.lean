import Mathlib.Data.List.TakeWhile
import FractalSQL.Lib.Lines
import FractalSQL.Provider.Config

/-!
# The lines of the configuration file

The daemon reads its file in pieces of 1023 bytes and takes each piece for a line. A file
is read as its lines say exactly when nothing of the deciding lines lies behind their first
piece, except what is trimmed, and no later piece of any line looks like a line.
-/
namespace FractalSQL.Provider
open Lib

/-! ### What the file says -/

/-- The lines of a text, of any length. -/
def textLines (text : Bytes) : List Bytes := text.splitOn 10

def trimKey (s : Bytes) : Bytes := trimEnd isBlank (s.dropWhile isBlank)
def trimValue (s : Bytes) : Bytes := trimEnd isValueEnd (s.dropWhile isBlank)

/-- The text before and after the first `=`. -/
def keyText (line : Bytes) : Bytes := line.takeWhile (· ≠ 61)
def valueText (line : Bytes) : Bytes := (line.dropWhile (· ≠ 61)).drop 1

/-- The key and the value that a whole line gives. -/
def assignment (line : Bytes) : Option (Bytes × Bytes) :=
  if 61 ∈ line ∧ line.head? ≠ some 35 then some (trimKey (keyText line), trimValue (valueText line)) else none

/-- The value that comes last for a key. -/
def lastValue (name : Bytes) : List (Bytes × Bytes) → Option Bytes
  | [] => none
  | (n, v) :: given => (lastValue name given).or (if n = name then some v else none)

/-- The line names the key. -/
def Names (name line : Bytes) : Prop := ∃ v, assignment line = some (name, v)

/-- Every string-valued key is stored as the last line that names it says, and no part of a
line is taken for another line. -/
structure StoredWhole (text : Bytes) (c : Config) : Prop where
  fields : ∀ k : TextKey,
    c.text k = (lastValue (ascii (Key.text k).name) ((textLines text).filterMap assignment)).getD []
  lines : ∀ line ∈ textLines text, ∀ piece ∈ fgetsLines (line.drop lineCap), splitLine piece = none

/-! ### What the parser sees -/

/-- What of a line stands in the buffer, as a C string. -/
def readPart (line : Bytes) : Bytes := cstr (line.take lineCap)

def unread (line : Bytes) : Bytes := line.drop (readPart line).length

/-- The bytes `rest` behind the value `v` are trimmed away. -/
def Spare (v rest : Bytes) : Prop :=
  (∀ b ∈ rest, isValueEnd b = true) ∨
    (∀ b ∈ v, isBlank b = true) ∧ ∀ b ∈ rest.dropWhile isBlank, isValueEnd b = true

/-- No piece behind the first one of a line has a `=` without a leading `#`, and behind the
read part of the last line that names a string-valued key nothing stands that counts. -/
structure FitsPieces (text : Bytes) : Prop where
  behind : ∀ line ∈ textLines text, ∀ piece ∈ fgetsLines (line.drop lineCap), 61 ∉ cstr piece ∨ piece.head? = some 35
  value : ∀ (k : TextKey) (before : List Bytes) (line : Bytes) (after : List Bytes),
    textLines text = before ++ line :: after → Names (ascii (Key.text k).name) line →
      (∀ later ∈ after, ¬ Names (ascii (Key.text k).name) later) → Spare (valueText (readPart line)) (unread line)

/-! ### Trimming -/

theorem trimEnd_append_of_all {p : UInt8 → Bool} {s rest : Bytes} (h : ∀ b ∈ rest, p b = true) :
    trimEnd p (s ++ rest) = trimEnd p s := by
  rw [trimEnd, List.reverse_append, List.dropWhile_append_of_pos fun b hb => h b (List.mem_reverse.mp hb), ← trimEnd]

theorem trimEnd_eq_nil {p : UInt8 → Bool} {s : Bytes} : trimEnd p s = [] ↔ ∀ b ∈ s, p b = true := by
  rw [trimEnd, List.reverse_eq_nil_iff, List.dropWhile_eq_nil_iff]
  simp

theorem trimEnd_length_le (p : UInt8 → Bool) (s : Bytes) : (trimEnd p s).length ≤ s.length := by
  rw [trimEnd, List.length_reverse]
  exact (List.dropWhile_sublist _).length_le.trans (List.length_reverse ..).le

/-- A byte behind `s` that stays keeps all of `s`. -/
theorem trimEnd_append_of_stays {p : UInt8 → Bool} {s rest : Bytes} (h : ¬ ∀ b ∈ rest, p b = true) :
    s.length < (trimEnd p (s ++ rest)).length := by
  have hne : rest.reverse.dropWhile p ≠ [] := by
    rw [ne_eq, List.dropWhile_eq_nil_iff]
    simpa using h
  have hpos := List.length_pos_iff.mpr hne
  rw [trimEnd, List.reverse_append, List.dropWhile_append, if_neg (by simpa using hne), List.length_reverse,
    List.length_append, List.length_reverse]
  omega

/-- What is read of a value counts for all of it exactly when the rest is trimmed away. -/
theorem trimValue_append_iff (v rest : Bytes) : trimValue (v ++ rest) = trimValue v ↔ Spare v rest := by
  unfold trimValue
  by_cases hv : v.dropWhile isBlank = []
  · have hblank : ∀ b ∈ v, isBlank b = true := List.dropWhile_eq_nil_iff.mp hv
    rw [List.dropWhile_append_of_pos hblank, hv]
    change _ = [] ↔ _
    rw [trimEnd_eq_nil]
    constructor
    · exact fun h => .inr ⟨hblank, h⟩
    · rintro (h | ⟨-, h⟩)
      · exact fun b hb => h b ((List.dropWhile_sublist _).subset hb)
      · exact h
  · rw [List.dropWhile_append, if_neg (by simpa using hv)]
    constructor
    · intro heq
      refine .inl ?_
      by_contra hstays
      have hlong := trimEnd_append_of_stays (s := v.dropWhile isBlank) hstays
      have hshort := trimEnd_length_le isValueEnd (v.dropWhile isBlank)
      rw [heq] at hlong
      omega
    · rintro (h | ⟨hblank, -⟩)
      · exact trimEnd_append_of_all h
      · exact absurd (List.dropWhile_eq_nil_iff.mpr hblank) hv

/-! ### Assignments -/

theorem keyText_eq {key value : Bytes} (h : 61 ∉ key) : keyText (key ++ 61 :: value) = key := by
  have hne : ∀ b ∈ key, decide (b ≠ 61) = true := fun b hb => decide_eq_true (ne_of_mem_of_not_mem hb h)
  rw [keyText, List.takeWhile_append_of_pos hne]
  simp

theorem valueText_eq {key value : Bytes} (h : 61 ∉ key) : valueText (key ++ 61 :: value) = value := by
  have hne : ∀ b ∈ key, decide (b ≠ 61) = true := fun b hb => decide_eq_true (ne_of_mem_of_not_mem hb h)
  rw [valueText, List.dropWhile_append_of_pos hne]
  simp

/-- The parts around the first `=`. -/
theorem split_at_equals {s : Bytes} (h : 61 ∈ s) : 61 ∉ keyText s ∧ s = keyText s ++ 61 :: valueText s := by
  obtain ⟨key, value, rfl, hkey⟩ := List.eq_append_cons_of_mem h
  rw [keyText_eq hkey, valueText_eq hkey]
  exact ⟨hkey, rfl⟩

theorem assignment_of_not_mem {s : Bytes} (h : 61 ∉ s) : assignment s = none := if_neg fun hc => h hc.1

/-- The parser reads a piece as the whole line that its C string is. -/
theorem splitLine_eq (piece : Bytes) : splitLine piece = assignment (cstr piece) := by
  have hhead : (61 ∈ cstr piece ∧ piece.head? ≠ some 35) ↔ (61 ∈ cstr piece ∧ (cstr piece).head? ≠ some 35) := by
    refine and_congr_right fun h => ?_
    cases piece with
    | nil => exact Iff.rfl
    | cons b piece =>
      by_cases hb : b = 0
      · rw [hb] at h
        exact absurd h (by simp [cstr])
      · simp [cstr, hb]
  unfold splitLine assignment
  simp only [hhead]
  rfl

theorem splitLine_eq_none_iff (piece : Bytes) : splitLine piece = none ↔ 61 ∉ cstr piece ∨ piece.head? = some 35 := by
  unfold splitLine
  dsimp only
  rw [ite_eq_right_iff]
  constructor
  · intro h
    by_contra hno
    rw [not_or, not_not] at hno
    exact absurd (h hno) nofun
  · rintro (h | h) ⟨hmem, hhead⟩
    · exact absurd hmem h
    · exact absurd h hhead

/-- A line feed at the end changes nothing. -/
theorem assignment_newline (s : Bytes) : assignment (s ++ [10]) = assignment s := by
  by_cases h : 61 ∈ s
  · obtain ⟨hkey, hs⟩ := split_at_equals h
    generalize keyText s = key, valueText s = value at hkey hs
    subst hs
    have hspare : Spare value [10] := .inl (List.forall_mem_singleton.mpr rfl)
    have hhead : (key ++ 61 :: value ++ [10]).head? = (key ++ 61 :: value).head? := by
      cases key <;> rfl
    unfold assignment
    rw [hhead, List.append_assoc, List.cons_append, keyText_eq hkey, valueText_eq hkey, keyText_eq hkey,
      valueText_eq hkey, (trimValue_append_iff value [10]).mpr hspare]
    simp
  · rw [assignment_of_not_mem h, assignment_of_not_mem (by simpa using h)]

theorem splitLine_newline (piece : Bytes) : splitLine (piece ++ [10]) = splitLine piece := by
  rw [splitLine_eq, splitLine_eq]
  by_cases h0 : 0 ∈ piece
  · obtain ⟨a, r, rfl, ha⟩ := List.eq_append_cons_of_mem h0
    have hne : ∀ b ∈ a, decide (b ≠ 0) = true := fun b hb => decide_eq_true (ne_of_mem_of_not_mem hb ha)
    rw [cstr, cstr, List.append_assoc, List.takeWhile_append_of_pos hne, List.takeWhile_append_of_pos hne]
    simp
  · have hne : ∀ b ∈ piece, decide (b ≠ 0) = true := fun b hb => decide_eq_true (ne_of_mem_of_not_mem hb h0)
    rw [cstr, cstr, List.takeWhile_append_of_pos hne, List.takeWhile_eq_self_iff.mpr hne]
    exact assignment_newline piece

/-! ### Pieces -/

/-- What `fgets` returns of the first line gives what it would without the line feed. -/
theorem fgetsFrom_newline {cap room : ℕ} {cur line : Bytes} (h : 10 ∉ line) (rest : Bytes) :
    (fgetsFrom cap room cur (line ++ 10 :: rest)).filterMap splitLine =
      (fgetsFrom cap room cur line).filterMap splitLine ++ (fgetsFrom cap cap [] rest).filterMap splitLine := by
  induction line generalizing room cur with
  | nil =>
    have hlast : splitLine (10 :: cur).reverse = splitLine cur.reverse := by
      rw [List.reverse_cons]
      exact splitLine_newline _
    have hstep : fgetsFrom cap room cur (10 :: rest) = (10 :: cur).reverse :: fgetsFrom cap cap [] rest := by
      rw [fgetsFrom, if_pos (.inl rfl)]
    rw [List.nil_append, hstep, List.filterMap_cons, hlast]
    cases cur with
    | nil =>
      rw [fgetsFrom]
      rfl
    | cons b cur =>
      rw [fgetsFrom, List.filterMap_cons]
      cases splitLine (b :: cur).reverse <;> rfl
      exact nofun
  | cons b line ih =>
    rw [List.mem_cons, not_or] at h
    rw [List.cons_append, fgetsFrom, fgetsFrom]
    by_cases hroom : room ≤ 1
    · rw [if_pos (.inr hroom), if_pos (.inr hroom), List.filterMap_cons, List.filterMap_cons, ih h.2]
      cases splitLine (b :: cur).reverse <;> rfl
    · have hno : ¬ (b = 10 ∨ room ≤ 1) := fun hc => hc.elim (fun hb => h.1 hb.symm) hroom
      rw [if_neg hno, if_neg hno, ih h.2]

/-- The pieces of a text are the pieces of its lines. -/
theorem fgetsLines_eq (text : Bytes) :
    (fgetsLines text).filterMap splitLine = (textLines text).flatMap fun line => (fgetsLines line).filterMap splitLine := by
  induction hn : text.length using Nat.strong_induction_on generalizing text with
  | _ n ih =>
    by_cases h : 10 ∈ text
    · obtain ⟨line, rest, rfl, hline⟩ := List.eq_append_cons_of_mem h
      have hlt : rest.length < n := by
        rw [← hn, List.length_append, List.length_cons]
        omega
      rw [textLines, List.splitOn_append_cons_self_of_not_mem hline, List.flatMap_cons, ← textLines,
        ← ih rest.length hlt rest rfl]
      exact fgetsFrom_newline hline rest
    · rw [textLines, List.splitOn_eq_singleton h, List.flatMap_singleton]

theorem textLines_newline {text line : Bytes} (h : line ∈ textLines text) : 10 ∉ line := by
  induction hn : text.length using Nat.strong_induction_on generalizing text with
  | _ n ih =>
    by_cases h10 : 10 ∈ text
    · obtain ⟨first, rest, rfl, hfirst⟩ := List.eq_append_cons_of_mem h10
      have hlt : rest.length < n := by
        rw [← hn, List.length_append, List.length_cons]
        omega
      rw [textLines, List.splitOn_append_cons_self_of_not_mem hfirst, List.mem_cons] at h
      rcases h with rfl | h
      · exact hfirst
      · exact ih rest.length hlt h rfl
    · rw [textLines, List.splitOn_eq_singleton h10, List.mem_singleton] at h
      rwa [h]

theorem fgetsFrom_first {cap room : ℕ} {cur line : Bytes} (h : 10 ∉ line) (hne : line ≠ []) (hroom : 0 < room) :
    fgetsFrom cap room cur line = (cur.reverse ++ line.take room) :: fgetsFrom cap cap [] (line.drop room) := by
  induction line generalizing room cur with
  | nil => exact absurd rfl hne
  | cons b line ih =>
    rw [List.mem_cons, not_or] at h
    obtain ⟨room, rfl⟩ := Nat.exists_eq_succ_of_ne_zero (Nat.ne_of_gt hroom)
    rw [fgetsFrom]
    by_cases hone : room = 0
    · rw [hone, if_pos (.inr (by omega))]
      simp
    · rw [if_neg fun hc => hc.elim (fun hb => h.1 hb.symm) (by omega)]
      by_cases hnil : line = []
      · subst hnil
        simp [fgetsFrom]
      · rw [Nat.succ_sub_one, ih h.2 hnil (Nat.pos_of_ne_zero hone)]
        simp

/-- The pieces of one line: the first 1023 bytes, and the pieces of what follows. -/
theorem fgetsLines_cons {line : Bytes} (h : 10 ∉ line) (hne : line ≠ []) :
    fgetsLines line = line.take lineCap :: fgetsLines (line.drop lineCap) :=
  fgetsFrom_first h hne (by decide)

theorem equals_in_first {key value : Bytes} (hkey : ∀ b ∈ key, b ≠ 0) (hlen : key.length < lineCap) :
    61 ∈ cstr ((key ++ 61 :: value).take lineCap) := by
  have htake : (key ++ 61 :: value).take lineCap = key ++ 61 :: value.take (lineCap - key.length - 1) := by
    rw [List.take_append, List.take_of_length_le hlen.le, ← Nat.succ_pred_eq_of_pos (Nat.sub_pos_of_lt hlen)]
    rfl
  have hne : ∀ b ∈ key, decide (b ≠ 0) = true := fun b hb => decide_eq_true (hkey b hb)
  rw [htake, cstr, List.takeWhile_append_of_pos hne]
  simp

/-- A `=` behind bytes that are neither NUL nor `#` is seen in some piece. -/
theorem exists_piece {key value : Bytes} (hkey : ∀ b ∈ key, b ≠ 0 ∧ b ≠ 35) (h10 : 10 ∉ key ++ 61 :: value) :
    ∃ piece ∈ fgetsLines (key ++ 61 :: value), 61 ∈ cstr piece ∧ piece.head? ≠ some 35 := by
  induction hn : key.length using Nat.strong_induction_on generalizing key with
  | _ n ih =>
    rw [fgetsLines_cons h10 (by simp)]
    by_cases hlen : key.length < lineCap
    · refine ⟨_, List.mem_cons_self, equals_in_first (fun b hb => (hkey b hb).1) hlen, ?_⟩
      cases key with
      | nil => simp [lineCap]
      | cons b key =>
        have hb := (hkey b List.mem_cons_self).2
        simp [lineCap, hb]
    · have hle : lineCap ≤ key.length := Nat.le_of_not_lt hlen
      have hdrop : (key ++ 61 :: value).drop lineCap = key.drop lineCap ++ 61 :: value :=
        List.drop_append_of_le_length hle
      have hlt : (key.drop lineCap).length < n := by
        rw [List.length_drop, ← hn]
        exact Nat.sub_lt (Nat.lt_of_lt_of_le (by decide) hle) (by decide)
      have h10' : 10 ∉ key.drop lineCap ++ 61 :: value := by
        rw [← hdrop]
        exact fun hmem => h10 ((List.drop_sublist _ _).subset hmem)
      obtain ⟨piece, hpiece, hsees⟩ := ih _ hlt (fun b hb => hkey b ((List.drop_sublist _ _).subset hb)) h10' rfl
      exact ⟨piece, List.mem_cons_of_mem _ (hdrop ▸ hpiece), hsees⟩

/-! ### The read part of a line -/

theorem readPart_append (line : Bytes) : line = readPart line ++ unread line := by
  have hprefix : readPart line <+: line := (List.takeWhile_prefix _).trans (List.take_prefix _ _)
  rw [unread, List.prefix_iff_eq_append.mp hprefix]

/-- Where the `=` is read, the key is read and so is the beginning of the value. -/
theorem assignment_readPart {line : Bytes} (h : 61 ∈ readPart line) :
    assignment line = (if line.head? = some 35 then none
        else some (trimKey (keyText (readPart line)), trimValue (valueText (readPart line) ++ unread line))) ∧
      assignment (readPart line) = (if line.head? = some 35 then none
        else some (trimKey (keyText (readPart line)), trimValue (valueText (readPart line)))) := by
  obtain ⟨hkey, hs⟩ := split_at_equals h
  have hline := readPart_append line
  have hhead : (readPart line).head? = line.head? := by
    have hne : readPart line ≠ [] := List.ne_nil_of_mem h
    conv_rhs => rw [hline]
    rw [List.head?_append_of_ne_nil _ hne]
  have hmem : 61 ∈ line := by
    rw [hline]
    exact List.mem_append_left _ h
  have hfull : line = keyText (readPart line) ++ 61 :: (valueText (readPart line) ++ unread line) := by
    rw [← List.cons_append, ← List.append_assoc, ← hs]
    exact hline
  have hkeys : keyText line = keyText (readPart line) := by
    conv_lhs => rw [hfull]
    exact keyText_eq hkey
  have hvalues : valueText line = valueText (readPart line) ++ unread line := by
    conv_lhs => rw [hfull]
    exact valueText_eq hkey
  unfold assignment
  rw [hhead, hkeys, hvalues]
  by_cases h35 : line.head? = some 35 <;> simp [h, hmem, h35]

theorem mem_trimKey {s : Bytes} {b : UInt8} (h : b ∈ s) : isBlank b = true ∨ b ∈ trimKey s := by
  by_cases hb : isBlank b = true
  · exact .inl hb
  · refine .inr ?_
    have hstart : b ∈ s.dropWhile isBlank := by
      rw [← List.takeWhile_append_dropWhile (p := isBlank) (l := s), List.mem_append] at h
      exact h.resolve_left fun ht => hb (List.mem_takeWhile_imp ht)
    rw [trimKey, trimEnd, List.mem_reverse]
    rw [← List.mem_reverse, ← List.takeWhile_append_dropWhile (p := isBlank) (l := (s.dropWhile isBlank).reverse),
      List.mem_append] at hstart
    exact hstart.resolve_left fun ht => hb (List.mem_takeWhile_imp ht)

/-- The pieces behind the first one are no lines. -/
def Behind (line : Bytes) : Prop :=
  ∀ piece ∈ fgetsLines (line.drop lineCap), 61 ∉ cstr piece ∨ piece.head? = some 35

variable {name line : Bytes}

/-- A line whose later pieces are no lines shows the key it names in its first piece. -/
theorem equals_read (hname : ∀ b ∈ name, b ≠ 0 ∧ b ≠ 35) (h10 : 10 ∉ line) (hbehind : Behind line)
    (h : Names name line) : 61 ∈ readPart line := by
  obtain ⟨v, hv⟩ := h
  have hmem : 61 ∈ line := by
    by_contra hno
    rw [assignment_of_not_mem hno] at hv
    exact absurd hv nofun
  obtain ⟨hkey, hs⟩ := split_at_equals hmem
  have htrim : trimKey (keyText line) = name := by
    unfold assignment at hv
    split_ifs at hv
    exact (Prod.mk.inj (Option.some.inj hv)).1
  generalize keyText line = key, valueText line = value at hkey hs htrim
  subst hs
  have hplain : ∀ b ∈ key, b ≠ 0 ∧ b ≠ 35 := by
    intro b hb
    rcases mem_trimKey hb with hblank | hin
    · constructor <;> rintro rfl <;> exact absurd hblank (by decide)
    · exact hname b (htrim ▸ hin)
  by_cases hlen : key.length < lineCap
  · exact equals_in_first (fun b hb => (hplain b hb).1) hlen
  · have hdrop : (key ++ 61 :: value).drop lineCap = key.drop lineCap ++ 61 :: value :=
      List.drop_append_of_le_length (Nat.le_of_not_lt hlen)
    have h10' : 10 ∉ key.drop lineCap ++ 61 :: value := by
      rw [← hdrop]
      exact fun hmem => h10 ((List.drop_sublist _ _).subset hmem)
    obtain ⟨piece, hpiece, hsees, hhead⟩ :=
      exists_piece (fun b hb => hplain b ((List.drop_sublist _ _).subset hb)) h10'
    rw [Behind, hdrop] at hbehind
    exact absurd (hbehind piece hpiece) (not_or.mpr ⟨not_not.mpr hsees, hhead⟩)

/-- Then the line names the key in whole exactly when its read part does. -/
theorem names_readPart_iff (hname : ∀ b ∈ name, b ≠ 0 ∧ b ≠ 35) (h10 : 10 ∉ line) (hbehind : Behind line) :
    (∃ v, assignment (readPart line) = some (name, v)) ↔ Names name line := by
  constructor
  · rintro ⟨v, hv⟩
    have hread : 61 ∈ readPart line := by
      by_contra hno
      rw [assignment_of_not_mem hno] at hv
      exact absurd hv nofun
    obtain ⟨hwhole, hpart⟩ := assignment_readPart hread
    rw [hpart] at hv
    rw [Names, hwhole]
    split_ifs at hv ⊢
    exact ⟨_, congrArg (fun n => some (n, _)) (Prod.mk.inj (Option.some.inj hv)).1⟩
  · intro h
    obtain ⟨hwhole, hpart⟩ := assignment_readPart (equals_read hname h10 hbehind h)
    obtain ⟨v, hv⟩ := h
    rw [hwhole] at hv
    rw [hpart]
    split_ifs at hv ⊢
    exact ⟨_, congrArg (fun n => some (n, _)) (Prod.mk.inj (Option.some.inj hv)).1⟩

/-! ### The last value of a key -/

section Last
variable {given : List (Bytes × Bytes)} {lines : List Bytes}

theorem lastValue_eq_none_iff : lastValue name given = none ↔ ∀ v, (name, v) ∉ given := by
  induction given with
  | nil => simp [lastValue]
  | cons p given ih =>
    obtain ⟨n, v⟩ := p
    rw [lastValue, Option.or_eq_none_iff, ih]
    by_cases hn : n = name
    · subst hn
      simp only [if_true, reduceCtorEq, and_false, false_iff, not_forall, not_not]
      exact ⟨v, List.mem_cons_self⟩
    · have hne (w : Bytes) : (name, w) ≠ (n, v) := fun heq => hn (Prod.mk.inj heq).1.symm
      simp [hn, hne]

theorem lastValue_cons (read : Bytes → Option (Bytes × Bytes)) :
    lastValue name ((line :: lines).filterMap read) =
      (lastValue name (lines.filterMap read)).or (lastValue name (read line).toList) := by
  cases hread : read line with
  | none => rw [List.filterMap_cons_none hread, Option.toList_none, lastValue, Option.or_none]
  | some p => simp [List.filterMap_cons_some hread, lastValue]

theorem lastValue_filterMap_ne_none {read : Bytes → Option (Bytes × Bytes)} (hline : line ∈ lines)
    (h : ∃ v, read line = some (name, v)) : ∃ v, lastValue name (lines.filterMap read) = some v := by
  obtain ⟨v, hv⟩ := h
  refine Option.ne_none_iff_exists'.mp fun hnone => ?_
  exact lastValue_eq_none_iff.mp hnone v (List.mem_filterMap.mpr ⟨line, hline, hv⟩)

theorem lastValue_toList_of_not {p : Option (Bytes × Bytes)} (h : ¬ ∃ v, p = some (name, v)) :
    lastValue name p.toList = none := by
  refine lastValue_eq_none_iff.mpr fun v hv => h ⟨v, ?_⟩
  rwa [Option.mem_toList] at hv

/-- Two readings of the lines that name the same keys give the same last value exactly
when they agree on the last line that names the key. -/
theorem lastValue_eq_iff {read whole : Bytes → Option (Bytes × Bytes)}
    (hnames : ∀ line ∈ lines, (∃ v, read line = some (name, v)) ↔ ∃ v, whole line = some (name, v)) :
    lastValue name (lines.filterMap read) = lastValue name (lines.filterMap whole) ↔
      ∀ before line after, lines = before ++ line :: after → (∃ v, whole line = some (name, v)) →
        (∀ later ∈ after, ¬ ∃ v, whole later = some (name, v)) → read line = whole line := by
  induction lines with
  | nil => simp
  | cons line lines ih =>
    have htail := ih fun later hlater => hnames later (List.mem_cons_of_mem _ hlater)
    rw [lastValue_cons, lastValue_cons]
    by_cases hlater : ∃ later ∈ lines, ∃ v, whole later = some (name, v)
    · -- the first line does not decide
      obtain ⟨later, hmem, hnamed⟩ := hlater
      obtain ⟨v, hv⟩ := lastValue_filterMap_ne_none hmem hnamed
      obtain ⟨w, hw⟩ := lastValue_filterMap_ne_none hmem ((hnames later (List.mem_cons_of_mem _ hmem)).mpr hnamed)
      rw [hv, hw, Option.some_or, Option.some_or, ← hv, ← hw, htail]
      constructor
      · rintro h (_ | ⟨first, before⟩) line' after heq hnamed' hafter
        · obtain ⟨rfl, rfl⟩ := List.cons.inj heq
          exact absurd hnamed (hafter later hmem)
        · exact h before line' after (List.cons.inj heq).2 hnamed' hafter
      · intro h before line' after heq hnamed' hafter
        exact h (line :: before) line' after (by rw [heq]; rfl) hnamed' hafter
    · have hnone : ∀ later ∈ lines, ¬ ∃ v, whole later = some (name, v) := fun later hmem hnamed =>
        hlater ⟨later, hmem, hnamed⟩
      have hempty (f : Bytes → Option (Bytes × Bytes)) (hf : ∀ later ∈ lines, ¬ ∃ v, f later = some (name, v)) :
          lastValue name (lines.filterMap f) = none := by
        refine lastValue_eq_none_iff.mpr fun v hv => ?_
        obtain ⟨later, hmem, hlater⟩ := List.mem_filterMap.mp hv
        exact hf later hmem ⟨v, hlater⟩
      rw [hempty whole hnone, hempty read fun later hmem => fun hnamed =>
        hnone later hmem ((hnames later (List.mem_cons_of_mem _ hmem)).mp hnamed), Option.none_or, Option.none_or]
      have hdecides : (∀ before line' after, line :: lines = before ++ line' :: after →
          (∃ v, whole line' = some (name, v)) → (∀ later ∈ after, ¬ ∃ v, whole later = some (name, v)) →
            read line' = whole line') ↔ ((∃ v, whole line = some (name, v)) → read line = whole line) := by
        constructor
        · exact fun h hnamed => h [] line lines rfl hnamed hnone
        · rintro h (_ | ⟨first, before⟩) line' after heq hnamed -
          · obtain ⟨rfl, rfl⟩ := List.cons.inj heq
            exact h hnamed
          · have hmem : line' ∈ lines := by
              rw [(List.cons.inj heq).2]
              simp
            exact absurd hnamed (hnone line' hmem)
      rw [hdecides]
      by_cases hnamed : ∃ v, whole line = some (name, v)
      · obtain ⟨v, hv⟩ := (hnames line List.mem_cons_self).mpr hnamed
        obtain ⟨w, hw⟩ := hnamed
        rw [hv, hw]
        simp [lastValue]
      · rw [lastValue_toList_of_not hnamed,
          lastValue_toList_of_not fun hread => hnamed ((hnames line List.mem_cons_self).mp hread)]
        exact iff_of_true rfl fun h => absurd h hnamed

end Last

/-! ### The stored fields -/

/-- The names of the string-valued keys have no NUL and no `#`. -/
theorem text_name_plain (k : TextKey) : ∀ b ∈ ascii (Key.text k).name, b ≠ 0 ∧ b ≠ 35 := by
  have hall : (ascii (Key.text k).name).all (fun b => b ≠ 0 ∧ b ≠ 35) = true := by
    cases k
    all_goals
      rw [Key.name, ascii_ofList]
      decide
  exact fun b hb => of_decide_eq_true (List.all_eq_true.mp hall b hb)

theorem set_text {c c' : Config} {key : Key} {v : Bytes} (h : c.set key v = some c') (k : TextKey) :
    c'.text k = if key = .text k then v else c.text k := by
  cases key with
  | text k' =>
    rw [Config.set] at h
    split_ifs at h
    rw [← Option.some.inj h]
    by_cases hk : k = k'
    · subst hk
      simp
    · simp [Function.update_of_ne hk, Ne.symm hk]
  | allowedUids =>
    obtain ⟨uids, -, rfl⟩ := Option.map_eq_some_iff.mp h
    rfl
  | _ =>
    rw [← Option.some.inj h]
    rfl

/-- One piece stores the value it gives, when it names the key. -/
theorem line_text {c c' : Config} {piece : Bytes} (h : c.line piece = some c') (k : TextKey) :
    c'.text k = (lastValue (ascii (Key.text k).name) (splitLine piece).toList).getD (c.text k) := by
  cases hsplit : splitLine piece with
  | none =>
    simp only [Config.line, hsplit] at h
    rw [← Option.some.inj h]
    rfl
  | some p =>
    obtain ⟨n, v⟩ := p
    simp only [Config.line, hsplit] at h
    have hlast : lastValue (ascii (Key.text k).name) [(n, v)] = if n = ascii (Key.text k).name then some v else none := by
      simp [lastValue]
    rw [Option.toList_some, hlast]
    cases hkey : Key.ofName n with
    | none =>
      have hne : n ≠ ascii (Key.text k).name := by
        rintro rfl
        exact Option.some_ne_none _ ((ofName_name _).symm.trans hkey)
      rw [hkey] at h
      rw [← Option.some.inj h, if_neg hne]
      rfl
    | some key =>
      rw [hkey] at h
      rw [set_text h k]
      by_cases heq : key = .text k
      · rw [if_pos heq, if_pos (by rw [name_of_ofName hkey, heq])]
        rfl
      · have hne : n ≠ ascii (Key.text k).name := by
          rintro rfl
          exact heq (Option.some.inj (hkey.symm.trans (ofName_name _)))
        rw [if_neg heq, if_neg hne]
        rfl

/-- The fields after the last piece. -/
theorem foldlM_text {pieces : List Bytes} {c c' : Config} (h : pieces.foldlM Config.line c = some c') (k : TextKey) :
    c'.text k = (lastValue (ascii (Key.text k).name) (pieces.filterMap splitLine)).getD (c.text k) := by
  induction pieces generalizing c with
  | nil =>
    rw [← Option.some.inj h]
    rfl
  | cons piece pieces ih =>
    rw [List.foldlM_cons] at h
    obtain ⟨c₁, h₁, hrest⟩ := Option.bind_eq_some_iff.mp h
    rw [ih hrest, line_text h₁ k, lastValue_cons]
    cases lastValue (ascii (Key.text k).name) (pieces.filterMap splitLine) <;> rfl

theorem finish_text {site : Site} {c c' : Config} (h : c.finish site = some c') : c'.text = c.text := by
  unfold Config.finish at h
  split_ifs at h
  all_goals
    obtain ⟨key, -, rfl⟩ := Option.map_eq_some_iff.mp h
    rfl

theorem loadConfig_text {site : Site} {text : Bytes} {c : Config} (h : loadConfig site text = some c) (k : TextKey) :
    c.text k = (lastValue (ascii (Key.text k).name) ((fgetsLines text).filterMap splitLine)).getD [] := by
  obtain ⟨c₁, hlines, hfinish⟩ := Option.bind_eq_some_iff.mp h
  rw [finish_text hfinish, foldlM_text hlines k]

/-! ### Whole values -/

variable {text : Bytes}

/-- The pieces give what the read parts of the lines give. -/
theorem readings_eq (h : ∀ line ∈ textLines text, Behind line) :
    (fgetsLines text).filterMap splitLine = (textLines text).filterMap fun line => assignment (readPart line) := by
  rw [fgetsLines_eq, List.filterMap_eq_flatMap_toList]
  refine List.flatMap_congr fun line hline => ?_
  by_cases hne : line = []
  · subst hne
    rfl
  have hrest : (fgetsLines (line.drop lineCap)).filterMap splitLine = [] := by
    refine List.filterMap_eq_nil_iff.mpr fun piece hpiece => ?_
    exact (splitLine_eq_none_iff piece).mpr (h line hline piece hpiece)
  rw [fgetsLines_cons (textLines_newline hline) hne, List.filterMap_cons, hrest, splitLine_eq, ← readPart]
  cases assignment (readPart line) <;> rfl

/-- The read part of a line gives its value exactly when the rest is trimmed away. -/
theorem assignment_readPart_eq_iff (hname : ∀ b ∈ name, b ≠ 0 ∧ b ≠ 35) (h10 : 10 ∉ line) (hbehind : Behind line)
    (h : Names name line) : assignment (readPart line) = assignment line ↔
      Spare (valueText (readPart line)) (unread line) := by
  obtain ⟨hwhole, hpart⟩ := assignment_readPart (equals_read hname h10 hbehind h)
  obtain ⟨v, hv⟩ := h
  rw [hwhole] at hv
  rw [hpart, hwhole, ← trimValue_append_iff]
  by_cases h35 : line.head? = some 35
  · rw [if_pos h35] at hv
    exact absurd hv nofun
  · rw [if_neg h35, if_neg h35, Option.some.injEq, Prod.mk.injEq, eq_comm (a := trimValue (valueText (readPart line)))]
    exact and_iff_right rfl

theorem getD_eq_iff {p q : Option Bytes} (h : p = none ↔ q = none) : p.getD [] = q.getD [] ↔ p = q := by
  cases p with
  | none =>
    rw [h.mp rfl]
    simp
  | some v =>
    cases q with
    | none => exact absurd (h.mpr rfl) nofun
    | some w => simp

/-- A file that loads is stored as its lines say exactly when they fit into the pieces. -/
theorem stored_whole_iff (site : Site) (text : Bytes) (c : Config) (h : loadConfig site text = some c) :
    StoredWhole text c ↔ FitsPieces text := by
  have hbehind : (∀ line ∈ textLines text, ∀ piece ∈ fgetsLines (line.drop lineCap), splitLine piece = none) ↔
      ∀ line ∈ textLines text, Behind line :=
    forall₂_congr fun line _ => forall₂_congr fun piece _ => splitLine_eq_none_iff piece
  have hvalues (hb : ∀ line ∈ textLines text, Behind line) (k : TextKey) :
      c.text k = (lastValue (ascii (Key.text k).name) ((textLines text).filterMap assignment)).getD [] ↔
        ∀ before line after, textLines text = before ++ line :: after → Names (ascii (Key.text k).name) line →
          (∀ later ∈ after, ¬ Names (ascii (Key.text k).name) later) →
            Spare (valueText (readPart line)) (unread line) := by
    have hnames : ∀ line ∈ textLines text,
        (∃ v, assignment (readPart line) = some (ascii (Key.text k).name, v)) ↔ Names (ascii (Key.text k).name) line :=
      fun line hline => names_readPart_iff (text_name_plain k) (textLines_newline hline) (hb line hline)
    have hnone : lastValue (ascii (Key.text k).name) ((textLines text).filterMap fun line => assignment (readPart line)) =
        none ↔ lastValue (ascii (Key.text k).name) ((textLines text).filterMap assignment) = none := by
      rw [lastValue_eq_none_iff, lastValue_eq_none_iff]
      simp only [List.mem_filterMap, not_exists, not_and]
      constructor
      · intro hno v line hline hv
        obtain ⟨w, hw⟩ := (hnames line hline).mpr ⟨v, hv⟩
        exact hno w line hline hw
      · intro hno v line hline hv
        obtain ⟨w, hw⟩ := (hnames line hline).mp ⟨v, hv⟩
        exact hno w line hline hw
    rw [loadConfig_text h k, readings_eq hb, getD_eq_iff hnone, lastValue_eq_iff hnames]
    refine forall₃_congr fun before line after => forall₃_congr fun heq hnamed _ => ?_
    have hline : line ∈ textLines text := by
      rw [heq]
      simp
    exact assignment_readPart_eq_iff (text_name_plain k) (textLines_newline hline) (hb line hline) hnamed
  constructor
  · rintro ⟨hfields, hlines⟩
    have hb := hbehind.mp hlines
    exact ⟨hb, fun k => (hvalues hb k).mp (hfields k)⟩
  · rintro ⟨hb, hvalue⟩
    exact ⟨fun k => (hvalues hb k).mpr (hvalue k), hbehind.mpr hb⟩

/-! ### A clipped token -/

/-- A host where every file holds a key of one byte. -/
def bareSite : Site := ⟨fun _ => some (ascii "00"), fun _ => false, [], 0⟩

/-- The last line has a token of 1010 bytes, which the buffer of the token would hold. -/
def longToken : Bytes :=
  ascii "socket_path=/s\nhmac_key_file=/k\nreasoning_token=" ++ List.replicate 1010 97

/-- The file loads, and three bytes of the token are lost. -/
theorem token_clipped :
    (loadConfig bareSite longToken).map (fun c => (c.text .reasoningToken).length) = some 1007 ∧
      (lastValue (ascii "reasoning_token") ((textLines longToken).filterMap assignment)).map List.length = some 1010 := by
  have hgiven : (fgetsLines longToken).filterMap splitLine =
      [(Key.text .socketPath, ascii "/s"), (.text .hmacKeyFile, ascii "/k"),
        (.text .reasoningToken, List.replicate 1007 97)].map fun g => (ascii g.1.name, g.2) := by
    rw [longToken, List.map_cons, List.map_cons, List.map_cons]
    simp only [Key.name]
    repeat rw [ascii_ofList]
    decide +kernel
  constructor
  · rw [loadConfig_of_given hgiven]
    decide +kernel
  · rw [longToken, ascii_ofList, ascii_ofList]
    decide +kernel

theorem stored_whole_iff_short :
    ∃ c, loadConfig bareSite (ascii "socket_path = /s\r\nhmac_key_file=/k\n") = some c ∧
      (StoredWhole (ascii "socket_path = /s\r\nhmac_key_file=/k\n") c ↔
        FitsPieces (ascii "socket_path = /s\r\nhmac_key_file=/k\n")) := by
  obtain ⟨c, hc⟩ := Option.isSome_iff_exists.mp
    (show (loadConfig bareSite (ascii "socket_path = /s\r\nhmac_key_file=/k\n")).isSome = true by decide +kernel)
  exact ⟨c, hc, stored_whole_iff bareSite _ c hc⟩

end FractalSQL.Provider
