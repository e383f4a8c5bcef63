import FractalSQL.Lib.JsonNesting
import FractalSQL.Mcp.Dispatch

/-!
# The nesting guard

`jsonNestsTooDeep` scans the bytes of a line with a string flag and a counter. On a JSON text
the counter follows the containers of the grammar.
-/
namespace FractalSQL.Mcp.Rpc
open Lib Json JsonGrammar

/-! ### Bytes that change nothing -/

/-- Neither a quote nor a bracket. -/
def Inert (c : UInt8) : Prop := c ≠ 34 ∧ c ≠ 91 ∧ c ≠ 123 ∧ c ≠ 93 ∧ c ≠ 125

theorem nestsFrom_inert {c : UInt8} (h : Inert c) (depth : ℕ) (s : Bytes) :
    nestsFrom false depth (c :: s) = nestsFrom false depth s := by
  obtain ⟨h34, h91, h123, h93, h125⟩ := h
  rw [nestsFrom, if_neg h34, if_neg (not_or.mpr ⟨h91, h123⟩), if_neg (not_or.mpr ⟨h93, h125⟩)]

theorem nestsFrom_inert_append {w : Bytes} (h : ∀ c ∈ w, Inert c) (depth : ℕ) (s : Bytes) :
    nestsFrom false depth (w ++ s) = nestsFrom false depth s := by
  induction w with
  | nil => rfl
  | cons c w ih =>
    rw [List.forall_mem_cons] at h
    rw [List.cons_append, nestsFrom_inert h.1, ih h.2]

theorem inert_of_ws {w : Bytes} (h : Ws w) : ∀ c ∈ w, Inert c := by
  intro c hc
  rcases of_decide_eq_true (h c hc) with rfl | rfl | rfl | rfl <;> exact ⟨by decide, by decide, by decide, by decide, by decide⟩

theorem inert_of_scalar {lex : Bytes} (h : IsScalar lex) : ∀ c ∈ lex, Inert c := by
  intro c hc
  have hscalar := h.scalar c hc
  refine ⟨?_, ?_, ?_, ?_, ?_⟩ <;> rintro rfl <;> exact absurd hscalar (by decide)

/-! ### Brackets and strings -/

theorem nestsFrom_open {c : UInt8} (h : c = 91 ∨ c = 123) (depth : ℕ) (s : Bytes) :
    nestsFrom false depth (c :: s) = (decide (maxJsonDepth < depth + 1) || nestsFrom false (depth + 1) s) := by
  have hquote : c ≠ 34 := by rcases h with rfl | rfl <;> decide
  rw [nestsFrom, if_neg hquote, if_pos h]

theorem nestsFrom_close {c : UInt8} (h : c = 93 ∨ c = 125) (depth : ℕ) (s : Bytes) :
    nestsFrom false (depth + 1) (c :: s) = nestsFrom false depth s := by
  have hquote : c ≠ 34 := by rcases h with rfl | rfl <;> decide
  have hopen : ¬ (c = 91 ∨ c = 123) := by rcases h with rfl | rfl <;> decide
  rw [nestsFrom, if_neg hquote, if_neg hopen, if_pos h, Nat.add_sub_cancel]

/-- The quote at the end of a string. -/
theorem nestsFrom_quote (depth : ℕ) (s : Bytes) : nestsFrom true depth (34 :: s) = nestsFrom false depth s := by
  cases s with
  | nil => rfl
  | cons d s => rw [nestsFrom, if_neg (by decide)]; rfl

theorem nestsFrom_escape (e : UInt8) (depth : ℕ) (s : Bytes) :
    nestsFrom true depth (92 :: e :: s) = nestsFrom true depth s := by
  rw [nestsFrom, if_pos rfl]

theorem nestsFrom_plain {c : UInt8} {s : Bytes} (h34 : c ≠ 34) (h92 : c ≠ 92) (hs : s ≠ []) (depth : ℕ) :
    nestsFrom true depth (c :: s) = nestsFrom true depth s := by
  cases s with
  | nil => exact absurd rfl hs
  | cons d s => rw [nestsFrom, if_neg h92, decide_eq_true h34]

theorem hexValue_plain {c : UInt8} {v : ℕ} (h : hexValue c = some v) : c ≠ 34 ∧ c ≠ 92 := by
  have hquote : hexValue 34 = none := by decide
  have hslash : hexValue 92 = none := by decide
  constructor <;> rintro rfl
  · exact absurd (hquote.symm.trans h) nofun
  · exact absurd (hslash.symm.trans h) nofun

/-- A string's text is read over up to its end. -/
theorem nestsFrom_string {raw : Bytes} (h : IsString raw) (depth : ℕ) (s : Bytes) :
    nestsFrom true depth (raw ++ 34 :: s) = nestsFrom false depth s := by
  have hne (raw : Bytes) : raw ++ 34 :: s ≠ [] := List.append_ne_nil_of_right_ne_nil _ (List.cons_ne_nil _ _)
  refine IsString.build (P := fun raw => nestsFrom true depth (raw ++ 34 :: s) = nestsFrom false depth s) ?_ ?_ ?_ ?_ h
  · exact nestsFrom_quote depth s
  · intro a b c d raw hhex ih
    obtain ⟨n, hn⟩ := Option.isSome_iff_exists.mp hhex
    obtain ⟨va, ha, hn⟩ := Option.bind_eq_some_iff.mp hn
    obtain ⟨vb, hb, hn⟩ := Option.bind_eq_some_iff.mp hn
    obtain ⟨vc, hc, hn⟩ := Option.bind_eq_some_iff.mp hn
    obtain ⟨vd, hd, -⟩ := Option.bind_eq_some_iff.mp hn
    have ha := hexValue_plain ha
    have hb := hexValue_plain hb
    have hc := hexValue_plain hc
    have hd := hexValue_plain hd
    simp only [List.cons_append]
    rw [nestsFrom_escape, nestsFrom_plain ha.1 ha.2 (List.cons_ne_nil _ _), nestsFrom_plain hb.1 hb.2 (List.cons_ne_nil _ _),
      nestsFrom_plain hc.1 hc.2 (List.cons_ne_nil _ _), nestsFrom_plain hd.1 hd.2 (hne raw), ih]
  · intro e raw ih
    simp only [List.cons_append]
    rw [nestsFrom_escape, ih]
  · intro b raw h34 h92 ih
    rw [List.cons_append, nestsFrom_plain h34 h92 (hne raw), ih]

/-! ### The scan of what the grammar derives -/

theorem nestsFrom_quoted {raw : Bytes} (h : IsString raw) (depth : ℕ) (s : Bytes) :
    nestsFrom false depth (34 :: (raw ++ 34 :: s)) = nestsFrom false depth s := by
  rw [nestsFrom, if_pos rfl, nestsFrom_string h]

/-- The counter passes the limit inside a part exactly when the part nests so deep, and stands
behind it where it stood in front. -/
theorem nestsFrom_derives {text : Bytes} {part : Part} (h : Derives text part) (depth : ℕ) (hdepth : depth ≤ maxJsonDepth)
    (s : Bytes) :
    nestsFrom false depth (text ++ s) = (decide (maxJsonDepth < depth + part.depth) || nestsFrom false depth s) := by
  have hinert {w : Bytes} (hw : ∀ c ∈ w, Inert c) (d : ℕ) (s : Bytes) (hd : d ≤ maxJsonDepth) :
      nestsFrom false d (w ++ s) = (decide (maxJsonDepth < d + 0) || nestsFrom false d s) := by
    rw [nestsFrom_inert_append hw, decide_eq_false (by omega), Bool.false_or]
  have hmax (d m n : ℕ) (b : Bool) : (decide (maxJsonDepth < d + m) || (decide (maxJsonDepth < d + n) || b)) =
      (decide (maxJsonDepth < d + max m n) || b) := by
    rw [← Bool.or_assoc, ← Bool.decide_or]
    congr 2
    rw [eq_iff_iff]
    omega
  -- a container that is opened at the limit ends the scan
  have hbracket {c e : UInt8} {body : Bytes} {n d : ℕ} (hc : c = 91 ∨ c = 123) (he : e = 93 ∨ e = 125)
      (hbody : d + 1 ≤ maxJsonDepth → ∀ s, nestsFrom false (d + 1) (body ++ s) =
        (decide (maxJsonDepth < d + 1 + n) || nestsFrom false (d + 1) s)) (s : Bytes) :
      nestsFrom false d (c :: (body ++ [e]) ++ s) = (decide (maxJsonDepth < d + (n + 1)) || nestsFrom false d s) := by
    rw [List.cons_append, nestsFrom_open hc]
    by_cases hlimit : maxJsonDepth < d + 1
    · rw [decide_eq_true hlimit, decide_eq_true (show maxJsonDepth < d + (n + 1) by omega)]
      rfl
    · rw [decide_eq_false hlimit, Bool.false_or, List.append_assoc, hbody (by omega), List.singleton_append,
        nestsFrom_close he, Nat.add_right_comm d 1 n, Nat.add_assoc d n 1]
  induction h generalizing depth s with
  | scalar h => exact hinert (inert_of_scalar h) depth s hdepth
  | str h =>
    rw [List.cons_append, List.append_assoc, List.singleton_append, nestsFrom_quoted h, decide_eq_false, Bool.false_or]
    exact Nat.not_lt.mpr hdepth
  | emptyArr h => exact hbracket (.inl rfl) (.inl rfl) (fun hd s => hinert (inert_of_ws h) _ s hd) s
  | arr h ih => exact hbracket (.inl rfl) (.inl rfl) (fun hd s => ih _ hd s) s
  | emptyObj h => exact hbracket (.inr rfl) (.inr rfl) (fun hd s => hinert (inert_of_ws h) _ s hd) s
  | obj h ih => exact hbracket (.inr rfl) (.inr rfl) (fun hd s => ih _ hd s) s
  | element hw h hw' ih =>
    rw [List.append_assoc, nestsFrom_inert_append (inert_of_ws hw), List.append_assoc, ih depth hdepth,
      nestsFrom_inert_append (inert_of_ws hw')]
    rfl
  | @item text t h ih =>
    have hsame : (Part.items [t]).depth = t.depth := Nat.max_zero _
    rw [ih depth hdepth, hsame]
    rfl
  | items h hrest ih ihrest =>
    rw [List.append_assoc, List.cons_append, ih depth hdepth,
      nestsFrom_inert ⟨by decide, by decide, by decide, by decide, by decide⟩, ihrest depth hdepth]
    exact hmax ..
  | member hw hkey hw' h ih =>
    have hcolon : Inert 58 := ⟨by decide, by decide, by decide, by decide, by decide⟩
    rw [List.append_assoc, nestsFrom_inert_append (inert_of_ws hw), List.cons_append, List.append_assoc, List.cons_append,
      nestsFrom_quoted hkey, List.append_assoc, nestsFrom_inert_append (inert_of_ws hw'), List.cons_append,
      nestsFrom_inert hcolon, ih depth hdepth]
    rfl
  | @single text key t h ih =>
    have hsame : (Part.members [(key, t)]).depth = t.depth := Nat.max_zero _
    rw [ih depth hdepth, hsame]
    rfl
  | members h hrest ih ihrest =>
    rw [List.append_assoc, List.cons_append, ih depth hdepth,
      nestsFrom_inert ⟨by decide, by decide, by decide, by decide, by decide⟩, ihrest depth hdepth]
    exact hmax ..

/-- A scan that does not end has counted every container that is not yet closed. -/
theorem begins_le {p : Bytes} {k : JsonGrammar.Kind} {n : ℕ} (h : JsonGrammar.Begins p k n) (depth : ℕ) (hdepth : depth ≤ maxJsonDepth) (rest : Bytes)
    (hscan : nestsFrom false depth (p ++ rest) = false) : depth + n ≤ maxJsonDepth := by
  have hopened {c : UInt8} (hc : c = 91 ∨ c = 123) {p : Bytes} {d : ℕ} (hscan : nestsFrom false d (c :: p ++ rest) = false) :
      d + 1 ≤ maxJsonDepth ∧ nestsFrom false (d + 1) (p ++ rest) = false := by
    rw [List.cons_append, nestsFrom_open hc, Bool.or_eq_false_iff, decide_eq_false_iff_not] at hscan
    exact ⟨Nat.not_lt.mp hscan.1, hscan.2⟩
  induction h generalizing depth with
  | nothing | whole | scalar | str | after | key | colon => exact hdepth
  | emptyArr h => exact (hopened (.inl rfl) hscan).1
  | arr h ih =>
    obtain ⟨hopen, hin⟩ := hopened (.inl rfl) hscan
    have hle := ih (depth + 1) hopen hin
    omega
  | emptyObj h => exact (hopened (.inr rfl) hscan).1
  | obj h ih =>
    obtain ⟨hopen, hin⟩ := hopened (.inr rfl) hscan
    have hle := ih (depth + 1) hopen hin
    omega
  | element hw h ih =>
    rw [List.append_assoc, nestsFrom_inert_append (inert_of_ws hw)] at hscan
    exact ih depth hdepth hscan
  | item h ih => exact ih depth hdepth hscan
  | items h hrest ih =>
    rw [List.append_assoc, List.cons_append, nestsFrom_derives h depth hdepth,
      nestsFrom_inert ⟨by decide, by decide, by decide, by decide, by decide⟩, Bool.or_eq_false_iff] at hscan
    exact ih depth hdepth hscan.2
  | member hw hkey hw' h ih =>
    have hcolon : Inert 58 := ⟨by decide, by decide, by decide, by decide, by decide⟩
    rw [List.append_assoc, nestsFrom_inert_append (inert_of_ws hw), List.cons_append, List.append_assoc, List.cons_append,
      nestsFrom_quoted hkey, List.append_assoc, nestsFrom_inert_append (inert_of_ws hw'), List.cons_append,
      nestsFrom_inert hcolon] at hscan
    exact ih depth hdepth hscan
  | single h ih => exact ih depth hdepth hscan
  | members h hrest ih =>
    rw [List.append_assoc, List.cons_append, nestsFrom_derives h depth hdepth,
      nestsFrom_inert ⟨by decide, by decide, by decide, by decide, by decide⟩, Bool.or_eq_false_iff] at hscan
    exact ih depth hdepth hscan.2

/-- On every JSON text the guard says whether an array or object nests more than 128 deep, and a
text that it lets through has no prefix a parser can read with more than 128 of them open. -/
theorem nesting_guard_exact (s : Bytes) :
    (∀ t, JsonText s t → (jsonNestsTooDeep s = true ↔ maxJsonDepth < t.depth)) ∧
      (jsonNestsTooDeep s = false → ∀ p, p <+: s → ∀ n, Unclosed p n → n ≤ maxJsonDepth) := by
  constructor
  · intro t ht
    have hscan := nestsFrom_derives ht 0 (Nat.zero_le _) []
    rw [List.append_nil, Nat.zero_add] at hscan
    rw [jsonNestsTooDeep, hscan, nestsFrom, Bool.or_false]
    exact decide_eq_true_iff
  · rintro hshallow p ⟨rest, rfl⟩ n hn
    have hle := begins_le hn 0 (Nat.zero_le _) rest hshallow
    omega

end FractalSQL.Mcp.Rpc
