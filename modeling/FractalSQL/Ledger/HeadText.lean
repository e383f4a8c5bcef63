import Mathlib.Data.List.TakeWhile
import FractalSQL.Ledger.Head

/-!
# The head file reads back as it was written

The reader and the writer of the head file are independent pieces of text
handling. Here they are composed: records whose numbers fit their C types are
recovered exactly, in order, and whatever a head file reads as has counts that
fit theirs.
-/
namespace FractalSQL.Ledger
open Lib

/-- A head record the writer's format and the reader's checks both admit. -/
structure HeadRec.Printable (r : HeadRec) : Prop where
  kind_nonneg : 0 ≤ r.kind
  kind_lt : r.kind < 2 ^ 31
  rows_nonneg : 0 ≤ r.rows
  rows_le : r.rows ≤ longMax

theorem ascii_kind : ascii "kind=" = [107, 105, 110, 100, 61] := by decide
theorem ascii_rows : ascii " rows=" = [32, 114, 111, 119, 115, 61] := by decide
theorem ascii_rowsField : ascii "rows=" = [114, 111, 119, 115, 61] := by decide
theorem ascii_mac : ascii " mac=" = [32, 109, 97, 99, 61] := by decide
theorem ascii_macField : ascii "mac=" = [109, 97, 99, 61] := by decide

theorem decimalInt_of_nonneg {z : ℤ} (h : 0 ≤ z) : decimalInt z = decimal z.toNat := by
  rw [decimalInt, if_neg (not_lt.mpr h)]
  congr 1
  omega

theorem toInt32_eq {z : ℤ} (h0 : 0 ≤ z) (h : z < 2 ^ 31) : toInt32 z = z := by
  apply Int.bmod_eq_of_le <;> norm_num <;> omega

theorem strtoInt_decimalInt {z : ℤ} {rest : Bytes} (h0 : 0 ≤ z) (h : z ≤ longMax)
    (hr : ∀ b ∈ rest.head?, isDigit b = false) :
    strtoInt longMin longMax (decimalInt z ++ rest) = some (z, rest) := by
  have hz : ((z.toNat : ℕ) : ℤ) = z := Int.toNat_of_nonneg h0
  have hmin : longMin ≤ (z.toNat : ℕ) := by unfold longMin; omega
  rw [decimalInt_of_nonneg h0, strtoInt_decimal hmin (by rw [hz]; exact h) hr, hz]

/-! ### One line -/

/-- The part of a line after the row count. -/
def HeadRec.lineTail (r : HeadRec) : Bytes := r.macField ++ [10]

theorem HeadRec.line_eq (r : HeadRec) : r.line = ascii "kind=" ++ (decimalInt r.kind ++
    (ascii " rows=" ++ (decimalInt r.rows ++ r.lineTail))) := by
  simp only [line, headMacText, List.append_assoc, lineTail]

theorem headFields_lineTail (r : HeadRec) (hr : r.Printable) :
    headFields r.lineTail { r with mac := none } = some r := by
  obtain ⟨kind, rows, mac⟩ := r
  have hend (m : Option Hash) : headFields [10] ⟨kind, rows, m⟩ = some ⟨kind, rows, m⟩ := by
    rw [headFields_eq, if_pos (by decide), if_pos ⟨hr.kind_nonneg, hr.rows_nonneg⟩]
  cases mac with
  | none => exact hend none
  | some m =>
    have hm := hexBlock_hexEncode m [10]
    rw [headFields_eq]
    simp only [HeadRec.lineTail, HeadRec.macField, ascii_mac, List.cons_append, List.nil_append]
    simp [isBlank, atLineEnd, headField, dropLit, ascii_kind, ascii_rowsField, ascii_macField, hm,
      hend]

theorem lineTail_head_not_digit (r : HeadRec) : ∀ b ∈ r.lineTail.head?, isDigit b = false := by
  obtain ⟨kind, rows, mac⟩ := r
  cases mac with
  | none =>
    intro b hb
    obtain rfl : 10 = b := by simpa [HeadRec.lineTail, HeadRec.macField] using hb
    decide
  | some m =>
    simp only [HeadRec.lineTail, HeadRec.macField, ascii_mac, List.cons_append, List.head?_cons, Option.mem_some_iff]
    rintro b rfl
    decide

/-- A line written by `ledger_head_write` parses to the record it was made from. -/
theorem ledgerHeadParse_line (r : HeadRec) (hr : r.Printable) : ledgerHeadParse r.line = some r := by
  have hk : strtoInt longMin longMax (decimalInt r.kind ++
      (ascii " rows=" ++ (decimalInt r.rows ++ r.lineTail))) =
        some (r.kind, ascii " rows=" ++ (decimalInt r.rows ++ r.lineTail)) := by
    apply strtoInt_decimalInt hr.kind_nonneg
    · have := hr.kind_lt
      unfold longMax
      omega
    · simp [ascii_rows]
      decide
  have hrows := strtoInt_decimalInt hr.rows_nonneg hr.rows_le (lineTail_head_not_digit r)
  have hint := toInt32_eq hr.kind_nonneg hr.kind_lt
  have htail := headFields_lineTail r hr
  have hrest : headFields (ascii " rows=" ++ (decimalInt r.rows ++ r.lineTail)) ⟨r.kind, -1, none⟩ =
      some r := by
    rw [headFields_eq]
    simp only [ascii_rows, List.cons_append, List.nil_append]
    simp [isBlank, atLineEnd, headField, dropLit, ascii_kind, ascii_rowsField, hrows, htail]
  have hfirst : headFields (ascii "kind=" ++ (decimalInt r.kind ++
      (ascii " rows=" ++ (decimalInt r.rows ++ r.lineTail)))) ⟨-1, -1, none⟩ = some r := by
    rw [headFields_eq]
    have hlit := dropLit_append (ascii "kind=") (decimalInt r.kind ++
      (ascii " rows=" ++ (decimalInt r.rows ++ r.lineTail)))
    have hblank : (ascii "kind=" ++ (decimalInt r.kind ++ (ascii " rows=" ++
        (decimalInt r.rows ++ r.lineTail)))).dropWhile isBlank =
          ascii "kind=" ++ (decimalInt r.kind ++ (ascii " rows=" ++
            (decimalInt r.rows ++ r.lineTail))) := by
      simp [ascii_kind, isBlank]
    rw [hblank, if_neg (by simp [ascii_kind, atLineEnd])]
    simp only [headField, hlit, hk, Option.map_some, hint, hrest]
  rw [r.line_eq, ledgerHeadParse, ← hfirst]
  simp [ascii_kind, isBlank, startsWithDigit, isDigit]

/-! ### The file -/

theorem fgets_line {room : ℕ} {body : Bytes} (hlen : body.length < room) (hb : ∀ b ∈ body, b ≠ 10)
    (rest : Bytes) : fgets room (body ++ 10 :: rest) = (body ++ [10], rest) := by
  induction body generalizing room with
  | nil =>
    obtain ⟨room, rfl⟩ := Nat.exists_eq_add_of_lt hlen
    simp [fgets]
  | cons b body ih =>
    obtain ⟨room, rfl⟩ := Nat.exists_eq_add_of_lt hlen
    have hrec := ih (by simp; omega : body.length < (b :: body).length + room)
      (fun c hc => hb c (by simp [hc]))
    simp only [List.cons_append, fgets, hb b (by simp), if_false, hrec]

theorem isDigit_ge {b : UInt8} (h : isDigit b = true) : 32 ≤ b := by
  simp only [isDigit, decide_eq_true_eq, UInt8.le_iff_toNat_le] at h ⊢
  exact le_trans (by decide) h.1

theorem decimalInt_ge (z : ℤ) : ∀ b ∈ decimalInt z, 32 ≤ b := by
  intro b hb
  unfold decimalInt at hb
  split at hb
  · rcases List.mem_cons.mp hb with rfl | hb
    · decide
    · exact isDigit_ge (decimal_isDigit _ b hb)
  · exact isDigit_ge (decimal_isDigit _ b hb)

theorem hexEncode_ge (bs : Bytes) : ∀ b ∈ hexEncode bs, 32 ≤ b := by
  have hdig : ∀ n < 16, 32 ≤ hexDigit n := by decide
  induction bs with
  | nil => simp [hexEncode]
  | cons c bs ih =>
    have hc := c.toNat_lt
    simp only [hexEncode, List.forall_mem_cons]
    exact ⟨hdig _ (by omega), hdig _ (by omega), ih⟩

/-- The line without its newline. -/
def HeadRec.body (r : HeadRec) : Bytes := headMacText r.kind r.rows ++ r.macField

theorem HeadRec.line_eq_body (r : HeadRec) : r.line = r.body ++ [10] := by
  simp only [line, body, List.append_assoc]

theorem ge_of_all {bs : Bytes} (h : bs.all (32 ≤ ·)) : ∀ b ∈ bs, 32 ≤ b := by
  simpa using h

theorem HeadRec.body_ge (r : HeadRec) : ∀ b ∈ r.body, 32 ≤ b := by
  intro b hb
  simp only [body, headMacText, List.mem_append, ascii_kind, ascii_rows] at hb
  rcases hb with (hb | hb | hb | hb) | hb
  · exact ge_of_all (by decide) b hb
  · exact decimalInt_ge _ b hb
  · exact ge_of_all (by decide) b hb
  · exact decimalInt_ge _ b hb
  · cases hm : r.mac with
    | none => simp [macField, hm] at hb
    | some m =>
      simp only [macField, hm, List.mem_append, ascii_mac] at hb
      rcases hb with hb | hb
      · exact ge_of_all (by decide) b hb
      · exact hexEncode_ge _ b hb

theorem decimalInt_length_le {z : ℤ} (h0 : 0 ≤ z) (h : z ≤ longMax) : (decimalInt z).length ≤ 19 := by
  rw [decimalInt_of_nonneg h0]
  apply decimal_length_le
  unfold longMax at h
  omega

theorem HeadRec.body_length (r : HeadRec) (hr : r.Printable) : r.body.length ≤ 118 := by
  have hk : (decimalInt r.kind).length ≤ 19 := by
    apply decimalInt_length_le hr.kind_nonneg
    have := hr.kind_lt
    unfold longMax
    omega
  have hrows := decimalInt_length_le hr.rows_nonneg hr.rows_le
  cases hm : r.mac with
  | none =>
    simp [body, headMacText, macField, hm, ascii_kind, ascii_rows]
    omega
  | some m =>
    simp [body, headMacText, macField, hm, ascii_kind, ascii_rows, ascii_mac, hexEncode_length]
    omega

theorem headReadLoop_line (r : HeadRec) (hr : r.Printable) (slots : ℕ) (rest : Bytes) :
    headReadLoop (slots + 1) (r.line ++ rest) = (headReadLoop slots rest).map (r :: ·) := by
  have hge : ∀ b ∈ r.line, b ≠ 0 := by
    intro b hb
    rw [r.line_eq_body, List.mem_append, List.mem_singleton] at hb
    rcases hb with hb | rfl
    · rintro rfl
      exact absurd (r.body_ge 0 hb) (by decide)
    · decide
  have hget : fgets 511 (r.line ++ rest) = (r.line, rest) := by
    rw [r.line_eq_body, List.append_assoc]
    apply fgets_line
    · have := r.body_length hr
      omega
    · rintro b hb rfl
      exact absurd (r.body_ge 10 hb) (by decide)
  have hstr : r.line.takeWhile (· ≠ 0) = r.line := by
    simpa [List.takeWhile_eq_self_iff] using hge
  have hskip : skippedLine r.line = false := by
    simp [skippedLine, r.line_eq, ascii_kind, isBlank, atLineEnd]
  have hne : ¬ (r.line ++ rest = [] ∨ slots + 1 = 0) := by
    simp [r.line_eq_body]
  rw [headReadLoop, dif_neg hne]
  simp only [hget, hstr, hskip, Bool.false_eq_true, if_false, ledgerHeadParse_line r hr,
    Nat.add_sub_cancel]

/-- The head file reads back as the records it was written from. -/
theorem headReadLoop_write {recs : List HeadRec} (hr : ∀ r ∈ recs, r.Printable) {slots : ℕ}
    (hlen : recs.length ≤ slots) : headReadLoop slots (ledgerHeadWrite recs) = some recs := by
  induction recs generalizing slots with
  | nil => rw [ledgerHeadWrite, List.flatMap_nil, headReadLoop, dif_pos (.inl rfl)]
  | cons r recs ih =>
    obtain ⟨slots, rfl⟩ : ∃ m, slots = m + 1 := ⟨slots - 1, by simp at hlen; omega⟩
    have hrest := ih (fun s hs => hr s (by simp [hs])) (by simpa using hlen)
    rw [ledgerHeadWrite, List.flatMap_cons, headReadLoop_line r (hr r (by simp)),
      ← ledgerHeadWrite, hrest]
    rfl

theorem ledgerHeadRead_write {recs : List HeadRec} (hr : ∀ r ∈ recs, r.Printable)
    (hlen : recs.length ≤ headMaxRecs) :
    ledgerHeadRead (some (ledgerHeadWrite recs)) = some recs := headReadLoop_write hr hlen

/-! ### What a head file can read as -/

theorem strtoInt_bounds {lo hi v : ℤ} {text rest : Bytes} (hb : lo ≤ hi)
    (h : strtoInt lo hi text = some (v, rest)) : lo ≤ v ∧ v ≤ hi := by
  simp only [strtoInt] at h
  split at h
  · cases h
  · obtain ⟨rfl, -⟩ := Prod.mk.inj (Option.some.inj h)
    omega

theorem toInt32_lt (z : ℤ) : toInt32 z < 2 ^ 31 := by
  have := @Int.bmod_lt z (2 ^ 32) (by norm_num)
  simpa [toInt32] using this

/-- The bounds the numbers of a parsed record keep, whatever was checked. -/
structure HeadRec.InRange (r : HeadRec) : Prop where
  kind_lt : r.kind < 2 ^ 31
  rows_le : r.rows ≤ longMax

theorem headField_inRange {p rest : Bytes} {r r' : HeadRec} (hr : r.InRange)
    (h : headField p r = some (r', rest)) : r'.InRange := by
  unfold headField at h
  split at h
  · obtain ⟨⟨v, t⟩, hv, heq⟩ := Option.map_eq_some_iff.mp h
    cases heq
    exact ⟨toInt32_lt v, hr.rows_le⟩
  · split at h
    · obtain ⟨⟨v, t⟩, hv, heq⟩ := Option.map_eq_some_iff.mp h
      cases heq
      exact ⟨hr.kind_lt, (strtoInt_bounds (by decide) hv).2⟩
    · split at h
      · obtain ⟨⟨m, t⟩, hm, heq⟩ := Option.map_eq_some_iff.mp h
        cases heq
        exact ⟨hr.kind_lt, hr.rows_le⟩
      · cases h

theorem headFields_inRange {p : Bytes} {r r' : HeadRec} (hr : r.InRange)
    (h : headFields p r = some r') : r'.InRange ∧ 0 ≤ r'.rows := by
  induction hlen : p.length using Nat.strong_induction_on generalizing p r with
  | _ len ih =>
    rw [headFields_eq] at h
    split at h
    · split at h
      · rename_i hnn
        cases h
        exact ⟨hr, hnn.2⟩
      · cases h
    · cases hf : headField (p.dropWhile isBlank) r with
      | none => simp [hf] at h
      | some q =>
        obtain ⟨r1, rest⟩ := q
        have hlt : rest.length < len := hlen ▸
          (headField_length hf).trans_le (List.dropWhile_sublist _).length_le
        simp only [hf] at h
        exact ih _ hlt (headField_inRange hr hf) h rfl

theorem digits_nonneg {p rest : Bytes} {v : ℤ} (hd : startsWithDigit p = true)
    (h : strtoInt longMin longMax p = some (v, rest)) : 0 ≤ v := by
  cases p with
  | nil => simp [startsWithDigit] at hd
  | cons d p =>
    have hsign : signOf (([d] ++ p).dropWhile isSpace) = (false, [d] ++ p) :=
      signOf_digits (by simp) (by simpa [startsWithDigit] using hd)
    simp only [List.singleton_append] at hsign
    simp only [strtoInt, hsign, Bool.false_eq_true, if_false] at h
    split at h
    · cases h
    · obtain ⟨rfl, -⟩ := Prod.mk.inj (Option.some.inj h)
      apply le_max_of_le_right
      exact le_min (by decide) (Int.natCast_nonneg _)

theorem ledgerHeadParse_inRange {line : Bytes} {r : HeadRec} (h : ledgerHeadParse line = some r) :
    r.InRange ∧ 0 ≤ r.rows := by
  simp only [ledgerHeadParse] at h
  split at h
  · simp only [headLegacy, Option.bind_eq_bind, Option.bind_eq_some_iff, Prod.exists] at h
    obtain ⟨k, p, hk, h⟩ := h
    split at h
    · rename_i hdig
      simp only [Option.bind_eq_some_iff, Prod.exists] at h
      obtain ⟨c, q, hc, h⟩ := h
      split at h
      · cases h
        exact ⟨⟨toInt32_lt k, (strtoInt_bounds (by decide) hc).2⟩, digits_nonneg hdig hc⟩
      · cases h
    · cases h
  · exact headFields_inRange ⟨by norm_num, by decide⟩ h

theorem headReadLoop_inRange {slots : ℕ} {fp : Bytes} {recs : List HeadRec}
    (h : headReadLoop slots fp = some recs) :
    recs.length ≤ slots ∧ ∀ r ∈ recs, r.InRange ∧ 0 ≤ r.rows := by
  induction hlen : fp.length using Nat.strong_induction_on generalizing slots fp recs with
  | _ len ih =>
    rw [headReadLoop] at h
    split at h
    · cases h
      simp
    · rename_i hgo
      rw [not_or] at hgo
      have hlt : (fgets 511 fp).2.length < len := hlen ▸ fgets_rest_lt 510 hgo.1
      simp only at h
      split at h
      · exact ih _ hlt h rfl
      · split at h
        · cases h
        · rename_i rec hp
          obtain ⟨recs', hr, rfl⟩ := Option.map_eq_some_iff.mp h
          obtain ⟨hl, hall⟩ := ih _ hlt hr rfl
          refine ⟨by simp; omega, List.forall_mem_cons.mpr ⟨ledgerHeadParse_inRange hp, hall⟩⟩

theorem ledgerHeadRead_inRange {head : Option Bytes} {recs : List HeadRec}
    (h : ledgerHeadRead head = some recs) :
    recs.length ≤ headMaxRecs ∧ ∀ r ∈ recs, r.InRange ∧ 0 ≤ r.rows := by
  cases head with
  | none =>
    cases h
    simp
  | some fp => exact headReadLoop_inRange h

end FractalSQL.Ledger
