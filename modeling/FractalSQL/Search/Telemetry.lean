import FractalSQL.Lib.JsonReader
import FractalSQL.Search.Inputs
import FractalSQL.Vectors.Corpus

/-!
# Rows behind a search

`_fractalsql_scan_corpus` joins the row texts of a table into one corpus, and
`_fractalsql_telemetry_topk` takes positions in it for positions in the list of keys. The rows that
`parse_corpus` reads are those of the table only while every text holds the numbers of one row.
-/
namespace FractalSQL.Search
open Lib Lib.JsonGrammar Vectors

variable {Id : Type}

/-! ### The procedures -/

/-- The rows of a table in the order of its primary key: the key and the text of the vector column. -/
structure Table (Id : Type) where
  rows : List (Id × Option Bytes)
  keys : (rows.map Prod.fst).Nodup

/-- The rows whose vector column is not NULL. -/
def Table.scanned (t : Table Id) : List (Id × Bytes) := t.rows.filterMap fun r => r.2.map fun text => (r.1, text)

def Table.texts (t : Table Id) : List Bytes := t.scanned.map Prod.snd

/-- The limit that is set on `GROUP_CONCAT`. -/
def groupConcatMaxLen : ℕ := 1073741824

structure Scan (Id : Type) where
  corpus : Bytes
  ids : List Id

/-- `_fractalsql_scan_corpus`: `none` is its error when no row has a vector. -/
def scanCorpus (t : Table Id) : Option (Scan Id) :=
  if t.scanned = [] then none
  else some ⟨arrayText ((joinTexts t.texts).take groupConcatMaxLen), t.scanned.map Prod.fst⟩

/-- `JSON_LENGTH(s) = 0`; the length of a text that is no JSON is NULL. -/
def emptyJson (s : Bytes) : Bool :=
  match readJson s with
  | some (.arr _ []) => true
  | some (.obj _ []) => true
  | _ => false

structure Hit (δ : Type) where
  idx : ℕ
  dist : δ

/-- The rows that `fractal_search` reads; none when it fails. -/
def searchedRows (underflow : ℚ → Bool) (corpus query : Bytes) : List (List Signed) :=
  ((readInputs underflow (some corpus) query).map Inputs.corpus).getD []

/-- The `top_k` of `fractal_search`, where the core searches with `search`. -/
def topK {δ : Type} (underflow : ℚ → Bool) (search : Inputs → ℤ → List (Hit δ)) (corpus query : Bytes) (k : ℤ) : List (Hit δ) :=
  if k < 1 ∨ 1000000 < k then []
  else
    match readInputs underflow (some corpus) query with
    | none => []
    | some i => search i k

/-- `_fractalsql_telemetry_topk`: `none` are its errors. -/
def telemetryTopk {δ : Type} (underflow : ℚ → Bool) (search : Inputs → ℤ → List (Hit δ)) (scan : Scan Id) (query : Bytes) (k : ℤ) :
    Option (List (Option Id × δ)) :=
  if k ≤ 0 then none
  else if emptyJson scan.corpus then none
  else some ((topK underflow search scan.corpus query k).map fun h => (scan.ids[h.idx]?, h.dist))

/-! ### What is promised -/

/-- The key is one of a row whose own text reads as the row of the corpus. -/
def Names (underflow : ℚ → Bool) (t : Table Id) (row : Option (List Signed)) (docId : Option Id) : Prop :=
  ∃ id text v, docId = some id ∧ (id, some text) ∈ t.rows ∧ parseVectorCsv underflow text = .ok v ∧ row = some v

/-- Whatever positions the search returns, what is reported names the rows at these positions. -/
def NamesRows (underflow : ℚ → Bool) (t : Table Id) (query : Bytes) : Prop :=
  ∀ (δ : Type) (search : Inputs → ℤ → List (Hit δ)) (scan : Scan Id) (k : ℤ) (reported : List (Option Id × δ)),
    (∀ i k, ∀ h ∈ search i k, h.idx < i.corpus.length) → scanCorpus t = some scan →
      telemetryTopk underflow search scan query k = some reported →
        List.Forall₂ (fun h r => Names underflow t ((searchedRows underflow scan.corpus query)[h.idx]?) r.1 ∧ r.2 = h.dist)
          (topK underflow search scan.corpus query k) reported

/-- The elements of a text vector. -/
def elements (underflow : ℚ → Bool) (s : Bytes) : List Signed :=
  match parseVectorCsv underflow s with
  | .ok v => v
  | .error _ => []

/-- What the texts must be: the search is refused, or the texts that hold numbers come first and each is
a vector of the dimension of the query. A NUL hides what stands behind it up to the end of its
section; with one among them, the numbers that are read must be those of the first texts. -/
inductive Lined (underflow : ℚ → Bool) (t : Table Id) (query : Bytes) : Prop where
  | unread (hquery : readQuery underflow query = none)
  | tooLong (hlen : maxCorpusBytes < (arrayText (joinTexts t.texts)).length)
  | refused (q : List Signed) (hquery : readQuery underflow query = some q) (s : Bytes)
      (hs : s ∈ corpusTexts (arrayText (joinTexts t.texts))) (hbad : ¬ IsVector underflow q.length s)
  | plain (q : List Signed) (hquery : readQuery underflow query = some q) (hnul : ∀ s ∈ t.texts, 0 ∉ s) (m : ℕ)
      (hvectors : ∀ s ∈ t.texts.take m, IsVector underflow q.length s) (hrest : ∀ s ∈ t.texts.drop m, ∀ b ∈ s, isGap b = true)
  | cut (q : List Signed) (hquery : readQuery underflow query = some q) (hnul : ∃ s ∈ t.texts, 0 ∈ s) (m : ℕ) (hm : m ≤ t.texts.length)
      (hvectors : ∀ s ∈ t.texts.take m, IsVector underflow q.length s)
      (hread : (corpusTexts (arrayText (joinTexts t.texts))).flatMap (elements underflow) =
        (t.texts.take m).flatMap (elements underflow))

/-! ### What is read of a table -/

section
variable {underflow : ℚ → Bool} {t : Table Id} {query : Bytes}

theorem Table.mem_rows {i : ℕ} {id : Id} {text : Bytes} (h : t.scanned[i]? = some (id, text)) : (id, some text) ∈ t.rows := by
  obtain ⟨r, hr, hmap⟩ := List.mem_filterMap.mp (List.mem_of_getElem? h)
  obtain ⟨text', htext, hpair⟩ := Option.map_eq_some_iff.mp hmap
  cases hpair
  rw [← htext]
  exact hr

/-- A key names one text. -/
theorem Table.text_unique {id : Id} {a b : Option Bytes} (ha : (id, a) ∈ t.rows) (hb : (id, b) ∈ t.rows) : a = b := by
  have hinj := List.inj_on_of_nodup_map t.keys ha hb rfl
  exact (Prod.mk.inj hinj).2

/-- The corpus is the text of all rows, or both are too long to be read. -/
theorem scan_spec {scan : Scan Id} (h : scanCorpus t = some scan) :
    scan.ids = t.scanned.map Prod.fst ∧ (scan.corpus = arrayText (joinTexts t.texts) ∨
      maxCorpusBytes < scan.corpus.length ∧ maxCorpusBytes < (arrayText (joinTexts t.texts)).length) := by
  unfold scanCorpus at h
  split_ifs at h
  cases h
  refine ⟨rfl, ?_⟩
  by_cases hlen : (joinTexts t.texts).length ≤ groupConcatMaxLen
  · exact .inl (by rw [List.take_of_length_le hlen])
  · refine .inr ?_
    simp only [arrayText, List.length_cons, List.length_append, List.length_take, List.length_nil, maxCorpusBytes, groupConcatMaxLen]
      at hlen ⊢
    omega

/-- Nothing is reported of inputs that are not read. -/
theorem topK_none {δ : Type} {search : Inputs → ℤ → List (Hit δ)} {corpus : Bytes} {k : ℤ}
    (h : readInputs underflow (some corpus) query = none) : topK underflow search corpus query k = [] := by
  rw [topK, h]
  split_ifs <;> rfl

theorem readInputs_tooLong {corpus : Bytes} (h : maxCorpusBytes < corpus.length) : readInputs underflow (some corpus) query = none :=
  if_pos (by simpa using h)

/-- The inputs are read when the query is, and every section of the corpus is a vector of its dimension. -/
theorem readInputs_iff {corpus : Bytes} (hne : corpus ≠ []) (hlen : ¬ maxCorpusBytes < corpus.length) {i : Inputs} :
    readInputs underflow (some corpus) query = some i ↔ readQuery underflow query = some i.query ∧
      (corpusTexts corpus).map (parseVectorCsv underflow) = i.corpus.map .ok ∧ ∀ row ∈ i.corpus, row.length = i.query.length := by
  rw [readInputs, if_neg (by simpa using hlen)]
  cases hquery : readQuery underflow query with
  | none => simp
  | some q =>
    have hdim := (readQuery_dim hquery).1
    have hread (rows : List (List Signed)) : readCorpus underflow q.length (some corpus) = some rows ↔
        parseCorpus underflow corpus q.length = .ok ⟨rows, q.length⟩ := by
      rw [readCorpus, if_neg hne]
      cases hparse : parseCorpus underflow corpus q.length with
      | error e => simp
      | ok c =>
        obtain ⟨crows, cdim⟩ := c
        obtain rfl : cdim = q.length := ((parseCorpus_iff hdim).mp hparse).1
        simp
    rw [Option.bind_some, Option.map_eq_some_iff, Option.some.injEq]
    constructor
    · rintro ⟨rows, hrows, rfl⟩
      exact ⟨rfl, ((parseCorpus_iff hdim).mp ((hread rows).mp hrows)).2⟩
    · rintro ⟨rfl, hmap, hall⟩
      exact ⟨i.corpus, (hread _).mpr ((parseCorpus_iff hdim).mpr ⟨rfl, hmap, hall⟩), rfl⟩

/-- Rows that are those of the first texts, in order. -/
def FirstRows (underflow : ℚ → Bool) (t : Table Id) (rows : List (List Signed)) : Prop :=
  rows.map .ok <+: t.texts.map (parseVectorCsv underflow)

theorem firstRows_iff {rows : List (List Signed)} : FirstRows underflow t rows ↔
    rows.length ≤ t.texts.length ∧ (t.texts.take rows.length).map (parseVectorCsv underflow) = rows.map .ok := by
  rw [FirstRows, List.prefix_iff_eq_take, List.length_map, ← List.map_take]
  constructor
  · intro h
    refine ⟨?_, h.symm⟩
    have hlen := congrArg List.length h
    rw [List.length_map, List.length_map, List.length_take] at hlen
    omega
  · exact fun h => h.2.symm

/-- Then a position names its row. -/
theorem FirstRows.names {rows : List (List Signed)} (h : FirstRows underflow t rows) {n : ℕ} (hn : n < rows.length) :
    Names underflow t rows[n]? (t.scanned.map Prod.fst)[n]? := by
  obtain ⟨hlen, htake⟩ := firstRows_iff.mp h
  have hparse : (t.texts.map (parseVectorCsv underflow))[n]? = some (.ok rows[n]) := by
    have hget := congrArg (fun l : List (Except Bytes (List Signed)) => l[n]?) htake
    simp only [List.getElem?_map, List.getElem?_take, if_pos hn, List.getElem?_eq_getElem hn, Option.map_some] at hget
    rw [List.getElem?_map]
    exact hget
  rw [Table.texts, List.map_map, List.getElem?_map, Option.map_eq_some_iff] at hparse
  obtain ⟨⟨id, text⟩, hget, htext⟩ := hparse
  exact ⟨id, text, rows[n], by rw [List.getElem?_map, hget]; rfl, Table.mem_rows hget, htext, List.getElem?_eq_getElem hn⟩

/-- Positions that name their rows are those of the first texts. -/
theorem firstRows_of_names {rows : List (List Signed)}
    (h : ∀ n < rows.length, Names underflow t rows[n]? (t.scanned.map Prod.fst)[n]?) : FirstRows underflow t rows := by
  rw [FirstRows, List.prefix_iff_getElem?]
  intro n hn
  rw [List.length_map] at hn
  obtain ⟨id, text, v, hid, hmem, hparse, hrow⟩ := h n hn
  rw [List.getElem?_map, Option.map_eq_some_iff] at hid
  obtain ⟨⟨id', text'⟩, hget, rfl⟩ := hid
  have hsame : text' = text := Option.some.inj (Table.text_unique (Table.mem_rows hget) hmem)
  rw [List.getElem?_eq_getElem hn] at hrow
  rw [Table.texts, List.map_map, List.getElem?_map, hget, List.getElem_map, Option.some.inj hrow, ← hparse, ← hsame]
  rfl

/-! ### Texts in line -/

theorem allNumbers_append (xs ys : List Bytes) : allNumbers underflow isGap (xs ++ ys) =
    andThen (allNumbers underflow isGap xs) (allNumbers underflow isGap ys) := by
  induction xs with
  | nil => exact (andThen_nil_left _).symm
  | cons x xs ih => rw [List.cons_append, allNumbers, allNumbers, ih, andThen_assoc]

theorem gap_of_allNumbers {ss : List Bytes} (h : allNumbers underflow isGap ss = some []) : ∀ s ∈ ss, ∀ b ∈ s, isGap b = true := by
  induction ss with
  | nil => exact nofun
  | cons s ss ih =>
    obtain ⟨x, y, hx, hy, hxy⟩ := andThen_eq_some.mp h
    obtain ⟨rfl, rfl⟩ := List.append_eq_nil_iff.mp hxy.symm
    exact List.forall_mem_cons.mpr ⟨fill_of_numbers hx, ih hy⟩

theorem allNumbers_of_gap {ss : List Bytes} (h : ∀ s ∈ ss, ∀ b ∈ s, isGap b = true) : allNumbers underflow isGap ss = some [] := by
  induction ss with
  | nil => rfl
  | cons s ss ih =>
    rw [List.forall_mem_cons] at h
    rw [allNumbers, numbers_of_fill h.1, ih h.2, andThen_nil_left]

/-- Texts that are vectors, with what they are. -/
theorem exists_vectors {dim : ℕ} {ss : List Bytes} (h : ∀ s ∈ ss, IsVector underflow dim s) :
    ∃ vs : List (List Signed), ss.map (parseVectorCsv underflow) = vs.map .ok ∧ ∀ v ∈ vs, v.length = dim := by
  induction ss with
  | nil => exact ⟨[], rfl, nofun⟩
  | cons s ss ih =>
    obtain ⟨v, hv, hlen⟩ := h s (List.mem_cons_self ..)
    obtain ⟨vs, hvs, hall⟩ := ih fun s hs => h s (List.mem_cons_of_mem _ hs)
    exact ⟨v :: vs, by rw [List.map_cons, List.map_cons, hv, hvs], List.forall_mem_cons.mpr ⟨hlen, hall⟩⟩

theorem isVector_of_map {dim : ℕ} {ss : List Bytes} {vs : List (List Signed)}
    (h : ss.map (parseVectorCsv underflow) = vs.map .ok) (hall : ∀ v ∈ vs, v.length = dim) : ∀ s ∈ ss, IsVector underflow dim s := by
  intro s hs
  have hmem : parseVectorCsv underflow s ∈ vs.map Except.ok := h ▸ List.mem_map_of_mem hs
  obtain ⟨v, hv, hparse⟩ := List.mem_map.mp hmem
  exact ⟨v, hparse.symm, hall v hv⟩

theorem flatMap_elements {ss : List Bytes} {vs : List (List Signed)} (h : ss.map (parseVectorCsv underflow) = vs.map .ok) :
    ss.flatMap (elements underflow) = vs.flatten := by
  induction ss generalizing vs with
  | nil =>
    obtain rfl : vs = [] := List.map_eq_nil_iff.mp h.symm
    rfl
  | cons s ss ih =>
    cases vs with
    | nil => cases h
    | cons v vs =>
      obtain ⟨hv, hvs⟩ := List.cons.inj h
      rw [List.flatMap_cons, List.flatten_cons, ih hvs, elements, hv]

/-- The corpus without a NUL holds the numbers of the texts. -/
theorem numbers_of_rows {rows : List (List Signed)} (hnul : ∀ s ∈ t.texts, 0 ∉ s)
    (h : (corpusTexts (arrayText (joinTexts t.texts))).map (parseVectorCsv underflow) = rows.map .ok) :
    allNumbers underflow isGap t.texts = some rows.flatten := by
  have hclean : ∀ s ∈ corpusTexts (arrayText (joinTexts t.texts)), 0 ∉ s := by
    intro s hs hzero
    have hmem := mem_corpusTexts hs hzero
    simp only [arrayText, List.mem_cons, List.mem_append, List.not_mem_nil, or_false] at hmem
    rcases hmem with h | h | h
    · cases h
    · rcases mem_joinTexts h with h | ⟨s', hs', h⟩
      · cases h
      · exact hnul s' hs' h
    · cases h
  rw [← numbers_joinTexts, ← numbers_arrayText, ← allNumbers_corpusTexts]
  exact allNumbers_of_parse hclean h

/-- The rows are those of the first texts exactly when the texts are in line. -/
theorem lined_of_firstRows {q : List Signed} (hquery : readQuery underflow query = some q) {rows : List (List Signed)}
    (h : (corpusTexts (arrayText (joinTexts t.texts))).map (parseVectorCsv underflow) = rows.map .ok)
    (hall : ∀ row ∈ rows, row.length = q.length) (hfirst : FirstRows underflow t rows) : Lined underflow t query := by
  obtain ⟨hlen, htake⟩ := firstRows_iff.mp hfirst
  have hvectors := isVector_of_map htake hall
  by_cases hnul : ∃ s ∈ t.texts, 0 ∈ s
  · refine .cut q hquery hnul rows.length hlen hvectors ?_
    rw [flatMap_elements h, flatMap_elements htake]
  · have hclean : ∀ s ∈ t.texts, 0 ∉ s := fun s hs hzero => hnul ⟨s, hs, hzero⟩
    refine .plain q hquery hclean rows.length hvectors ?_
    have hnumbers := numbers_of_rows hclean h
    have hhead := allNumbers_of_parse (fun s hs => hclean s (List.mem_of_mem_take hs)) htake
    rw [← List.take_append_drop rows.length t.texts, allNumbers_append, hhead] at hnumbers
    obtain ⟨x, y, hx, hy, hxy⟩ := andThen_eq_some.mp hnumbers
    cases hx
    obtain rfl : y = [] := List.self_eq_append_right.mp hxy
    exact gap_of_allNumbers hy

theorem firstRows_of_vectors {dim m : ℕ} (hdim : dim ≠ 0) {rows : List (List Signed)} (hall : ∀ row ∈ rows, row.length = dim)
    (hvectors : ∀ s ∈ t.texts.take m, IsVector underflow dim s)
    (hread : rows.flatten = (t.texts.take m).flatMap (elements underflow)) : FirstRows underflow t rows := by
  obtain ⟨vs, hvs, hlens⟩ := exists_vectors hvectors
  rw [flatMap_elements hvs] at hread
  rw [FirstRows, eq_of_flatten_eq hdim hall hlens hread, ← hvs]
  exact (List.take_prefix m t.texts).map _

theorem firstRows_of_plain {q : List Signed} (hdim : q.length ≠ 0) {rows : List (List Signed)} {m : ℕ} (hnul : ∀ s ∈ t.texts, 0 ∉ s)
    (h : (corpusTexts (arrayText (joinTexts t.texts))).map (parseVectorCsv underflow) = rows.map .ok)
    (hall : ∀ row ∈ rows, row.length = q.length) (hvectors : ∀ s ∈ t.texts.take m, IsVector underflow q.length s)
    (hrest : ∀ s ∈ t.texts.drop m, ∀ b ∈ s, isGap b = true) : FirstRows underflow t rows := by
  obtain ⟨vs, hvs, -⟩ := exists_vectors hvectors
  refine firstRows_of_vectors hdim hall hvectors ?_
  have hnumbers := numbers_of_rows hnul h
  have hhead := allNumbers_of_parse (fun s hs => hnul s (List.mem_of_mem_take hs)) hvs
  rw [← List.take_append_drop m t.texts, allNumbers_append, hhead, allNumbers_of_gap hrest, andThen_nil_right] at hnumbers
  rw [flatMap_elements hvs]
  exact (Option.some.inj hnumbers).symm

/-! ### The reports -/

/-- A text with a bracket in front begins with no white space. -/
theorem ws_nil_of_bracket {w rest s : Bytes} (hw : Ws w) (h : w ++ rest = 91 :: s) : w = [] := by
  cases w with
  | nil => rfl
  | cons b w =>
    have hb := hw b (List.mem_cons_self ..)
    rw [(List.cons.inj h).1] at hb
    exact absurd hb (by decide)

/-- An array without members has nothing but white space in its brackets. -/
theorem blank_of_emptyJson {s : Bytes} (h : emptyJson (arrayText s) = true) : ∀ b ∈ s, isBlank b = true := by
  have hjson : ∃ w, Ws w ∧ ∃ w', Ws w' ∧ 91 :: (w ++ 93 :: w') = arrayText s := by
    unfold emptyJson at h
    split at h
    · rename_i hread
      have hjson := readJson_iff.mp hread
      generalize hs : arrayText s = x at hjson
      cases hjson with
      | @element w text w' _ hw hvalue hw' =>
        obtain rfl := ws_nil_of_bracket hw hs.symm
        cases hvalue with
        | @emptyArr w₀ hw₀ => exact ⟨w₀, hw₀, w', hw', by simp⟩
        | arr hitems => exact absurd rfl hitems.items_ne_nil
    · rename_i hread
      have hjson := readJson_iff.mp hread
      generalize hs : arrayText s = x at hjson
      cases hjson with
      | @element w text w' _ hw hvalue hw' =>
        obtain rfl := ws_nil_of_bracket hw hs.symm
        cases hvalue with
        | emptyObj => cases (List.cons.inj hs).1
        | obj => cases (List.cons.inj hs).1
    · cases h
  obtain ⟨w, hw, w', hw', heq⟩ := hjson
  have hbody : w ++ 93 :: w' = s ++ [93] := (List.cons.inj heq).2
  have hnone {v : Bytes} (hv : Ws v) : v.count 93 = 0 := List.count_eq_zero.mpr fun hmem => absurd (hv 93 hmem) (by decide)
  have hcount := congrArg (List.count 93) hbody
  rw [List.count_append, List.count_append, List.count_cons_self, List.count_singleton_self, hnone hw, hnone hw'] at hcount
  have hfree : (93 : UInt8) ∉ s := List.count_eq_zero.mp (by omega)
  intro b hb
  have hmem : b ∈ w ++ 93 :: w' := by
    rw [hbody]
    exact List.mem_append_left _ hb
  rcases List.mem_append.mp hmem with h | h
  · exact hw b h
  rcases List.mem_cons.mp h with rfl | h
  · exact absurd hb hfree
  · exact hw' b h

/-- Then it holds no rows. -/
theorem corpusTexts_of_emptyJson {s : Bytes} (h : emptyJson (arrayText s) = true) : corpusTexts (arrayText s) = [] := by
  have hall : (corpusBody ((arrayText s).dropWhile isBlank)).all isBlankOrBracket = true := by
    rw [List.all_eq_true]
    intro b hb
    have hmem := (List.dropWhile_suffix isBlank).subset (mem_corpusBody hb)
    simp only [arrayText, List.mem_cons, List.mem_append, List.not_mem_nil, or_false] at hmem
    rcases hmem with rfl | h' | rfl
    · decide
    · simp [isBlankOrBracket, blank_of_emptyJson h b h']
    · decide
  exact if_pos hall

/-- The search that returns every position. -/
def everyPosition (i : Inputs) (_ : ℤ) : List (Hit Unit) := (List.range i.corpus.length).map fun n => ⟨n, ()⟩

/-- Rows that are named wherever they are found are those of the first texts. -/
theorem firstRows_of_namesRows {rows : List (List Signed)} {q : List Signed} (h : NamesRows underflow t query)
    (hlen : ¬ maxCorpusBytes < (arrayText (joinTexts t.texts)).length)
    (hread : readInputs underflow (some (arrayText (joinTexts t.texts))) query = some ⟨q, rows⟩) : FirstRows underflow t rows := by
  have hmap := ((readInputs_iff (by exact nofun) hlen).mp hread).2.1
  have hnone (hnil : corpusTexts (arrayText (joinTexts t.texts)) = []) : FirstRows underflow t rows := by
    rw [hnil] at hmap
    obtain rfl : rows = [] := List.map_eq_nil_iff.mp hmap.symm
    exact List.nil_prefix
  cases hscan : scanCorpus t with
  | none =>
    unfold scanCorpus at hscan
    split_ifs at hscan with hempty
    refine hnone ?_
    rw [Table.texts, hempty]
    rfl
  | some scan =>
    obtain ⟨hids, hcorpus⟩ := scan_spec hscan
    have hcorpus := hcorpus.resolve_right fun hlong => hlen hlong.2
    by_cases hempty : emptyJson scan.corpus = true
    · exact hnone (corpusTexts_of_emptyJson (hcorpus ▸ hempty))
    · have htop : telemetryTopk underflow everyPosition scan query 1 = some ((topK underflow everyPosition scan.corpus query 1).map
          fun h => (scan.ids[h.idx]?, h.dist)) := by
        rw [telemetryTopk, if_neg (by decide), if_neg hempty]
      have hrange : ∀ i k, ∀ h ∈ everyPosition i k, h.idx < i.corpus.length := by
        intro i k h hmem
        obtain ⟨n, hn, rfl⟩ := List.mem_map.mp hmem
        exact List.mem_range.mp hn
      have hall := h Unit everyPosition scan 1 _ hrange hscan htop
      have hfound : topK underflow everyPosition scan.corpus query 1 = (List.range rows.length).map fun n => ⟨n, ()⟩ := by
        rw [topK, if_neg (by decide), hcorpus, hread]
        rfl
      have hrows : searchedRows underflow scan.corpus query = rows := by
        rw [searchedRows, hcorpus, hread]
        rfl
      rw [List.forall₂_map_right_iff, List.forall₂_same, hfound, hrows, hids] at hall
      exact firstRows_of_names fun n hn => (hall ⟨n, ()⟩ (List.mem_map_of_mem (List.mem_range.mpr hn))).1

/-- Rows of the first texts are named wherever they are found. -/
theorem namesRows_of_firstRows (h : ∀ rows q, readInputs underflow (some (arrayText (joinTexts t.texts))) query = some ⟨q, rows⟩ →
    FirstRows underflow t rows) : NamesRows underflow t query := by
  intro δ search scan k reported hrange hscan htop
  obtain ⟨hids, hcorpus⟩ := scan_spec hscan
  unfold telemetryTopk at htop
  split_ifs at htop
  cases htop
  rw [List.forall₂_map_right_iff, List.forall₂_same]
  intro hit hhit
  refine ⟨?_, rfl⟩
  cases hread : readInputs underflow (some scan.corpus) query with
  | none =>
    rw [topK_none hread] at hhit
    cases hhit
  | some i =>
    have hcorpus := hcorpus.resolve_right fun hlong => by
      rw [readInputs_tooLong hlong.1] at hread
      cases hread
    rw [topK] at hhit
    split_ifs at hhit with hk
    · cases hhit
    rw [hread] at hhit
    have hfirst := h i.corpus i.query (by rw [← hcorpus, hread])
    rw [searchedRows, hread, hids]
    exact hfirst.names (hrange i k hit hhit)

end

/-- A table of two texts. -/
def twoRows (a b : Bytes) : Table ℕ where
  rows := [(7, some a), (8, some b)]
  keys := by simp

end FractalSQL.Search
