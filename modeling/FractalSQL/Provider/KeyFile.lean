import FractalSQL.Provider.Config

/-!
# The readers of the key file

The daemon, the shim, the control tool and the server's control client each read the shared
key themselves. The first three take every digit of the file, the last one only the digits of
its first line.
-/
namespace FractalSQL.Provider
open Lib

/-! ### The readers -/

/-- `fsq_load_key` of the shim. -/
def fsqLoadKey (content : Bytes) : Option Bytes :=
  let s := (content.filter fun c => !(c = 10 ∨ c = 13 ∨ c = 32 ∨ c = 9)).take 256
  if s = [] ∨ s.length % 2 ≠ 0 ∨ 64 < s.length / 2 then none
  else (hexDecode (s.length / 2) s).map Prod.fst

/-- `FSQC_KEY_TEXT` and `FSQC_MAX_KEY`. -/
def fsqcKeyText : ℕ := 1024
def fsqcMaxKey : ℕ := 64

/-- `load_key` of the control tool. -/
def fsqlctlLoadKey (content : Bytes) : Option Bytes :=
  let text := content.filter fun c => !(c = 32 ∨ c = 9 ∨ c = 13 ∨ c = 10)
  if fsqcKeyText < text.length then none
  else if text = [] ∨ text.length % 2 ≠ 0 ∨ fsqcMaxKey < text.length / 2 then none
  else (hexDecode (text.length / 2) text).map Prod.fst

def isXdigit (b : UInt8) : Bool := (hexValue b).isSome

/-- The constructor `FsqlCtl::FsqlCtl`; `std::stoi` of two digits is their byte. -/
def fsqlCtlKey (content : Bytes) : Option Bytes :=
  let hex := content.takeWhile fun c => !(c = 10 ∨ c = 13)
  let tight := hex.filter fun c => !isSpace c
  if tight.length < 2 ∨ 128 < tight.length ∨ tight.length % 2 ≠ 0 then none
  else if !tight.all isXdigit then none
  else ((hexDecode (tight.length / 2) tight).map Prod.fst).filter fun key => key ≠ [] ∧ key.length ≤ 64

/-- All accept the content with one key, or all refuse it. -/
def ReadersAgree (content : Bytes) : Prop :=
  ∃ key : Option Bytes, loadKey content = key ∧ fsqLoadKey content = key ∧ fsqlctlLoadKey content = key ∧
    fsqlCtlKey content = key

/-! ### The texts they read -/

/-- The text of a key: 1 to 64 pairs of digits. -/
structure KeyText (s : Bytes) : Prop where
  pos : 0 < s.length
  short : s.length ≤ 128
  pairs : s.length % 2 = 0
  digits : ∀ c ∈ s, isXdigit c = true

/-- Space, tab and the line ends. -/
def isSkipped (c : UInt8) : Bool := c = 10 ∨ c = 13 ∨ c = 32 ∨ c = 9

/-- What stands in the file between the blanks. -/
def digitsOf (content : Bytes) : Bytes := content.filter fun c => !isSkipped c

def lineOf (content : Bytes) : Bytes := content.takeWhile fun c => !(c = 10 ∨ c = 13)

def afterLine (content : Bytes) : Bytes := content.dropWhile fun c => !(c = 10 ∨ c = 13)

/-- What stands in the first line between the whitespace. -/
def lineDigits (content : Bytes) : Bytes := (lineOf content).filter fun c => !isSpace c

/-! ### Decoding -/

/-- Pairs decode exactly when every character is a digit. -/
theorem hexDecode_isSome {w : ℕ} {s : Bytes} (h : s.length = 2 * w) :
    (hexDecode w s).isSome = true ↔ ∀ c ∈ s, isXdigit c = true := by
  induction w generalizing s with
  | zero =>
    rw [List.length_eq_zero_iff.mp h]
    simp [hexDecode]
  | succ w ih =>
    rcases s with - | ⟨hi, - | ⟨lo, s⟩⟩
    · simp only [List.length_nil] at h
      omega
    · simp only [List.length_cons, List.length_nil] at h
      omega
    · have hlen : s.length = 2 * w := by
        simp only [List.length_cons] at h
        omega
      rw [List.forall_mem_cons, List.forall_mem_cons, ← ih hlen]
      simp only [isXdigit, hexDecode]
      cases hexValue hi <;> cases hexValue lo <;> cases hexDecode w s <;> simp

instance (s : Bytes) : Decidable (KeyText s) :=
  decidable_of_iff (0 < s.length ∧ s.length ≤ 128 ∧ s.length % 2 = 0 ∧ s.all isXdigit = true)
    ⟨fun ⟨h1, h2, h3, h4⟩ => ⟨h1, h2, h3, List.all_eq_true.mp h4⟩, fun ⟨h1, h2, h3, h4⟩ => ⟨h1, h2, h3, List.all_eq_true.mpr h4⟩⟩

/-- The key of a text, if it is one. -/
def keyOf (s : Bytes) : Option Bytes := if KeyText s then (hexDecode (s.length / 2) s).map Prod.fst else none

theorem keyOf_length {s key : Bytes} (h : keyOf s = some key) : KeyText s ∧ 2 * key.length = s.length := by
  unfold keyOf at h
  split at h
  · rename_i hs
    obtain ⟨⟨bs, rest⟩, hdecode, rfl⟩ := Option.map_eq_some_iff.mp h
    have hlen := (hexDecode_length hdecode).1
    have hpairs := hs.pairs
    dsimp only
    exact ⟨hs, by omega⟩
  · cases h

theorem keyOf_isSome {s : Bytes} (h : KeyText s) : ∃ key, keyOf s = some key := by
  have hpairs := h.pairs
  rw [keyOf, if_pos h]
  apply Option.isSome_iff_exists.mp
  rw [Option.isSome_map, hexDecode_isSome (by omega)]
  exact h.digits

/-- A text of the right length is decoded, or is refused at a character. -/
theorem decode_eq_keyOf {s : Bytes} (hpos : s ≠ []) (hshort : s.length / 2 ≤ 64) (hpairs : s.length % 2 = 0) :
    (hexDecode (s.length / 2) s).map Prod.fst = keyOf s := by
  have hlen := List.length_pos_of_ne_nil hpos
  unfold keyOf
  split
  · rfl
  · rename_i hno
    rw [Option.map_eq_none_iff, ← Option.not_isSome_iff_eq_none, hexDecode_isSome (by omega)]
    intro hdigits
    exact hno ⟨hlen, by omega, hpairs, hdigits⟩

theorem keyOf_none {s : Bytes} (h : ¬ KeyText s) : keyOf s = none := if_neg h

/-! ### Each reader's text -/

theorem checked_eq_keyOf (s : Bytes) :
    (if s = [] ∨ s.length % 2 ≠ 0 ∨ 64 < s.length / 2 then none
      else (hexDecode (s.length / 2) s).map Prod.fst) = keyOf s := by
  split
  · rename_i h
    rw [keyOf_none]
    intro hkey
    have hpos := hkey.pos
    have hshort := hkey.short
    rcases h with rfl | hodd | hlong
    · cases hpos
    · exact hodd hkey.pairs
    · omega
  · rename_i h
    rw [not_or, not_or, not_not, Nat.not_lt] at h
    exact decode_eq_keyOf h.1 h.2.2 h.2.1

theorem keyOf_take (s : Bytes) : keyOf (s.take 256) = keyOf s := by
  by_cases h : s.length ≤ 256
  · rw [List.take_of_length_le h]
  · rw [keyOf_none, keyOf_none]
    · intro hkey
      have hshort := hkey.short
      omega
    · intro hkey
      have hshort := hkey.short
      rw [List.length_take] at hshort
      omega

theorem loadKey_eq (content : Bytes) : loadKey content = keyOf (digitsOf content) := by
  rw [← keyOf_take]
  exact checked_eq_keyOf ((digitsOf content).take 256)

theorem fsqLoadKey_eq (content : Bytes) : fsqLoadKey content = keyOf (digitsOf content) := by
  rw [← keyOf_take]
  exact checked_eq_keyOf ((digitsOf content).take 256)

theorem fsqlctlLoadKey_eq (content : Bytes) : fsqlctlLoadKey content = keyOf (digitsOf content) := by
  have hblank : (content.filter fun c => !(c = 32 ∨ c = 9 ∨ c = 13 ∨ c = 10)) = digitsOf content := by
    unfold digitsOf isSkipped
    congr 1
    funext c
    congr 1
    rw [decide_eq_decide]
    constructor
    · rintro (h | h | h | h) <;> simp [h]
    · rintro (h | h | h | h) <;> simp [h]
  unfold fsqlctlLoadKey
  rw [hblank]
  dsimp only
  split
  · rename_i h
    rw [keyOf_none]
    intro hkey
    have hshort := hkey.short
    unfold fsqcKeyText at h
    omega
  · exact checked_eq_keyOf _

theorem fsqlCtlKey_eq (content : Bytes) : fsqlCtlKey content = keyOf (lineDigits content) := by
  unfold fsqlCtlKey
  change (if (lineDigits content).length < 2 ∨ 128 < (lineDigits content).length ∨ (lineDigits content).length % 2 ≠ 0 then none
    else if !(lineDigits content).all isXdigit then none
    else ((hexDecode ((lineDigits content).length / 2) (lineDigits content)).map Prod.fst).filter
      fun key => key ≠ [] ∧ key.length ≤ 64) = _
  generalize lineDigits content = tight
  by_cases hkey : KeyText tight
  · have hpos := hkey.pos
    have hshort := hkey.short
    have hpairs := hkey.pairs
    obtain ⟨key, hsome⟩ := keyOf_isSome hkey
    have hlen := (keyOf_length hsome).2
    have hne : key ≠ [] := by
      rintro rfl
      rw [List.length_nil] at hlen
      omega
    rw [if_neg (by omega), List.all_eq_true.mpr hkey.digits, hsome]
    rw [keyOf, if_pos hkey] at hsome
    rw [hsome]
    simp only [Bool.not_true, Bool.false_eq_true, if_false]
    exact Option.filter_some_pos (decide_eq_true ⟨hne, by omega⟩)
  · rw [keyOf_none hkey]
    split
    · rfl
    · rename_i hlen
      rw [not_or, not_or, not_not, Nat.not_lt, Nat.not_lt] at hlen
      split
      · rfl
      · rename_i hall
        rw [Bool.not_eq_true', Bool.not_eq_false, List.all_eq_true] at hall
        exact absurd ⟨by omega, hlen.2.1, hlen.2.2, hall⟩ hkey

/-! ### When the texts are the same -/

theorem isSkipped_isSpace {c : UInt8} (h : isSkipped c = true) : isSpace c = true := by
  rcases of_decide_eq_true h with rfl | rfl | rfl | rfl <;> rfl

theorem isXdigit_not_isSpace {c : UInt8} (h : isXdigit c = true) : isSpace c = false := by
  by_contra hspace
  rw [Bool.not_eq_false] at hspace
  have hnone : hexValue c = none := by
    rcases of_decide_eq_true hspace with rfl | ⟨hlow, hhigh⟩
    · decide
    · rw [UInt8.le_iff_toNat_le] at hlow hhigh
      have h48 : ¬ 48 ≤ c := by
        rw [UInt8.le_iff_toNat_le]
        exact fun h => absurd (Nat.le_trans h hhigh) (by decide)
      have h97 : ¬ 97 ≤ c := by
        rw [UInt8.le_iff_toNat_le]
        exact fun h => absurd (Nat.le_trans h hhigh) (by decide)
      have h65 : ¬ 65 ≤ c := by
        rw [UInt8.le_iff_toNat_le]
        exact fun h => absurd (Nat.le_trans h hhigh) (by decide)
      rw [hexValue, if_neg (fun h => h48 h.1), if_neg (fun h => h97 h.1), if_neg (fun h => h65 h.1)]
  rw [isXdigit, hnone] at h
  cases h

/-- The digits of the file are those of its first line and those behind it. -/
theorem digitsOf_eq (content : Bytes) : digitsOf content = digitsOf (lineOf content) ++ digitsOf (afterLine content) := by
  unfold digitsOf lineOf afterLine
  rw [← List.filter_append, List.takeWhile_append_dropWhile]

/-- The readers strip the same characters of a line whose whitespace is blank. -/
theorem lineDigits_eq {content : Bytes} (h : ∀ c ∈ lineOf content, isSpace c = true → isSkipped c = true) :
    lineDigits content = digitsOf (lineOf content) := by
  apply List.filter_congr
  intro c hc
  rw [Bool.not_inj_iff, Bool.eq_iff_iff]
  exact ⟨h c hc, isSkipped_isSpace⟩

theorem digitsOf_nil {s : Bytes} : digitsOf s = [] ↔ ∀ c ∈ s, isSkipped c = true := by
  simp [digitsOf]

/-- Nothing but blanks follows the first line, and whitespace in it is blank: the texts are one. -/
theorem lineDigits_eq_digitsOf {content : Bytes} (hline : ∀ c ∈ lineOf content, isSpace c = true → isSkipped c = true)
    (hafter : ∀ c ∈ afterLine content, isSkipped c = true) : lineDigits content = digitsOf content := by
  rw [digitsOf_eq, digitsOf_nil.mpr hafter, List.append_nil, lineDigits_eq hline]

/-- In a file of digits every whitespace character is a blank. -/
theorem blank_of_keyText {content : Bytes} (h : KeyText (digitsOf content)) :
    ∀ c ∈ lineOf content, isSpace c = true → isSkipped c = true := by
  intro c hc hspace
  by_contra hblank
  have hmem : c ∈ digitsOf content :=
    List.mem_filter.mpr ⟨(List.takeWhile_sublist _).subset hc, by rw [Bool.not_eq_true] at hblank; rw [hblank]; rfl⟩
  rw [isXdigit_not_isSpace (h.digits c hmem)] at hspace
  cases hspace

/-- Two readings that give one key are of one length, so that nothing stands behind the line. -/
theorem blank_of_agree {content : Bytes} (h : keyOf (lineDigits content) = keyOf (digitsOf content))
    (hkey : KeyText (digitsOf content)) : ∀ c ∈ afterLine content, isSkipped c = true := by
  obtain ⟨key, hsome⟩ := keyOf_isSome hkey
  have hall := (keyOf_length hsome).2
  have hline := (keyOf_length (h.trans hsome)).2
  rw [digitsOf_eq, List.length_append, ← lineDigits_eq (blank_of_keyText hkey)] at hall
  have hnone : (digitsOf (afterLine content)).length = 0 := by omega
  exact digitsOf_nil.mp (List.length_eq_zero_iff.mp hnone)

/-- The readers agree exactly when nothing but blanks follows a key in the first line, which has
no vertical tab and no form feed, and no key is spread over more lines. -/
theorem readers_agree_iff (content : Bytes) :
    ReadersAgree content ↔
      (KeyText (lineDigits content) → (∀ c ∈ afterLine content, isSkipped c = true) ∧
        ∀ c ∈ lineOf content, isSpace c = true → isSkipped c = true) ∧
      (KeyText (digitsOf content) → ∀ c ∈ afterLine content, isSkipped c = true) := by
  have hagree : ReadersAgree content ↔ keyOf (lineDigits content) = keyOf (digitsOf content) := by
    unfold ReadersAgree
    rw [loadKey_eq, fsqLoadKey_eq, fsqlctlLoadKey_eq, fsqlCtlKey_eq]
    constructor
    · rintro ⟨key, hload, -, -, hctl⟩
      rw [hload, hctl]
    · intro h
      exact ⟨_, rfl, rfl, rfl, h⟩
  rw [hagree]
  constructor
  · intro h
    refine ⟨fun hline => ?_, blank_of_agree h⟩
    obtain ⟨key, hsome⟩ := keyOf_isSome hline
    have hkey := (keyOf_length (h.symm.trans hsome)).1
    exact ⟨blank_of_agree h hkey, blank_of_keyText hkey⟩
  · rintro ⟨hline, hwhole⟩
    by_cases hkey : KeyText (digitsOf content)
    · rw [lineDigits_eq_digitsOf (blank_of_keyText hkey) (hwhole hkey)]
    · by_cases hfirst : KeyText (lineDigits content)
      · rw [lineDigits_eq_digitsOf (hline hfirst).2 (hline hfirst).1]
      · rw [keyOf_none hkey, keyOf_none hfirst]

/-- A key written over two lines: the client signs with its first line. -/
theorem second_line_ignored : ¬ ∀ content, ReadersAgree content := by
  intro h
  obtain ⟨key, hload, -, -, hctl⟩ := h (ascii "0011\n2233")
  have hdaemon : loadKey (ascii "0011\n2233") = some [0x00, 0x11, 0x22, 0x33] := by decide
  have hclient : fsqlCtlKey (ascii "0011\n2233") = some [0x00, 0x11] := by decide
  rw [hdaemon] at hload
  rw [hclient, ← hload] at hctl
  exact absurd (Option.some.inj hctl) (by decide)

end FractalSQL.Provider
