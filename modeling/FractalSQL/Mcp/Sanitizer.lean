import Mathlib.Data.List.DropRight
import Mathlib.Data.List.TakeWhile
import FractalSQL.Lib.Masking
import FractalSQL.Mcp.HttpHead

/-!
# The secrets of a message

`sanitizeSecrets` masks the passwords of URIs and the values of secret keys. Its two passes look
back into what they have written instead of the text; that finds the matches of the two rules.
-/
namespace FractalSQL.Mcp.Sanitizer
open Lib Http

/-! ### The two passes -/

def isWord (c : UInt8) : Bool := (48 ≤ c ∧ c ≤ 57) ∨ (65 ≤ c ∧ c ≤ 90) ∨ (97 ≤ c ∧ c ≤ 122) ∨ c = 95

/-- `endsWithNoCase`. -/
def endsWithNoCase (s : Bytes) (suffix : String) : Bool := (lowerCopy (ascii suffix)).isSuffixOf (lowerCopy s)

/-- `***`. -/
def stars : Bytes := ascii "***"

def isUserChar (c : UInt8) : Bool := c ≠ 58 && c ≠ 47 && c ≠ 64 && !isSpace c

def isPasswordChar (c : UInt8) : Bool := c ≠ 64 && !isSpace c

/-- `!out.empty() && isWord( out.back() )`. -/
def endsInWord (out : Bytes) : Bool := out.getLast?.any isWord

/-- What the URI pass copies where it masks, and the password. -/
def uriCredential (out s : Bytes) : Option (Bytes × Bytes) :=
  if (ascii "://").isPrefixOf s && endsInWord out then
    let user := (s.drop 3).takeWhile isUserChar
    let colon := (s.drop 3).dropWhile isUserChar
    if user ≠ [] ∧ colon.head? = some 58 then
      let password := colon.tail.takeWhile isPasswordChar
      if password ≠ [] ∧ (colon.tail.dropWhile isPasswordChar).head? = some 64 then
        some (ascii "://" ++ (user ++ [58]), password)
      else none
    else none
  else none

def maskUriCredentials (s : Bytes) : Bytes := maskWith stars uriCredential [] s

def isSecretKey (key : Bytes) : Bool :=
  endsWithNoCase key "PASSWORD" || endsWithNoCase key "AUTH_TOKEN" || endsWithNoCase key "_KEY"

/-- What the key pass copies where it masks, and the value. -/
def keyValue (out s : Bytes) : Option (Bytes × Bytes) :=
  if s.head? = some 61 ∧ isSecretKey (out.rdropWhile isSpace) = true then
    let blanks := s.tail.takeWhile isSpace
    let value := (s.tail.dropWhile isSpace).takeWhile fun c => !isSpace c
    if value ≠ [] then some (61 :: blanks, value) else none
  else none

def maskKeyValueCredentials (s : Bytes) : Bytes := maskWith stars keyValue [] s

def sanitizeSecrets (text : Bytes) : Bytes := maskKeyValueCredentials (maskUriCredentials text)

/-! ### The two rules -/

/-- A word, `://`, a user without colon, slash, at sign and blanks, and a colon; a password
without at sign and blanks; an at sign. -/
def UriMatch : Pattern UInt8 := fun lead password tail _ =>
  ∃ word user : Bytes, word ≠ [] ∧ (∀ c ∈ word, isWord c = true) ∧ user ≠ [] ∧
    (∀ c ∈ user, c ≠ 58 ∧ c ≠ 47 ∧ c ≠ 64 ∧ isSpace c = false) ∧ password ≠ [] ∧
    (∀ c ∈ password, c ≠ 64 ∧ isSpace c = false) ∧ lead = word ++ (ascii "://" ++ (user ++ [58])) ∧ tail = [64]

/-- The names at the end of secret keys. -/
def secretNames : List String := ["PASSWORD", "AUTH_TOKEN", "_KEY"]

/-- A key that ends in a secret name in any case. -/
def SecretKey (key : Bytes) : Prop :=
  (∀ c ∈ key, isWord c = true) ∧
    ∃ name ∈ secretNames, ∃ before suffix, key = before ++ suffix ∧ lowerCopy suffix = lowerCopy (ascii name)

/-- The text ends or goes on with a blank. -/
def AtBlank (text : Bytes) : Prop := ∀ c, text.head? = some c → isSpace c = true

/-- A secret key, blanks, `=` and blanks; a whole run without blanks. -/
def KeyMatch : Pattern UInt8 := fun lead value tail post =>
  ∃ key before after : Bytes, SecretKey key ∧ (∀ c ∈ before, isSpace c = true) ∧ (∀ c ∈ after, isSpace c = true) ∧
    value ≠ [] ∧ (∀ c ∈ value, isSpace c = false) ∧ lead = key ++ (before ++ 61 :: after) ∧ tail = [] ∧ AtBlank post

/-- What the rules make of a text: the URI rule, and the key rule on its result. -/
def Sanitized (text out : Bytes) : Prop :=
  ∃ uris keys, Runs UriMatch text uris ∧ Runs KeyMatch (maskedText stars uris) keys ∧ out = maskedText stars keys

/-! ### Characters -/

theorem isWord_bounds {c : UInt8} (h : isWord c = true) : 48 ≤ c.toNat ∧ c ≠ 58 ∧ c ≠ 61 ∧ c ≠ 64 := by
  have hbounds := of_decide_eq_true h
  simp only [UInt8.le_iff_toNat_le, ← UInt8.toNat_inj] at hbounds
  simp only [ne_eq, ← UInt8.toNat_inj]
  simp only [UInt8.reduceToNat] at hbounds ⊢
  omega

theorem isSpace_bounds {c : UInt8} (h : isSpace c = true) : c.toNat ≤ 32 := by
  have hbounds := of_decide_eq_true h
  simp only [UInt8.le_iff_toNat_le, ← UInt8.toNat_inj] at hbounds
  simp only [UInt8.reduceToNat] at hbounds
  omega

theorem isWord_not_isSpace {c : UInt8} (h : isWord c = true) : isSpace c = false := by
  by_contra hspace
  rw [Bool.not_eq_false] at hspace
  have hlow := (isWord_bounds h).1
  have hhigh := isSpace_bounds hspace
  omega

theorem isUserChar_iff {c : UInt8} : isUserChar c = true ↔ c ≠ 58 ∧ c ≠ 47 ∧ c ≠ 64 ∧ isSpace c = false := by
  simp [isUserChar, and_assoc]

theorem isPasswordChar_iff {c : UInt8} : isPasswordChar c = true ↔ c ≠ 64 ∧ isSpace c = false := by
  simp [isPasswordChar]

theorem mem_stars {c : UInt8} (h : c ∈ stars) : c = 42 := by
  have hstars : stars = List.replicate 3 42 := by decide
  rw [hstars] at h
  exact (List.mem_replicate.mp h).2

theorem stars_ne_nil : stars ≠ [] := by decide

/-- The longest beginning of a text is cut off where the next character is another one. -/
theorem takeWhile_cut {p : UInt8 → Bool} {s t : Bytes} (hs : ∀ c ∈ s, p c = true) (ht : ∀ c, t.head? = some c → p c = false) :
    (s ++ t).takeWhile p = s ∧ (s ++ t).dropWhile p = t := by
  rw [List.takeWhile_append_of_pos hs, List.dropWhile_append_of_pos hs]
  cases t with
  | nil => exact ⟨List.append_nil s, rfl⟩
  | cons c t =>
    have hc := ht c rfl
    rw [List.takeWhile_cons_of_neg (by rw [hc]; decide), List.dropWhile_cons_of_neg (by rw [hc]; decide)]
    exact ⟨List.append_nil s, rfl⟩

theorem head?_dropWhile {p : UInt8 → Bool} {s : Bytes} {c : UInt8} (h : (s.dropWhile p).head? = some c) : p c = false := by
  have hnot := List.head?_dropWhile_not p s
  rw [h] at hnot
  simpa using hnot

theorem head?_singleton {c d : UInt8} {t : Bytes} (h : (c :: t).head? = some d) : d = c :=
  (Option.some.inj h).symm

/-- A text has one first separator. -/
theorem split_unique {sep : UInt8} {x y q r : Bytes} (hx : sep ∉ x) (hy : sep ∉ y) (h : x ++ sep :: q = y ++ sep :: r) :
    x = y ∧ q = r := by
  have hcut := (cutAt_eq_some.mpr ⟨hx, rfl⟩).symm.trans ((congrArg (cutAt sep) h).trans (cutAt_eq_some.mpr ⟨hy, rfl⟩))
  exact Prod.mk.inj (Option.some.inj hcut)

/-- Behind a character that is no word character and no blank the passes look back no further. -/
def Closed (out : Bytes) : Prop := ∀ c, out.getLast? = some c → isWord c = false ∧ isSpace c = false

theorem closed_stars (out : Bytes) : Closed (out ++ stars) := by
  intro c hc
  rw [List.getLast?_append_of_ne_nil _ stars_ne_nil] at hc
  have hstar := mem_stars (List.mem_of_getLast? hc)
  rw [hstar]
  decide

/-! ### The URI pass -/

theorem scheme_eq : ascii "://" = [58, 47, 47] := by decide

theorem endsInWord_iff {out : Bytes} : endsInWord out = true ↔ ∃ front c, out = front ++ [c] ∧ isWord c = true := by
  rw [endsInWord, Option.any_eq_true]
  simp only [List.getLast?_eq_some_iff]
  constructor
  · rintro ⟨c, ⟨front, hout⟩, hc⟩
    exact ⟨front, c, hout, hc⟩
  · rintro ⟨front, c, hout, hc⟩
    exact ⟨c, ⟨front, hout⟩, hc⟩

theorem endsInWord_append (out : Bytes) {word : Bytes} (hne : word ≠ []) (hword : ∀ c ∈ word, isWord c = true) :
    endsInWord (out ++ word) = true := by
  rw [endsInWord, List.getLast?_append_of_ne_nil _ hne, List.getLast?_eq_some_getLast hne]
  exact hword _ (List.getLast_mem hne)

theorem uriCredential_of_head {out s : Bytes} (h : s.head? ≠ some 58) : uriCredential out s = none := by
  have hstarts : (ascii "://").isPrefixOf s = false := by
    rw [← Bool.not_eq_true, List.isPrefixOf_iff_prefix, scheme_eq]
    rintro ⟨t, rfl⟩
    exact h rfl
  rw [uriCredential, hstarts]
  rfl

/-- Where the pass masks, the text goes on with a user and a password. -/
theorem uriCredential_eq_some {out s copied password : Bytes} (h : uriCredential out s = some (copied, password)) :
    endsInWord out = true ∧ ∃ user post, user ≠ [] ∧ (∀ c ∈ user, isUserChar c = true) ∧ password ≠ [] ∧
      (∀ c ∈ password, isPasswordChar c = true) ∧ s = ascii "://" ++ (user ++ 58 :: (password ++ 64 :: post)) := by
  unfold uriCredential at h
  split at h
  · rename_i hstart
    rw [Bool.and_eq_true, List.isPrefixOf_iff_prefix] at hstart
    obtain ⟨⟨t, rfl⟩, hword⟩ := hstart
    have hdrop : (ascii "://" ++ t).drop 3 = t := by rw [scheme_eq]; rfl
    rw [hdrop] at h
    dsimp only at h
    split at h
    · rename_i huser
      split at h
      · rename_i hpassword
        obtain ⟨-, rfl⟩ := Prod.mk.inj (Option.some.inj h)
        refine ⟨hword, t.takeWhile isUserChar, ((t.dropWhile isUserChar).tail.dropWhile isPasswordChar).tail, huser.1,
          fun c hc => List.mem_takeWhile_imp hc, hpassword.1, fun c hc => List.mem_takeWhile_imp hc, ?_⟩
        rw [List.cons_head?_tail hpassword.2, List.takeWhile_append_dropWhile, List.cons_head?_tail huser.2,
          List.takeWhile_append_dropWhile]
      · cases h
    · cases h
  · cases h

theorem uriCredential_match (post : Bytes) {out user password : Bytes} (hout : endsInWord out = true) (huser : user ≠ [])
    (hu : ∀ c ∈ user, isUserChar c = true) (hpassword : password ≠ []) (hp : ∀ c ∈ password, isPasswordChar c = true) :
    uriCredential out (ascii "://" ++ (user ++ 58 :: (password ++ 64 :: post))) =
      some (ascii "://" ++ (user ++ [58]), password) := by
  have hstarts : (ascii "://").isPrefixOf (ascii "://" ++ (user ++ 58 :: (password ++ 64 :: post))) = true := by
    rw [List.isPrefixOf_iff_prefix]
    exact List.prefix_append _ _
  have hdrop : (ascii "://" ++ (user ++ 58 :: (password ++ 64 :: post))).drop 3 =
      user ++ 58 :: (password ++ 64 :: post) := by rw [scheme_eq]; rfl
  have hcolon : ∀ c, (58 :: (password ++ 64 :: post)).head? = some c → isUserChar c = false := by
    intro c hc
    rw [head?_singleton hc]
    decide
  have hat : ∀ c, (64 :: post).head? = some c → isPasswordChar c = false := by
    intro c hc
    rw [head?_singleton hc]
    decide
  obtain ⟨hutake, hudrop⟩ := takeWhile_cut hu hcolon
  obtain ⟨hptake, hpdrop⟩ := takeWhile_cut hp hat
  unfold uriCredential
  rw [hstarts, hout, hdrop, Bool.and_self, if_pos rfl]
  dsimp only
  rw [hutake, hudrop, if_pos ⟨huser, rfl⟩, List.tail_cons, hptake, hpdrop, if_pos ⟨hpassword, rfl⟩]

theorem scans_uri : Scans uriCredential UriMatch stars Closed where
  start := by
    intro c hc
    cases hc
  nonempty := by
    rintro lead run tail post ⟨word, user, -, -, -, -, hrun, -⟩
    exact hrun
  begun := by
    intro out text j hout hhit
    obtain ⟨⟨copied, password⟩, hhit⟩ := Option.ne_none_iff_exists'.mp hhit
    obtain ⟨hword, user, post, huser, hu, hpassword, hp, htext⟩ := uriCredential_eq_some hhit
    obtain ⟨front, c, hfront, hc⟩ := endsInWord_iff.mp hword
    -- the word character stands in the text: the output in front of it is closed
    rcases List.eq_nil_or_concat' (text.take j) with hnil | ⟨before, d, hbefore⟩
    · rw [hnil, List.append_nil] at hfront
      have hclosed := (hout c (by rw [hfront, List.getLast?_concat])).1
      rw [hc] at hclosed
      cases hclosed
    · rw [hbefore, ← List.append_assoc] at hfront
      obtain ⟨-, hd⟩ := List.append_inj' hfront rfl
      obtain ⟨rfl, -⟩ := List.cons.inj hd
      have hsplit : text = before ++ (d :: (ascii "://" ++ (user ++ 58 :: (password ++ 64 :: post)))) := by
        rw [← htext, List.append_cons, ← hbefore, List.take_append_drop]
      have hlen : before.length < j := by
        have hle := List.length_take_le j text
        rw [hbefore, List.length_append] at hle
        exact hle
      refine ⟨before.length, hlen, [d] ++ (ascii "://" ++ (user ++ [58])), password, [64], post, ?_, ?_⟩
      · exact ⟨[d], user, List.cons_ne_nil _ _, List.forall_mem_singleton.mpr hc, huser,
          fun c hc => isUserChar_iff.mp (hu c hc), hpassword, fun c hc => isPasswordChar_iff.mp (hp c hc), rfl, rfl⟩
      · rw [hsplit, List.drop_left]
        simp only [List.append_assoc, List.cons_append, List.nil_append]
  seen := by
    rintro lead run tail post out ⟨word, user, hne, hword, huser, hu, hrun, hp, rfl, rfl⟩
    refine ⟨word, ascii "://" ++ (user ++ [58]), rfl, ?_, ?_, ?_⟩
    · rw [scheme_eq]
      exact List.cons_ne_nil _ _
    · intro j hj
      apply uriCredential_of_head
      rw [List.head?_append_of_ne_nil _ (List.ne_nil_of_length_pos (by rw [List.length_drop]; omega)), List.head?_drop]
      intro h58
      exact (isWord_bounds (hword 58 (List.mem_of_getElem? h58))).2.1 rfl
    · have hmatch := uriCredential_match post (endsInWord_append out hne hword) huser
        (fun c hc => isUserChar_iff.mpr (hu c hc)) hrun fun c hc => isPasswordChar_iff.mpr (hp c hc)
      simpa only [List.append_assoc, List.singleton_append] using hmatch
  after := by
    rintro lead run tail post out ⟨word, user, -, -, -, -, -, -, -, rfl⟩
    constructor
    · intro j hj
      apply uriCredential_of_head
      rw [Nat.lt_one_iff.mp hj]
      intro h58
      exact absurd (Option.some.inj h58) (by decide)
    · intro c hc
      rw [List.getLast?_concat] at hc
      rw [← Option.some.inj hc]
      decide

/-! ### The key pass -/

theorem endsWithNoCase_iff {s : Bytes} {name : String} :
    endsWithNoCase s name = true ↔ ∃ before suffix, s = before ++ suffix ∧ lowerCopy suffix = lowerCopy (ascii name) := by
  rw [endsWithNoCase, List.isSuffixOf_iff_suffix]
  constructor
  · rintro ⟨front, hfront⟩
    obtain ⟨before, suffix, hs, -, hsuffix⟩ := List.map_eq_append_iff.mp hfront.symm
    exact ⟨before, suffix, hs, hsuffix⟩
  · rintro ⟨before, suffix, rfl, hsuffix⟩
    refine ⟨lowerCopy before, ?_⟩
    rw [← hsuffix]
    exact List.map_append.symm

theorem isSecretKey_iff {s : Bytes} :
    isSecretKey s = true ↔ ∃ name ∈ secretNames, ∃ before suffix, s = before ++ suffix ∧
      lowerCopy suffix = lowerCopy (ascii name) := by
  simp only [isSecretKey, Bool.or_eq_true, endsWithNoCase_iff, secretNames, List.mem_cons, List.not_mem_nil, or_false,
    exists_eq_or_imp, exists_eq_left, or_assoc]

theorem isWord_of_tolower {c : UInt8} (h : isWord (tolower c) = true) : isWord c = true := by
  unfold tolower at h
  split at h
  · rename_i hupper
    exact decide_eq_true (.inr (.inl hupper))
  · exact h

/-- A secret name is made of word characters, and is not empty. -/
theorem secretName_word {name : String} {suffix : Bytes} (hname : name ∈ secretNames)
    (h : lowerCopy suffix = lowerCopy (ascii name)) : suffix ≠ [] ∧ ∀ c ∈ suffix, isWord c = true := by
  have hall : ∀ name ∈ secretNames, ascii name ≠ [] ∧ (lowerCopy (ascii name)).all isWord = true := by decide
  obtain ⟨hne, hword⟩ := hall name hname
  constructor
  · rintro rfl
    exact hne (List.map_eq_nil_iff.mp h.symm)
  · intro c hc
    rw [← h, List.all_eq_true] at hword
    exact isWord_of_tolower (hword _ (List.mem_map_of_mem hc))

theorem keyValue_of_head {out s : Bytes} (h : s.head? ≠ some 61) : keyValue out s = none := by
  rw [keyValue, if_neg fun hstart => h hstart.1]

/-- Where the pass masks, it has written a secret key and blanks, and a value follows. -/
theorem keyValue_eq_some {out s copied value : Bytes} (h : keyValue out s = some (copied, value)) :
    isSecretKey (out.rdropWhile isSpace) = true ∧ ∃ after post, (∀ c ∈ after, isSpace c = true) ∧ value ≠ [] ∧
      (∀ c ∈ value, isSpace c = false) ∧ AtBlank post ∧ s = 61 :: (after ++ (value ++ post)) := by
  unfold keyValue at h
  split at h
  · rename_i hstart
    dsimp only at h
    split at h
    · rename_i hvalue
      obtain ⟨-, rfl⟩ := Prod.mk.inj (Option.some.inj h)
      refine ⟨hstart.2, s.tail.takeWhile isSpace, (s.tail.dropWhile isSpace).dropWhile fun c => !isSpace c,
        fun c hc => List.mem_takeWhile_imp hc, hvalue, ?_, ?_, ?_⟩
      · intro c hc
        have hmem := List.mem_takeWhile_imp hc
        rwa [Bool.not_eq_true'] at hmem
      · intro c hc
        have hhead := head?_dropWhile hc
        rwa [Bool.not_eq_false'] at hhead
      · rw [List.takeWhile_append_dropWhile, List.takeWhile_append_dropWhile, List.cons_head?_tail hstart.1]
    · cases h
  · cases h

theorem keyValue_match {out after value post : Bytes} (hkey : isSecretKey (out.rdropWhile isSpace) = true)
    (hafter : ∀ c ∈ after, isSpace c = true) (hne : value ≠ []) (hvalue : ∀ c ∈ value, isSpace c = false)
    (hpost : AtBlank post) : keyValue out (61 :: (after ++ (value ++ post))) = some (61 :: after, value) := by
  have hstop : ∀ c, (value ++ post).head? = some c → isSpace c = false := by
    intro c hc
    rw [List.head?_append_of_ne_nil _ hne] at hc
    exact hvalue c (List.mem_of_mem_head? hc)
  have hend : ∀ c, post.head? = some c → (!isSpace c) = false := by
    intro c hc
    rw [hpost c hc]
    rfl
  obtain ⟨htake, hdrop⟩ := takeWhile_cut hafter hstop
  have hvtake := (takeWhile_cut (fun c hc => by rw [hvalue c hc]; rfl) hend).1
  rw [keyValue, if_pos ⟨rfl, hkey⟩]
  dsimp only
  rw [List.tail_cons, htake, hdrop, hvtake, if_pos hne]

theorem rdropWhile_blank {s blanks : Bytes} (hblank : ∀ c ∈ blanks, isSpace c = true) :
    (s ++ blanks).rdropWhile isSpace = s.rdropWhile isSpace := by
  induction blanks using List.reverseRecOn with
  | nil => rw [List.append_nil]
  | append_singleton blanks c ih =>
    rw [← List.append_assoc, List.rdropWhile_concat_pos _ _ _ (hblank c (List.mem_concat_self ..))]
    exact ih fun d hd => hblank d (List.mem_append_left _ hd)

theorem rdropWhile_word {s word : Bytes} (hne : word ≠ []) (hword : ∀ c ∈ word, isWord c = true) :
    (s ++ word).rdropWhile isSpace = s ++ word := by
  rw [List.rdropWhile_eq_self_iff]
  intro hl hlast
  rw [List.getLast_append_of_ne_nil _ hne, isWord_not_isSpace (hword _ (List.getLast_mem hne))] at hlast
  cases hlast

/-- What the look-behind finds behind a closed output stands in the text. -/
theorem lookBehind_text {out text front suffix blanks : Bytes} (hout : Closed out)
    (hsuffix : ∀ c ∈ suffix, isWord c = true) (hblanks : ∀ c ∈ blanks, isSpace c = true)
    (h : out ++ text = front ++ (suffix ++ blanks)) : ∃ before, text = before ++ (suffix ++ blanks) := by
  rcases List.append_eq_append_iff.mp h with ⟨before, -, htext⟩ | ⟨rest, hrest, hall⟩
  · exact ⟨before, htext⟩
  · rcases List.eq_nil_or_concat' rest with rfl | ⟨init, c, rfl⟩
    · exact ⟨[], hall.symm⟩
    · exfalso
      obtain ⟨hcword, hcspace⟩ := hout c (by rw [hrest, ← List.append_assoc, List.getLast?_concat])
      have hmem : c ∈ suffix ++ blanks := by
        rw [hall]
        exact List.mem_append_left _ (List.mem_concat_self ..)
      rcases List.mem_append.mp hmem with hs | hb
      · rw [hsuffix c hs] at hcword
        cases hcword
      · rw [hblanks c hb] at hcspace
        cases hcspace

theorem scans_key : Scans keyValue KeyMatch stars Closed where
  start := by
    intro c hc
    cases hc
  nonempty := by
    rintro lead run tail post ⟨key, before, after, -, -, -, hrun, -⟩
    exact hrun
  begun := by
    intro out text j hout hhit
    obtain ⟨⟨copied, value⟩, hhit⟩ := Option.ne_none_iff_exists'.mp hhit
    obtain ⟨hkey, after, post, hafter, hne, hvalue, hpost, htext⟩ := keyValue_eq_some hhit
    obtain ⟨name, hname, front, suffix, hsplit, hsuffix⟩ := isSecretKey_iff.mp hkey
    obtain ⟨hsne, hsword⟩ := secretName_word hname hsuffix
    have hwritten : out ++ text.take j = front ++ (suffix ++ (out ++ text.take j).rtakeWhile isSpace) := by
      rw [← List.append_assoc, ← hsplit, List.rdropWhile_append_rtakeWhile]
    have hblanks : ∀ c ∈ (out ++ text.take j).rtakeWhile isSpace, isSpace c = true := fun c hc => List.mem_rtakeWhile_imp hc
    obtain ⟨before, hbefore⟩ := lookBehind_text hout hsword hblanks hwritten
    have hlen : before.length < j := by
      have hle := List.length_take_le j text
      have hpos := List.length_pos_of_ne_nil hsne
      rw [hbefore, List.length_append, List.length_append] at hle
      omega
    refine ⟨before.length, hlen, _, value, [], post,
      ⟨suffix, _, after, ⟨hsword, name, hname, [], suffix, rfl, hsuffix⟩, hblanks, hafter, hne, hvalue, rfl, rfl, hpost⟩, ?_⟩
    have hwhole : text = before ++ (suffix ++ (out ++ text.take j).rtakeWhile isSpace) ++ (61 :: (after ++ (value ++ post))) := by
      rw [← htext, ← hbefore, List.take_append_drop]
    have hdrop : text.drop before.length =
        suffix ++ (out ++ text.take j).rtakeWhile isSpace ++ (61 :: (after ++ (value ++ post))) := by
      conv_lhs => rw [hwhole, List.append_assoc, List.drop_left]
    rw [hdrop]
    simp only [List.append_assoc, List.cons_append, List.nil_append]
  seen := by
    rintro lead run tail post out ⟨key, before, after, ⟨hword, name, hname, hends⟩, hbefore, hafter, hne, hvalue, rfl, rfl, hpost⟩
    have hkne : key ≠ [] := by
      obtain ⟨front, suffix, rfl, hsuffix⟩ := hends
      exact List.append_ne_nil_of_right_ne_nil _ (secretName_word hname hsuffix).1
    refine ⟨key ++ before, 61 :: after, (List.append_assoc ..).symm, List.cons_ne_nil _ _, ?_, ?_⟩
    · intro j hj
      apply keyValue_of_head
      rw [List.head?_append_of_ne_nil _ (List.ne_nil_of_length_pos (by rw [List.length_drop]; omega)), List.head?_drop]
      intro h61
      rcases List.mem_append.mp (List.mem_of_getElem? h61) with hk | hb
      · exact (isWord_bounds (hword 61 hk)).2.2.1 rfl
      · exact absurd (hbefore 61 hb) (by decide)
    · have hkey : isSecretKey ((out ++ (key ++ before)).rdropWhile isSpace) = true := by
        rw [← List.append_assoc, rdropWhile_blank hbefore, rdropWhile_word hkne hword]
        obtain ⟨front, suffix, rfl, hsuffix⟩ := hends
        exact isSecretKey_iff.mpr ⟨name, hname, out ++ front, suffix, (List.append_assoc ..).symm, hsuffix⟩
      exact keyValue_match hkey hafter hne hvalue hpost
  after := by
    rintro lead run tail post out ⟨key, before, after, -, -, -, -, -, -, rfl, -⟩
    constructor
    · intro j hj
      exact absurd hj (Nat.not_lt_zero j)
    · rw [List.append_nil]
      exact closed_stars out

end FractalSQL.Mcp.Sanitizer
