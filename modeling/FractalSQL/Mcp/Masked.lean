import Mathlib.Data.List.Count
import FractalSQL.Mcp.Sanitizer

/-!
# Sanitized messages

A sanitized message has no secret left: each match of a rule in it, wherever it begins, has a
run that is masked. So sanitizing once more changes nothing.
-/
namespace FractalSQL.Mcp.Sanitizer
open Lib Http

/-! ### Matches in a masked text -/

theorem begins_at {M : Pattern UInt8} {text front t : Bytes} (htext : text = front ++ t) (h : Begins M t) :
    Begins M (text.drop front.length) := by
  rwa [htext, List.drop_left]

theorem begins_uri {word user password : Bytes} (post : Bytes) (hne : word ≠ []) (hword : ∀ c ∈ word, isWord c = true)
    (huser : user ≠ []) (hu : ∀ c ∈ user, c ≠ 58 ∧ c ≠ 47 ∧ c ≠ 64 ∧ isSpace c = false) (hpassword : password ≠ [])
    (hp : ∀ c ∈ password, c ≠ 64 ∧ isSpace c = false) :
    Begins UriMatch (word ++ (ascii "://" ++ (user ++ 58 :: (password ++ 64 :: post)))) := by
  refine ⟨word ++ (ascii "://" ++ (user ++ [58])), password, [64], post, ⟨word, user, hne, hword, huser, hu, hpassword, hp, rfl, rfl⟩, ?_⟩
  simp only [List.append_assoc, List.cons_append, List.nil_append]

theorem begins_key {key before after value : Bytes} (hkey : SecretKey key) (hbefore : ∀ c ∈ before, isSpace c = true)
    (hafter : ∀ c ∈ after, isSpace c = true) (hvalue : ∃ c, value.head? = some c ∧ isSpace c = false) :
    Begins KeyMatch (key ++ (before ++ 61 :: (after ++ value))) := by
  obtain ⟨c, hhead, hc⟩ := hvalue
  refine ⟨key ++ (before ++ 61 :: after), value.takeWhile fun c => !isSpace c, [], value.dropWhile fun c => !isSpace c,
    ⟨key, before, after, hkey, hbefore, hafter, ?_, ?_, rfl, rfl, ?_⟩, ?_⟩
  · cases value with
    | nil => cases hhead
    | cons d value =>
      rw [head?_singleton hhead] at hc
      rw [List.takeWhile_cons_of_pos (by rw [hc]; rfl)]
      exact List.cons_ne_nil _ _
  · intro d hd
    have hmem := List.mem_takeWhile_imp hd
    rwa [Bool.not_eq_true'] at hmem
  · intro d hd
    have hhead := head?_dropWhile hd
    rwa [Bool.not_eq_false'] at hhead
  · rw [List.nil_append, List.takeWhile_append_dropWhile]
    simp only [List.append_assoc, List.cons_append]

/-- In what is masked no match begins. -/
theorem not_mem_stars {c : UInt8} (h : isWord c = true) : c ∉ stars := by
  intro hmem
  rw [mem_stars hmem] at h
  exact absurd h (by decide)

/-- A separator that does not stand behind `before` stands in it. -/
theorem sep_in_front {sep : UInt8} {x c before rest : Bytes} (h : x ++ sep :: c = before ++ rest) (hrest : sep ∉ rest) :
    ∃ y, before = x ++ sep :: y := by
  rcases List.append_eq_append_iff.mp h with ⟨y, hy, hcons⟩ | ⟨y, -, hy⟩
  · cases y with
    | nil =>
      rw [List.nil_append] at hcons
      rw [← hcons] at hrest
      exact absurd (List.mem_cons_self ..) hrest
    | cons d y =>
      obtain ⟨rfl, -⟩ := List.cons.inj hcons
      exact ⟨y, hy⟩
  · rw [hy] at hrest
    exact absurd (List.mem_append_right _ (List.mem_cons_self ..)) hrest

theorem settled_of_done {M : Pattern UInt8} {text : Bytes} (h : ∀ i, ¬ Begins M (text.drop i)) :
    Settled M stars (maskedText stars [.plain text]) := by
  intro front lead run tail post htext hm
  rw [maskedText_plain, maskedText_nil, List.append_nil] at htext
  exact absurd (begins_at htext ⟨lead, run, tail, post, hm, rfl⟩) (h _)

/-! ### URIs -/

/-- A match that reaches into the mask of another one is that match. -/
theorem uri_mask_overlap {before word user run front y w u p post : Bytes}
    (hword : ∀ c ∈ word, isWord c = true) (hu : ∀ c ∈ user, c ≠ 58 ∧ c ≠ 47 ∧ c ≠ 64 ∧ isSpace c = false)
    (hp : ∀ c ∈ run, c ≠ 64 ∧ isSpace c = false) (hrun : run ≠ [])
    (hfirst : ∀ i < before.length, ¬ Begins UriMatch
      ((before ++ (word ++ (ascii "://" ++ (user ++ 58 :: (run ++ 64 :: post))))).drop i))
    (hwne : w ≠ []) (hw : ∀ c ∈ w, isWord c = true) (hune : u ≠ []) (hu' : ∀ c ∈ u, c ≠ 58 ∧ c ≠ 47 ∧ c ≠ 64 ∧ isSpace c = false)
    (hp' : ∀ c ∈ p, c ≠ 64 ∧ isSpace c = false)
    (hfront : before ++ (word ++ (ascii "://" ++ (user ++ [58]))) = front ++ y)
    (hy : w ++ (ascii "://" ++ (u ++ 58 :: p)) = y ++ stars) : p = stars := by
  have hcut : (w ++ (ascii "://" ++ (u ++ [58]))) ++ p = y ++ stars := by
    rw [← hy]
    simp only [List.append_assoc, List.cons_append, List.nil_append]
  rcases List.append_eq_append_iff.mp hcut with ⟨x, rfl, rfl⟩ | ⟨x, hx, hstars⟩
  swap
  · rcases List.eq_nil_or_concat' x with rfl | ⟨init, c, rfl⟩
    · exact hstars.symm
    · have hlast := congrArg List.getLast? hx
      simp only [← List.append_assoc, List.getLast?_concat] at hlast
      have hmem : c ∈ stars := by
        rw [hstars]
        exact List.mem_append_left _ (List.mem_concat_self ..)
      rw [mem_stars hmem] at hlast
      exact absurd (Option.some.inj hlast) (by decide)
  · -- more of the text than the mask belongs to the password
    rcases List.eq_nil_or_concat' x with rfl | ⟨init, c, rfl⟩
    · rfl
    · exfalso
      have hlast := congrArg List.getLast? hfront
      simp only [← List.append_assoc, List.getLast?_concat] at hlast
      have hc : c = 58 := (Option.some.inj hlast).symm
      by_cases hlt : front.length < before.length
      · refine hfirst _ hlt (begins_at (t := w ++ (ascii "://" ++ (u ++ 58 :: ((init ++ [c] ++ run) ++ 64 :: post)))) ?_ ?_)
        · have hwhole := congrArg (· ++ (run ++ 64 :: post)) hfront
          simp only [List.append_assoc, List.cons_append, List.nil_append] at hwhole ⊢
          exact hwhole
        · apply begins_uri post hwne hw hune hu'
          · exact List.append_ne_nil_of_right_ne_nil _ hrun
          · intro d hd
            rcases List.mem_append.mp hd with hd | hd
            · exact hp' d (List.mem_append_left _ hd)
            · exact hp d hd
      · obtain ⟨z, hz⟩ : ∃ z, word ++ (ascii "://" ++ (user ++ [58])) = z ++ (w ++ (ascii "://" ++ (u ++ [58])) ++ (init ++ [c])) := by
          rcases List.append_eq_append_iff.mp hfront with ⟨z, -, hz⟩ | ⟨z, hz, hrest⟩
          · exact ⟨z, hz⟩
          · have hlen := congrArg List.length hz
            rw [List.length_append] at hlen
            have hnil : z = [] := List.length_eq_zero_iff.mp (by omega)
            rw [hnil, List.nil_append] at hrest
            exact ⟨[], hrest.symm⟩
        have hcount := congrArg (List.count 58) hz
        have hnot {s : Bytes} (hs : ∀ c ∈ s, isWord c = true) : s.count 58 = 0 :=
          List.count_eq_zero.mpr fun hmem => (isWord_bounds (hs _ hmem)).2.1 rfl
        have hnotUser {s : Bytes} (hs : ∀ c ∈ s, c ≠ 58 ∧ c ≠ 47 ∧ c ≠ 64 ∧ isSpace c = false) : s.count 58 = 0 :=
          List.count_eq_zero.mpr fun hmem => (hs _ hmem).1 rfl
        have hscheme : (ascii "://").count 58 = 1 := by decide
        have hcolon : ([58] : Bytes).count 58 = 1 := by decide
        rw [hc] at hcount
        simp only [List.count_append, hnot hword, hnotUser hu, hscheme, hcolon, hnot hw, hnotUser hu'] at hcount
        omega

theorem settled_uri {text : Bytes} {ps : List (Stretch UInt8)} (h : Runs UriMatch text ps) :
    Settled UriMatch stars (maskedText stars ps) := by
  induction h with
  | done hnone => exact settled_of_done hnone
  | @next before lead run tail post ps hm hfirst hpost ih =>
    obtain ⟨word, user, hne, hword, huser, hu, hrun, hp, rfl, rfl⟩ := hm
    rintro front l p t q htext ⟨w, u, hwne, hw, hune, hu', hpne, hp', rfl, rfl⟩
    rw [maskedText_next] at htext
    have hword64 {s : Bytes} (hs : ∀ c ∈ s, isWord c = true) : (64 : UInt8) ∉ s := fun hmem => (isWord_bounds (hs _ hmem)).2.2.2 rfl
    have huser64 {s : Bytes} (hs : ∀ c ∈ s, c ≠ 58 ∧ c ≠ 47 ∧ c ≠ 64 ∧ isSpace c = false) : (64 : UInt8) ∉ s :=
      fun hmem => (hs _ hmem).2.2.1 rfl
    have hscheme64 : (64 : UInt8) ∉ ascii "://" := by decide
    have hlead64 : (64 : UInt8) ∉ word ++ (ascii "://" ++ (user ++ [58])) ++ stars := by
      simp only [List.mem_append, hword64 hword, huser64 hu, hscheme64, false_or]
      decide
    have hmatch64 : (64 : UInt8) ∉ w ++ (ascii "://" ++ (u ++ 58 :: p)) := by
      simp only [List.mem_append, List.mem_cons, hword64 hw, huser64 hu', hscheme64, false_or]
      rintro (h | h)
      · exact absurd h (by decide)
      · exact (hp' _ h).1 rfl
    have htext' : (before ++ (word ++ (ascii "://" ++ (user ++ [58])) ++ stars)) ++ 64 :: maskedText stars ps =
        front ++ (w ++ (ascii "://" ++ (u ++ 58 :: p)) ++ 64 :: q) := by
      simpa only [List.append_assoc, List.cons_append, List.nil_append] using htext
    have hfirst' : ∀ i < before.length, ¬ Begins UriMatch
        ((before ++ (word ++ (ascii "://" ++ (user ++ 58 :: (run ++ 64 :: post))))).drop i) := by
      simpa only [List.append_assoc, List.cons_append, List.nil_append] using hfirst
    -- the match begins behind the at sign, or in front of it
    rcases List.append_eq_append_iff.mp htext' with ⟨b, hb, hrest⟩ | ⟨c, hc, hrest⟩
    · cases b with
      | nil =>
        obtain ⟨d, w, rfl⟩ := List.exists_cons_of_ne_nil hwne
        exact absurd (List.cons.inj hrest).1.symm (isWord_bounds (hw d (List.mem_cons_self ..))).2.2.2
      | cons d b =>
        rw [List.cons_append] at hrest
        refine ih b _ p [64] q ?_ ⟨w, u, hwne, hw, hune, hu', hpne, hp', rfl, rfl⟩
        rw [(List.cons.inj hrest).2]
        simp only [List.append_assoc, List.cons_append, List.nil_append]
    · by_cases h64 : (64 : UInt8) ∈ c
      · -- the match ends in front of the masked one, where none begins
        exfalso
        obtain ⟨c₁, c₂, rfl, hc₁⟩ := List.eq_append_cons_of_mem h64
        obtain ⟨rfl, -⟩ := split_unique hmatch64 hc₁ (hrest.trans (List.append_assoc c₁ _ _))
        rw [← List.append_assoc front] at hc
        obtain ⟨y, hy⟩ := sep_in_front hc.symm hlead64
        rw [List.append_assoc front] at hy
        have hlt : front.length < before.length := by
          have hlen := congrArg List.length hy
          rw [List.length_append, List.length_append, List.length_cons] at hlen
          omega
        refine hfirst' _ hlt (begins_at ?_ (begins_uri
          (y ++ (word ++ (ascii "://" ++ (user ++ 58 :: (run ++ 64 :: post))))) hwne hw hune hu' hpne hp'))
        conv_lhs => rw [hy]
        simp only [List.append_assoc, List.cons_append]
      · obtain ⟨hw', -⟩ := split_unique hmatch64 h64 hrest
        -- the match reaches to the same at sign
        rw [← List.append_assoc] at hc
        rcases List.append_eq_append_iff.mp hc with ⟨z, -, hz⟩ | ⟨y, hy, hcy⟩
        · obtain ⟨d, w, rfl⟩ := List.exists_cons_of_ne_nil hwne
          refine absurd ?_ (not_mem_stars (hw d (List.mem_cons_self ..)))
          rw [hz, ← hw']
          exact List.mem_append_right _ (List.mem_append_left _ (List.mem_cons_self ..))
        · exact uri_mask_overlap hword hu hp hrun hfirst' hwne hw hune hu' hp' hy (hw'.trans hcy)

/-! ### Keys -/

/-- What follows a masked value starts with a blank. -/
theorem atBlank_masked {post : Bytes} {ps : List (Stretch UInt8)} (h : Runs KeyMatch post ps) (hpost : AtBlank post) :
    AtBlank (maskedText stars ps) := by
  have hlead {lead run tail post : Bytes} (hm : KeyMatch lead run tail post) : lead ≠ [] := by
    obtain ⟨key, before, after, -, -, -, -, -, rfl, -⟩ := hm
    simp
  intro c hc
  rw [h.head?_masked stars hlead] at hc
  exact hpost c hc

/-- A match that reaches behind the `=` of a key has the masked value, or begins in the text too. -/
theorem key_mask_overlap {y k b a v q rest : Bytes} (hk : ∀ c ∈ k, isWord c = true) (hb : ∀ c ∈ b, isSpace c = true)
    (ha : ∀ c ∈ a, isSpace c = true) (hvne : v ≠ []) (hv : ∀ c ∈ v, isSpace c = false) (hq : AtBlank q) (hrest : AtBlank rest)
    (h : k ++ (b ++ 61 :: (a ++ (v ++ q))) = y ++ (stars ++ rest)) :
    v = stars ∨ ∃ c z, isSpace c = false ∧ y = k ++ (b ++ 61 :: (a ++ c :: z)) := by
  have hstar {c : UInt8} {s t : Bytes} (hs : stars ++ rest = c :: s ++ t) : c = 42 := (List.cons.inj hs).1.symm
  have hvalue (hvq : v ++ q = stars ++ rest) : v = stars := by
    have hend {t : Bytes} (ht : AtBlank t) : ∀ c, t.head? = some c → (!isSpace c) = false := by
      intro c hc
      rw [ht c hc]
      rfl
    have hstars : ∀ c ∈ stars, (!isSpace c) = true := by
      intro c hc
      rw [mem_stars hc]
      rfl
    have htake := (takeWhile_cut (fun c hc => by rw [hv c hc]; rfl) (hend hq)).1
    rw [hvq, (takeWhile_cut hstars (hend hrest)).1] at htake
    exact htake.symm
  rw [← List.append_assoc] at h
  rcases List.append_eq_append_iff.mp h with ⟨z, rfl, hz⟩ | ⟨z, hz, hstars⟩
  · cases z with
    | nil => exact absurd (List.cons.inj hz).1 (by decide)
    | cons d z =>
      rw [List.cons_append] at hz
      obtain ⟨rfl, htail⟩ := List.cons.inj hz
      rcases List.append_eq_append_iff.mp htail with ⟨z', rfl, hz'⟩ | ⟨z', rfl, hz'⟩
      · cases z' with
        | nil => exact .inl (hvalue hz')
        | cons c z' =>
          have hc : c ∈ v := by
            cases v with
            | nil => exact absurd rfl hvne
            | cons e v =>
              rw [List.cons_append, List.cons_append] at hz'
              rw [(List.cons.inj hz').1]
              exact List.mem_cons_self ..
          exact .inr ⟨c, z', hv c hc, List.append_assoc ..⟩
      · cases z' with
        | nil => exact .inl (hvalue hz'.symm)
        | cons c z' =>
          have hc := ha c (List.mem_append_right _ (List.mem_cons_self ..))
          rw [hstar hz'] at hc
          exact absurd hc (by decide)
  · cases z with
    | nil => exact absurd (List.cons.inj hstars).1 (by decide)
    | cons c z =>
      have hmem : c ∈ k ++ b := by
        rw [hz]
        exact List.mem_append_right _ (List.mem_cons_self ..)
      rw [hstar hstars] at hmem
      rcases List.mem_append.mp hmem with hc | hc
      · exact absurd (hk _ hc) (by decide)
      · exact absurd (hb _ hc) (by decide)

theorem settled_key {text : Bytes} {ps : List (Stretch UInt8)} (h : Runs KeyMatch text ps) :
    Settled KeyMatch stars (maskedText stars ps) := by
  induction h with
  | done hnone => exact settled_of_done hnone
  | @next before lead run tail post ps hm hfirst hpost ih =>
    obtain ⟨key, blanks, after, hkey, hblanks, hafter, hrun, hvalue, rfl, rfl, hend⟩ := hm
    rintro front l v t q htext ⟨k, b, a, hk, hb, ha, hvne, hv, rfl, rfl, hq⟩
    have hrest := atBlank_masked hpost hend
    have htext' : before ++ (key ++ (blanks ++ 61 :: after)) ++ (stars ++ maskedText stars ps) =
        front ++ (k ++ (b ++ 61 :: (a ++ (v ++ q)))) := by
      rw [maskedText_next] at htext
      simpa only [List.append_assoc, List.cons_append, List.nil_append] using htext
    have hkne : k ≠ [] := by
      obtain ⟨-, name, hname, front, suffix, rfl, hsuffix⟩ := hk
      exact List.append_ne_nil_of_right_ne_nil _ (secretName_word hname hsuffix).1
    rcases List.append_eq_append_iff.mp htext' with ⟨y, -, hy⟩ | ⟨y, hy, hmatch⟩
    · -- the match begins behind the masked one
      rcases List.append_eq_append_iff.mp hy with ⟨z, -, hz⟩ | ⟨z, hz, hmatch⟩
      · refine ih z _ v [] q ?_ ⟨k, b, a, hk, hb, ha, hvne, hv, rfl, rfl, hq⟩
        rw [hz]
        simp only [List.append_assoc, List.cons_append, List.nil_append]
      · cases z with
        | nil =>
          refine ih [] _ v [] q ?_ ⟨k, b, a, hk, hb, ha, hvne, hv, rfl, rfl, hq⟩
          rw [List.nil_append] at hmatch
          rw [← hmatch]
          simp only [List.append_assoc, List.cons_append, List.nil_append]
        | cons c z =>
          obtain ⟨d, k, rfl⟩ := List.exists_cons_of_ne_nil hkne
          rw [List.cons_append, List.cons_append] at hmatch
          obtain ⟨rfl, -⟩ := List.cons.inj hmatch
          refine absurd ?_ (not_mem_stars (hk.1 d (List.mem_cons_self ..)))
          rw [hz]
          exact List.mem_append_right _ (List.mem_cons_self ..)
    · rcases key_mask_overlap hk.1 hb ha hvne hv hq hrest hmatch with hstars | ⟨c, z, hc, rfl⟩
      · exact hstars
      · exfalso
        by_cases hlt : front.length < before.length
        · refine hfirst _ hlt (begins_at ?_ (begins_key hk hb ha ⟨c, (rfl : (c :: z ++ (run ++ ([] ++ post))).head? = some c), hc⟩))
          rw [← List.append_assoc before, hy]
          simp only [List.append_assoc, List.cons_append, List.nil_append]
        · obtain ⟨f, hf⟩ : ∃ f, key ++ (blanks ++ 61 :: after) = f ++ (k ++ (b ++ 61 :: (a ++ c :: z))) := by
            rcases List.append_eq_append_iff.mp hy with ⟨f, -, hf⟩ | ⟨f, hf, hrest⟩
            · exact ⟨f, hf⟩
            · have hlen := congrArg List.length hf
              rw [List.length_append] at hlen
              have hnil : f = [] := List.length_eq_zero_iff.mp (by omega)
              rw [hnil, List.nil_append] at hrest
              exact ⟨[], hrest.symm⟩
          have hword {s : Bytes} (hs : ∀ c ∈ s, isWord c = true) : (61 : UInt8) ∉ s := fun hmem => (isWord_bounds (hs _ hmem)).2.2.1 rfl
          have hspace {s : Bytes} (hs : ∀ c ∈ s, isSpace c = true) : (61 : UInt8) ∉ s := fun hmem => absurd (hs _ hmem) (by decide)
          have hcount := congrArg (List.count 61) hf
          simp only [List.count_append, List.count_cons_self, List.count_eq_zero.mpr (hword hkey.1),
            List.count_eq_zero.mpr (hspace hblanks), List.count_eq_zero.mpr (hspace hafter)] at hcount
          have hfront : (61 : UInt8) ∉ f ++ (k ++ b) := by
            simp only [List.mem_append, hword hk.1, hspace hb, or_false]
            exact List.count_eq_zero.mp (by omega)
          have hlead : (61 : UInt8) ∉ key ++ blanks := by
            simp only [List.mem_append, hword hkey.1, hspace hblanks, or_false, not_false_eq_true]
          have hcut : key ++ blanks ++ 61 :: after = f ++ (k ++ b) ++ 61 :: (a ++ c :: z) := by
            simpa only [List.append_assoc] using hf
          obtain ⟨-, rfl⟩ := split_unique hlead hfront hcut
          rw [hafter c (List.mem_append_right _ (List.mem_cons_self ..))] at hc
          cases hc

/-- Masking values leaves the URIs masked. -/
theorem settled_uri_key {text : Bytes} {ps : List (Stretch UInt8)} (h : Runs KeyMatch text ps)
    (hs : Settled UriMatch stars text) : Settled UriMatch stars (maskedText stars ps) := by
  induction h with
  | done hnone => rwa [maskedText_plain, maskedText_nil, List.append_nil]
  | @next before lead run tail post ps hm hfirst hpost ih =>
    have hsettled : Settled UriMatch stars (before ++ (lead ++ (run ++ tail)) ++ post) := by
      simpa only [List.append_assoc] using hs
    have ih := ih hsettled.drop
    obtain ⟨key, blanks, after, hkey, hblanks, hafter, hrun, hvalue, hleadEq, rfl, hend⟩ := hm
    have hrest := atBlank_masked hpost hend
    rintro front l p t q htext ⟨w, u, hwne, hw, hune, hu, hpne, hp, rfl, rfl⟩
    have hmatch : UriMatch (w ++ (ascii "://" ++ (u ++ [58]))) p [64] q := ⟨w, u, hwne, hw, hune, hu, hpne, hp, rfl, rfl⟩
    rw [maskedText_next, List.nil_append, ← List.append_assoc before] at htext
    rw [← List.append_assoc before] at hs
    generalize before ++ lead = a at *
    have hsolid : ∀ c ∈ w ++ (ascii "://" ++ (u ++ [58])) ++ (p ++ [64]), isSpace c = false := by
      have hscheme : ∀ c ∈ ascii "://", isSpace c = false := by
        rw [scheme_eq]
        simp [isSpace]
      intro c hc
      simp only [List.mem_append, List.mem_singleton] at hc
      rcases hc with (hc | hc | hc | rfl) | hc | rfl
      · exact isWord_not_isSpace (hw c hc)
      · exact hscheme c hc
      · exact (hu c hc).2.2.2
      · decide
      · exact (hp c hc).2
      · decide
    generalize w ++ (ascii "://" ++ (u ++ [58])) = l at *
    have hwhole : a ++ (stars ++ maskedText stars ps) = front ++ (l ++ (p ++ [64])) ++ q := by
      rw [htext]
      simp only [List.append_assoc]
    have hinside {z : Bytes} (hz : a = front ++ (l ++ (p ++ [64])) ++ z) : p = stars := by
      refine hs front l p [64] (z ++ (run ++ ([] ++ post))) ?_ hmatch
      rw [hz]
      simp only [List.append_assoc]
    have hlast {s : Bytes} (h : front ++ (l ++ (p ++ [64])) = a ++ (s ++ stars)) : False := by
      have hlast := congrArg List.getLast? h
      rw [← List.append_assoc a, List.getLast?_append_of_ne_nil _ stars_ne_nil] at hlast
      simp only [← List.append_assoc, List.getLast?_concat] at hlast
      exact absurd hlast (by decide)
    rcases List.append_eq_append_iff.mp hwhole with ⟨y, hy, hstars⟩ | ⟨y, hy, -⟩
    · rcases List.append_eq_append_iff.mp hstars with ⟨z, rfl, hz⟩ | ⟨z, hz, -⟩
      · cases z with
        | nil =>
          rw [List.append_nil] at hy
          exact absurd hy fun hy => hlast (s := []) hy
        | cons d z =>
          rw [← List.append_assoc a] at hy
          rcases List.append_eq_append_iff.mp hy.symm with ⟨b, -, hb⟩ | ⟨b, -, hb⟩
          · refine ih b l p [64] q ?_ hmatch
            rw [hz, hb]
            simp only [List.append_assoc]
          · have hd := hsolid d (by rw [hb]; exact List.mem_append_right _ (List.mem_cons_self ..))
            rw [hrest d (by rw [hz]; rfl)] at hd
            cases hd
      · rcases List.eq_nil_or_concat' y with rfl | ⟨init, c, rfl⟩
        · exact hinside (z := []) (by rw [List.append_nil, hy, List.append_nil])
        · exfalso
          have hc := congrArg List.getLast? hy
          simp only [← List.append_assoc, List.getLast?_concat] at hc
          have hmem : c ∈ stars := by
            rw [hz]
            exact List.mem_append_left _ (List.mem_concat_self ..)
          rw [mem_stars hmem] at hc
          exact absurd hc (by decide)
    · exact hinside hy

/-! ### The result -/

/-- The passes do what the rules say, once and for all, and touch nothing but the runs. -/
theorem sanitizeSecrets_exact (text : Bytes) :
    (∀ out, Sanitized text out ↔ out = sanitizeSecrets text) ∧
      sanitizeSecrets (sanitizeSecrets text) = sanitizeSecrets text ∧
      ∀ uris keys, Runs UriMatch text uris → Runs KeyMatch (maskedText stars uris) keys →
        wholeText uris = text ∧ wholeText keys = maskedText stars uris ∧ maskedText stars keys = sanitizeSecrets text := by
  have huri {text : Bytes} {uris : List (Stretch UInt8)} (h : Runs UriMatch text uris) :
      maskUriCredentials text = maskedText stars uris := scans_uri.maskWith_eq h scans_uri.start
  have hkey {text : Bytes} {keys : List (Stretch UInt8)} (h : Runs KeyMatch text keys) :
      maskKeyValueCredentials text = maskedText stars keys := scans_key.maskWith_eq h scans_key.start
  have hout {uris keys : List (Stretch UInt8)} (hu : Runs UriMatch text uris) (hk : Runs KeyMatch (maskedText stars uris) keys) :
      maskedText stars keys = sanitizeSecrets text := by
    rw [sanitizeSecrets, huri hu, hkey hk]
  obtain ⟨uris, huris⟩ := Runs.total scans_uri.nonempty text
  obtain ⟨keys, hkeys⟩ := Runs.total scans_key.nonempty (maskedText stars uris)
  refine ⟨fun out => ⟨?_, ?_⟩, ?_, fun uris keys hu hk => ⟨hu.whole, hk.whole, hout hu hk⟩⟩
  · rintro ⟨us, ks, hu, hk, rfl⟩
    exact hout hu hk
  · rintro rfl
    exact ⟨uris, keys, huris, hkeys, (hout huris hkeys).symm⟩
  · rw [← hout huris hkeys, sanitizeSecrets, maskUriCredentials,
      scans_uri.maskWith_of_settled (settled_uri_key hkeys (settled_uri huris)), maskKeyValueCredentials,
      scans_key.maskWith_of_settled (settled_key hkeys)]

end FractalSQL.Mcp.Sanitizer
