import Mathlib.Data.List.TakeWhile
import FractalSQL.Mcp.Connection

/-!
# Loopback origins

A browser's origin passes when its host is a loopback host. The host is recognised by how its
text begins, so that some texts pass that name another host, or no origin at all.
-/
namespace FractalSQL.Mcp.Http
open Lib

/-! ### Origins -/

def isAlpha (b : UInt8) : Bool := (65 ≤ b ∧ b ≤ 90) ∨ (97 ≤ b ∧ b ≤ 122)

def IsScheme (s : Bytes) : Prop :=
  (∃ c, s.head? = some c ∧ isAlpha c = true) ∧
    ∀ b ∈ s, (isAlpha b || isDigit b || b = 43 || b = 45 || b = 46) = true

/-- Nothing, or a colon and digits. -/
def IsPort (s : Bytes) : Prop := s = [] ∨ ∃ ds, s = 58 :: ds ∧ ∀ d ∈ ds, isDigit d = true

/-- `localhost`, an IPv4 literal in 127.0.0.0/8, or the IPv6 loopback address. -/
inductive LoopbackHost : Bytes → Prop where
  | name : LoopbackHost (ascii "localhost")
  | v4 {b c d : ℕ} (hb : b < 256) (hc : c < 256) (hd : d < 256) :
    LoopbackHost (ascii "127." ++ (decimal b ++ 46 :: (decimal c ++ 46 :: decimal d)))
  | v6 : LoopbackHost (ascii "[::1]")

/-- A scheme, a loopback host and perhaps a port. -/
def LoopbackOrigin (origin : Bytes) : Prop :=
  ∃ scheme host port, IsScheme scheme ∧ LoopbackHost host ∧ IsPort port ∧
    origin = scheme ++ (ascii "://" ++ (host ++ port))

/-- The whole value is listed. -/
def Listed (allowedOrigins : List Bytes) (origin : Bytes) : Prop :=
  ∃ allowed ∈ allowedOrigins, lowerCopy (trimCopy allowed) = lowerCopy (trimCopy origin)

/-! ### What the code sees -/

/-- Where the origin is cut: at the first `://` and at the next slash. -/
structure Cut (origin before host after : Bytes) : Prop where
  whole : origin = before ++ (ascii "://" ++ (host ++ after))
  first : ∀ i < before.length, ¬ ascii "://" <+: origin.drop i
  slash : 47 ∉ host
  rest : after = [] ∨ after.head? = some 47

/-- The end of `originIsLoopback`, on what stands between the cuts. -/
def looksLocal (host : Bytes) : Bool :=
  if host.head? = some 91 then
    match cutAt 93 host with
    | none => false
    | some (inner, _) => inner.drop 1 = ascii "::1"
  else
    let host := match rfind [58] host with
      | some colon => host.take colon
      | none => host
    host = ascii "localhost" || (ascii "127.").isPrefixOf host

/-- It begins like a loopback host: `[::1]` and anything, or, in front of its last colon,
`localhost` or `127.` and anything. -/
inductive LooksLocal : Bytes → Prop where
  | v6 (tail : Bytes) : LooksLocal (ascii "[::1]" ++ tail)
  | name {name port : Bytes} (hname : name = ascii "localhost" ∨ ascii "127." <+: name)
    (hport : port = [] ∧ 58 ∉ name ∨ ∃ t, port = 58 :: t ∧ 58 ∉ t) : LooksLocal (name ++ port)

/-! ### Searching -/

theorem isPrefixOf_singleton {c : UInt8} {s : Bytes} : [c].isPrefixOf s = true ↔ s.head? = some c := by
  cases s with
  | nil => simp
  | cons b s =>
    rw [List.isPrefixOf_iff_prefix, List.cons_prefix_cons, List.head?_cons, Option.some.injEq]
    simp only [List.nil_prefix, and_true]
    exact eq_comm

theorem rfind_of_not_mem {c : UInt8} {s : Bytes} (h : c ∉ s) : rfind [c] s = none := by
  rw [rfind, List.find?_eq_none]
  intro i _ hi
  have hhead := isPrefixOf_singleton.mp hi
  exact h ((List.drop_sublist i s).subset (List.mem_of_mem_head? hhead))

theorem rfind_append {c : UInt8} {s t : Bytes} (h : c ∉ t) : rfind [c] (s ++ c :: t) = some s.length := by
  have hrange : List.range ((s ++ c :: t).length + 1) =
      List.range s.length ++ s.length :: (List.range (t.length + 1)).map fun i => s.length + 1 + i := by
    have hlen : (s ++ c :: t).length + 1 = s.length + (1 + (t.length + 1)) := by
      rw [List.length_append, List.length_cons]
      omega
    rw [hlen, List.range_add, List.range_add]
    simp [Function.comp_def, Nat.add_assoc]
  rw [rfind, hrange, List.reverse_append, List.reverse_cons, List.append_assoc, List.find?_append]
  have hnone : ((List.range (t.length + 1)).map fun i => s.length + 1 + i).reverse.find?
      (fun i => [c].isPrefixOf ((s ++ c :: t).drop i)) = none := by
    rw [List.find?_eq_none]
    intro i hi hstarts
    obtain ⟨j, -, rfl⟩ := List.mem_map.mp (List.mem_reverse.mp hi)
    have hhead := isPrefixOf_singleton.mp hstarts
    have hdrop : (s ++ c :: t).drop (s.length + 1 + j) = t.drop j := by
      rw [Nat.add_assoc, List.drop_length_add_append, Nat.add_comm 1 j, List.drop_succ_cons]
    rw [hdrop] at hhead
    exact h ((List.drop_sublist j t).subset (List.mem_of_mem_head? hhead))
  rw [hnone, Option.none_or]
  simp

/-- The last colon cuts the name off. -/
theorem rfind_colon (s : Bytes) :
    58 ∉ s ∧ rfind [58] s = none ∨ ∃ name t, s = name ++ 58 :: t ∧ 58 ∉ t ∧ rfind [58] s = some name.length := by
  by_cases h : 58 ∈ s
  · obtain ⟨t, name, hs, ht⟩ := List.eq_append_cons_of_mem (List.mem_reverse.mpr h)
    have hs' : s = name.reverse ++ 58 :: t.reverse := by
      rw [← List.reverse_reverse s, hs]
      simp
    have ht' : 58 ∉ t.reverse := by rwa [List.mem_reverse]
    exact .inr ⟨name.reverse, t.reverse, hs', ht', by rw [hs', rfind_append ht']⟩
  · exact .inl ⟨h, rfind_of_not_mem h⟩

/-- The tail that is cut off, and the name in front of it. -/
theorem rfind_cut {name port : Bytes} (hport : port = [] ∧ 58 ∉ name ∨ ∃ t, port = 58 :: t ∧ 58 ∉ t) :
    (match rfind [58] (name ++ port) with
      | some colon => (name ++ port).take colon
      | none => name ++ port) = name := by
  rcases hport with ⟨rfl, hname⟩ | ⟨t, rfl, ht⟩
  · rw [List.append_nil, rfind_of_not_mem hname]
  · rw [rfind_append ht]
    simp

theorem looksLocal_iff (host : Bytes) : looksLocal host = true ↔ LooksLocal host := by
  have hbracket : ascii "[::1]" = 91 :: (ascii "::1" ++ [93]) := by decide
  unfold looksLocal
  by_cases hhead : host.head? = some 91
  · rw [if_pos hhead]
    obtain ⟨rest, rfl⟩ : ∃ rest, host = 91 :: rest := by
      cases host with
      | nil => cases hhead
      | cons b rest => exact ⟨rest, by rw [Option.some.inj hhead]⟩
    constructor
    · intro h
      cases hcut : cutAt 93 (91 :: rest) with
      | none =>
        rw [hcut] at h
        cases h
      | some p =>
        obtain ⟨inner, tail⟩ := p
        rw [hcut] at h
        obtain ⟨-, hwhole⟩ := cutAt_eq_some.mp hcut
        cases inner with
        | nil => cases hwhole
        | cons b inner =>
          obtain ⟨rfl, hrest⟩ := List.cons.inj hwhole
          have hinner : inner = ascii "::1" := of_decide_eq_true h
          rw [hrest, hinner]
          have hv6 := LooksLocal.v6 tail
          rw [hbracket] at hv6
          simpa using hv6
    · intro h
      generalize hhost : 91 :: rest = host at h
      cases h with
      | v6 tail =>
        have hcut : cutAt 93 (ascii "[::1]" ++ tail) = some (91 :: ascii "::1", tail) := by
          rw [cutAt_eq_some]
          exact ⟨by decide, by rw [hbracket]; simp⟩
        rw [hcut]
        exact decide_eq_true rfl
      | name hname hport =>
        exfalso
        rcases hname with rfl | ⟨more, rfl⟩ <;> exact absurd (List.cons.inj hhost).1 (by decide)
  · rw [if_neg hhead]
    constructor
    · intro h
      have hbase (name : Bytes) (hname : (name = ascii "localhost" || (ascii "127.").isPrefixOf name) = true) :
          name = ascii "localhost" ∨ ascii "127." <+: name := by
        rwa [Bool.or_eq_true, decide_eq_true_iff, List.isPrefixOf_iff_prefix] at hname
      rcases rfind_colon host with ⟨hno, hfind⟩ | ⟨name, t, rfl, ht, hfind⟩
      · rw [hfind] at h
        have hname := LooksLocal.name (hbase host h) (.inl ⟨rfl, hno⟩)
        rwa [List.append_nil] at hname
      · rw [hfind] at h
        dsimp only at h
        rw [List.take_left] at h
        exact .name (hbase name h) (.inr ⟨t, rfl, ht⟩)
    · intro h
      cases h with
      | v6 tail => exact absurd rfl hhead
      | name hname hport =>
        rw [rfind_cut hport, Bool.or_eq_true, decide_eq_true_iff, List.isPrefixOf_iff_prefix]
        exact hname

/-! ### Cutting -/

theorem cut_unique {origin before host after before' host' after' : Bytes} (h : Cut origin before host after)
    (h' : Cut origin before' host' after') : before = before' ∧ host = host' := by
  have hstarts {b rest : Bytes} (hw : origin = b ++ (ascii "://" ++ rest)) : ascii "://" <+: origin.drop b.length := by
    rw [hw, List.drop_left]
    exact List.prefix_append _ _
  have hlen : before.length = before'.length := by
    rcases Nat.lt_trichotomy before.length before'.length with hlt | heq | hlt
    · exact absurd (hstarts h.whole) (h'.first _ hlt)
    · exact heq
    · exact absurd (hstarts h'.whole) (h.first _ hlt)
  obtain ⟨hbefore, hrest⟩ := List.append_inj (h.whole.symm.trans h'.whole) hlen
  refine ⟨hbefore, ?_⟩
  have hhost := List.append_cancel_left hrest
  have htake {a b : Bytes} (ha : 47 ∉ a) (hb : b = [] ∨ b.head? = some 47) : (a ++ b).takeWhile (· ≠ 47) = a := by
    have hne : ∀ c ∈ a, decide (c ≠ 47) = true := fun c hc => decide_eq_true (ne_of_mem_of_not_mem hc ha)
    rw [List.takeWhile_append_of_pos hne]
    rcases hb with rfl | hb
    · simp
    · cases b with
      | nil => cases hb
      | cons c b =>
        rw [Option.some.inj hb]
        simp
  rw [← htake h.slash h.rest, hhost, htake h'.slash h'.rest]

/-- An origin passes as loopback exactly when what is cut out begins like a loopback host. -/
theorem originIsLoopback_iff (origin : Bytes) :
    originIsLoopback origin = true ↔ ∃ before host after, Cut origin before host after ∧ LooksLocal host := by
  have hsame (rest : Bytes) : looksLocal (rest.takeWhile (· ≠ 47)) = true ↔ LooksLocal (rest.takeWhile (· ≠ 47)) :=
    looksLocal_iff _
  constructor
  · intro h
    unfold originIsLoopback at h
    cases hfind : findFirst (ascii "://") origin with
    | none =>
      rw [hfind] at h
      cases h
    | some sep =>
      rw [hfind] at h
      obtain ⟨hstarts, -, hfirst⟩ := List.find?_range_eq_some.mp hfind
      obtain ⟨rest, hrest⟩ := List.isPrefixOf_iff_prefix.mp hstarts
      have hle : sep ≤ origin.length := by
        by_contra hgt
        rw [List.drop_of_length_le (by omega)] at hrest
        exact absurd hrest (by simp [ascii])
      have hdrop : origin.drop (sep + 3) = rest := by
        rw [← List.drop_drop, ← hrest]
        rfl
      refine ⟨origin.take sep, rest.takeWhile (· ≠ 47), rest.dropWhile (· ≠ 47), ⟨?_, ?_, ?_, ?_⟩, ?_⟩
      · rw [List.takeWhile_append_dropWhile, hrest, List.take_append_drop]
      · intro i hi hp
        rw [List.length_take_of_le hle] at hi
        have hno := hfirst i hi
        rw [List.isPrefixOf_iff_prefix.mpr hp] at hno
        cases hno
      · intro hmem
        exact absurd (List.mem_takeWhile_imp hmem) (by decide)
      · cases hd : rest.dropWhile (· ≠ 47) with
        | nil => exact .inl rfl
        | cons b t =>
          right
          have hb := List.head?_dropWhile_not (fun b : UInt8 => decide (b ≠ 47)) rest
          rw [hd] at hb
          simpa using hb
      · rw [← hsame, ← hdrop]
        exact h
  · rintro ⟨before, host, after, hcut, hlocal⟩
    have hstarts : (ascii "://").isPrefixOf (origin.drop before.length) = true := by
      rw [hcut.whole, List.drop_left, List.isPrefixOf_iff_prefix]
      exact List.prefix_append _ _
    have hfind : findFirst (ascii "://") origin = some before.length := by
      refine List.find?_range_eq_some.mpr ⟨hstarts, ?_, fun j hj => ?_⟩
      · rw [List.mem_range, hcut.whole, List.length_append]
        omega
      · rw [Bool.not_eq_true', ← Bool.not_eq_true, List.isPrefixOf_iff_prefix]
        exact hcut.first j hj
    have hhost : (origin.drop (before.length + 3)).takeWhile (· ≠ 47) = host := by
      rw [hcut.whole, List.drop_length_add_append]
      change (host ++ after).takeWhile _ = host
      have hne : ∀ c ∈ host, decide (c ≠ 47) = true := fun c hc => decide_eq_true (ne_of_mem_of_not_mem hc hcut.slash)
      rw [List.takeWhile_append_of_pos hne]
      rcases hcut.rest with hnil | hslash
      · rw [hnil]
        simp
      · cases after with
        | nil => cases hslash
        | cons c after =>
          rw [Option.some.inj hslash]
          simp
    unfold originIsLoopback
    rw [hfind]
    have hlooks := (looksLocal_iff host).mpr hlocal
    rw [← hhost] at hlooks
    exact hlooks

/-! ### Loopback origins -/

/-- What stands in the origin's text where a loopback host is looked for is a loopback host with
nothing but a port behind it, and in front of it stands a scheme. -/
def Plain (origin : Bytes) : Prop :=
  ∀ before host after, Cut origin before host after → LooksLocal host →
    IsScheme before ∧ (∃ name port, host = name ++ port ∧ LoopbackHost name ∧ IsPort port) ∧ after = []

/-- An origin passes only when it is loopback or listed. -/
def OnlyLoopback (allowedOrigins : List Bytes) (origin : Bytes) : Prop :=
  originAllowed origin allowedOrigins = true → LoopbackOrigin origin ∨ Listed allowedOrigins origin

theorem scheme_no_colon {s : Bytes} (h : IsScheme s) : 58 ∉ s := fun hmem => absurd (h.2 58 hmem) (by decide)

theorem digits_no_slash {ds : Bytes} (h : ∀ d ∈ ds, isDigit d = true) : 47 ∉ ds := fun hmem => absurd (h 47 hmem) (by decide)

theorem port_no_slash {port : Bytes} (h : IsPort port) : 47 ∉ port := by
  rcases h with rfl | ⟨ds, rfl, hds⟩
  · exact nofun
  · rw [List.mem_cons, not_or]
    exact ⟨by decide, digits_no_slash hds⟩

theorem host_no_slash {host : Bytes} (h : LoopbackHost host) : 47 ∉ host := by
  cases h with
  | name => decide
  | v6 => decide
  | @v4 b c d hb hc hd =>
    have hdec (n : ℕ) : 47 ∉ decimal n := digits_no_slash (decimal_isDigit n)
    rw [List.mem_append, List.mem_append, List.mem_cons, List.mem_append, List.mem_cons]
    rintro (h | h | h | h | h | h)
    · exact absurd h (by decide)
    · exact hdec b h
    · exact absurd h (by decide)
    · exact hdec c h
    · exact absurd h (by decide)
    · exact hdec d h

/-- A loopback origin is cut into its parts. -/
theorem cut_of_parts {scheme host port : Bytes} (hscheme : IsScheme scheme) (hhost : LoopbackHost host) (hport : IsPort port) :
    Cut (scheme ++ (ascii "://" ++ (host ++ port))) scheme (host ++ port) [] where
  whole := by rw [List.append_nil]
  first i hi hp := by
    -- a colon would stand in the scheme
    have hhead : ((scheme ++ (ascii "://" ++ (host ++ port))).drop i).head? = some 58 := by
      obtain ⟨rest, hrest⟩ := hp
      rw [← hrest]
      rfl
    rw [List.drop_append_of_le_length hi.le] at hhead
    cases hdrop : scheme.drop i with
    | nil =>
      rw [List.drop_eq_nil_iff] at hdrop
      omega
    | cons c t =>
      rw [hdrop] at hhead
      have hmem : c ∈ scheme := (List.drop_sublist i scheme).subset (hdrop ▸ List.mem_cons_self)
      exact scheme_no_colon hscheme (Option.some.inj hhead ▸ hmem)
  slash hmem := (List.mem_append.mp hmem).elim (host_no_slash hhost) (port_no_slash hport)
  rest := .inl rfl

/-- For every origin that is not empty: it passes only if it is a loopback origin or listed,
exactly when it is listed or what is taken for a loopback host in it is one. -/
theorem only_loopback_iff (allowedOrigins : List Bytes) (origin : Bytes) (hne : origin ≠ []) :
    OnlyLoopback allowedOrigins origin ↔ Listed allowedOrigins origin ∨ Plain origin := by
  have hallowed : originAllowed origin allowedOrigins = true ↔ originIsLoopback origin = true ∨ Listed allowedOrigins origin := by
    simp [originAllowed, hne, Listed]
  unfold OnlyLoopback
  rw [hallowed]
  by_cases hlisted : Listed allowedOrigins origin
  · exact iff_of_true (fun _ => .inr hlisted) (.inl hlisted)
  simp only [hlisted, or_false, false_or]
  constructor
  · intro h before host after hcut hlocal
    obtain ⟨scheme, name, port, hscheme, hname, hport, hwhole⟩ :=
      h ((originIsLoopback_iff origin).mpr ⟨before, host, after, hcut, hlocal⟩)
    subst hwhole
    have hparts := cut_of_parts hscheme hname hport
    obtain ⟨rfl, rfl⟩ := cut_unique hparts hcut
    have hrest : name ++ port ++ after = name ++ port :=
      (List.append_cancel_left (List.append_cancel_left hcut.whole)).symm
    exact ⟨hscheme, ⟨name, port, rfl, hname, hport⟩, List.append_right_eq_self.mp hrest⟩
  · intro h hloop
    obtain ⟨before, host, after, hcut, hlocal⟩ := (originIsLoopback_iff origin).mp hloop
    obtain ⟨hscheme, ⟨name, port, rfl, hname, hport⟩, rfl⟩ := h before host after hcut hlocal
    exact ⟨before, name, port, hscheme, hname, hport, by simpa using hcut.whole⟩

theorem only_loopback_localhost : OnlyLoopback [] (ascii "http://localhost:6274") := by
  apply (only_loopback_iff [] (ascii "http://localhost:6274") (by decide)).mpr
  right
  have hscheme : IsScheme (ascii "http") := ⟨⟨104, by decide, by decide⟩, List.all_eq_true.mp (by decide)⟩
  have hport : IsPort (ascii ":6274") := .inr ⟨ascii "6274", by decide, List.all_eq_true.mp (by decide)⟩
  have hcut := cut_of_parts hscheme .name hport
  intro before host after hcut' _
  have horigin : ascii "http" ++ (ascii "://" ++ (ascii "localhost" ++ ascii ":6274")) = ascii "http://localhost:6274" := by decide
  rw [horigin] at hcut
  obtain ⟨rfl, rfl⟩ := cut_unique hcut hcut'
  have hrest := List.append_cancel_left (List.append_cancel_left (horigin.trans hcut'.whole))
  exact ⟨hscheme, ⟨_, _, rfl, .name, hport⟩, List.append_right_eq_self.mp hrest.symm⟩

/-- A DNS name that begins like an address of the loopback network passes. -/
theorem lookalike_passes : originAllowed (ascii "http://127.evil.example") [] = true ∧
    ¬ OnlyLoopback [] (ascii "http://127.evil.example") := by
  have hpasses : originAllowed (ascii "http://127.evil.example") [] = true := by decide
  refine ⟨hpasses, fun h => ?_⟩
  rcases h hpasses with ⟨scheme, host, port, hscheme, hhost, hport, hwhole⟩ | ⟨allowed, hmem, -⟩
  · have hcut : Cut (ascii "http://127.evil.example") (ascii "http") (ascii "127.evil.example") [] :=
      ⟨by decide, by decide, by decide, .inl rfl⟩
    rw [hwhole] at hcut
    obtain ⟨-, hhostport⟩ := cut_unique (cut_of_parts hscheme hhost hport) hcut
    cases hhost with
    | name => exact absurd (congrArg List.head? hhostport) (by simp [ascii])
    | v6 => exact absurd (congrArg List.head? hhostport) (by simp [ascii])
    | @v4 b c d hb hc hd =>
      -- the second label would begin with a digit
      have hsecond := congrArg (fun s => (s.drop 4).head?) hhostport
      have hfirst : ((ascii "127." ++ (decimal b ++ 46 :: (decimal c ++ 46 :: decimal d)) ++ port).drop 4).head? =
          (decimal b).head? := by
        rw [List.append_assoc]
        change (decimal b ++ 46 :: (decimal c ++ 46 :: decimal d) ++ port).head? = _
        rw [List.append_assoc, List.head?_append_of_ne_nil _ (decimal_ne_nil b)]
      have hdigit := decimal_isDigit b 101 (List.mem_of_mem_head? (hfirst.symm.trans hsecond))
      exact absurd hdigit (by decide)
  · cases hmem

end FractalSQL.Mcp.Http
