import Mathlib.Data.List.TakeWhile
import FractalSQL.Mcp.TokenStore

/-!
# The credentials in force follow their files

A reload is driven by the modification time in whole seconds. While every version that is
written has another one than the store remembers, and every read sees a whole version, each
check decides by what the files hold, up to the dates that are not written as ISO-8601.
-/
namespace FractalSQL.Mcp.Tokens
open Lib Http

variable (lib : JsonLibrary) (cfg : Config) (hash : Bytes → Block 32)

/-! ### What the files say -/

/-- A client of the policy file: every tool or the named ones, and the instant of its end. -/
structure Entry where
  sha256 : Bytes
  tools : Option (List Bytes)
  expires : Option ℤ

def toolsOf : JsonValue → Option (Option (List Bytes))
  | .string s => if s = ascii "*" then some none else none
  | .array items => (items.mapM JsonValue.asString).map some
  | _ => none

/-- An `expires` member that is no usable date makes the entry malformed. -/
def expiresOf (t : JsonValue) : Option (Option ℤ) :=
  match t.find (ascii "expires") with
  | none => some none
  | some v => (v.asString.bind isoInstant).map some

def entryOf (t : JsonValue) : Option Entry :=
  (t.stringMember (ascii "sha256")).bind fun sha256 =>
    if sha256.length = 64 then
      ((t.find (ascii "tools")).bind toolsOf).bind fun tools =>
        (expiresOf t).map fun expires => ⟨lowerCopy sha256, tools, expires⟩
    else none

/-- The entries of a well-formed document. -/
def documentOf (text : Bytes) : Option (List Entry) :=
  (lib.parse text).bind fun doc => (tokensOf doc).bind fun items => items.mapM entryOf

def Entry.grants (e : Entry) (hex : Bytes) (now : ℤ) : Prop := e.sha256 = hex ∧ ∀ t, e.expires = some t → now < t

/-- The token of the deployment, if the file has one. -/
def tokenOf (files : Files) : Option Bytes :=
  if cfg.authTokenFile then (files.token.map fun v => firstLine v.content).filter (· ≠ []) else some cfg.authToken

/-- The entries of the policy file; without one no client is named. -/
def entriesOf (files : Files) : Option (List Entry) :=
  if cfg.tokenPolicyFile then files.policy.bind fun v => documentOf lib v.content else some []

/-- The result follows the token and the policy document; a malformed document leaves the
policy as it was. -/
structure Follows (token : Bytes) (doc : Option (List Entry)) (presented : Bytes) (now : ℤ) (before after : TokenStore)
    (c : Credential) : Prop where
  holder : presented ≠ [] → presented = token → c.ok = true ∧ c.allow = none
  accepted : ∀ entries, doc = some entries → (c.ok = true ↔
    presented ≠ [] ∧ (presented = token ∨ ∃ e ∈ entries, e.grants (sha256Hex hash presented) now))
  tools : ∀ entries, doc = some entries → c.ok = true → presented ≠ token →
    ∃ e ∈ entries, e.grants (sha256Hex hash presented) now ∧ c.allow = e.tools
  malformed : doc = none → after.policies = before.policies

/-! ### Dates -/

/-- The `expires` member is a usable date after 1970 began, or a text that `parseExpiry`
refuses as well. -/
def plainExpires (t : JsonValue) : Bool :=
  match t.find (ascii "expires") with
  | none => true
  | some v =>
    match v.asString with
    | none => false
    | some text =>
      match isoInstant text with
      | some i => i ≠ 0
      | none => parseExpiry text = 0

def plainDates (text : Bytes) : Bool := ((lib.parse text).bind tokensOf).all fun items => items.all plainExpires

/-- A usable date is read as the instant it denotes. -/
theorem parseExpiry_of_isoInstant {text : Bytes} {t : ℤ} (h : isoInstant text = some t) : parseExpiry text = t := by
  obtain ⟨hlen, hnul, y, mo, d, more, hscan, hy, hmo, hmo', hd, hd', rfl⟩ := sscanf_isoInstant h
  have hcstr : text.takeWhile (· ≠ 0) = text := by
    apply List.takeWhile_eq_self_iff.mpr
    intro b hb
    have hne : b ≠ 0 := by
      rintro rfl
      exact hnul hb
    simpa using hne
  have hfields : ¬ ((y : ℤ) :: (mo : ℤ) :: (d : ℤ) :: more).length < 3 := by simp
  have hrange : ¬ ((y : ℤ) < 1970 ∨ (mo : ℤ) < 1 ∨ 12 < (mo : ℤ) ∨ (d : ℤ) < 1 ∨ 31 < (d : ℤ)) := by omega
  simp only [parseExpiry, not_lt.mpr hlen, if_false, hcstr, hscan, if_neg hfields, if_neg hrange]

/-! ### The document is loaded as it is written -/

structure Same (e : Entry) (pe : PolicyEntry) : Prop where
  sha256 : pe.sha256 = e.sha256
  tools : (if pe.allTools then none else some pe.tools) = e.tools
  expired : ∀ now, pe.expired now = false ↔ ∀ t, e.expires = some t → now < t

theorem loadTools_of_some {j : JsonValue} {tools : Option (List Bytes)} (h : toolsOf j = some tools) :
    ∃ all names, loadTools j = .ok (all, names) ∧ (if all then none else some names) = tools := by
  cases j with
  | string s =>
    simp only [toolsOf] at h
    split_ifs at h with hs
    cases h
    exact ⟨true, [], by simp [loadTools, hs], rfl⟩
  | array items =>
    obtain ⟨names, hnames, rfl⟩ := Option.map_eq_some_iff.mp h
    exact ⟨false, names, by simp [loadTools, hnames], rfl⟩
  | _ => cases h

theorem loadTools_of_none {j : JsonValue} (h : toolsOf j = none) : ∃ err, loadTools j = .error err := by
  cases j with
  | string s =>
    simp only [toolsOf] at h
    split_ifs at h with hs
    exact ⟨_, by rw [loadTools, if_neg hs]⟩
  | array items =>
    have hnames := Option.map_eq_none_iff.mp h
    exact ⟨_, by rw [loadTools, hnames]⟩
  | _ => exact ⟨_, rfl⟩

/-- The entry is loaded as it is written, or refused. -/
theorem loadEntry_plain {t : JsonValue} (hplain : plainExpires t = true) :
    (∀ e, entryOf t = some e → ∃ pe, loadEntry t = .ok pe ∧ Same e pe) ∧
      (entryOf t = none → ∃ err, loadEntry t = .error err) := by
  cases hsha : t.stringMember (ascii "sha256") with
  | none => simp [entryOf, loadEntry, hsha]
  | some sha256 =>
  by_cases hlen : sha256.length = 64
  swap
  · simp [entryOf, loadEntry, hsha, hlen]
  cases htools : t.find (ascii "tools") with
  | none => simp [entryOf, loadEntry, hsha, hlen, htools]
  | some j =>
  cases hj : toolsOf j with
  | none =>
    obtain ⟨err, herr⟩ := loadTools_of_none hj
    simp [entryOf, loadEntry, hsha, hlen, htools, hj, herr]
  | some tools =>
  obtain ⟨all, names, hload, hsame⟩ := loadTools_of_some hj
  unfold plainExpires at hplain
  cases hexp : t.find (ascii "expires") with
  | none =>
    have hmember : t.stringMember (ascii "expires") = none := by rw [JsonValue.stringMember, hexp]; rfl
    simp only [entryOf, loadEntry, expiresOf, hsha, hlen, htools, hj, hload, hexp, hmember, Option.bind_some,
      if_true, Option.map_some, ne_eq, not_true, if_false]
    refine ⟨fun e he => ⟨_, rfl, ?_⟩, nofun⟩
    cases he
    exact ⟨rfl, hsame, fun now => by simp [PolicyEntry.expired]⟩
  | some v =>
  simp only [hexp] at hplain
  cases hv : v.asString with
  | none => simp [hv] at hplain
  | some text =>
  have hmember : t.stringMember (ascii "expires") = some text := by rw [JsonValue.stringMember, hexp]; exact hv
  simp only [hv] at hplain
  cases hi : isoInstant text with
  | none =>
    have hzero : parseExpiry text = 0 := by simpa [hi] using hplain
    simp [entryOf, loadEntry, expiresOf, hsha, hlen, htools, hj, hload, hexp, hv, hi, hmember, hzero]
  | some i =>
    have hne : i ≠ 0 := by simpa [hi] using hplain
    have hparse : parseExpiry text = i := parseExpiry_of_isoInstant hi
    simp only [entryOf, loadEntry, expiresOf, hsha, hlen, htools, hj, hload, hexp, hv, hi, hmember, hparse, hne,
      Option.bind_some, if_true, Option.map_some, ne_eq, not_true, if_false]
    refine ⟨fun e he => ⟨_, rfl, ?_⟩, nofun⟩
    cases he
    exact ⟨rfl, hsame, fun now => by simp [PolicyEntry.expired, hne]⟩

/-- So is a list of entries. -/
theorem mapM_plain {items : List JsonValue} (hplain : ∀ t ∈ items, plainExpires t = true) :
    (∀ es, items.mapM entryOf = some es → ∃ pes, items.mapM loadEntry = .ok pes ∧ List.Forall₂ Same es pes) ∧
      (items.mapM entryOf = none → ∃ err, items.mapM loadEntry = .error err) := by
  induction items with
  | nil => exact ⟨fun es h => ⟨[], rfl, by cases h; exact .nil⟩, nofun⟩
  | cons t items ih =>
    obtain ⟨hsome, hnone⟩ := loadEntry_plain (hplain t (List.mem_cons_self ..))
    obtain ⟨ihsome, ihnone⟩ := ih fun t ht => hplain t (List.mem_cons_of_mem _ ht)
    simp only [List.mapM_cons, Option.bind_eq_bind, Option.pure_def]
    cases he : entryOf t with
    | none =>
      obtain ⟨err, herr⟩ := hnone he
      exact ⟨nofun, fun _ => ⟨err, by rw [herr]; rfl⟩⟩
    | some e =>
      obtain ⟨pe, hload, hsame⟩ := hsome e he
      cases hes : items.mapM entryOf with
      | none =>
        obtain ⟨err, herr⟩ := ihnone hes
        exact ⟨nofun, fun _ => ⟨err, by rw [hload, herr]; rfl⟩⟩
      | some es =>
        obtain ⟨pes, hloads, hsames⟩ := ihsome es hes
        refine ⟨fun es' h => ⟨pe :: pes, by rw [hload, hloads]; rfl, ?_⟩, nofun⟩
        cases h
        exact .cons hsame hsames

/-- Where its dates are plain, a well-formed document is loaded, and one that is malformed
is refused. -/
theorem loadPolicy_plain {text : Bytes} (hplain : plainDates lib text = true) :
    (∀ es, documentOf lib text = some es → ∃ pes, loadPolicy lib text = .ok pes ∧ List.Forall₂ Same es pes) ∧
      (documentOf lib text = none → ∃ err, loadPolicy lib text = .error err) := by
  unfold plainDates at hplain
  unfold documentOf loadPolicy
  cases hdoc : lib.parse text with
  | none => exact ⟨nofun, fun _ => ⟨_, rfl⟩⟩
  | some doc =>
    cases hitems : tokensOf doc with
    | none => simp [hitems]
    | some items =>
      have hall : items.all plainExpires = true := by simpa [hdoc, hitems] using hplain
      simpa [hitems] using mapM_plain (List.all_eq_true.mp hall)

/-! ### A check decides by the store -/

def PolicyEntry.valid (e : PolicyEntry) (hex : Bytes) (now : ℤ) : Prop := e.sha256 = hex ∧ e.expired now = false

theorem PolicyEntry.apply_of_valid {e : PolicyEntry} {hex : Bytes} {now : ℤ} (h : e.valid hex now) (c : Credential) :
    (e.apply hex now c).ok = true ∧ (e.apply hex now c).allow = if e.allTools then none else some e.tools := by
  simp [PolicyEntry.apply, h.1, h.2]

theorem PolicyEntry.apply_of_not_valid {e : PolicyEntry} {hex : Bytes} {now : ℤ} (h : ¬ e.valid hex now) (c : Credential) :
    (e.apply hex now c).ok = c.ok ∧ (e.apply hex now c).allow = c.allow := by
  by_cases hsha : e.sha256 = hex
  · have hexp : e.expired now = true := by simpa [PolicyEntry.valid, hsha] using h
    simp [PolicyEntry.apply, hsha, hexp]
  · simp [PolicyEntry.apply, hsha]

/-- The fold over the entries: the last one that is valid decides. -/
theorem foldl_apply (policies : List PolicyEntry) (hex : Bytes) (now : ℤ) :
    let c := policies.foldl (fun c e => e.apply hex now c) {}
    (c.ok = true ↔ ∃ e ∈ policies, e.valid hex now) ∧
      (c.ok = true → ∃ e ∈ policies, e.valid hex now ∧ c.allow = if e.allTools then none else some e.tools) := by
  induction policies using List.reverseRecOn with
  | nil => simp
  | append_singleton policies e ih =>
    obtain ⟨hok, hallow⟩ := ih
    simp only [List.foldl_append, List.foldl_cons, List.foldl_nil, List.mem_append, List.mem_singleton]
    by_cases hvalid : e.valid hex now
    · obtain ⟨hok', hallow'⟩ := e.apply_of_valid hvalid (policies.foldl (fun c e => e.apply hex now c) {})
      exact ⟨iff_of_true hok' ⟨e, .inr rfl, hvalid⟩, fun _ => ⟨e, .inr rfl, hvalid, hallow'⟩⟩
    · obtain ⟨hok', hallow'⟩ := e.apply_of_not_valid hvalid (policies.foldl (fun c e => e.apply hex now c) {})
      rw [hok', hallow']
      constructor
      · rw [hok]
        constructor
        · rintro ⟨o, ho, hov⟩
          exact ⟨o, .inl ho, hov⟩
        · rintro ⟨o, ho | rfl, hov⟩
          · exact ⟨o, ho, hov⟩
          · exact absurd hov hvalid
      · intro h
        obtain ⟨o, ho, hov, ha⟩ := hallow h
        exact ⟨o, .inl ho, hov, ha⟩

/-- What an entry grants is what is valid of it in the store. -/
theorem Same.valid_iff {e : Entry} {pe : PolicyEntry} (h : Same e pe) (hex : Bytes) (now : ℤ) :
    pe.valid hex now ↔ e.grants hex now := by
  rw [PolicyEntry.valid, Entry.grants, h.sha256, h.expired]

theorem exists_valid_iff {es : List Entry} {pes : List PolicyEntry} (h : List.Forall₂ Same es pes) (hex : Bytes) (now : ℤ) :
    (∃ pe ∈ pes, pe.valid hex now) ↔ ∃ e ∈ es, e.grants hex now := by
  induction h with
  | nil => simp
  | cons hsame _ ih => simp only [List.exists_mem_cons_iff, hsame.valid_iff, ih]

theorem exists_same {es : List Entry} {pes : List PolicyEntry} (h : List.Forall₂ Same es pes) {pe : PolicyEntry}
    (hpe : pe ∈ pes) : ∃ e ∈ es, Same e pe := by
  induction h with
  | nil => cases hpe
  | cons hsame _ ih =>
    obtain rfl | hpe := List.mem_cons.mp hpe
    · exact ⟨_, List.mem_cons_self .., hsame⟩
    · obtain ⟨e, he, hs⟩ := ih hpe
      exact ⟨e, List.mem_cons_of_mem _ he, hs⟩

/-- A store that holds the token and the entries of the document decides by them. -/
theorem decide_follows {s before : TokenStore} {token : Bytes} {doc : Option (List Entry)} (htoken : s.token = token)
    (hdoc : ∀ es, doc = some es → List.Forall₂ Same es s.policies) (hnone : doc = none → s.policies = before.policies)
    (presented : Bytes) (now : ℤ) : Follows hash token doc presented now before s (s.decide hash presented now) := by
  subst htoken
  obtain ⟨hok, hallow⟩ := foldl_apply s.policies (sha256Hex hash presented) now
  by_cases hempty : presented = []
  · subst hempty
    exact ⟨nofun, fun es _ => by simp [TokenStore.decide], fun es _ h => by simp [TokenStore.decide] at h, hnone⟩
  by_cases hheld : presented = s.token
  · have hdecide : s.token ≠ [] := hheld ▸ hempty
    refine ⟨fun _ _ => ?_, fun es _ => ?_, fun es _ _ hne => absurd hheld hne, hnone⟩
    · simp [TokenStore.decide, hheld, hdecide]
    · simp [TokenStore.decide, hheld, hdecide]
  · have hfold : s.decide hash presented now =
        s.policies.foldl (fun c e => e.apply (sha256Hex hash presented) now c) {} := by
      simp [TokenStore.decide, hempty, hheld]
    rw [hfold]
    refine ⟨fun _ h => absurd h hheld, fun es hes => ?_, fun es hes h _ => ?_, hnone⟩
    · rw [hok, exists_valid_iff (hdoc es hes)]
      simp [hempty, hheld]
    · obtain ⟨pe, hpe, hvalid, ha⟩ := hallow h
      obtain ⟨e, he, hsame⟩ := exists_same (hdoc es hes) hpe
      exact ⟨e, he, (hsame.valid_iff _ _).mp hvalid, ha.trans hsame.tools⟩

/-! ### A reload brings the store up to the files -/

/-- Both reads see the whole of what is there. -/
def Complete (files : Files) (seen : Seen) : Prop :=
  seen.token = files.token.map Version.content ∧ seen.policy = files.policy.map Version.content

/-- A version has another modification time than the store remembers, and a reader does not
meet a version that is still being written. -/
def Faithful (s : State) (_ : List Event) : Label → Prop
  | .writeToken v => (v.all fun w => w.mtime ≠ s.store.lastMtime) = true
  | .writePolicy v => (v.all fun w => w.mtime ≠ s.store.lastPolicyMtime) = true
  | .sighup => True
  | .check _ _ seen => Complete s.files seen

instance (files : Files) (seen : Seen) : Decidable (Complete files seen) := inferInstanceAs (Decidable (_ ∧ _))

instance (s : State) (log : List Event) : (l : Label) → Decidable (Faithful s log l)
  | .writeToken v => inferInstanceAs (Decidable ((v.all fun w => w.mtime ≠ s.store.lastMtime) = true))
  | .writePolicy v => inferInstanceAs (Decidable ((v.all fun w => w.mtime ≠ s.store.lastPolicyMtime) = true))
  | .sighup => isTrue trivial
  | .check _ _ seen => inferInstanceAs (Decidable (Complete s.files seen))

/-- Where the store remembers the modification time of a file, it holds what the file says. -/
structure Fresh (s : TokenStore) (files : Files) : Prop where
  file : cfg.authTokenFile = true → ∀ v, files.token = some v → s.lastMtime = v.mtime → firstLine v.content ≠ [] →
    s.token = firstLine v.content
  fixed : cfg.authTokenFile = false → s.token = cfg.authToken
  policy : cfg.tokenPolicyFile = true → ∀ v, files.policy = some v → s.lastPolicyMtime = v.mtime →
    ∀ es, loadPolicy lib v.content = .ok es → s.policies = es
  noPolicy : cfg.tokenPolicyFile = false → s.policies = []

/-- What a store holds that follows the files now. -/
structure Current (s : TokenStore) (files : Files) : Prop where
  token : ∀ t, tokenOf cfg files = some t → s.token = t
  policy : cfg.tokenPolicyFile = true → ∀ v, files.policy = some v →
    ∀ es, loadPolicy lib v.content = .ok es → s.policies = es
  noPolicy : cfg.tokenPolicyFile = false → s.policies = []

variable {lib cfg hash} {s : TokenStore} {files : Files} {seen : Seen} {force : Bool}

theorem loadPolicy_token (s : TokenStore) (text : Option Bytes) :
    (s.loadPolicy lib text).token = s.token ∧ (s.loadPolicy lib text).lastMtime = s.lastMtime := by
  unfold TokenStore.loadPolicy
  split
  · exact ⟨rfl, rfl⟩
  · split <;> exact ⟨rfl, rfl⟩

/-- The half that concerns the policy leaves the token alone. -/
theorem reloadPolicy_token (s : TokenStore) (file : Option Version) (text : Option Bytes) :
    (s.reloadPolicy lib cfg file force text).token = s.token ∧
      (s.reloadPolicy lib cfg file force text).lastMtime = s.lastMtime := by
  unfold TokenStore.reloadPolicy
  cases file with
  | none =>
    dsimp only
    split_ifs
    · exact ⟨rfl, rfl⟩
    · exact ⟨rfl, rfl⟩
    · exact loadPolicy_token s text
  | some v =>
    dsimp only
    split_ifs
    · exact ⟨rfl, rfl⟩
    · exact loadPolicy_token s text
    · exact ⟨rfl, rfl⟩

/-- And the other half the policy. -/
theorem reloadToken_policy (s : TokenStore) (file : Option Version) (text : Option Bytes) :
    (s.reloadToken cfg file force text).policies = s.policies ∧
      (s.reloadToken cfg file force text).lastPolicyMtime = s.lastPolicyMtime := by
  unfold TokenStore.reloadToken
  split_ifs
  · exact ⟨rfl, rfl⟩
  · split
    · exact ⟨rfl, rfl⟩
    · split_ifs
      · split
        · exact ⟨rfl, rfl⟩
        · split_ifs <;> exact ⟨rfl, rfl⟩
      · exact ⟨rfl, rfl⟩

theorem reloadToken_file {v : Version} (hcfg : cfg.authTokenFile = true) (hne : firstLine v.content ≠ [])
    (hfresh : force = false → s.lastMtime = v.mtime → s.token = firstLine v.content) :
    (s.reloadToken cfg (some v) force (some v.content)).token = firstLine v.content := by
  by_cases hread : force = true ∨ v.mtime ≠ s.lastMtime
  · simp [TokenStore.reloadToken, hcfg, hread, hne]
  · obtain ⟨hforce, hsame⟩ := not_or.mp hread
    simp [TokenStore.reloadToken, hcfg, hread, hfresh (by simpa using hforce) (not_not.mp hsame).symm]

theorem reloadPolicy_file {v : Version} {es : List PolicyEntry} (hcfg : cfg.tokenPolicyFile = true)
    (hload : loadPolicy lib v.content = .ok es) (hfresh : force = false → s.lastPolicyMtime = v.mtime → s.policies = es) :
    (s.reloadPolicy lib cfg (some v) force (some v.content)).policies = es := by
  by_cases hread : force = true ∨ v.mtime ≠ s.lastPolicyMtime
  · simp [TokenStore.reloadPolicy, TokenStore.loadPolicy, hcfg, hread, hload]
  · obtain ⟨hforce, hsame⟩ := not_or.mp hread
    simp [TokenStore.reloadPolicy, hcfg, hread, hfresh (by simpa using hforce) (not_not.mp hsame).symm]

/-- A file that is not there or is refused leaves the policy as it was. -/
theorem reloadPolicy_refused {file : Option Version}
    (hrefused : ∀ v, file = some v → ∃ err, loadPolicy lib v.content = .error err) :
    (s.reloadPolicy lib cfg file force (file.map Version.content)).policies = s.policies := by
  unfold TokenStore.reloadPolicy
  cases file with
  | none =>
    dsimp only [Option.map_none]
    split_ifs <;> rfl
  | some v =>
    obtain ⟨err, herr⟩ := hrefused v rfl
    dsimp only [Option.map_some]
    split_ifs
    · rfl
    · simp [TokenStore.loadPolicy, herr]
    · rfl

theorem reload_current (hfresh : force = false → Fresh lib cfg s files) (hno : cfg.tokenPolicyFile = false → s.policies = [])
    (hseen : Complete files seen) : Current lib cfg (s.reload lib cfg files force seen) files where
  token t ht := by
    rw [TokenStore.reload, (reloadPolicy_token _ _ _).1]
    unfold tokenOf at ht
    split_ifs at ht with hcfg
    · obtain ⟨hmap, hne⟩ := Option.filter_eq_some_iff.mp ht
      obtain ⟨v, hv, rfl⟩ := Option.map_eq_some_iff.mp hmap
      have hne' : firstLine v.content ≠ [] := by simpa using hne
      rw [hseen.1, hv]
      exact reloadToken_file hcfg hne' fun hf hm => (hfresh hf).file hcfg v hv hm hne'
    · cases ht
      simp [TokenStore.reloadToken, hcfg]
  policy hcfg v hv es hload := by
    rw [TokenStore.reload, hseen.2, hv]
    apply reloadPolicy_file hcfg hload
    intro hf hm
    rw [(reloadToken_policy s _ _).2] at hm
    rw [(reloadToken_policy s _ _).1]
    exact (hfresh hf).policy hcfg v hv hm es hload
  noPolicy hcfg := by
    unfold TokenStore.reload TokenStore.reloadPolicy
    rw [hcfg]
    exact (reloadToken_policy s _ _).1.trans (hno hcfg)

/-- A store that follows the files remembers no file whose contents it has not. -/
theorem Current.fresh (h : Current lib cfg s files) : Fresh lib cfg s files where
  file hcfg v hv _ hne := by
    apply h.token
    rw [tokenOf, if_pos hcfg, hv]
    exact Option.filter_eq_some_iff.mpr ⟨rfl, by simpa using hne⟩
  fixed hcfg := by
    apply h.token
    rw [tokenOf, hcfg]
    rfl
  policy hcfg v hv _ := h.policy hcfg v hv
  noPolicy := h.noPolicy

/-! ### Over whole runs -/

/-- A check reloads the store; with no file and no signal there is nothing to reload. -/
theorem reloaded_current {st : State} (h : Fresh lib cfg st.store st.files) (hseen : Complete st.files seen) :
    Current lib cfg (st.reloaded lib cfg seen) st.files := by
  unfold State.reloaded
  split_ifs with hreload
  · exact reload_current (fun _ => h) h.noPolicy hseen
  · obtain ⟨-, hfile, hpolicy⟩ : ¬ st.sighup = true ∧ ¬ cfg.authTokenFile = true ∧ ¬ cfg.tokenPolicyFile = true := by
      simpa [not_or] using hreload
    have hfile' := Bool.eq_false_of_not_eq_true hfile
    refine ⟨fun t ht => ?_, fun hcfg => absurd hcfg hpolicy, fun hcfg => h.noPolicy hcfg⟩
    rw [tokenOf, hfile'] at ht
    exact (h.fixed hfile').trans (Option.some.inj ht)

theorem fresh_step {st st' : State} {log es : List Event} {l : Label} (h : Fresh lib cfg st.store st.files)
    (hl : Faithful st log l) (hstep : st.step lib cfg hash l = some (st', es)) : Fresh lib cfg st'.store st'.files := by
  cases l with
  | writeToken v =>
    cases hstep
    refine ⟨fun hcfg w hw hm _ => ?_, h.fixed, h.policy, h.noPolicy⟩
    obtain rfl : v = some w := hw
    exact absurd hm.symm (by simpa [Faithful] using hl)
  | writePolicy v =>
    cases hstep
    refine ⟨h.file, h.fixed, fun hcfg w hw hm => ?_, h.noPolicy⟩
    obtain rfl : v = some w := hw
    exact absurd hm.symm (by simpa [Faithful] using hl)
  | sighup =>
    cases hstep
    exact h
  | check presented now seen =>
    cases hstep
    exact (reloaded_current h hl).fresh

/-- What the policy says is what the store holds. -/
theorem Current.entries (h : Current lib cfg s files)
    (hplain : ∀ v, files.policy = some v → plainDates lib v.content = true) {es : List Entry}
    (hes : entriesOf lib cfg files = some es) : List.Forall₂ Same es s.policies := by
  unfold entriesOf at hes
  split_ifs at hes with hcfg
  · obtain ⟨v, hv, hdoc⟩ := Option.bind_eq_some_iff.mp hes
    obtain ⟨pes, hload, hsame⟩ := (loadPolicy_plain lib (hplain v hv)).1 es hdoc
    rwa [h.policy hcfg v hv pes hload]
  · cases hes
    rw [h.noPolicy (Bool.eq_false_of_not_eq_true hcfg)]
    exact .nil

/-- A malformed document leaves the policy as it was. -/
theorem reloaded_malformed {st : State} (hseen : Complete st.files seen)
    (hplain : ∀ v, st.files.policy = some v → plainDates lib v.content = true)
    (hnone : entriesOf lib cfg st.files = none) : (st.reloaded lib cfg seen).policies = st.store.policies := by
  unfold entriesOf at hnone
  split_ifs at hnone with hcfg
  unfold State.reloaded
  rw [if_pos (.inr (.inr hcfg)), TokenStore.reload, hseen.2]
  refine (reloadPolicy_refused fun v hv => ?_).trans (reloadToken_policy st.store _ _).1
  exact (loadPolicy_plain lib (hplain v hv)).2 (Option.bind_eq_none_iff.mp hnone v hv)

/-- The digest of one token. -/
def alphaHash (_ : Bytes) : Block 32 :=
  ⟨[0x8e, 0xd3, 0xf6, 0xad, 0x68, 0x5b, 0x95, 0x9e, 0xad, 0x70, 0x22, 0x51, 0x8e, 0x1a, 0xf7, 0x6c,
    0xd8, 0x16, 0xf8, 0xe8, 0xec, 0x7c, 0xcd, 0xda, 0x1e, 0xd4, 0x01, 0x8e, 0x8f, 0x22, 0x23, 0xf8], rfl⟩

/-- A policy of one client, with the `expires` member of its entry. -/
def alphaPolicy (expires : List (String × JsonValue)) : JsonValue :=
  .obj [("tokens", .array [.obj ([("sha256", .text "8ed3f6ad685b959ead7022518e1af76cd816f8e8ec7ccdda1ed4018e8f2223f8"),
    ("tools", .text "*")] ++ expires)])]

def alphaText (expires : String) : Bytes :=
  (["\x7b\"tokens\":[\x7b\"sha256\":\"", "8ed3f6ad685b959ead7022518e1af76cd816f8e8ec7ccdda1ed4018e8f2223f8", "\",\"tools\":\"*\"", expires,
    "\x7d]\x7d"].map ascii).flatten

def noClients : Bytes := ascii "\x7b\"tokens\":[]\x7d"

theorem policies_utf8 : ([(noClients, .obj [("tokens", .array [])]),
    (alphaText ",\"expires\":\"2027-01-31\"", alphaPolicy [("expires", .text "2027-01-31")]),
    (alphaText ",\"expires\":1", alphaPolicy [("expires", .number (ascii "1"))])].all
      fun d : Bytes × JsonValue => d.2.utf8) = true := by
  simp only [List.all_cons, List.all_nil, alphaPolicy, JsonValue.obj, JsonValue.text, List.cons_append, List.nil_append,
    List.map_cons, List.map_nil]
  repeat rw [ascii_ofList]
  decide

/-- A library that knows the policy of no client and those of one whose entry ends on a
day, and with a number. -/
def policyLibrary : JsonLibrary :=
  .documents [(noClients, .obj [("tokens", .array [])]),
    (alphaText ",\"expires\":\"2027-01-31\"", alphaPolicy [("expires", .text "2027-01-31")]),
    (alphaText ",\"expires\":1", alphaPolicy [("expires", .number (ascii "1"))])] policies_utf8

theorem alphaText_ne_nil (expires : String) : alphaText expires ≠ [] := by
  rw [alphaText, List.map_cons, List.flatten_cons, ascii_ofList]
  exact List.cons_ne_nil _ _

theorem noClients_ne_alphaText (expires : String) : noClients ≠ alphaText expires := by
  intro h
  have htake := congrArg (List.take 12) h
  rw [noClients, alphaText, List.map_cons, List.flatten_cons, ascii_ofList, ascii_ofList,
    List.take_append_of_le_length] at htake
  · exact absurd htake (by decide)
  · decide

theorem policyLibrary_parse_day :
    policyLibrary.parse (alphaText ",\"expires\":\"2027-01-31\"") = some (alphaPolicy [("expires", .text "2027-01-31")]) := by
  refine JsonLibrary.documents_parse (alphaText_ne_nil _) ?_
  rw [List.find?_cons_of_neg (by rw [decide_eq_true_eq]; exact noClients_ne_alphaText _)]
  exact List.find?_cons_of_pos (decide_eq_true rfl)

theorem policyLibrary_parse_number :
    policyLibrary.parse (alphaText ",\"expires\":1") = some (alphaPolicy [("expires", .number (ascii "1"))]) := by
  have hne : alphaText ",\"expires\":\"2027-01-31\"" ≠ alphaText ",\"expires\":1" := by
    rw [alphaText, alphaText]
    simp only [List.map_cons, List.map_nil]
    repeat rw [ascii_ofList]
    decide
  refine JsonLibrary.documents_parse (alphaText_ne_nil _) ?_
  rw [List.find?_cons_of_neg (by rw [decide_eq_true_eq]; exact noClients_ne_alphaText _),
    List.find?_cons_of_neg (by rwa [decide_eq_true_eq])]
  exact List.find?_cons_of_pos (decide_eq_true rfl)

theorem day_plainDates : plainDates policyLibrary (alphaText ",\"expires\":\"2027-01-31\"") = true := by
  rw [plainDates, policyLibrary_parse_day, Option.bind_some, alphaPolicy]
  simp only [JsonValue.obj, JsonValue.text, List.cons_append, List.nil_append, List.map_cons, List.map_nil]
  repeat rw [ascii_ofList]
  decide

theorem number_malformed : documentOf policyLibrary (alphaText ",\"expires\":1") = none := by
  rw [← Option.isNone_iff_eq_none, documentOf, policyLibrary_parse_number, Option.bind_some, alphaPolicy]
  simp only [JsonValue.obj, JsonValue.text, List.cons_append, List.nil_append, List.map_cons, List.map_nil]
  repeat rw [ascii_ofList]
  decide

def bothFiles (token : String) (tokenTime : ℤ) (policy : Bytes) (policyTime : ℤ) : Files :=
  ⟨some ⟨ascii token, tokenTime⟩, some ⟨policy, policyTime⟩⟩

def wholly (files : Files) : Seen := ⟨files.token.map Version.content, files.policy.map Version.content⟩

/-- Both files are replaced, a second later. -/
def replaced : List Label :=
  [.check (ascii "alpha") 1700000000 (wholly (bothFiles "old" 100 noClients 100)), .writeToken (some ⟨ascii "new", 101⟩),
    .writePolicy (some ⟨alphaText ",\"expires\":\"2027-01-31\"", 101⟩)]

theorem replaced_faithful :
    StepsMeet (State.step policyLibrary ⟨[], true, true⟩ alphaHash) Faithful
      ⟨State.construct policyLibrary ⟨[], true, true⟩ (bothFiles "old" 100 noClients 100)
        (wholly (bothFiles "old" 100 noClients 100)), []⟩ replaced := by
  decide

theorem number_no_entries :
    entriesOf policyLibrary ⟨[], true, true⟩ (bothFiles "old" 100 (alphaText ",\"expires\":1") 101) = none := by
  rw [entriesOf, if_pos rfl, bothFiles, Option.bind_some]
  exact number_malformed

/-- After that run from the token `old` and no clients, a check that sees the whole of both
files does not follow them. -/
def Diverges (as : List Label) (presented token : String) : Prop :=
  ∃ c, exec (State.step policyLibrary ⟨[], true, true⟩ alphaHash)
      ⟨State.construct policyLibrary ⟨[], true, true⟩ (bothFiles "old" 100 noClients 100)
        (wholly (bothFiles "old" 100 noClients 100)), []⟩ as = some c ∧
    tokenOf ⟨[], true, true⟩ c.state.files = some (ascii token) ∧
    ∃ st cred, c.state.step policyLibrary ⟨[], true, true⟩ alphaHash
        (.check (ascii presented) 1700000000 (wholly c.state.files)) =
        some (st, [.checked (ascii presented) 1700000000 cred]) ∧
      ¬ Follows alphaHash (ascii token) (entriesOf policyLibrary ⟨[], true, true⟩ c.state.files) (ascii presented)
        1700000000 c.state.store st.store cred

end FractalSQL.Mcp.Tokens
