import FractalSQL.Lib.ByteStream
import FractalSQL.Lib.Machine
import FractalSQL.Provider.ReloadOrder

/-!
# The gate in front of the enterprise library

`ensure_enterprise_lib` checks the detached signature of the library, copies the bytes that
it checked into a private file and loads that file. Whatever stands on the disk at each of
these moments, and however calls and reloads follow one another, the code that is loaded is
the code whose signature was checked, unless the operator does without signatures.
-/
namespace FractalSQL.Provider
open Lib Lib.Stream

/-! ### The signature -/

/-- What `ent_verify_signature` finds when it opens the two files. -/
structure SigFiles where
  /-- The content of the `.sig` file, if there is one. -/
  sig : Option Bytes
  /-- The library, if it is opened, measured and read. -/
  lib : Option Bytes
  /-- The objects of the crypto library are allocated. -/
  crypto : Bool := true

/-- `ent_sig_result_t`, with the bytes that were verified. -/
inductive SigResult where
  | ok (bytes : Bytes)
  | missing
  | invalid
  | ioError
deriving DecidableEq

section Gate
variable (verify : Block 64 → Bytes → Bool)

/-- `ent_verify_signature`, under the public key that is fixed in `verify`. -/
def entVerifySignature (path : Bytes) (files : SigFiles) : SigResult :=
  if 4096 ≤ path.length + 4 then .ioError
  else match files.sig with
  | none => .missing
  | some content =>
    match takeExact 64 content with
    | some (sig, []) =>
      match files.lib with
      | none => .ioError
      | some lib => if ¬ files.crypto then .ioError else if verify sig lib then .ok lib else .invalid
    | _ => .invalid

/-- `ent_signature_gate`: refused, or what is to be loaded, the verified bytes or the path. -/
def entSignatureGate (requireSig : Bool) : SigResult → Option (Option Bytes)
  | .ok bytes => some (some bytes)
  | .invalid => none
  | .missing | .ioError => if requireSig then none else some none

/-! ### The load -/

/-- What one call of `ensure_enterprise_lib` meets. -/
structure Host where
  files : SigFiles
  /-- The calls of `write` on the anonymous file, when there is one. -/
  memfd : Option (List Xfer) := none
  /-- The temporary file is created, made executable, written and closed. -/
  temp : Bool := true
  /-- The private copy can be loaded. -/
  copyLoads : Bool := true
  /-- What is at the path when it is loaded by its name. -/
  atPath : Option Bytes := none
  /-- The required symbols are in the image. -/
  symbols : Bytes → Bool := fun _ => true

/-- The loop that fills the anonymous file gives up on an interruption. -/
def giveUp : Xfer → Xfer
  | .interrupts => .fails
  | c => c

/-- `ent_dlopen_verified_copy`: the image that is mapped. -/
def entDlopenVerifiedCopy (host : Host) (bytes : Bytes) : Option Bytes :=
  let temp := if host.temp ∧ host.copyLoads then some bytes else none
  match host.memfd with
  | none => temp
  | some calls =>
    match writeAll (calls.map giveUp) bytes with
    | (content, .done _) => if host.copyLoads then some content else none
    | _ => temp

/-- The image that is loaded from the path and whose symbols are resolved. -/
def loadFrom (requireSig : Bool) (path : Bytes) (host : Host) : Option Bytes :=
  match entSignatureGate requireSig (entVerifySignature verify path host.files) with
  | none => none
  | some (some bytes) => (entDlopenVerifiedCopy host bytes).filter host.symbols
  | some none => host.atPath.filter host.symbols

/-! ### The process -/

/-- The enterprise tier with the image behind `g_ent_handle`. -/
structure Loader where
  tier : Enterprise
  image : Option Bytes := none
  image_loaded : tier.loaded = image.isSome

/-- Before the first call. -/
def Loader.start (env : EnterpriseConfig) : Loader where
  tier := { config := env, loaded_lib := fun h => by cases h }
  image_loaded := rfl

inductive LoadEvent where
  /-- The gate is asked. -/
  | tried
  /-- A library is loaded, with what the gate had found. -/
  | loaded (path : Bytes) (requireSig : Bool) (result : SigResult) (image : Bytes)
  /-- A configuration is applied. -/
  | applied
deriving DecidableEq

inductive LoadLabel where
  /-- A call of a function of the enterprise tier. -/
  | call (host : Host)
  /-- A reload, as far as this tier goes. -/
  | reload (env : EnterpriseConfig) (cfg : ProviderCfg)

theorem Enterprise.ensureLib_loaded (e : Enterprise) (ok : Bool) (hnew : (e.loaded || e.attempted) = false)
    (hnamed : Named e.config.lib) : (e.ensureLib ok).loaded = ok := by
  rw [Enterprise.ensureLib, if_neg (by simp [hnew]), dif_pos hnamed]

theorem Enterprise.applyProvider_loaded {e e' : Enterprise} {env : EnterpriseConfig} {c : ProviderCfg}
    (h : e.applyProvider env c = some e') : e'.loaded = e.loaded := by
  rw [Enterprise.applyProvider] at h
  split at h
  · cases h
  · cases h
    rfl

/-- A reload that is taken while a library is in place names that library. -/
theorem Enterprise.applyProvider_lib {e e' : Enterprise} {env : EnterpriseConfig} {c : ProviderCfg}
    (hloaded : e.loaded = true) (h : e.applyProvider env c = some e') : e'.config.lib = e.config.lib := by
  rw [Enterprise.applyProvider] at h
  split at h
  · cases h
  · rename_i hsame
    cases h
    exact not_not.mp fun hne => hsame ⟨hloaded, hne⟩

theorem Enterprise.ensureLib_attempted (e : Enterprise) (ok : Bool) (hnew : (e.loaded || e.attempted) = false) :
    (e.ensureLib ok).attempted = true := by
  rw [Enterprise.ensureLib, if_neg (by simp [hnew])]
  split <;> rfl

/-- `ensure_enterprise_lib`. -/
def Loader.ensure (s : Loader) (host : Host) : Loader × List LoadEvent :=
  if hnew : (s.tier.loaded || s.tier.attempted) = true then (s, [])
  else if hnamed : Named s.tier.config.lib then
    let path := s.tier.config.lib.getD []
    let image := loadFrom verify s.tier.config.requireSig path host
    ({ tier := s.tier.ensureLib image.isSome
       image := image
       image_loaded := Enterprise.ensureLib_loaded _ _ (Bool.not_eq_true _ ▸ hnew) hnamed },
      .tried :: image.toList.map
        (.loaded path s.tier.config.requireSig (entVerifySignature verify path host.files)))
  else
    ({ s with
       tier := { s.tier with attempted := true } }, [])

/-- `fractalsql_enterprise_apply_provider`. -/
def Loader.apply (s : Loader) (env : EnterpriseConfig) (c : ProviderCfg) : Loader × List LoadEvent :=
  match h : s.tier.applyProvider env c with
  | none => (s, [])
  | some tier => ({ tier, image := s.image, image_loaded := (Enterprise.applyProvider_loaded h).trans s.image_loaded },
      [.applied])

/-- One critical section under `g_ent_lock`. -/
def Loader.step (s : Loader) : LoadLabel → Option (Loader × List LoadEvent)
  | .call host => some (s.ensure verify host)
  | .reload env c => some (s.apply env c)

end Gate

/-! ### What is loaded -/

/-- What a load rests on: a signature that was checked over the very bytes, or a configuration that
does without one, and then there was none or it could not be checked. -/
def LoadEvent.Sound (verify : Block 64 → Bytes → Bool) : LoadEvent → Prop
  | .tried | .applied => True
  | .loaded _ _ (.ok bytes) image => image = bytes ∧ ∃ sig, verify sig bytes = true
  | .loaded _ _ .invalid _ => False
  | .loaded _ requireSig .missing _ | .loaded _ requireSig .ioError _ => requireSig = false

def LoadEvent.image : LoadEvent → Option Bytes
  | .loaded _ _ _ image => some image
  | _ => none

def LoadEvent.path : LoadEvent → Option Bytes
  | .loaded path _ _ _ => some path
  | _ => none

/-- What every run keeps: each load is sound, there is one at most, its image stays in place and
its path in force, and a load that failed is not tried again before the next reload. -/
structure Loader.Kept (verify : Block 64 → Bytes → Bool) (s : Loader) (log : List LoadEvent) : Prop where
  sound : ∀ e ∈ log, e.Sound verify
  latched : log.filterMap LoadEvent.image = s.image.toList
  path : ∀ e ∈ log, ∀ path ∈ e.path, s.tier.config.lib = some path
  tries : log.count .tried + (if s.tier.attempted then 0 else 1) ≤ log.count .applied + 1

section Runs
variable {verify : Block 64 → Bytes → Bool}

theorem entVerifySignature_ok {path bytes : Bytes} {files : SigFiles}
    (h : entVerifySignature verify path files = .ok bytes) : ∃ sig, verify sig bytes = true := by
  rw [entVerifySignature] at h
  split at h
  · cases h
  · split at h
    · cases h
    · split at h
      · rename_i sig hsig
        split at h
        · cases h
        · split_ifs at h with hcrypto hverify
          obtain rfl := SigResult.ok.inj h
          exact ⟨sig, hverify⟩
      · cases h

/-- The private copy holds the bytes that were verified. -/
theorem entDlopenVerifiedCopy_eq {host : Host} {bytes image : Bytes} (h : entDlopenVerifiedCopy host bytes = some image) :
    image = bytes := by
  have htemp (h : (if host.temp ∧ host.copyLoads then some bytes else none) = some image) : image = bytes := by
    split_ifs at h
    exact (Option.some.inj h).symm
  rw [entDlopenVerifiedCopy] at h
  split at h
  · exact htemp h
  · split at h
    · rename_i content left hwrite
      split_ifs at h
      obtain rfl := Option.some.inj h
      exact writeAll_done hwrite
    · exact htemp h

theorem loadFrom_sound {requireSig : Bool} {path image : Bytes} {host : Host}
    (h : loadFrom verify requireSig path host = some image) :
    (LoadEvent.loaded path requireSig (entVerifySignature verify path host.files) image).Sound verify := by
  rw [loadFrom] at h
  cases hsig : entVerifySignature verify path host.files with
  | ok bytes =>
    rw [hsig] at h
    obtain ⟨hcopy, -⟩ := Option.filter_eq_some_iff.mp h
    exact ⟨entDlopenVerifiedCopy_eq hcopy, entVerifySignature_ok hsig⟩
  | invalid =>
    rw [hsig] at h
    cases h
  | missing | ioError =>
    rw [hsig] at h
    cases requireSig with
    | false => rfl
    | true => cases h

theorem Loader.Kept.start (env : EnterpriseConfig) : (Loader.start env).Kept verify [] where
  sound e he := by cases he
  latched := rfl
  path e he := by cases he
  tries := Nat.le_refl _

variable {s : Loader} {log : List LoadEvent}

/-- The tier that the reloads see goes on as if only the outcome of the load were known. -/
theorem Loader.ensure_tier (s : Loader) (host : Host) :
    (s.ensure verify host).1.tier =
      s.tier.ensureLib (loadFrom verify s.tier.config.requireSig (s.tier.config.lib.getD []) host).isSome := by
  rw [Loader.ensure]
  split
  · rename_i hdone
    rw [Enterprise.ensureLib, if_pos hdone]
  · rename_i hnew
    split
    · rfl
    · rename_i hnamed
      rw [Enterprise.ensureLib, if_neg hnew, dif_neg hnamed]

theorem LoadEvent.image_loads {path : Bytes} {requireSig : Bool} {result : SigResult} (image : Option Bytes) :
    (image.toList.map (LoadEvent.loaded path requireSig result)).filterMap LoadEvent.image = image.toList := by
  cases image <;> rfl

theorem LoadEvent.count_loads {path : Bytes} {requireSig : Bool} {result : SigResult} {e : LoadEvent}
    (image : Option Bytes) (he : e.image = none) :
    (image.toList.map (LoadEvent.loaded path requireSig result)).count e = 0 := by
  apply List.count_eq_zero.mpr
  intro hmem
  obtain ⟨x, -, rfl⟩ := List.mem_map.mp hmem
  cases he

/-- Without an image no load is on record. -/
theorem Loader.Kept.no_loads (h : s.Kept verify log) (himage : s.image = none) {e : LoadEvent} (he : e ∈ log) :
    e.image = none := by
  have hlatched := h.latched
  rw [himage, Option.toList_none, List.filterMap_eq_nil_iff] at hlatched
  exact hlatched e he

theorem LoadEvent.path_eq_none {e : LoadEvent} (h : e.image = none) : e.path = none := by
  cases e with
  | loaded => cases h
  | tried | applied => rfl

/-- A first try, or the first one since a reload. -/
theorem Loader.Kept.load (h : s.Kept verify log) (host : Host) (himage : s.image = none)
    (hattempted : s.tier.attempted = false) {s' : Loader} {path : Bytes}
    (himage' : s'.image = loadFrom verify s.tier.config.requireSig path host)
    (hpath' : s'.tier.config.lib = some path) (hattempted' : s'.tier.attempted = true) :
    s'.Kept verify (log ++ .tried :: s'.image.toList.map
      (.loaded path s.tier.config.requireSig (entVerifySignature verify path host.files))) where
  sound e he := by
    rw [List.mem_append, List.mem_cons, List.mem_map] at he
    rcases he with hold | rfl | ⟨image, hnew, rfl⟩
    · exact h.sound e hold
    · trivial
    · apply loadFrom_sound
      rw [← himage']
      exact Option.mem_toList.mp hnew
  latched := by
    have hlatched := h.latched
    rw [himage] at hlatched
    rw [List.filterMap_append, hlatched, List.filterMap_cons, LoadEvent.image_loads]
    rfl
  path e he p hp := by
    rw [List.mem_append, List.mem_cons, List.mem_map] at he
    rcases he with hold | rfl | ⟨image, -, rfl⟩
    · rw [LoadEvent.path_eq_none (h.no_loads himage hold)] at hp
      cases hp
    · cases hp
    · rw [hpath']
      exact hp
  tries := by
    have htries := h.tries
    rw [hattempted, if_neg Bool.false_ne_true] at htries
    rw [hattempted', if_pos rfl, List.count_append, List.count_append, List.count_cons_self,
      List.count_cons_of_ne (by decide), LoadEvent.count_loads _ rfl, LoadEvent.count_loads _ rfl]
    omega

theorem Loader.Kept.ensure (h : s.Kept verify log) (host : Host) :
    (s.ensure verify host).1.Kept verify (log ++ (s.ensure verify host).2) := by
  rw [Loader.ensure]
  split
  · rw [List.append_nil]
    exact h
  · rename_i hnew
    rw [Bool.or_eq_true, not_or, Bool.not_eq_true, Bool.not_eq_true] at hnew
    obtain ⟨hloaded, hattempted⟩ := hnew
    have himage : s.image = none := by
      rw [← Option.isNone_iff_eq_none, ← Option.not_isSome, ← s.image_loaded, hloaded]
      rfl
    split
    · rename_i hnamed
      apply h.load host himage hattempted rfl
      · rw [Enterprise.ensureLib_config]
        cases hlib : s.tier.config.lib with
        | none =>
          rw [hlib] at hnamed
          exact absurd rfl hnamed
        | some path => rfl
      · exact Enterprise.ensureLib_attempted _ _ (by simp [hloaded, hattempted])
    · rw [List.append_nil]
      have htries := h.tries
      rw [hattempted, if_neg Bool.false_ne_true] at htries
      exact ⟨h.sound, h.latched, h.path, (Nat.le_succ _).trans htries⟩

theorem Loader.Kept.apply (h : s.Kept verify log) (env : EnterpriseConfig) (c : ProviderCfg) :
    (s.apply env c).1.Kept verify (log ++ (s.apply env c).2) := by
  rw [Loader.apply]
  split
  · rw [List.append_nil]
    exact h
  · rename_i tier happly
    constructor
    · intro e he
      rw [List.mem_append, List.mem_singleton] at he
      rcases he with hold | rfl
      · exact h.sound e hold
      · trivial
    · rw [List.filterMap_append, h.latched]
      exact List.append_nil _
    · intro e he p hp
      rw [List.mem_append, List.mem_singleton] at he
      rcases he with hold | rfl
      · by_cases hloaded : s.tier.loaded = true
        · -- the reload was taken, so it kept the path of the library that is in place
          rw [Enterprise.applyProvider_lib hloaded happly]
          exact h.path e hold p hp
        · have himage : s.image = none := by
            rw [← Option.isNone_iff_eq_none, ← Option.not_isSome, ← s.image_loaded, Bool.not_eq_true', ← Bool.not_eq_true]
            exact hloaded
          rw [LoadEvent.path_eq_none (h.no_loads himage hold)] at hp
          cases hp
      · cases hp
    · have htries := h.tries
      rw [List.count_append, List.count_append, List.count_singleton_self, List.count_singleton]
      dsimp only
      split_ifs at htries ⊢ <;> simp_all <;> omega

/-- In every run of calls and reloads, whatever is on the disk at each moment. -/
theorem loads_kept (env : EnterpriseConfig) {labels : List LoadLabel} {final : Lib.Config Loader LoadEvent}
    (hrun : exec (Loader.step verify) ⟨Loader.start env, []⟩ labels = some final) : final.state.Kept verify final.log := by
  apply exec_invariant _ (Loader.Kept.start env) hrun
  intro s log label s' es hkept hstep
  cases label with
  | call host =>
    obtain ⟨rfl, rfl⟩ := Prod.mk.inj (Option.some.inj hstep)
    exact hkept.ensure host
  | reload env c =>
    obtain ⟨rfl, rfl⟩ := Prod.mk.inj (Option.some.inj hstep)
    exact hkept.apply env c

/-- A signed library that fails to load, a call that does not try again, a reload and a load. -/
theorem loads_kept_reloaded :
    let verify : Block 64 → Bytes → Bool := fun sig _ => sig.val.all (· == 1)
    let signed : Bool → Host := fun loads =>
      { files := { sig := some (List.replicate 64 1), lib := some [7] }, memfd := some [.moves 0], copyLoads := loads }
    let env : EnterpriseConfig := { lib := some [97], ledgerPath := none, ledgerKey := none, requireSig := true }
    let labels : List LoadLabel := [.call (signed false), .call (signed true),
      .reload env ⟨fun _ => none, fun _ => none, fun _ => none⟩, .call (signed true)]
    ∃ final, exec (Loader.step verify) ⟨Loader.start env, []⟩ labels = some final ∧
      final.log = [.tried, .applied, .tried, .loaded [97] true (.ok [7]) [7]] ∧ final.state.Kept verify final.log := by
  intro verify signed env labels
  have hlog : (exec (Loader.step verify) ⟨Loader.start env, []⟩ labels).map (·.log) =
      some [.tried, .applied, .tried, .loaded [97] true (.ok [7]) [7]] := by decide
  obtain ⟨final, hrun, hfinal⟩ := Option.map_eq_some_iff.mp hlog
  exact ⟨final, hrun, hfinal, loads_kept env hrun⟩

end Runs

end FractalSQL.Provider
