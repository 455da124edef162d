/-
Formshift/InstallOrder.lean

Concurrent installs.

Any number of threads call `install`; one at a time holds the lock and takes
the steps of `Installs`.  With the lock free the manager stands where the
installs that succeeded, run one by one, would have brought it, and an install
that raises leaves it as it found it (`installs_atomic`).
-/
import Formshift.Installs
import Formshift.Lib.History

namespace Formshift

open Py Steps

/-! ### Calls and the lock -/

/-- The call that holds the lock. -/
structure Holder where
  call : Nat
  source : Source
  /-- The manager as it was when the lock was taken; nothing reads it. -/
  entered : Manager
  progress : Progress

/-- A manager and the calls of `install`, with what each has returned. -/
structure Installs where
  manager : Manager
  holder : Option Holder
  calls : List (Source × Option InstallResult)

inductive InstallsAct where
  | call (source : Source)
  /-- Call `i` takes the lock. -/
  | enter (i : Nat)
  | step (a : InstallAct)
  /-- The holder returns. -/
  | leave

def Installs.start (mgr : Manager) : Installs := ⟨mgr, none, []⟩

def installsStep (site : Site) (P : Installs) : InstallsAct → Option Installs
  | .call source => some { P with calls := P.calls ++ [(source, none)] }
  | .enter i =>
    match P.holder, P.calls[i]? with
    | none, some (source, none) => some { P with holder := some ⟨i, source, P.manager, .checking⟩ }
    | _, _ => none
  | .step a =>
    match P.holder with
    | some h => (installStep site h.source (P.manager, h.progress) a).map fun y =>
        { P with
          manager := y.1
          holder := some { h with progress := y.2 } }
    | none => none
  | .leave =>
    match P.holder with
    | some ⟨i, source, _, .returning result⟩ => some { P with
        holder := none
        calls := P.calls.set i (source, some result) }
    | _ => none

def InstallsOk : InstallsAct → Prop
  | .step a => InstallOk a
  | .call _ | .enter _ | .leave => True

abbrev InstallsReach (site : Site) : Installs → Installs → Prop :=
  Reaches (Fires (installsStep site) fun _ => InstallsOk)

/-! ### One by one -/

/-- These installs, each run alone to its success, lead from `mgr` here. -/
inductive OneByOne (site : Site) (mgr : Manager) : List (Source × InstalledExtension) → Manager → Prop
  | nil : OneByOne site mgr [] mgr
  | install {done mgr' mgr'' source extension} (h : OneByOne site mgr done mgr')
      (hrun : Reaches (InstallSteps site source) (mgr', .checking)
        (mgr'', .returning (.ok extension))) :
      OneByOne site mgr (done ++ [(source, extension)]) mgr''

/-- The manager has what it had, and these extensions whole. -/
structure Extended (mgr : Manager) (extensions : List InstalledExtension) (mgr' : Manager) :
    Prop where
  registry : ∀ name m, mgr'.registry.get name = some m ↔ mgr.registry.get name = some m ∨
    ∃ x ∈ extensions, ∃ spec ∈ x.manifest.modules, spec.name = name ∧ spec.manifest = m
  /-- No module is declared twice, by whoever. -/
  disjoint : (mgr.registry.modules.keys ++ extensions.flatMap fun x =>
    x.manifest.modules.map fun spec => Str.text spec.name).Nodup
  installed : ∀ name x, mgr'.installed.lookup name = some x ↔ mgr.installed.lookup name = some x ∨
    x ∈ extensions ∧ x.manifest.name = name
  dirs_kept : ∀ name d, mgr.dirs.lookup name = some d → mgr'.dirs.lookup name = some d
  dirs : ∀ name, name ∈ mgr'.dirs ↔ name ∈ mgr.dirs ∨ ∃ x ∈ extensions, x.manifest.name = name

section Chain

variable {site : Site} {source : Source} {mgr mgr' : Manager} {m : ExtensionManifest}
  {extensions : List InstalledExtension}

theorem Extended.refl (mgr : Manager) : Extended mgr [] mgr := by
  refine ⟨by simp, ?_, by simp, fun _ _ h => h, by simp⟩
  simpa using AList.keys_nodup mgr.registry.modules

theorem isSome_get_iff {reg : ModuleRegistry} {name : Str} :
    (∃ m, reg.get name = some m) ↔ name ∈ reg.modules.keys := by
  rw [← AList.mem_keys, ← AList.lookup_isSome]
  exact Option.isSome_iff_exists.symm

/-- A name that is free now was free before, and no extension declares it. -/
theorem Extended.free (h : Extended mgr extensions mgr') {name : Str}
    (hnone : mgr'.registry.get name = none) : mgr.registry.get name = none ∧
      ∀ y ∈ extensions, ∀ spec ∈ y.manifest.modules, Str.text spec.name ≠ name := by
  constructor
  · rw [Option.eq_none_iff_forall_ne_some]
    intro m hm
    rw [(h.registry name m).mpr (Or.inl hm)] at hnone
    cases hnone
  · intro y hy spec hspec hname
    rw [(h.registry name spec.manifest).mpr (Or.inr ⟨y, hy, spec, hspec, hname, rfl⟩)] at hnone
    cases hnone

section Add

variable (h : Extended mgr extensions mgr') {x : InstalledExtension}
include h

/-- The registry with one more extension. -/
theorem Extended.registry_add
    (hnodup : (x.manifest.modules.map ExtensionModuleSpec.name).Nodup)
    (hfree : ∀ spec ∈ x.manifest.modules, mgr'.registry.get spec.name = none) (name : Str)
    (module : ModuleManifest) :
    (mgr'.registry.setAll x.manifest.modules).get name = some module ↔
      mgr.registry.get name = some module ∨ ∃ y ∈ extensions ++ [x],
        ∃ spec ∈ y.manifest.modules, spec.name = name ∧ spec.manifest = module := by
  by_cases hin : ∃ spec ∈ x.manifest.modules, Str.text spec.name = name
  · -- one of its own modules, whose name nobody else has
    obtain ⟨spec, hspec, rfl⟩ := hin
    obtain ⟨hbefore, hothers⟩ := h.free (hfree spec hspec)
    rw [get_setAll_of_mem hnodup hspec]
    constructor
    · intro heq
      obtain rfl := Option.some.inj heq
      exact Or.inr ⟨x, by simp, spec, hspec, rfl, rfl⟩
    · rintro (hold | ⟨y, hy, s, hs, hname, rfl⟩)
      · rw [hbefore] at hold
        cases hold
      · rcases List.mem_append.mp hy with hy | hy
        · exact absurd hname (hothers y hy s hs)
        · obtain rfl := List.mem_singleton.mp hy
          rw [List.inj_on_of_nodup_map hnodup hs hspec (Str.text.inj hname)]
  -- any other name reads as it did before
  · rw [get_setAll_of_ne fun spec hspec hname => hin ⟨spec, hspec, hname⟩, h.registry]
    refine or_congr_right ⟨?_, ?_⟩
    · rintro ⟨y, hy, hrest⟩
      exact ⟨y, List.mem_append_left _ hy, hrest⟩
    · rintro ⟨y, hy, spec, hspec, hname, heq⟩
      rcases List.mem_append.mp hy with hy | hy
      · exact ⟨y, hy, spec, hspec, hname, heq⟩
      · obtain rfl := List.mem_singleton.mp hy
        exact absurd ⟨spec, hspec, hname⟩ hin

theorem Extended.disjoint_add
    (hnodup : (x.manifest.modules.map ExtensionModuleSpec.name).Nodup)
    (hfree : ∀ spec ∈ x.manifest.modules, mgr'.registry.get spec.name = none) :
    (mgr.registry.modules.keys ++ (extensions ++ [x]).flatMap fun y =>
      y.manifest.modules.map fun spec => Str.text spec.name).Nodup := by
  rw [List.flatMap_append, ← List.append_assoc]
  have hnames : (x.manifest.modules.map fun spec => Str.text spec.name).Nodup := by
    have hmap := hnodup.map (f := Str.text) fun _ _ => Str.text.inj
    rwa [List.map_map] at hmap
  refine List.nodup_append.mpr ⟨h.disjoint, by simpa using hnames, ?_⟩
  rintro name hold name' hnew rfl
  simp only [List.flatMap_cons, List.flatMap_nil, List.append_nil] at hnew
  obtain ⟨spec, hspec, rfl⟩ := List.mem_map.mp hnew
  obtain ⟨hbefore, hothers⟩ := h.free (hfree spec hspec)
  rcases List.mem_append.mp hold with hold | hold
  · obtain ⟨m', hm'⟩ := isSome_get_iff.mpr hold
    rw [hbefore] at hm'
    cases hm'
  · obtain ⟨y, hy, hname⟩ := List.mem_flatMap.mp hold
    obtain ⟨s, hs, hsname⟩ := List.mem_map.mp hname
    exact hothers y hy s hs hsname

theorem Extended.installed_add (hno : x.manifest.name ∉ mgr'.installed) (name : String)
    (y : InstalledExtension) :
    (mgr'.installed.insert x.manifest.name x).lookup name = some y ↔
      mgr.installed.lookup name = some y ∨ y ∈ extensions ++ [x] ∧ y.manifest.name = name := by
  have hnone : ∀ z, mgr'.installed.lookup x.manifest.name ≠ some z := fun z hz =>
    hno (Dict.mem_of_lookup hz)
  rw [Dict.lookup_insert_ite]
  split
  · rename_i hname
    -- the new name: nobody else had it
    subst hname
    constructor
    · intro heq
      obtain rfl := Option.some.inj heq
      exact Or.inr ⟨by simp, rfl⟩
    · rintro (hold | ⟨hy, hname⟩)
      · exact absurd ((h.installed _ y).mpr (Or.inl hold)) (hnone y)
      · rcases List.mem_append.mp hy with hy | hy
        · exact absurd ((h.installed _ y).mpr (Or.inr ⟨hy, hname⟩)) (hnone y)
        · rw [List.mem_singleton.mp hy]
  · rename_i hname
    -- any other name reads as before
    rw [h.installed]
    refine or_congr_right (and_congr_left fun hy => ?_)
    rw [List.mem_append, List.mem_singleton]
    refine (or_iff_left ?_).symm
    rintro rfl
    exact hname hy.symm

end Add

/-- One more extension, whose names are all free. -/
theorem Extended.add (h : Extended mgr extensions mgr') {x : InstalledExtension}
    (hnodup : (x.manifest.modules.map ExtensionModuleSpec.name).Nodup)
    (hfree : ∀ spec ∈ x.manifest.modules, mgr'.registry.get spec.name = none)
    (hno : x.manifest.name ∉ mgr'.installed) {dirs : Dict String ExtensionDir}
    (hkept : ∀ name d, mgr'.dirs.lookup name = some d → dirs.lookup name = some d)
    (hdirs : ∀ name, name ∈ dirs ↔ name = x.manifest.name ∨ name ∈ mgr'.dirs) :
    Extended mgr (extensions ++ [x]) {
      registry := mgr'.registry.setAll x.manifest.modules
      installed := mgr'.installed.insert x.manifest.name x
      dirs := dirs } := by
  constructor
  case registry => exact h.registry_add hnodup hfree
  case disjoint => exact h.disjoint_add hnodup hfree
  case installed => exact h.installed_add hno
  case dirs_kept =>
    intro name d hd
    exact hkept name d (h.dirs_kept name d hd)
  case dirs =>
    intro name
    rw [hdirs, h.dirs]
    constructor
    · rintro (rfl | hold | ⟨y, hy, hname⟩)
      · exact Or.inr ⟨x, by simp, rfl⟩
      · exact Or.inl hold
      · exact Or.inr ⟨y, List.mem_append_left _ hy, hname⟩
    · rintro (hold | ⟨y, hy, hname⟩)
      · exact Or.inr (Or.inl hold)
      · rcases List.mem_append.mp hy with hy | hy
        · exact Or.inr (Or.inr ⟨y, hy, hname⟩)
        · rw [List.mem_singleton.mp hy] at hname
          exact Or.inl hname.symm

/-- One more install. -/
theorem Extended.commit (h : Extended mgr extensions mgr') (hpassed : Passed site source mgr' m) :
    Extended mgr (extensions ++ [⟨m, m.name⟩]) (mgr'.commit site source m) := by
  refine h.add (x := ⟨m, m.name⟩) hpassed.ok.modules_nodup hpassed.free hpassed.not_installed
    ?_ fun name => AList.mem_insert _
  intro name d hd
  rw [Dict.lookup_insert_ite, if_neg, hd]
  rintro rfl
  exact hpassed.no_dir (Dict.mem_of_lookup hd)

/-- **One by one, nothing is replaced and nothing is left out.** -/
theorem OneByOne.extended {done : List (Source × InstalledExtension)}
    (h : OneByOne site mgr done mgr') : Extended mgr (done.map Prod.snd) mgr' := by
  induction h with
  | nil => exact Extended.refl mgr
  | @install done mgr' mgr'' source extension _ hrun ih =>
      obtain ⟨m, hm, rfl, rfl⟩ := install_inv hrun
      rw [List.map_append]
      exact ih.commit (preflight_ok hm)

end Chain

/-! ### Any number of calls -/

/-- The manager as it is while nobody is in. -/
def Installs.settled (P : Installs) : Manager :=
  match P.holder with
  | none => P.manager
  | some h => h.entered

/-- The calls that have succeeded, in the order in which they had the lock. -/
structure InOrder (site : Site) (mgr : Manager) (P : Installs)
    (order : List (Nat × Source × InstalledExtension)) : Prop where
  calls_nodup : (order.map Prod.fst).Nodup
  succeeded : ∀ i source x, (i, source, x) ∈ order ↔ P.calls[i]? = some (source, some (.ok x))
  serial : OneByOne site mgr (order.map Prod.snd) P.settled

/-- What holds of the one inside. -/
def HolderInv (site : Site) (P : Installs) : Prop :=
  ∀ h, P.holder = some h → P.calls[h.call]? = some (h.source, none) ∧
    Reaches (InstallSteps site h.source) (h.entered, .checking) (P.manager, h.progress)

section Calls

variable {site : Site} {mgr : Manager} {P P' : Installs}

theorem HolderInv.step {a : InstallsAct} (hholder : HolderInv site P) (hok : InstallsOk a)
    (hs : installsStep site P a = some P') : HolderInv site P' := by
  obtain ⟨manager, holder, calls⟩ := P
  cases a with
  | call source =>
      obtain rfl := Option.some.inj hs
      intro g hg
      obtain ⟨hc, hrun⟩ := hholder g hg
      exact ⟨getElem?_concat hc _, hrun⟩
  | enter i =>
      simp only [installsStep] at hs
      split at hs
      · rename_i source hc
        obtain rfl := Option.some.inj hs
        intro g hg
        obtain rfl := Option.some.inj hg
        -- the call that got the lock has taken no step yet
        exact ⟨hc, .refl⟩
      · cases hs
  | step a =>
      cases holder with
      | none => cases hs
      | some g =>
          obtain ⟨y, hy, rfl⟩ := Option.map_eq_some_iff.mp hs
          obtain ⟨hc, hrun⟩ := hholder g rfl
          intro g' hg'
          obtain rfl := Option.some.inj hg'
          -- the holder's own run grows by one step
          exact ⟨hc, hrun.tail ⟨a, hok, hy⟩⟩
  | leave =>
      simp only [installsStep] at hs
      split at hs
      · obtain rfl := Option.some.inj hs
        intro g hg
        cases hg
      · cases hs

section Leave

variable {order : List (Nat × Source × InstalledExtension)} {manager : Manager} {h : Holder}
  {calls : List (Source × Option InstallResult)}
  (horder : InOrder site mgr ⟨manager, some h, calls⟩ order)
  (hc : calls[h.call]? = some (h.source, none))
include horder hc

/-- What the other calls have returned, once the one inside returns. -/
theorem InOrder.others (result : InstallResult) (k : Nat) (source : Source)
    (x : InstalledExtension) : (k, source, x) ∈ order ↔ k ≠ h.call ∧
      (calls.set h.call (h.source, some result))[k]? = some (source, some (.ok x)) := by
  rw [horder.succeeded]
  show calls[k]? = _ ↔ _
  by_cases hk : k = h.call
  · subst hk
    refine iff_of_false (fun hret => ?_) fun hret => hret.1 rfl
    rw [hc] at hret
    cases hret
  · rw [List.getElem?_set_ne (Ne.symm hk), and_iff_right hk]

/-- A call that succeeds comes last. -/
theorem InOrder.succeeds {x : InstalledExtension}
    (hrun : Reaches (InstallSteps site h.source) (h.entered, .checking)
      (manager, .returning (.ok x))) :
    InOrder site mgr ⟨manager, none, calls.set h.call (h.source, some (.ok x))⟩
      (order ++ [(h.call, h.source, x)]) := by
  have hothers := horder.others hc (.ok x)
  refine ⟨?_, fun k source y => ?_, ?_⟩
  · rw [List.map_append]
    refine List.nodup_append.mpr ⟨horder.calls_nodup, List.nodup_singleton _, ?_⟩
    rintro k hk k' hk' rfl
    obtain ⟨⟨k, source, y⟩, hmem, rfl⟩ := List.mem_map.mp hk
    exact ((hothers k source y).mp hmem).1 (List.mem_singleton.mp hk')
  · rw [List.mem_append, hothers, List.mem_singleton]
    show _ ↔ (calls.set h.call (h.source, some (.ok x)))[k]? = _
    by_cases hk : k = h.call
    · subst hk
      rw [List.getElem?_set_self (List.getElem?_eq_some_iff.mp hc).1]
      simp [eq_comm]
    · simp [hk]
  · rw [List.map_append]
    exact .install horder.serial hrun

/-- A call that fails has left everything as it was. -/
theorem InOrder.fails {e : InstallError}
    (hrun : Reaches (InstallSteps site h.source) (h.entered, .checking)
      (manager, .returning (.error e))) :
    InOrder site mgr ⟨manager, none, calls.set h.call (h.source, some (.error e))⟩ order := by
  refine ⟨horder.calls_nodup, fun k source y => ?_, ?_⟩
  · rw [horder.others hc (.error e)]
    refine and_iff_right_of_imp fun hret => ?_
    rintro rfl
    have hself := List.getElem?_set_self (a := (h.source, some (.error e)))
      (List.getElem?_eq_some_iff.mp hc).1
    rw [show (calls.set h.call (h.source, some (.error e)))[h.call]? = _ from hself] at hret
    cases hret
  · have hsame : manager = h.entered := install_inv hrun
    show OneByOne site mgr _ manager
    rw [hsame]
    exact horder.serial

end Leave

/-- **The step lemma of the calls**: the order grows where one returns. -/
theorem InOrder.step {a : InstallsAct} (h : ∃ order, InOrder site mgr P order)
    (hholder : HolderInv site P) (hs : installsStep site P a = some P') :
    ∃ order, InOrder site mgr P' order := by
  obtain ⟨order, horder⟩ := h
  have hwhole := horder
  obtain ⟨hnodup, hsucceeded, hserial⟩ := horder
  obtain ⟨manager, holder, calls⟩ := P
  cases a with
  | call source =>
      obtain rfl := Option.some.inj hs
      refine ⟨order, hnodup, fun i src x => ?_, hserial⟩
      rw [hsucceeded]
      refine ⟨fun hc => getElem?_concat hc _, fun hc => ?_⟩
      rcases Nat.lt_or_ge i calls.length with hlt | hge
      · exact (List.getElem?_append_left hlt).symm.trans hc
      · -- the new call has returned nothing
        rw [List.getElem?_append_right hge, List.getElem?_singleton] at hc
        split at hc
        · cases hc
        · cases hc
  | enter i =>
      simp only [installsStep] at hs
      split at hs
      · obtain rfl := Option.some.inj hs
        exact ⟨order, hnodup, hsucceeded, hserial⟩
      · cases hs
  | step a =>
      cases holder with
      | none => cases hs
      | some g =>
          obtain ⟨y, -, rfl⟩ := Option.map_eq_some_iff.mp hs
          exact ⟨order, hnodup, hsucceeded, hserial⟩
  | leave =>
      simp only [installsStep] at hs
      split at hs
      · rename_i i source entered result
        obtain rfl := Option.some.inj hs
        obtain ⟨hc, hrun⟩ := hholder _ rfl
        cases result with
        -- a success is appended to the order
        | ok x => exact ⟨_, hwhole.succeeds hc hrun⟩
        -- a failure leaves the order alone
        | error e => exact ⟨_, hwhole.fails hc hrun⟩
      · cases hs

theorem installs_inv (hrun : InstallsReach site (.start mgr) P) :
    (∃ order, InOrder site mgr P order) ∧ HolderInv site P := by
  refine Reaches.invariant (I := fun P => (∃ order, InOrder site mgr P order) ∧ HolderInv site P)
    ?_ hrun ⟨⟨[], List.nodup_nil, by simp [Installs.start], .nil⟩, fun h hh => by cases hh⟩
  rintro P P' ⟨a, hok, hs⟩ ⟨horder, hholder⟩
  exact ⟨InOrder.step horder hholder hs, hholder.step hok hs⟩

/-- **Installs are atomic and serializable**: an install that raises leaves the
manager as it found it, and with the lock free the manager is where the
installs that succeeded, run one by one, bring it: everything there was, and
each of their extensions whole. -/
theorem installs_atomic (hrun : InstallsReach site (.start mgr) P) :
    (∀ h e, P.holder = some h → h.progress = .returning (.error e) → P.manager = h.entered) ∧
    (P.holder = none → ∃ order : List (Nat × Source × InstalledExtension),
      (order.map Prod.fst).Nodup ∧
      (∀ i source x, (i, source, x) ∈ order ↔ P.calls[i]? = some (source, some (.ok x))) ∧
      OneByOne site mgr (order.map Prod.snd) P.manager ∧
      Extended mgr (order.map fun c => c.2.2) P.manager) := by
  obtain ⟨⟨order, hnodup, hsucceeded, hserial⟩, hholder⟩ := installs_inv hrun
  refine ⟨fun h e hh he => ?_, fun hfree => ⟨order, hnodup, hsucceeded, ?_⟩⟩
  · obtain ⟨-, hreach⟩ := hholder h hh
    rw [he] at hreach
    exact install_inv hreach
  · rw [show P.settled = P.manager by simp [Installs.settled, hfree]] at hserial
    refine ⟨hserial, ?_⟩
    have hextended := hserial.extended
    rw [List.map_map] at hextended
    exact hextended

end Calls

/-! ### Two installs that want one module name -/

def sampleSite : Site where
  dir := "/ext"
  py := {
    repr := fun s => match s with
      | .text s => s
      | .cut s _ _ => s
    compound := fun _ => ""
    refuses := fun _ => none }

/-- An extension of one module. -/
def sampleSource (name module : String) : Source where
  path := "/src"
  isDir := true
  toml := some (.ok [
    ("extension", .table [("name", .str name), ("version", .str "1")]),
    ("modules", .arr [.table [
      ("name", .str module),
      ("entry", .str "main:run"),
      ("inputs", .arr [.table [("name", .str "in"), ("type", .str "text")]]),
      ("outputs", .arr [.table [("name", .str "out"), ("type", .str "text")]])]])])

def emptyManager : Manager := ⟨.empty, ∅, ∅⟩

/-- Both are called; the second one gets the lock behind the first. -/
def twoInstalls : List InstallsAct :=
  [.call (sampleSource "a" "blur"), .call (sampleSource "b" "blur"), .enter 0] ++
    List.replicate 8 (.step .go) ++ [.leave, .enter 1, .step .go, .leave]

instance : DecidablePred InstallsOk := fun a =>
  match a with
  | .step (.fail e) => inferInstanceAs (Decidable (e.isCaught = true))
  | .step .go | .step (.copyPart _) | .step .writePart | .call _ | .enter _ | .leave => isTrue trivial

/-- What each call has returned, by the directory or by the text of a conflict. -/
def Installs.outcomes (P : Installs) : List (Option String) :=
  P.calls.map fun c => c.2.map fun result =>
    match result with
    | .ok x => x.root
    | .error (.conflict message) => message
    | .error _ => ""

theorem installs_atomic_conflict : ∃ P : Installs,
    InstallsReach sampleSite (.start emptyManager) P ∧ P.holder = none ∧
      P.outcomes = [some "a", some "module blur is already registered"] ∧
      ∃ order : List (Nat × Source × InstalledExtension),
        OneByOne sampleSite emptyManager (order.map Prod.snd) P.manager ∧
          Extended emptyManager (order.map fun c => c.2.2) P.manager := by
  have hcheck : (runActs (guarded (installsStep sampleSite) fun _ => InstallsOk) twoInstalls
      (.start emptyManager)).map (fun P => (P.holder.isNone, P.outcomes)) =
        some (true, [some "a", some "module blur is already registered"]) := by
    decide +kernel
  obtain ⟨P, hP, hcheck⟩ := Option.map_eq_some_iff.mp hcheck
  obtain ⟨hfree, houtcomes⟩ := Prod.mk.inj hcheck
  have hrun : InstallsReach sampleSite (.start emptyManager) P := reaches_of_guarded hP
  have hnone : P.holder = none := Option.isNone_iff_eq_none.mp hfree
  obtain ⟨order, -, -, hserial, hextended⟩ := (installs_atomic hrun).2 hnone
  exact ⟨P, hrun, hnone, houtcomes, order, hserial, hextended⟩

end Formshift
