/-
Formshift/Restart.lean

Installs across crashes and restarts.

The server may stop at any step of an install; what it has written stays.  The
next start makes a fresh manager over the same directory and calls
`load_installed`, which registers every directory that has its state file.
The preflight of an install looks only at memory and recovery looks only at
the disk; `LifeInv` says why the two agree: while nobody is in, the registry
knows every module of every complete directory.  So a start never fails and
brings back exactly the complete directories (`installs_survive_restarts`).
-/
import Formshift.InstallOrder

namespace Formshift

open Py Steps

/-! ### `load_installed` -/

/-- The loop of `_register`.  A start that raises is given up, so what the
handler takes back is not kept. -/
def registerModules (py : Spelling) : List ExtensionModuleSpec → ModuleRegistry →
    Except InstallError ModuleRegistry
  | [], reg => .ok reg
  | spec :: specs, reg =>
    match reg.registerIsolated py.repr spec.manifest with
    | .ok reg => registerModules py specs reg
    | .error e => .error e.raised

/-- `_register`. -/
def Manager.register (py : Spelling) (mgr : Manager) (m : ExtensionManifest) (root : String) :
    Except InstallError (Manager × InstalledExtension) := do
  let registry ← registerModules py m.modules mgr.registry
  let extension : InstalledExtension := ⟨m, root⟩
  .ok ({ mgr with
    registry := registry
    installed := mgr.installed.insert m.name extension }, extension)

/-- The loop of `load_installed`. -/
def loadDirs (site : Site) : List (Sigma fun _ : String => ExtensionDir) → Manager →
    Except InstallError (Manager × List InstalledExtension)
  | [], mgr => .ok (mgr, [])
  | ⟨name, d⟩ :: rest, mgr =>
    if name ∈ mgr.installed ∨ d.state = false then loadDirs site rest mgr
    else do
      let m ← parseExtensionManifest site.py d.src
      let (mgr, extension) ← mgr.register site.py m name
      let (mgr, loaded) ← loadDirs site rest mgr
      .ok (mgr, extension :: loaded)

/-- `load_installed`. -/
def loadInstalled (site : Site) (mgr : Manager) :
    Except InstallError (Manager × List InstalledExtension) :=
  loadDirs site (mgr.dirs.entries.insertionSort fun a b => a.1 ≤ b.1) mgr

/-! ### Lifetimes -/

inductive Lifetime where
  | running (P : Installs)
  | down (dirs : Dict String ExtensionDir)
  /-- `load_installed` has raised. -/
  | refused (dirs : Dict String ExtensionDir) (e : InstallError)

/-- What is on the disk. -/
def Lifetime.dirs : Lifetime → Dict String ExtensionDir
  | .running P => P.manager.dirs
  | .down dirs | .refused dirs _ => dirs

/-- What the calls of this lifetime have returned. -/
def Installs.successes (P : Installs) : List InstalledExtension :=
  P.calls.filterMap fun c =>
    match c.2 with
    | some (.ok x) => some x
    | _ => none

/-- A server and what its earlier lifetimes have answered with success. -/
structure Life where
  now : Lifetime
  past : List InstalledExtension

/-- Every extension whose `install` has returned. -/
def Life.returned (L : Life) : List InstalledExtension :=
  match L.now with
  | .running P => L.past ++ P.successes
  | .down _ | .refused _ _ => L.past

inductive LifeAct where
  | install (a : InstallsAct)
  | crash
  | restart

section Life

variable (site : Site) (core : ModuleRegistry)

def lifeStep (L : Life) : LifeAct → Option Life
  | .install a =>
    match L.now with
    | .running P => (installsStep site P a).map fun P' => { L with now := .running P' }
    | _ => none
  | .crash =>
    match L.now with
    | .running P => some ⟨.down P.manager.dirs, L.past ++ P.successes⟩
    | _ => none
  | .restart =>
    match L.now with
    | .down dirs =>
      match loadInstalled site ⟨core, ∅, dirs⟩ with
      | .ok (mgr, _) => some { L with now := .running (.start mgr) }
      | .error e => some { L with now := .refused dirs e }
    | _ => none

def LifeOk : LifeAct → Prop
  | .install a => InstallsOk a
  | .crash | .restart => True

abbrev LifeReaches : Life → Life → Prop := Reaches (Fires (lifeStep site core) fun _ => LifeOk)

/-! ### What is on the disk -/

/-- A complete directory and its manifest. -/
def Complete (dirs : Dict String ExtensionDir) (name : String) (m : ExtensionManifest) : Prop :=
  ∃ d, dirs.lookup name = some d ∧ d.state = true ∧ parseExtensionManifest site.py d.src = .ok m

/-- A complete directory claims a module name. -/
def Claims (dirs : Dict String ExtensionDir) (name module : String) : Prop :=
  ∃ m, Complete site dirs name m ∧ module ∈ m.modules.map ExtensionModuleSpec.name

structure DiskOk (dirs : Dict String ExtensionDir) : Prop where
  readable : ∀ name d, dirs.lookup name = some d → d.state = true →
    ∃ m, parseExtensionManifest site.py d.src = .ok m ∧ m.name = name
  core : ∀ name module, Claims site dirs name module → core.get module = none
  apart : ∀ name name' module, Claims site dirs name module → Claims site dirs name' module →
    name = name'

/-- The registry knows the core modules and those of every complete directory. -/
structure Covers (mgr : Manager) : Prop where
  core : ∀ module : String, mgr.registry.get module = none → core.get module = none
  dirs : ∀ name module, Claims site mgr.dirs name module → mgr.registry.get module ≠ none

/-- What `load_installed` makes of a directory. -/
def loadable (entry : Sigma fun _ : String => ExtensionDir) : Option InstalledExtension :=
  if entry.2.state then
    (parseExtensionManifest site.py entry.2.src).toOption.map fun m => ⟨m, entry.1⟩
  else none

end Life

section Disk

variable {site : Site} {core : ModuleRegistry} {source : Source} {mgr before base : Manager}
  {dirs : Dict String ExtensionDir} {m : ExtensionManifest} {done : List InstalledExtension}

theorem Complete.unique {name : String} {m m' : ExtensionManifest} (h : Complete site dirs name m)
    (h' : Complete site dirs name m') : m = m' := by
  obtain ⟨d, hd, -, hm⟩ := h
  obtain ⟨d', hd', -, hm'⟩ := h'
  obtain rfl := Option.some.inj (hd.symm.trans hd')
  exact Except.ok.inj (hm.symm.trans hm')

/-- Another directory is left alone. -/
theorem complete_insert {name other : String} {d : ExtensionDir} :
    Complete site (dirs.insert name d) other m ↔
      (other = name ∧ d.state = true ∧ parseExtensionManifest site.py d.src = .ok m) ∨
        (other ≠ name ∧ Complete site dirs other m) := by
  unfold Complete
  simp only [Dict.lookup_insert_ite]
  by_cases h : other = name
  · simp [h]
  · simp [h]

/-- The copy of a source has its manifest. -/
theorem Passed.copy_parsed (h : Passed site source before m) :
    parseExtensionManifest site.py (site.finished m.name source).src = .ok m := by
  obtain ⟨data, htoml, hdata⟩ := parse_eq_ok_iff.mp h.parsed
  exact parse_eq_ok_iff.mpr ⟨data, htoml, hdata⟩

/-- A directory written by an install whose checks passed does no harm. -/
theorem DiskOk.write (h : DiskOk site core before.dirs) (hcovers : Covers site core before)
    (hpassed : Passed site source before m) {d : ExtensionDir}
    (hd : d.state = true → d = site.finished m.name source) :
    DiskOk site core (before.dirs.insert m.name d) := by
  have hnew : ∀ {name module}, Claims site (before.dirs.insert m.name d) name module →
      (name = m.name ∧ before.registry.get module = none) ∨
        (name ≠ m.name ∧ Claims site before.dirs name module) := by
    -- a claim read off the new disk is an old one or the installed extension's own
    rintro name module ⟨m', hm', hmodule⟩
    rcases complete_insert.mp hm' with ⟨rfl, hstate, hparse⟩ | ⟨hne, hm'⟩
    · rw [hd hstate, hpassed.copy_parsed] at hparse
      obtain rfl := Except.ok.inj hparse
      obtain ⟨spec, hspec, rfl⟩ := List.mem_map.mp hmodule
      exact Or.inl ⟨rfl, hpassed.free spec hspec⟩
    · exact Or.inr ⟨hne, m', hm', hmodule⟩
  constructor
  case readable =>
    intro name d' hlookup hstate
    rw [Dict.lookup_insert_ite] at hlookup
    split at hlookup
    · rename_i hname
      obtain rfl := Option.some.inj hlookup
      rw [hd hstate]
      exact ⟨m, hpassed.copy_parsed, hname.symm⟩
    · exact h.readable name d' hlookup hstate
  case core =>
    -- the registry covers core, and preflight found the name free in it
    intro name module hclaims
    rcases hnew hclaims with ⟨-, hfree⟩ | ⟨-, hold⟩
    · exact hcovers.core module hfree
    · exact h.core name module hold
  case apart =>
    intro name name' module hclaims hclaims'
    rcases hnew hclaims with ⟨rfl, hfree⟩ | ⟨-, hold⟩
    · rcases hnew hclaims' with ⟨rfl, -⟩ | ⟨-, hold'⟩
      · rfl
      · exact absurd hfree (hcovers.dirs name' module hold')
    · rcases hnew hclaims' with ⟨rfl, hfree⟩ | ⟨-, hold'⟩
      · exact absurd hfree (hcovers.dirs name module hold)
      · exact h.apart name name' module hold hold'

/-- An install writes into its own directory only, and that is new. -/
theorem InstallInv.writes {x : Manager × Progress} (h : InstallInv site source before x) :
    x.1.dirs = before.dirs ∨ ∃ m d, Passed site source before m ∧
      x.1.dirs = before.dirs.insert m.name d ∧
      (d.state = true → d = site.finished m.name source) := by
  -- before `.complete` is written the directory, if there is one, does not count
  have hbegun : ∀ {m}, Begun site source before m x.1 →
      x.1.dirs = before.dirs ∨ ∃ m d, Passed site source before m ∧
        x.1.dirs = before.dirs.insert m.name d ∧
        (d.state = true → d = site.finished m.name source) := fun {m} hb =>
    hb.dirs.imp_right fun ⟨d, hdirs, hd⟩ => ⟨m, d, preflight_ok hb.passed, hdirs, hd⟩
  -- while modules are being registered it is the finished directory
  have hentered : ∀ {m specs}, Entered site source before m specs x.1 →
      ∃ m d, Passed site source before m ∧ x.1.dirs = before.dirs.insert m.name d ∧
        (d.state = true → d = site.finished m.name source) := fun {m _} he =>
    ⟨m, _, preflight_ok he.passed, he.dirs, fun _ => rfl⟩
  obtain ⟨mgr, progress⟩ := x
  cases progress with
  | checking => exact Or.inl (congrArg Manager.dirs h)
  | making m => exact Or.inl (congrArg Manager.dirs h.1)
  | copying m | venv m | pip m | writing m => exact hbegun h
  | rollback m e => exact hbegun h.1
  | registering m registered todo =>
      obtain ⟨specs, he, -⟩ := h
      exact Or.inr (hentered he)
  | unregistering m names e =>
      obtain ⟨-, specs, he, -⟩ := h
      exact Or.inr (hentered he)
  | returning result =>
      cases result with
      | ok extension =>
          obtain ⟨m, hm, -, hmgr⟩ := h
          exact Or.inr ⟨m, _, preflight_ok hm, congrArg Manager.dirs hmgr, fun _ => rfl⟩
      -- a call that fails has rolled the directory back
      | error e => exact Or.inl (congrArg Manager.dirs h)

/-- At every step of an install the disk is in order. -/
theorem DiskOk.install (h : DiskOk site core before.dirs) (hcovers : Covers site core before)
    {x : Manager × Progress} (hinv : InstallInv site source before x) :
    DiskOk site core x.1.dirs := by
  rcases hinv.writes with hdirs | ⟨m, d, hpassed, hdirs, hd⟩
  · rw [hdirs]
    exact h
  · rw [hdirs]
    exact h.write hcovers hpassed hd

/-- The registry knows what has been installed. -/
theorem Covers.commit (h : Covers site core before) (hpassed : Passed site source before m) :
    Covers site core (before.commit site source m) := by
  have hnodup := hpassed.ok.modules_nodup
  -- a name the new registry lacks was lacking before and is not one of the extension's
  have hkept : ∀ module : String, (before.registry.setAll m.modules).get module = none →
      before.registry.get module = none ∧ module ∉ m.modules.map ExtensionModuleSpec.name := by
    intro module hnone
    have hnotin : module ∉ m.modules.map ExtensionModuleSpec.name := by
      intro hin
      obtain ⟨spec, hspec, rfl⟩ := List.mem_map.mp hin
      rw [get_setAll_of_mem hnodup hspec] at hnone
      cases hnone
    rw [get_setAll_of_notMem hnotin] at hnone
    exact ⟨hnone, hnotin⟩
  constructor
  case core =>
    intro module hnone
    exact h.core module (hkept module hnone).1
  case dirs =>
    rintro name module ⟨m', hm', hmodule⟩ hnone
    obtain ⟨hfree, hnotin⟩ := hkept module hnone
    rcases complete_insert.mp hm' with ⟨rfl, -, hparse⟩ | ⟨-, hm'⟩
    · rw [hpassed.copy_parsed] at hparse
      obtain rfl := Except.ok.inj hparse
      exact hnotin hmodule
    · exact h.dirs name module ⟨m', hm', hmodule⟩ hfree

/-! ### Loading -/

theorem registerModules_ok {specs : List ExtensionModuleSpec} {reg : ModuleRegistry}
    (hok : ∀ spec ∈ specs, spec.Ok) (hnodup : (specs.map ExtensionModuleSpec.name).Nodup)
    (hfree : ∀ spec ∈ specs, reg.get spec.name = none) :
    registerModules site.py specs reg = .ok (reg.setAll specs) := by
  induction specs generalizing reg with
  | nil => rfl
  | cons spec specs ih =>
      obtain ⟨hnew, hnodup⟩ := List.nodup_cons.mp hnodup
      have hfirst := @ModuleRegistry.registerIsolated_of_free site.py.repr _ _
        (hok spec List.mem_cons_self).isolated (hfree spec List.mem_cons_self)
      rw [registerModules, hfirst]
      apply ih (fun s hs => hok s (List.mem_cons_of_mem _ hs)) hnodup
      intro s hs
      rw [ModuleRegistry.get_set, if_neg]
      · exact hfree s (List.mem_cons_of_mem _ hs)
      · intro hname
        exact hnew (List.mem_map.mpr ⟨s, hs, Str.text.inj hname⟩)

/-- A directory that is not complete is passed over. -/
theorem loadable_eq_none {entry : Sigma fun _ : String => ExtensionDir}
    (h : entry.2.state = false) : loadable site entry = none := by
  simp [loadable, h]

theorem loadable_eq_some {entry : Sigma fun _ : String => ExtensionDir} {x : InstalledExtension} :
    loadable site entry = some x ↔ entry.2.state = true ∧ x.root = entry.1 ∧
      parseExtensionManifest site.py entry.2.src = .ok x.manifest := by
  obtain ⟨manifest, root⟩ := x
  unfold loadable
  cases hstate : entry.2.state with
  | false => simp
  | true =>
      cases hparse : parseExtensionManifest site.py entry.2.src with
      | error e => simp [Except.toOption]
      | ok m => simp [Except.toOption, and_comm, eq_comm]

/-- **The step of the loop, and the loop**: behind the extensions of `done`
every complete directory is registered. -/
theorem loadDirs_ok {entries : List (Sigma fun _ : String => ExtensionDir)}
    (h : Extended base done mgr) (hbase : base.installed = ∅)
    (hread : ∀ e ∈ entries, e.2.state = true →
      ∃ m, parseExtensionManifest site.py e.2.src = .ok m ∧ m.name = e.1)
    (hnames : (done.map (fun x => x.manifest.name) ++ entries.map Sigma.fst).Nodup)
    (hthere : ∀ e ∈ entries, e.1 ∈ mgr.dirs)
    (hmodules : (base.registry.modules.keys ++ (done ++ entries.filterMap (loadable site)).flatMap
      fun x : InstalledExtension => x.manifest.modules.map fun spec => Str.text spec.name).Nodup) :
    ∃ mgr', loadDirs site entries mgr = .ok (mgr', entries.filterMap (loadable site)) ∧
      mgr'.dirs = mgr.dirs ∧ Extended base (done ++ entries.filterMap (loadable site)) mgr' := by
  induction entries generalizing done mgr with
  | nil => exact ⟨mgr, rfl, rfl, by simpa using h⟩
  | cons entry rest ih =>
      obtain ⟨name, d⟩ := entry
      have hread' := fun e (he : e ∈ rest) => hread e (List.mem_cons_of_mem _ he)
      have hthere' := fun e (he : e ∈ rest) => hthere e (List.mem_cons_of_mem _ he)
      cases hstate : d.state with
      | false =>
          -- debris: no `.complete`, so the scan passes over it
          have hskip : loadable site ⟨name, d⟩ = none := loadable_eq_none hstate
          rw [List.filterMap_cons_none hskip] at hmodules ⊢
          rw [loadDirs, if_pos (Or.inr hstate)]
          refine ih h hread' (hnames.sublist ?_) hthere' hmodules
          exact List.Sublist.append_left (List.sublist_cons_self _ _) _
      | true =>
          obtain ⟨m, hparse, rfl⟩ := hread _ List.mem_cons_self hstate
          have hload : loadable site ⟨m.name, d⟩ = some ⟨m, m.name⟩ :=
            loadable_eq_some.mpr ⟨hstate, rfl, hparse⟩
          rw [List.filterMap_cons_some hload] at hmodules ⊢
          -- no loaded extension has this name, since directory names differ
          have hfresh : m.name ∉ mgr.installed := by
            intro hin
            obtain ⟨x, hx⟩ := Dict.exists_lookup_of_mem hin
            rcases (h.installed _ x).mp hx with hold | ⟨hx, hname⟩
            · simp [hbase] at hold
            · exact (List.nodup_append.mp hnames).2.2 _ (List.mem_map.mpr ⟨x, hx, hname⟩) _
                List.mem_cons_self rfl
          -- nor does the registry know one of its modules: neither core nor a loaded one does
          have hfree : ∀ spec ∈ m.modules, mgr.registry.get spec.name = none := by
            intro spec hspec
            by_contra hsome
            obtain ⟨m', hm'⟩ := Option.ne_none_iff_exists'.mp hsome
            have hmem : Str.text spec.name ∈ m.modules.map fun spec => Str.text spec.name :=
              List.mem_map.mpr ⟨spec, hspec, rfl⟩
            rw [List.flatMap_append, ← List.append_assoc, List.flatMap_cons] at hmodules
            refine (List.nodup_append.mp hmodules).2.2 (.text spec.name) ?_ (.text spec.name)
              (List.mem_append_left _ hmem) rfl
            rcases (h.registry _ m').mp hm' with hold | ⟨x, hx, s, hs, hname, -⟩
            · exact List.mem_append_left _ (isSome_get_iff.mp ⟨m', hold⟩)
            · exact List.mem_append_right _
                (List.mem_flatMap.mpr ⟨x, hx, List.mem_map.mpr ⟨s, hs, hname⟩⟩)
          have hok := parse_ok hparse
          have hregister := @registerModules_ok site _ _ hok.modules_ok hok.modules_nodup hfree
          have hone := @Extended.add _ _ _ h ⟨m, m.name⟩ hok.modules_nodup hfree hfresh
            mgr.dirs (fun _ _ hd => hd) (fun other => by
              refine (or_iff_right_of_imp ?_).symm
              rintro rfl
              exact hthere _ List.mem_cons_self)
          obtain ⟨mgr', hload', hdirs, hextended⟩ := ih hone hread'
            (by simpa [List.append_assoc] using hnames) hthere'
            (by simpa [List.append_assoc] using hmodules)
          refine ⟨mgr', ?_, hdirs, by simpa [List.append_assoc] using hextended⟩
          rw [loadDirs, if_neg (by simp [hfresh, hstate]), hparse]
          simp only [Manager.register, hregister, bind, Except.bind, hload']

end Disk

/-! ### Runs -/

section Runs

variable {site : Site} {core : ModuleRegistry} {dirs : Dict String ExtensionDir} {L L' : Life}

/-- Installed and on the disk. -/
def OnDisk (site : Site) (dirs : Dict String ExtensionDir) (x : InstalledExtension) : Prop :=
  Complete site dirs x.root x.manifest ∧ x.manifest.name = x.root

/-- What an install has found stays there while it runs. -/
theorem OnDisk.install {source : Source} {before : Manager} {x : Manager × Progress}
    {y : InstalledExtension} (h : OnDisk site before.dirs y)
    (hinv : InstallInv site source before x) : OnDisk site x.1.dirs y := by
  rcases hinv.writes with hdirs | ⟨m, d, hpassed, hdirs, -⟩
  · rw [hdirs]
    exact h
  · rw [hdirs]
    refine ⟨complete_insert.mpr (Or.inr ⟨?_, h.1⟩), h.2⟩
    obtain ⟨d', hd', -⟩ := h.1
    rintro hroot
    exact hpassed.no_dir (hroot ▸ Dict.mem_of_lookup hd')

/-- **`load_installed` does not raise where the disk is in order**: it loads
the complete directories, all of them and nothing else. -/
theorem load_ok (h : DiskOk site core dirs) : ∃ mgr loaded,
    loadInstalled site ⟨core, ∅, dirs⟩ = .ok (mgr, loaded) ∧ mgr.dirs = dirs ∧
      Extended ⟨core, ∅, dirs⟩ loaded mgr ∧ ∀ x, x ∈ loaded ↔ OnDisk site dirs x := by
  -- the scan goes through the directory in sorted order
  let entries := dirs.entries.insertionSort fun a b => a.1 ≤ b.1
  have hperm : entries.Perm dirs.entries := List.perm_insertionSort _ _
  have hentry : ∀ e, e ∈ entries ↔ dirs.lookup e.1 = some e.2 := fun e =>
    hperm.mem_iff.trans AList.mem_lookup_iff.symm
  -- what the scan yields is what lies complete on the disk
  have hloaded : ∀ x, x ∈ entries.filterMap (loadable site) ↔ OnDisk site dirs x := by
    intro x
    rw [List.mem_filterMap]
    constructor
    · rintro ⟨⟨name, d⟩, he, hx⟩
      obtain ⟨hstate, hroot, hparse⟩ := loadable_eq_some.mp hx
      have hd := (hentry _).mp he
      obtain ⟨m, hm, hname⟩ := h.readable name d hd hstate
      obtain rfl := Except.ok.inj (hm.symm.trans hparse)
      exact ⟨⟨d, hroot ▸ hd, hstate, hparse⟩, hname.trans hroot.symm⟩
    · rintro ⟨⟨d, hd, hstate, hparse⟩, -⟩
      exact ⟨⟨x.root, d⟩, (hentry _).mpr hd, loadable_eq_some.mpr ⟨hstate, rfl, hparse⟩⟩
  have hkeys : (entries.map Sigma.fst).Nodup :=
    (hperm.map Sigma.fst).nodup_iff.mpr dirs.nodupKeys
  have hroots : (entries.filterMap (loadable site)).Pairwise fun x y => x.root ≠ y.root := by
    refine List.Pairwise.filterMap (loadable site) ?_ (List.pairwise_map.mp hkeys)
    rintro e e' hne x hx y hy hroot
    exact hne ((loadable_eq_some.mp hx).2.1.symm.trans (hroot.trans (loadable_eq_some.mp hy).2.1))
  have hclaims : ∀ x ∈ entries.filterMap (loadable site),
      ∀ module ∈ x.manifest.modules.map ExtensionModuleSpec.name,
        Claims site dirs x.root module := fun x hx module hmodule =>
    ⟨x.manifest, ((hloaded x).mp hx).1, hmodule⟩
  -- no module name comes twice: not in core, not in one extension, not in two
  have hmodules : (core.modules.keys ++ ([] ++ entries.filterMap (loadable site)).flatMap
      fun x : InstalledExtension =>
        x.manifest.modules.map fun spec : ExtensionModuleSpec => Str.text spec.name).Nodup := by
    rw [List.nil_append]
    refine List.nodup_append.mpr ⟨AList.keys_nodup _, List.nodup_flatMap.mpr ⟨?_, ?_⟩, ?_⟩
    · intro x hx
      obtain ⟨⟨d, -, -, hparse⟩, -⟩ := (hloaded x).mp hx
      have hmap := (parse_ok hparse).modules_nodup.map (f := Str.text) fun _ _ => Str.text.inj
      rwa [List.map_map] at hmap
    · refine hroots.imp_of_mem fun hx hy hne module hmodule hmodule' => ?_
      obtain ⟨spec, hspec, rfl⟩ := List.mem_map.mp hmodule
      obtain ⟨spec', hspec', hname⟩ := List.mem_map.mp hmodule'
      exact hne (h.apart _ _ spec.name (hclaims _ hx _ (List.mem_map.mpr ⟨spec, hspec, rfl⟩))
        (hclaims _ hy _ (List.mem_map.mpr ⟨spec', hspec', Str.text.inj hname⟩)))
    · rintro module hcore module' hin rfl
      obtain ⟨x, hx, hmodule⟩ := List.mem_flatMap.mp hin
      obtain ⟨spec, hspec, rfl⟩ := List.mem_map.mp hmodule
      obtain ⟨m, hm⟩ := isSome_get_iff.mpr hcore
      rw [h.core x.root spec.name (hclaims x hx _ (List.mem_map.mpr ⟨spec, hspec, rfl⟩))] at hm
      cases hm
  obtain ⟨mgr, hload, hdirs, hextended⟩ := @loadDirs_ok site _ _ _ entries
    (Extended.refl ⟨core, ∅, dirs⟩) rfl
    (fun e he hstate => h.readable e.1 e.2 ((hentry e).mp he) hstate) (by simpa using hkeys)
    (fun e he => Dict.mem_of_lookup ((hentry e).mp he)) hmodules
  exact ⟨mgr, _, hload, hdirs, by simpa using hextended, hloaded⟩

/-- The manager while nobody is in knows the disk; the one inside is at work. -/
structure RunningOk (site : Site) (core : ModuleRegistry) (past : List InstalledExtension)
    (P : Installs) : Prop where
  disk : DiskOk site core P.settled.dirs
  covers : Covers site core P.settled
  holder : HolderInv site P
  returned : ∀ x ∈ past ++ P.successes, OnDisk site P.settled.dirs x

/-- What holds in every lifetime; no start is refused. -/
def LifeInv (site : Site) (core : ModuleRegistry) (L : Life) : Prop :=
  match L.now with
  | .running P => RunningOk site core L.past P
  | .down dirs => DiskOk site core dirs ∧ ∀ x ∈ L.past, OnDisk site dirs x
  | .refused _ _ => False

/-- The manager as it is, whoever is in. -/
theorem RunningOk.now {past : List InstalledExtension} {P : Installs}
    (h : RunningOk site core past P) : DiskOk site core P.manager.dirs ∧
      ∀ x ∈ past ++ P.successes, OnDisk site P.manager.dirs x := by
  obtain ⟨manager, holder, calls⟩ := P
  cases holder with
  | none => exact ⟨h.disk, h.returned⟩
  | some g =>
      have hinv := install_inv (h.holder g rfl).2
      exact ⟨DiskOk.install h.disk h.covers hinv, fun x hx => (h.returned x hx).install hinv⟩

theorem LifeInv.now (h : LifeInv site core L) :
    DiskOk site core L.now.dirs ∧ ∀ x ∈ L.returned, OnDisk site L.now.dirs x := by
  obtain ⟨now, past⟩ := L
  cases now with
  | running P => exact RunningOk.now h
  | down dirs => exact h
  | refused dirs e => exact h.elim

theorem mem_successes {P : Installs} {x : InstalledExtension} :
    x ∈ P.successes ↔ ∃ source, (source, some (.ok x)) ∈ P.calls := by
  rw [Installs.successes, List.mem_filterMap]
  constructor
  · rintro ⟨⟨source, result⟩, hc, hx⟩
    rcases result with - | (e | y)
    · cases hx
    · cases hx
    · obtain rfl := Option.some.inj hx
      exact ⟨source, hc⟩
  · rintro ⟨source, hc⟩
    exact ⟨_, hc, rfl⟩

/-- What a step makes of the manager between installs, and what it returns. -/
theorem settled_step {P P' : Installs} {a : InstallsAct} (hholder : HolderInv site P)
    (hs : installsStep site P a = some P') :
    (P'.settled = P.settled ∧ P'.successes ⊆ P.successes) ∨
      ∃ source m, Passed site source P.settled m ∧
        P'.settled = P.settled.commit site source m ∧
        P'.successes ⊆ ⟨m, m.name⟩ :: P.successes := by
  obtain ⟨manager, holder, calls⟩ := P
  cases a with
  | call source =>
      obtain rfl := Option.some.inj hs
      refine Or.inl ⟨rfl, fun x hx => ?_⟩
      obtain ⟨src, hc⟩ := mem_successes.mp hx
      exact mem_successes.mpr ⟨src, by simpa using hc⟩
  | enter i =>
      simp only [installsStep] at hs
      split at hs
      · obtain rfl := Option.some.inj hs
        exact Or.inl ⟨rfl, List.Subset.refl _⟩
      · cases hs
  | step a =>
      cases holder with
      | none => cases hs
      | some g =>
          obtain ⟨y, -, rfl⟩ := Option.map_eq_some_iff.mp hs
          exact Or.inl ⟨rfl, List.Subset.refl _⟩
  | leave =>
      simp only [installsStep] at hs
      split at hs
      · rename_i i source before result
        obtain rfl := Option.some.inj hs
        have hinv := install_inv (hholder _ rfl).2
        -- only this call's own success is new
        have hset : ∀ x, x ∈ Installs.successes ⟨manager, none, calls.set i (source, some result)⟩ →
            result = .ok x ∨ x ∈ Installs.successes ⟨manager, some ⟨i, source, before,
              .returning result⟩, calls⟩ := by
          intro x hx
          obtain ⟨src, hc⟩ := mem_successes.mp hx
          rcases List.mem_or_eq_of_mem_set hc with hc | hc
          · exact Or.inr (mem_successes.mpr ⟨src, hc⟩)
          · exact Or.inl (Option.some.inj (Prod.mk.inj hc).2).symm
        cases result with
        | ok extension =>
            -- a success commits what preflight passed
            obtain ⟨m, hm, rfl, rfl⟩ := hinv
            refine Or.inr ⟨source, m, preflight_ok hm, rfl, fun x hx => ?_⟩
            rcases hset x hx with hx | hx
            · obtain rfl := Except.ok.inj hx
              exact List.mem_cons_self
            · exact List.mem_cons_of_mem _ hx
        | error e =>
            -- a failure leaves the manager it entered with
            obtain rfl : manager = before := hinv
            refine Or.inl ⟨rfl, fun x hx => ?_⟩
            rcases hset x hx with hx | hx
            · cases hx
            · exact hx
      · cases hs

/-- **The step lemma of a lifetime.** -/
theorem RunningOk.step {past : List InstalledExtension} {P P' : Installs} {a : InstallsAct}
    (h : RunningOk site core past P) (hok : InstallsOk a) (hs : installsStep site P a = some P') :
    RunningOk site core past P' := by
  have hholder := h.holder.step hok hs
  rcases settled_step h.holder hs with ⟨hsame, hsub⟩ | ⟨source, m, hpassed, hcommit, hsub⟩
  -- nothing settled: the disk that counts is the same
  · refine ⟨hsame ▸ h.disk, hsame ▸ h.covers, hholder, fun x hx => ?_⟩
    rw [hsame]
    apply h.returned
    exact (List.mem_append.mp hx).elim (List.mem_append_left _) fun hx =>
      List.mem_append_right _ (hsub hx)
  -- a commit: the disk gains a directory, the registry its modules
  · refine ⟨?_, hcommit ▸ h.covers.commit hpassed, hholder, fun x hx => ?_⟩
    · rw [hcommit]
      exact h.disk.write h.covers hpassed fun _ => rfl
    · rw [hcommit]
      have hnew : OnDisk site (P.settled.commit site source m).dirs ⟨m, m.name⟩ :=
        ⟨complete_insert.mpr (Or.inl ⟨rfl, rfl, hpassed.copy_parsed⟩), rfl⟩
      -- earlier extensions stay, for preflight saw no directory of the new name
      have hold : ∀ y, y ∈ past ++ P.successes →
          OnDisk site (P.settled.commit site source m).dirs y := by
        intro y hy
        obtain ⟨hcomplete, hname⟩ := h.returned y hy
        refine ⟨complete_insert.mpr (Or.inr ⟨?_, hcomplete⟩), hname⟩
        obtain ⟨d, hd, -⟩ := hcomplete
        rintro hroot
        exact hpassed.no_dir (hroot ▸ Dict.mem_of_lookup hd)
      rcases List.mem_append.mp hx with hx | hx
      · exact hold x (List.mem_append_left _ hx)
      · rcases List.mem_cons.mp (hsub hx) with rfl | hx
        · exact hnew
        · exact hold x (List.mem_append_right _ hx)

/-- A fresh manager that has loaded the directory knows it. -/
theorem RunningOk.start {past : List InstalledExtension} {mgr : Manager}
    {loaded : List InstalledExtension} (h : DiskOk site core dirs)
    (hpast : ∀ x ∈ past, OnDisk site dirs x) (hdirs : mgr.dirs = dirs)
    (hextended : Extended ⟨core, ∅, dirs⟩ loaded mgr)
    (hloaded : ∀ x, x ∈ loaded ↔ OnDisk site dirs x) :
    RunningOk site core past (.start mgr) := by
  subst hdirs
  have hnobody : HolderInv site (.start mgr) := by
    intro g hg
    cases hg
  refine ⟨h, ⟨fun module hnone => ?_, ?_⟩, hnobody, ?_⟩
  -- core's modules are in the registry the load ended with
  · by_contra hcore
    obtain ⟨m, hm⟩ := Option.ne_none_iff_exists'.mp hcore
    have hget := (hextended.registry module m).mpr (Or.inl hm)
    rw [show mgr.registry.get module = none from hnone] at hget
    cases hget
  -- and so are those of every directory it read
  · rintro name module ⟨m, hm, hmodule⟩ hnone
    obtain ⟨spec, hspec, rfl⟩ := List.mem_map.mp hmodule
    obtain ⟨d, hd, hstate, hparse⟩ := hm
    obtain ⟨m', hparse', rfl⟩ := h.readable name d hd hstate
    obtain rfl := Except.ok.inj (hparse.symm.trans hparse')
    have hin := (hloaded ⟨m, m.name⟩).mpr ⟨⟨d, hd, hstate, hparse⟩, rfl⟩
    have hget := (hextended.registry spec.name spec.manifest).mpr
      (Or.inr ⟨_, hin, spec, hspec, rfl, rfl⟩)
    rw [show mgr.registry.get spec.name = none from hnone] at hget
    cases hget
  · intro x hx
    exact hpast x (by simpa [Installs.start, Installs.successes] using hx)

theorem LifeInv.step {a : LifeAct} (h : LifeInv site core L) (hok : LifeOk a)
    (hs : lifeStep site core L a = some L') : LifeInv site core L' := by
  obtain ⟨now, past⟩ := L
  cases now with
  | running P =>
      cases a with
      | install a =>
          obtain ⟨P', hP', rfl⟩ := Option.map_eq_some_iff.mp hs
          exact RunningOk.step h hok hP'
      | crash =>
          obtain rfl := Option.some.inj hs
          exact RunningOk.now h
      | restart => cases hs
  | down dirs =>
      cases a with
      | restart =>
          -- a restart scans the disk it finds, and the scan succeeds
          obtain ⟨hdisk, hpast⟩ := h
          obtain ⟨mgr, loaded, hload, hdirs, hextended, hloaded⟩ := load_ok hdisk
          simp only [lifeStep, hload] at hs
          obtain rfl := Option.some.inj hs
          exact RunningOk.start hdisk hpast hdirs hextended hloaded
      | install | crash => cases hs
  -- no invariant holds of a refused start, and none is reached
  | refused dirs e => exact h.elim

theorem life_inv (hdebris : ∀ name d, dirs.lookup name = some d → d.state = false)
    (hrun : LifeReaches site core ⟨.down dirs, []⟩ L) : LifeInv site core L := by
  have hnone : ∀ name m, ¬ Complete site dirs name m := by
    rintro name m ⟨d, hd, hstate, -⟩
    rw [hdebris name d hd] at hstate
    cases hstate
  refine Reaches.invariant (I := LifeInv site core) ?_ hrun ⟨⟨?_, ?_, ?_⟩, by simp⟩
  · rintro L L' ⟨a, hok, hs⟩ h
    exact h.step hok hs
  · intro name d hd hstate
    rw [hdebris name d hd] at hstate
    cases hstate
  · rintro name module ⟨m, hm, -⟩
    exact absurd hm (hnone name m)
  · rintro name name' module ⟨m, hm, -⟩
    exact absurd hm (hnone name m)

/-- **Installs survive crashes**: whenever the server stops, the next start does
not raise and loads exactly the directories that are complete, each under its
own name, with every extension whose install had returned among them; no module
is claimed twice. -/
theorem installs_survive_restarts
    (hdebris : ∀ name d, dirs.lookup name = some d → d.state = false)
    (hrun : LifeReaches site core ⟨.down dirs, []⟩ L) :
    (∀ dirs e, L.now ≠ .refused dirs e) ∧
    (∀ name module, Claims site L.now.dirs name module → core.get module = none) ∧
    (∀ name name' module, Claims site L.now.dirs name module →
      Claims site L.now.dirs name' module → name = name') ∧
    ∃ mgr loaded, loadInstalled site ⟨core, ∅, L.now.dirs⟩ = .ok (mgr, loaded) ∧
      Extended ⟨core, ∅, L.now.dirs⟩ loaded mgr ∧
      (∀ name d, L.now.dirs.lookup name = some d → d.state = true →
        ∃ x ∈ loaded, x.root = name) ∧
      (∀ x ∈ loaded, x.manifest.name = x.root ∧ Complete site L.now.dirs x.root x.manifest) ∧
      ∀ x ∈ L.returned, x ∈ loaded := by
  have hinv := life_inv hdebris hrun
  obtain ⟨hdisk, hreturned⟩ := hinv.now
  obtain ⟨mgr, loaded, hload, -, hextended, hloaded⟩ := load_ok hdisk
  refine ⟨fun dirs e hnow => ?_, hdisk.core, hdisk.apart, mgr, loaded, hload, hextended, ?_, ?_, ?_⟩
  · rw [LifeInv, hnow] at hinv
    exact hinv
  · intro name d hd hstate
    obtain ⟨m, hparse, hname⟩ := hdisk.readable name d hd hstate
    exact ⟨⟨m, name⟩, (hloaded _).mpr ⟨⟨d, hd, hstate, hparse⟩, hname⟩, rfl⟩
  · intro x hx
    obtain ⟨hcomplete, hname⟩ := (hloaded x).mp hx
    exact ⟨hname, hcomplete⟩
  · intro x hx
    exact (hloaded x).mpr (hreturned x hx)

end Runs

/-! ### A crash behind the state file -/

instance : DecidablePred LifeOk := fun a =>
  match a with
  | .install a => inferInstanceAs (Decidable (InstallsOk a))
  | .crash | .restart => isTrue trivial

/-- What an earlier crash has left. -/
def debris : Dict String ExtensionDir :=
  AList.insert "old" ⟨sampleSource "old" "old", false, false⟩ ∅

/-- One install returns; the second one has written its state file when the
server stops. -/
def crashedInstall : List LifeAct :=
  [.restart] ++
    ([.call (sampleSource "a" "blur"), .call (sampleSource "b" "sharpen"), .enter 0] ++
      List.replicate 8 (.step .go) ++ [.leave, .enter 1] ++ List.replicate 6 (.step .go) :
        List InstallsAct).map .install ++
    [.crash]

/-- The directories the next start loads, and what has been returned. -/
def Life.summary (L : Life) : Option (List String × List String) :=
  (loadInstalled sampleSite ⟨.empty, ∅, L.now.dirs⟩).toOption.map fun x =>
    (x.2.map InstalledExtension.root, L.returned.map InstalledExtension.root)

theorem installs_survive_restarts_crashed : ∃ (L : Life) (mgr : Manager)
    (loaded : List InstalledExtension),
    LifeReaches sampleSite .empty ⟨.down debris, []⟩ L ∧
      L.returned.map InstalledExtension.root = ["a"] ∧
      loadInstalled sampleSite ⟨.empty, ∅, L.now.dirs⟩ = .ok (mgr, loaded) ∧
      loaded.map InstalledExtension.root = ["a", "b"] ∧ ∀ x ∈ L.returned, x ∈ loaded := by
  have hcheck : (runActs (guarded (lifeStep sampleSite .empty) fun _ => LifeOk) crashedInstall
      ⟨.down debris, []⟩).bind Life.summary = some (["a", "b"], ["a"]) := by
    decide +kernel
  obtain ⟨L, hL, hcheck⟩ := Option.bind_eq_some_iff.mp hcheck
  have hrun : LifeReaches sampleSite .empty ⟨.down debris, []⟩ L := reaches_of_guarded hL
  have hdebris : ∀ name d, debris.lookup name = some d → d.state = false := by
    intro name d h
    rw [debris, Dict.lookup_insert_ite] at h
    split at h
    · rw [← Option.some.inj h]
    · cases h
  obtain ⟨-, -, -, mgr, loaded, hload, -, -, -, hreturned⟩ := installs_survive_restarts hdebris hrun
  simp only [Life.summary, hload, Except.toOption, Option.map_some, Option.some.injEq,
    Prod.mk.injEq] at hcheck
  exact ⟨L, mgr, loaded, hrun, hcheck.2, hload, hcheck.1, hreturned⟩

end Formshift
