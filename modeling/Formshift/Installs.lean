/-
Formshift/Installs.lean

`ExtensionManager.install` (`extensions.py`), step by step.

The manager works on the registry, its table of installed extensions and the
directories under the extensions directory.  An install checks everything under
the lock before it touches anything, then copies, creates the environment, runs
pip, writes the state file and registers the modules one by one; a failure takes
back what has been done.  `InstallInv` says what an install has made of the
state it found, at every step, and in the end it is all of its effect or none
(`install_inv`).
-/
import Formshift.Extensions
import Formshift.Lib.Steps

namespace Formshift

open Py Steps

/-! ### The manager -/

/-- A directory under the extensions directory. -/
structure ExtensionDir where
  src : Source
  venv : Bool
  /-- `installed.json` is there. -/
  state : Bool

structure InstalledExtension where
  manifest : ExtensionManifest
  /-- The name of its directory. -/
  root : String
  deriving DecidableEq

structure Manager where
  registry : ModuleRegistry
  installed : Dict String InstalledExtension
  dirs : Dict String ExtensionDir

/-- The extensions directory, and how texts are spelled. -/
structure Site where
  dir : String
  py : Spelling

def Site.root (site : Site) (name : String) : String := site.dir ++ "/" ++ name

/-- The copy `shutil.copytree` makes of a source. -/
def Site.copy (site : Site) (name : String) (source : Source) : Source :=
  { source with
    path := site.root name ++ "/src"
    isDir := true }

/-- A refused registration as an exception. -/
def ModuleRegistry.Error.raised : ModuleRegistry.Error → InstallError
  | .notImplemented message => .notImplemented message
  | .valueError message => .valueError message

/-- `except (ExtensionError, OSError, ValueError)`. -/
def InstallError.isCaught : InstallError → Bool
  | .notImplemented _ | .recursionError _ => false
  | .extension _ | .conflict _ | .osError _ | .valueError _ => true

/-- What the handler raises. -/
def InstallError.surfaced (py : Spelling) (name : String) : InstallError → InstallError
  | .osError text | .valueError text =>
      .extension ("could not install " ++ py.repr name ++ ": " ++ text)
  | .extension message => .extension message
  | .conflict message => .conflict message
  | .notImplemented message => .notImplemented message
  | .recursionError text => .recursionError text

abbrev InstallResult := Except InstallError InstalledExtension

/-! ### One install -/

/-- Where an install that holds the lock stands. -/
inductive Progress where
  | checking
  | making (m : ExtensionManifest)
  | copying (m : ExtensionManifest)
  | venv (m : ExtensionManifest)
  | pip (m : ExtensionManifest)
  | writing (m : ExtensionManifest)
  /-- `_register`: the names `registered`, and the specs to come. -/
  | registering (m : ExtensionManifest) (registered : List String) (todo : List ExtensionModuleSpec)
  | unregistering (m : ExtensionManifest) (names : List String) (e : InstallError)
  /-- In the handler, before `rmtree`. -/
  | rollback (m : ExtensionManifest) (e : InstallError)
  | returning (result : InstallResult)

inductive InstallAct where
  | go
  /-- The step raises. -/
  | fail (e : InstallError)
  /-- `copytree` has got as far as this. -/
  | copyPart (part : Source)
  /-- `installed.json` has been opened. -/
  | writePart

section Install

variable (site : Site) (source : Source)

/-- Everything that is checked before anything is touched. -/
def preflight (mgr : Manager) : Except InstallError ExtensionManifest :=
  if source.isDir = false then
    .error (.extension ("extension source " ++ source.path ++ " is not a directory"))
  else do
    let m ← parseExtensionManifest site.py source
    if m.name ∈ mgr.installed then
      .error (.conflict ("extension " ++ site.py.repr m.name ++ " is already installed"))
    else
      match m.modules.find? fun spec => (mgr.registry.get spec.name).isSome with
      | some spec =>
        .error (.conflict ("module " ++ site.py.repr spec.name ++ " is already registered"))
      | none =>
        if m.name ∈ mgr.dirs then
          .error (.conflict ("extension directory " ++ site.root m.name ++
            " already exists (remove it to reinstall)"))
        else .ok m

/-- `_install_locked`. -/
def installStep (x : Manager × Progress) : InstallAct → Option (Manager × Progress)
  | .go =>
    let mgr := x.1
    match x.2 with
    | .checking =>
      match preflight site source mgr with
      | .ok m => some (mgr, .making m)
      | .error e => some (mgr, .returning (.error e))
    | .making m => some (mgr, .copying m)
    | .copying m =>
      some ({ mgr with dirs := mgr.dirs.insert m.name ⟨site.copy m.name source, false, false⟩ },
        .venv m)
    | .venv m =>
      some ({ mgr with dirs := mgr.dirs.insert m.name ⟨site.copy m.name source, true, false⟩ },
        .pip m)
    | .pip m => some (mgr, .writing m)
    | .writing m =>
      some ({ mgr with dirs := mgr.dirs.insert m.name ⟨site.copy m.name source, true, true⟩ },
        .registering m [] m.modules)
    | .registering m registered (spec :: todo) =>
      match mgr.registry.registerIsolated site.py.repr spec.manifest with
      | .ok registry => some ({ mgr with registry := registry },
          .registering m (registered ++ [spec.name]) todo)
      | .error e => some (mgr, .unregistering m registered e.raised)
    | .registering m _ [] =>
      let extension : InstalledExtension := ⟨m, m.name⟩
      some ({ mgr with installed := mgr.installed.insert m.name extension },
        .returning (.ok extension))
    | .unregistering m (name :: names) e =>
      some ({ mgr with registry := mgr.registry.unregister name }, .unregistering m names e)
    | .unregistering m [] e =>
      if e.isCaught then some (mgr, .rollback m e) else some (mgr, .returning (.error e))
    | .rollback m e =>
      some ({ mgr with dirs := mgr.dirs.erase m.name },
        .returning (.error (e.surfaced site.py m.name)))
    | .returning _ => none
  | .fail e =>
    match x.2 with
    | .making m | .copying m | .venv m | .pip m | .writing m => some (x.1, .rollback m e)
    | .registering m registered (_ :: _) => some (x.1, .unregistering m registered e)
    | .checking | .registering _ _ [] | .unregistering _ _ _ | .rollback _ _ | .returning _ => none
  | .copyPart part =>
    match x.2 with
    | .copying m =>
      some ({ x.1 with dirs := x.1.dirs.insert m.name ⟨part, false, false⟩ }, .copying m)
    | _ => none
  | .writePart =>
    match x.2 with
    | .writing m =>
      some ({ x.1 with dirs := x.1.dirs.insert m.name ⟨site.copy m.name source, true, true⟩ },
        .writing m)
    | _ => none

/-- Steps fail with an `ExtensionError`, an `OSError` or a `ValueError`. -/
def InstallOk : InstallAct → Prop
  | .fail e => e.isCaught = true
  | .go | .copyPart _ | .writePart => True

/-- The steps of one install. -/
def InstallSteps : Manager × Progress → Manager × Progress → Prop :=
  Fires (installStep site source) fun _ => InstallOk

/-! ### What an install makes of the state it found -/

/-- The registry with these modules added. -/
def ModuleRegistry.setAll (reg : ModuleRegistry) (specs : List ExtensionModuleSpec) :
    ModuleRegistry :=
  specs.foldl (fun reg spec => reg.set spec.manifest) reg

/-- The directory of an installed extension. -/
def Site.finished (site : Site) (name : String) (source : Source) : ExtensionDir :=
  ⟨site.copy name source, true, true⟩

/-- The effect of an install that succeeds. -/
def Manager.commit (before : Manager) (m : ExtensionManifest) : Manager where
  registry := before.registry.setAll m.modules
  installed := before.installed.insert m.name ⟨m, m.name⟩
  dirs := before.dirs.insert m.name (site.finished m.name source)

/-- Up to the registration only the install's own directory can be new, and
what is in it once the state file is there is the copy of the source. -/
structure Begun (before : Manager) (m : ExtensionManifest) (mgr : Manager) : Prop where
  passed : preflight site source before = .ok m
  registry : mgr.registry = before.registry
  installed : mgr.installed = before.installed
  dirs : mgr.dirs = before.dirs ∨ ∃ d : ExtensionDir, mgr.dirs = before.dirs.insert m.name d ∧
    (d.state = true → d = site.finished m.name source)

/-- While modules are registered: `specs` are. -/
structure Entered (before : Manager) (m : ExtensionManifest) (specs : List ExtensionModuleSpec)
    (mgr : Manager) : Prop where
  passed : preflight site source before = .ok m
  registry : mgr.registry = before.registry.setAll specs
  installed : mgr.installed = before.installed
  dirs : mgr.dirs = before.dirs.insert m.name (site.finished m.name source)
  sublist : specs.Sublist m.modules

def InstallInv (before : Manager) (x : Manager × Progress) : Prop :=
  match x.2 with
  | .checking => x.1 = before
  | .making m => x.1 = before ∧ preflight site source before = .ok m
  | .copying m | .venv m | .pip m | .writing m => Begun site source before m x.1
  | .rollback m e => Begun site source before m x.1 ∧ e.isCaught = true
  | .registering m registered todo => ∃ specs, Entered site source before m specs x.1 ∧
      registered = specs.map ExtensionModuleSpec.name ∧ m.modules = specs ++ todo
  | .unregistering m names e => e.isCaught = true ∧ ∃ specs,
      Entered site source before m specs x.1 ∧ names = specs.map ExtensionModuleSpec.name
  | .returning (.ok extension) => ∃ m, preflight site source before = .ok m ∧
      extension = ⟨m, m.name⟩ ∧ x.1 = before.commit site source m
  | .returning (.error _) => x.1 = before

end Install

section Facts

variable {site : Site} {source : Source} {mgr before : Manager} {m : ExtensionManifest}

/-- What the checks say. -/
structure Passed (site : Site) (source : Source) (before : Manager) (m : ExtensionManifest) :
    Prop where
  parsed : parseExtensionManifest site.py source = .ok m
  not_installed : m.name ∉ before.installed
  free : ∀ spec ∈ m.modules, before.registry.get spec.name = none
  no_dir : m.name ∉ before.dirs

theorem preflight_ok (h : preflight site source before = .ok m) : Passed site source before m := by
  unfold preflight at h
  split_ifs at h with hdir
  obtain ⟨m', hparse, h⟩ := bind_ok_iff.mp h
  split at h
  · cases h
  · rename_i hinstalled
    split at h
    · cases h
    · rename_i hfree
      split at h
      · cases h
      · rename_i hno
        obtain rfl := Except.ok.inj h
        refine ⟨hparse, hinstalled, fun spec hspec => ?_, hno⟩
        simpa using List.find?_eq_none.mp hfree spec hspec

theorem Passed.ok (h : Passed site source before m) : m.Ok := parse_ok h.parsed

/-! ### Modules in and out -/

theorem get_setAll_of_ne {reg : ModuleRegistry} {specs : List ExtensionModuleSpec} {name : Str}
    (h : ∀ spec ∈ specs, Str.text spec.name ≠ name) :
    (reg.setAll specs).get name = reg.get name := by
  induction specs generalizing reg with
  | nil => rfl
  | cons spec specs ih =>
      obtain ⟨hspec, hrest⟩ := List.forall_mem_cons.mp h
      show ((reg.set spec.manifest).setAll specs).get name = _
      rw [ih hrest, ModuleRegistry.get_set]
      exact if_neg fun e => hspec e.symm

theorem get_setAll_of_notMem {reg : ModuleRegistry} {specs : List ExtensionModuleSpec}
    {name : String} (h : name ∉ specs.map ExtensionModuleSpec.name) :
    (reg.setAll specs).get name = reg.get name :=
  get_setAll_of_ne fun spec hspec e => h (List.mem_map.mpr ⟨spec, hspec, Str.text.inj e⟩)

theorem get_setAll_of_mem {reg : ModuleRegistry} {specs : List ExtensionModuleSpec}
    (hnodup : (specs.map ExtensionModuleSpec.name).Nodup) {spec : ExtensionModuleSpec}
    (h : spec ∈ specs) : (reg.setAll specs).get spec.name = some spec.manifest := by
  induction specs generalizing reg with
  | nil => cases h
  | cons s specs ih =>
      obtain ⟨hnew, hnodup⟩ := List.nodup_cons.mp hnodup
      show ((reg.set s.manifest).setAll specs).get spec.name = _
      rcases List.mem_cons.mp h with rfl | h
      · rw [get_setAll_of_notMem hnew, ModuleRegistry.get_set]
        exact if_pos rfl
      · exact ih hnodup h

/-- The first of some modules is taken out again. -/
theorem unregister_setAll {reg : ModuleRegistry} {spec : ExtensionModuleSpec}
    {specs : List ExtensionModuleSpec} (hfree : reg.get spec.name = none)
    (hnew : spec.name ∉ specs.map ExtensionModuleSpec.name) :
    (reg.setAll (spec :: specs)).unregister spec.name = reg.setAll specs := by
  have hpast : ∀ reg : ModuleRegistry, (reg.setAll specs).unregister spec.name =
      (reg.unregister spec.name).setAll specs := by
    clear hfree
    induction specs with
    | nil => intro reg; rfl
    | cons s specs ih =>
        intro reg
        rw [List.map_cons, List.mem_cons, not_or] at hnew
        show ((reg.set s.manifest).setAll specs).unregister spec.name = _
        rw [ih hnew.2, ModuleRegistry.unregister_set_of_ne fun e => hnew.1 (Str.text.inj e)]
        rfl
  show ((reg.set spec.manifest).setAll specs).unregister spec.name = _
  rw [hpast]
  exact congrArg (ModuleRegistry.setAll · specs) (ModuleRegistry.unregister_set hfree)

theorem setAll_concat (reg : ModuleRegistry) (specs : List ExtensionModuleSpec)
    (spec : ExtensionModuleSpec) :
    reg.setAll (specs ++ [spec]) = (reg.setAll specs).set spec.manifest := by
  simp [ModuleRegistry.setAll]

/-! ### Steps -/

theorem Begun.of_checked (h : preflight site source before = .ok m) :
    Begun site source before m before :=
  ⟨h, rfl, rfl, Or.inl rfl⟩

/-- The install writes into its own directory. -/
theorem Begun.write (h : Begun site source before m mgr) {d : ExtensionDir}
    (hd : d.state = true → d = site.finished m.name source) :
    Begun site source before m { mgr with dirs := mgr.dirs.insert m.name d } := by
  refine ⟨h.passed, h.registry, h.installed, Or.inr ⟨d, ?_, hd⟩⟩
  rcases h.dirs with hdirs | ⟨d', hdirs, -⟩
  · rw [← hdirs]
  · show mgr.dirs.insert m.name d = _
    rw [hdirs, AList.insert_insert]

/-- The tree is removed. -/
theorem Begun.remove (h : Begun site source before m mgr) :
    { mgr with dirs := mgr.dirs.erase m.name } = before := by
  have hno := (preflight_ok h.passed).no_dir
  have hdirs : mgr.dirs.erase m.name = before.dirs := by
    rcases h.dirs with hdirs | ⟨d, hdirs, -⟩
    · rw [hdirs, Dict.erase_of_notMem hno]
    · rw [hdirs, Dict.erase_insert_of_notMem hno]
  rw [hdirs, h.registry, h.installed]

theorem Entered.start (h : Begun site source before m mgr) : Entered site source before m []
    { mgr with dirs := mgr.dirs.insert m.name (site.finished m.name source) } := by
  refine ⟨h.passed, h.registry, h.installed, ?_, List.nil_sublist _⟩
  rcases h.dirs with hdirs | ⟨d, hdirs, -⟩
  · rw [← hdirs]
  · show mgr.dirs.insert m.name _ = _
    rw [hdirs, AList.insert_insert]

/-- The next module is free and is registered. -/
theorem Entered.register {specs todo : List ExtensionModuleSpec} {spec : ExtensionModuleSpec}
    (h : Entered site source before m specs mgr) (hmodules : m.modules = specs ++ spec :: todo) :
    mgr.registry.registerIsolated site.py.repr spec.manifest =
      .ok (mgr.registry.set spec.manifest) := by
  have hpassed := preflight_ok h.passed
  have hmem : spec ∈ m.modules := by
    rw [hmodules]
    simp
  have hnodup := hpassed.ok.modules_nodup
  rw [hmodules, List.map_append, List.map_cons] at hnodup
  have hnew : spec.name ∉ specs.map ExtensionModuleSpec.name := fun hin =>
    (List.nodup_append.mp hnodup).2.2 _ hin _ List.mem_cons_self rfl
  apply ModuleRegistry.registerIsolated_of_free (hpassed.ok.modules_ok spec hmem).isolated
  show mgr.registry.get spec.name = none
  rw [h.registry, get_setAll_of_notMem hnew]
  exact hpassed.free spec hmem

/-- A registered module is taken back. -/
theorem Entered.unregister {specs : List ExtensionModuleSpec} {spec : ExtensionModuleSpec}
    (h : Entered site source before m (spec :: specs) mgr) : Entered site source before m specs
      { mgr with registry := mgr.registry.unregister spec.name } := by
  have hpassed := preflight_ok h.passed
  have hnodup := hpassed.ok.modules_nodup.sublist (h.sublist.map ExtensionModuleSpec.name)
  refine ⟨h.passed, ?_, h.installed, h.dirs, (List.sublist_cons_self spec specs).trans h.sublist⟩
  show mgr.registry.unregister spec.name = _
  rw [h.registry]
  exact unregister_setAll (hpassed.free spec (h.sublist.subset List.mem_cons_self))
    (List.nodup_cons.mp hnodup).1

theorem Entered.begun (h : Entered site source before m [] mgr) : Begun site source before m mgr :=
  ⟨h.passed, h.registry, h.installed, Or.inr ⟨_, h.dirs, fun _ => rfl⟩⟩

/-- One module more is registered, and at the end the extension is complete. -/
theorem InstallInv.registers {mgr : Manager} {y : Manager × Progress} {m : ExtensionManifest}
    {registered : List String} {todo : List ExtensionModuleSpec}
    (h : InstallInv site source before (mgr, .registering m registered todo))
    (hs : installStep site source (mgr, .registering m registered todo) .go = some y) :
    InstallInv site source before y := by
  obtain ⟨specs, hentered, rfl, hmodules⟩ := h
  cases todo with
  | cons spec todo =>
      simp only [installStep, hentered.register hmodules] at hs
      obtain rfl := Option.some.inj hs
      refine ⟨specs ++ [spec], ⟨hentered.passed, ?_, hentered.installed, hentered.dirs, ?_⟩,
        by simp, by simpa using hmodules⟩
      · show mgr.registry.set spec.manifest = _
        rw [hentered.registry, setAll_concat]
      · rw [hmodules]
        exact List.Sublist.append_left (List.singleton_sublist.mpr List.mem_cons_self) specs
  | nil =>
      obtain rfl := Option.some.inj hs
      refine ⟨m, hentered.passed, rfl, ?_⟩
      obtain rfl : specs = m.modules := by rw [hmodules, List.append_nil]
      obtain ⟨registry, installed, dirs⟩ := mgr
      obtain ⟨-, rfl, rfl, rfl, -⟩ := hentered
      rfl

/-- The install goes on. -/
theorem InstallInv.go {mgr : Manager} {progress : Progress} {y : Manager × Progress}
    (h : InstallInv site source before (mgr, progress))
    (hs : installStep site source (mgr, progress) .go = some y) :
    InstallInv site source before y := by
  cases progress with
  | checking =>
      obtain rfl : mgr = before := h
      simp only [installStep] at hs
      split at hs
      · rename_i m hm
        obtain rfl := Option.some.inj hs
        exact ⟨rfl, hm⟩
      · -- refused before anything was touched
        obtain rfl := Option.some.inj hs
        rfl
  | making m =>
      obtain ⟨hmgr, hm⟩ := h
      obtain rfl : mgr = before := hmgr
      obtain rfl := Option.some.inj hs
      exact Begun.of_checked hm
  | copying m | venv m =>
      obtain rfl := Option.some.inj hs
      exact Begun.write h (by simp)
  | pip m =>
      obtain rfl := Option.some.inj hs
      exact h
  | writing m =>
      obtain rfl := Option.some.inj hs
      exact ⟨[], Entered.start h, rfl, rfl⟩
  | registering m registered todo => exact h.registers hs
  | unregistering m names e =>
      obtain ⟨hcaught, specs, hentered, rfl⟩ := h
      cases specs with
      | cons spec specs =>
          obtain rfl := Option.some.inj hs
          exact ⟨hcaught, specs, hentered.unregister, rfl⟩
      | nil =>
          -- nothing is registered any more; the directory is next
          simp only [installStep, List.map_nil, hcaught, if_true] at hs
          obtain rfl := Option.some.inj hs
          exact ⟨hentered.begun, hcaught⟩
  | rollback m e =>
      obtain rfl := Option.some.inj hs
      exact Begun.remove h.1
  | returning result => cases hs

/-- A step of it raises. -/
theorem InstallInv.fail {mgr : Manager} {progress : Progress} {y : Manager × Progress}
    {e : InstallError} (h : InstallInv site source before (mgr, progress)) (hok : InstallOk (.fail e))
    (hs : installStep site source (mgr, progress) (.fail e) = some y) :
    InstallInv site source before y := by
  cases progress with
  | making m =>
      obtain ⟨hmgr, hm⟩ := h
      obtain rfl : mgr = before := hmgr
      obtain rfl := Option.some.inj hs
      exact ⟨Begun.of_checked hm, hok⟩
  | copying m | venv m | pip m | writing m =>
      obtain rfl := Option.some.inj hs
      exact ⟨h, hok⟩
  | registering m registered todo =>
      cases todo with
      | cons spec todo =>
          obtain ⟨specs, hentered, hnames, -⟩ := h
          obtain rfl := Option.some.inj hs
          exact ⟨hok, specs, hentered, hnames⟩
      | nil => cases hs
  | checking | unregistering | rollback | returning => cases hs

/-- **The step lemma of an install.** -/
theorem InstallInv.step {x y : Manager × Progress} {a : InstallAct}
    (h : InstallInv site source before x) (hok : InstallOk a)
    (hs : installStep site source x a = some y) : InstallInv site source before y := by
  obtain ⟨mgr, progress⟩ := x
  cases a with
  | go => exact h.go hs
  | fail e => exact h.fail hok hs
  | copyPart part =>
      cases progress with
      | copying m =>
          obtain rfl := Option.some.inj hs
          exact Begun.write h (by simp)
      | checking | making | venv | pip | writing | registering | unregistering | rollback
      | returning => cases hs
  | writePart =>
      cases progress with
      | writing m =>
          obtain rfl := Option.some.inj hs
          exact Begun.write h fun _ => rfl
      | checking | making | copying | venv | pip | registering | unregistering | rollback
      | returning => cases hs

/-- **An install has all of its effect or none.** -/
theorem install_inv {x : Manager × Progress}
    (hrun : Reaches (InstallSteps site source) (before, .checking) x) :
    InstallInv site source before x :=
  Reaches.invariant (fun _ _ hfire h => by
    obtain ⟨a, hok, hs⟩ := hfire
    exact h.step hok hs) hrun rfl

end Facts

end Formshift
