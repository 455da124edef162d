/-
Formshift/InstallRequest.lean

`POST /v1/extensions`, from the body of the request to the answer
(`install_extension`, `app.py`; `_install_locked`, `extensions.py`).

The work is done by the operating system and by libraries, whose answers an
`Environment` gives; each answer is a result or an exception of one of the
classes documented for it.  Four layers stand around them, every one with its
own list of classes, and `IsOwn` are the exceptions the last one turns into an
answer.  Not all are covered: `install_answered_iff` says for each of the
layers exactly when nothing else comes out of it.  What the install returns or
raises here is what the steps of `Installs.lean` end in
(`returns_of_installLocked`).
-/
import Formshift.InstallOrder
import Formshift.ManifestTexts

namespace Formshift

open Py Steps

/-! ### The environment -/

/-- A path as the process holds it.  Its text can be sent unless it holds bytes
that spell no character. -/
structure PathText where
  text : String
  encodes : Bool

/-- What finding a path can raise. -/
inductive LocateFault where
  | osError (text : String)
  | valueError (text : String)
  | runtimeError (text : String)

/-- What the copy, the environment and pip can raise. -/
inductive StepFault where
  | osError (text : String)
  | valueError (text : String)
  | calledProcess (text : String)
  | timeoutExpired (text : String)

/-- `subprocess.run` of pip that has come to its end. -/
structure PipRun where
  returncode : Int
  stderrTail : String

/-- What the operating system and the libraries answer during one install;
an `OSError` is its text. -/
structure Environment where
  /-- `Path(path).expanduser().resolve()`. -/
  resolve : Str → Except LocateFault PathText
  isDir : PathText → Except String Bool
  /-- `(source / "extension.toml").is_file()`. -/
  manifestIsFile : PathText → Except String Bool
  /-- `tomllib.loads` of `read_text`. -/
  readManifest : PathText → Except ReadFault (List (String × Toml))
  /-- `root.exists()`. -/
  rootExists : String → Except String Bool
  mkdir : Except String Unit
  copytree : PathText → String → Except StepFault Unit
  venvCreate : ExtensionManifest → Except StepFault Unit
  pip : ExtensionManifest → Except StepFault PipRun
  writeState : String → Except String Unit
  /-- The text of the extensions directory can be sent. -/
  dirEncodes : Bool

/-- What comes out of an install that does not return. -/
inductive InstallFault where
  /-- One of the classes the service deals with, and whether its text can be
  sent. -/
  | install (e : InstallError) (encodes : Bool)
  | runtimeError (text : String)
  | calledProcess (text : String)
  | timeoutExpired (text : String)

namespace InstallFault

def extension (message : String) : InstallFault := .install (.extension message) true

def osError (text : String) : InstallFault := .install (.osError text) true

/-- `except (ExtensionError, OSError, ValueError)` of `_install_locked`. -/
def surfaced (py : Spelling) (name : String) : InstallFault → InstallFault
  | .install e encodes => .install (e.surfaced py name) encodes
  | .runtimeError text => .runtimeError text
  | .calledProcess text => .calledProcess text
  | .timeoutExpired text => .timeoutExpired text

end InstallFault

def LocateFault.raised : LocateFault → InstallFault
  | .osError text => .osError text
  | .valueError text => .install (.valueError text) true
  | .runtimeError text => .runtimeError text

def StepFault.raised : StepFault → InstallFault
  | .osError text => .osError text
  | .valueError text => .install (.valueError text) true
  | .calledProcess text => .calledProcess text
  | .timeoutExpired text => .timeoutExpired text

/-! ### The install -/

section Install

variable (site : Site) (env : Environment)

/-- `is_dir()`, and the refusal of what is none. -/
def checkDir (source : PathText) : Except InstallFault Unit :=
  match env.isDir source with
  | .error text => .error (.osError text)
  | .ok false => .error (.install
      (.extension ("extension source " ++ source.text ++ " is not a directory")) source.encodes)
  | .ok true => .ok ()

/-- `parse_extension_manifest` in this environment; the path stands in the text
of one refusal. -/
def parseManifest (source : PathText) : Except InstallFault ExtensionManifest :=
  match env.manifestIsFile source with
  | .error text => .error (.osError text)
  | .ok isFile =>
    let toml := if isFile then some (env.readManifest source) else none
    let seen : Source := ⟨source.text, true, toml⟩
    (parseExtensionManifest site.py seen).mapError fun e => .install e (isFile || source.encodes)

/-- The collisions with what is there already. -/
def checkFree (mgr : Manager) (m : ExtensionManifest) : Except InstallFault Unit :=
  if m.name ∈ mgr.installed then
    .error (.install
      (.conflict ("extension " ++ site.py.repr m.name ++ " is already installed")) true)
  else
    match m.modules.find? fun spec => (mgr.registry.get spec.name).isSome with
    | some spec => .error (.install
        (.conflict ("module " ++ site.py.repr spec.name ++ " is already registered")) true)
    | none => .ok ()

def checkRoot (m : ExtensionManifest) : Except InstallFault Unit :=
  match env.rootExists m.name with
  | .error text => .error (.osError text)
  | .ok true => .error (.install (.conflict ("extension directory " ++ site.root m.name ++
      " already exists (remove it to reinstall)")) env.dirEncodes)
  | .ok false => .ok ()

/-- `_create_venv`: the environment itself. -/
def makeVenv (m : ExtensionManifest) : Except InstallFault Unit :=
  match env.venvCreate m with
  | .error (.osError text) | .error (.calledProcess text) => .error (.extension
      ("could not create venv for " ++ site.py.repr m.name ++ ": " ++ text))
  | .error e => .error e.raised
  | .ok () => .ok ()

/-- `_create_venv`: what is to be installed into it. -/
def installRequirements (m : ExtensionManifest) : Except InstallFault Unit :=
  if m.requirements = [] then .ok ()
  else
    match env.pip m with
    | .error (.timeoutExpired _) => .error (.extension
        ("dependency install for " ++ site.py.repr m.name ++ " timed out after 900s"))
    | .error e => .error e.raised
    | .ok run =>
      if run.returncode ≠ 0 then .error (.extension ("dependency install for " ++
        site.py.repr m.name ++ " failed (exit " ++ run.returncode.repr ++ "): " ++ run.stderrTail))
      else .ok ()

/-- The loop of `_register`. -/
def registerAll (registry : ModuleRegistry) :
    List ExtensionModuleSpec → Except InstallFault ModuleRegistry
  | [] => .ok registry
  | spec :: specs => do
    let registry' ← (registry.registerIsolated site.py.repr spec.manifest).mapError
      fun e => .install e.raised true
    registerAll registry' specs

/-- The `try` block of `_install_locked`. -/
def perform (mgr : Manager) (source : PathText) (m : ExtensionManifest) :
    Except InstallFault InstalledExtension := do
  env.mkdir.mapError .osError
  (env.copytree source m.name).mapError StepFault.raised
  makeVenv site env m
  installRequirements site env m
  (env.writeState m.name).mapError .osError
  let _ ← registerAll site mgr.registry m.modules
  .ok ⟨m, m.name⟩

/-- `_install_locked`. -/
def installLocked (mgr : Manager) (path : Str) : Except InstallFault InstalledExtension := do
  let source ← (env.resolve path).mapError LocateFault.raised
  checkDir env source
  let m ← parseManifest site env source
  checkFree site mgr m
  checkRoot site env m
  (perform site env mgr source m).mapError fun e => e.surfaced site.py m.name

/-! ### The request -/

inductive Reply where
  | created (name version : String) (modules : List String)
  | refused (status : Nat) (detail : String)
  /-- An exception that nobody catches. -/
  | crashed
  deriving DecidableEq

def Reply.status : Reply → Nat
  | .created _ _ _ => 201
  | .refused status _ => status
  | .crashed => 500

/-- `JSONResponse` of a refusal. -/
def refusal (status : Nat) (detail : String) (encodes : Bool) : Reply :=
  if encodes then .refused status detail else .crashed

/-- The `except` clauses of `install_extension`, and its answer. -/
def replyOf : Except InstallFault InstalledExtension → Reply
  | .ok installed => .created installed.manifest.name installed.manifest.version
      (installed.manifest.modules.map ExtensionModuleSpec.name)
  | .error (.install (.conflict message) encodes) => refusal 409 message encodes
  | .error (.install (.extension message) encodes) => refusal 422 message encodes
  | .error (.install (.notImplemented message) encodes) => refusal 422 message encodes
  | .error _ => .crashed

/-- `install_extension`; no manager is a server without an extensions
directory, and no body one that is no JSON. -/
def installExtension (extensions : Option Manager) (body : Option Json) : Reply :=
  match extensions with
  | none => .refused 503 "extension installation is disabled (no --extensions-dir)"
  | some mgr =>
    match body with
    | none => .refused 400 "Body must be JSON"
    | some (.obj fields) =>
      match fields.lookup (.text "path") with
      | some (.str path) =>
        if path = "" then .refused 400 "'path' (extension source dir) required"
        else replyOf (installLocked site env mgr path)
      | _ => .refused 400 "'path' (extension source dir) required"
    | some _ => .refused 400 "Body must be a JSON object"

end Install

/-! ### What may come out -/

/-- What the handler of the request catches. -/
def IsOwn : InstallFault → Prop
  | .install e _ => e.isOwn = true
  | .runtimeError _ | .calledProcess _ | .timeoutExpired _ => False

/-- The text of the exception can be sent. -/
def IsSendable : InstallFault → Prop
  | .install _ encodes => encodes = true
  | .runtimeError _ | .calledProcess _ | .timeoutExpired _ => True

section Conditions

variable (site : Site) (env : Environment) (mgr : Manager)

/-- The manifest is refused by the TOML reader, or it is read and the values the
parser spells have texts. -/
def ManifestRead (source : PathText) : Prop :=
  (∃ text, env.readManifest source = .error (.reported text)) ∨
    ∃ data, env.readManifest source = .ok data ∧ TextsReached site.py data

/-- Whether there is a manifest can be told, and one that is there can be read. -/
def Readable (source : PathText) : Prop :=
  ∃ isFile, env.manifestIsFile source = .ok isFile ∧ (isFile = true → ManifestRead site env source)

/-- The manifest of a new extension none of whose modules is there. -/
def Fresh (source : PathText) (m : ExtensionManifest) : Prop :=
  (∃ data, env.manifestIsFile source = .ok true ∧ env.readManifest source = .ok data ∧
    manifestOf site.py data = .ok m) ∧
  m.name ∉ mgr.installed ∧ ∀ spec ∈ m.modules, mgr.registry.get spec.name = none

/-- No step raises what nothing around it catches. -/
def StepsHandled (source : PathText) (m : ExtensionManifest) : Prop :=
  env.mkdir = .ok () →
    (∀ text, env.copytree source m.name ≠ .error (.calledProcess text) ∧
      env.copytree source m.name ≠ .error (.timeoutExpired text)) ∧
    (env.copytree source m.name = .ok () →
      (∀ text, env.venvCreate m ≠ .error (.timeoutExpired text)) ∧
      (env.venvCreate m = .ok () → m.requirements ≠ [] →
        ∀ text, env.pip m ≠ .error (.calledProcess text)))

/-- The path is found, every question about the file system is answered, a
manifest can be read, and the steps are handled. -/
def Settles (path : Str) : Prop :=
  ∃ source, env.resolve path = .ok source ∧ ∃ isDir, env.isDir source = .ok isDir ∧
    (isDir = true → Readable site env source ∧ ∀ m, Fresh site env mgr source m →
      ∃ taken, env.rootExists m.name = .ok taken ∧ (taken = false → StepsHandled env source m))

/-- A path that a refusal names can be sent. -/
def Sendable (path : Str) : Prop :=
  ∀ source, env.resolve path = .ok source →
    (env.isDir source = .ok false → source.encodes = true) ∧
    (env.isDir source = .ok true → (env.manifestIsFile source = .ok false → source.encodes = true) ∧
      ∀ m, Fresh site env mgr source m → env.rootExists m.name = .ok true → env.dirEncodes = true)

end Conditions

/-- The body asks for the extension at this path. -/
def Requests (body : Option Json) (path : Str) : Prop :=
  ∃ fields, body = some (.obj fields) ∧ fields.lookup (.text "path") = some (.str path) ∧ path ≠ ""

/-! ### The steps of an install -/

section Steps

variable {site : Site} {env : Environment} {mgr : Manager} {source : PathText}
  {m : ExtensionManifest}

theorem within_resolve {path : Str} :
    Within IsOwn ((env.resolve path).mapError LocateFault.raised) ↔
      ∃ source, env.resolve path = .ok source := by
  rw [within_mapError]
  cases env.resolve path with
  | ok source => simp
  | error e =>
      cases e <;> simp [LocateFault.raised, IsOwn, InstallFault.osError, InstallError.isOwn]

theorem within_checkDir :
    Within IsOwn (checkDir env source) ↔ ∃ isDir, env.isDir source = .ok isDir := by
  unfold checkDir
  split
  · rename_i h
    simp [h, IsOwn, InstallFault.osError, InstallError.isOwn]
  · rename_i h
    simp [h, IsOwn, InstallError.isOwn]
  · rename_i h
    simp [h]

theorem sendable_checkDir : Within IsSendable (checkDir env source) ↔
    (env.isDir source = .ok false → source.encodes = true) := by
  unfold checkDir
  split
  · rename_i h
    simp [h, IsSendable, InstallFault.osError]
  · rename_i h
    simp [h, IsSendable]
  · rename_i h
    simp [h]

theorem checkDir_ok_iff {u : Unit} :
    checkDir env source = .ok u ↔ env.isDir source = .ok true := by
  unfold checkDir
  split
  · rename_i h
    simp [h]
  · rename_i h
    simp [h]
  · rename_i h
    simp [h]

/-- `parse_extension_manifest` raises the service's own exceptions alone where
the manifest can be read. -/
theorem within_parseManifest :
    Within IsOwn (parseManifest site env source) ↔ Readable site env source := by
  unfold parseManifest Readable
  split
  · rename_i h
    simp [h, IsOwn, InstallFault.osError, InstallError.isOwn]
  · rename_i isFile h
    simp only [h, Except.ok.injEq, exists_eq_left', within_mapError, IsOwn]
    cases isFile with
    | false => simp [parseExtensionManifest, InstallError.isOwn]
    | true =>
        simp only [if_true, forall_const, ManifestRead]
        cases hread : env.readManifest source with
        | error fault =>
            cases fault <;> simp [parseExtensionManifest, InstallError.isOwn]
        | ok data =>
            simp only [reduceCtorEq, exists_const, false_or, Except.ok.injEq, exists_eq_left']
            exact within_manifestOf

theorem sendable_parseManifest : Within IsSendable (parseManifest site env source) ↔
    (env.manifestIsFile source = .ok false → source.encodes = true) := by
  unfold parseManifest
  split
  · rename_i h
    simp [h, IsSendable, InstallFault.osError]
  · rename_i isFile h
    simp only [h, within_mapError, IsSendable]
    cases isFile with
    | false => simp [parseExtensionManifest]
    | true => exact iff_of_true (fun _ _ => rfl) (by simp)

theorem parseManifest_ok_iff : parseManifest site env source = .ok m ↔
    ∃ data, env.manifestIsFile source = .ok true ∧ env.readManifest source = .ok data ∧
      manifestOf site.py data = .ok m := by
  unfold parseManifest
  split
  · rename_i h
    simp [h]
  · rename_i isFile h
    dsimp only
    rw [mapError_ok_iff, parse_eq_ok_iff]
    cases isFile <;> simp [h]

theorem within_checkFree {P : InstallFault → Prop}
    (hP : ∀ message, P (.install (.conflict message) true)) :
    Within P (checkFree site mgr m) := by
  unfold checkFree
  split
  · exact within_error.mpr (hP _)
  · split
    · exact within_error.mpr (hP _)
    · exact within_ok.mpr trivial

theorem checkFree_ok_iff {u : Unit} : checkFree site mgr m = .ok u ↔
    m.name ∉ mgr.installed ∧ ∀ spec ∈ m.modules, mgr.registry.get spec.name = none := by
  unfold checkFree
  split
  · rename_i h
    simp [h]
  · rename_i h
    split
    · rename_i spec hfind
      refine iff_of_false (by simp) fun hfree => ?_
      have hsome := List.find?_some hfind
      rw [hfree.2 spec (List.mem_of_find?_eq_some hfind)] at hsome
      cases hsome
    · rename_i hfind
      refine iff_of_true rfl ⟨h, fun spec hspec => ?_⟩
      simpa using List.find?_eq_none.mp hfind spec hspec

theorem within_checkRoot :
    Within IsOwn (checkRoot site env m) ↔ ∃ taken, env.rootExists m.name = .ok taken := by
  unfold checkRoot
  split
  · rename_i h
    simp [h, IsOwn, InstallFault.osError, InstallError.isOwn]
  · rename_i h
    simp [h, IsOwn, InstallError.isOwn]
  · rename_i h
    simp [h]

theorem sendable_checkRoot : Within IsSendable (checkRoot site env m) ↔
    (env.rootExists m.name = .ok true → env.dirEncodes = true) := by
  unfold checkRoot
  split
  · rename_i h
    simp [h, IsSendable, InstallFault.osError]
  · rename_i h
    simp [h, IsSendable]
  · rename_i h
    simp [h]

theorem checkRoot_ok_iff {u : Unit} :
    checkRoot site env m = .ok u ↔ env.rootExists m.name = .ok false := by
  unfold checkRoot
  split
  · rename_i h
    simp [h]
  · rename_i h
    simp [h]
  · rename_i h
    simp [h]

/-! ### The steps that touch something -/

/-- What the handler of `_install_locked` makes its own, or what is that already. -/
def IsTurned : InstallFault → Prop
  | .install e _ => e.isCaught = true ∨ e.isOwn = true
  | .runtimeError _ | .calledProcess _ | .timeoutExpired _ => False

theorem isOwn_surfaced {py : Spelling} {name : String} {e : InstallFault} :
    IsOwn (e.surfaced py name) ↔ IsTurned e := by
  cases e with
  | install e encodes =>
      cases e <;> simp [InstallFault.surfaced, InstallError.surfaced, IsOwn, IsTurned,
        InstallError.isCaught, InstallError.isOwn]
  | runtimeError | calledProcess | timeoutExpired => exact Iff.rfl

theorem within_copytree :
    Within IsTurned ((env.copytree source m.name).mapError StepFault.raised) ↔
      ∀ text, env.copytree source m.name ≠ .error (.calledProcess text) ∧
        env.copytree source m.name ≠ .error (.timeoutExpired text) := by
  rw [within_mapError]
  cases env.copytree source m.name with
  | ok u => simp
  | error e =>
      cases e <;> simp [StepFault.raised, IsTurned, InstallFault.osError, InstallError.isCaught]

theorem within_makeVenv : Within IsTurned (makeVenv site env m) ↔
    ∀ text, env.venvCreate m ≠ .error (.timeoutExpired text) := by
  unfold makeVenv
  cases env.venvCreate m with
  | ok u => simp
  | error e =>
      cases e <;> simp [StepFault.raised, IsTurned, InstallFault.extension, InstallError.isCaught]

theorem makeVenv_ok_iff {u : Unit} : makeVenv site env m = .ok u ↔ env.venvCreate m = .ok () := by
  unfold makeVenv
  cases env.venvCreate m with
  | ok u => simp
  | error e => cases e <;> simp

theorem within_installRequirements : Within IsTurned (installRequirements site env m) ↔
    (m.requirements ≠ [] → ∀ text, env.pip m ≠ .error (.calledProcess text)) := by
  unfold installRequirements
  split_ifs with h
  · simp [h]
  · cases env.pip m with
    | ok run =>
        dsimp only
        split_ifs <;> simp [IsTurned, InstallFault.extension, InstallError.isCaught]
    | error e =>
        cases e <;>
          simp [StepFault.raised, IsTurned, InstallFault.osError, InstallFault.extension,
            InstallError.isCaught, h]

theorem within_registerAll {P : InstallFault → Prop}
    (hP : ∀ e : ModuleRegistry.Error, P (.install e.raised true))
    (registry : ModuleRegistry) (specs : List ExtensionModuleSpec) :
    Within P (registerAll site registry specs) := by
  induction specs generalizing registry with
  | nil => exact within_ok.mpr trivial
  | cons spec specs ih =>
      refine Within.bind ?_ fun registry' => ih registry'
      rw [within_mapError]
      exact fun e _ => hP e

theorem within_perform :
    Within IsTurned (perform site env mgr source m) ↔ StepsHandled env source m := by
  have hmkdir : ∀ x : Except String Unit, Within IsTurned (x.mapError InstallFault.osError) :=
    fun x => within_mapError.mpr fun _ _ => Or.inl rfl
  have hregister : Within IsTurned (registerAll site mgr.registry m.modules) := by
    refine within_registerAll (fun e => ?_) _ _
    cases e with
    | notImplemented message => exact Or.inr rfl
    | valueError message => exact Or.inl rfl
  simp only [perform, within_bind_iff, hmkdir, hregister, within_copytree, within_makeVenv,
    within_installRequirements, makeVenv_ok_iff, mapError_ok_iff, within_ok, StepsHandled,
    true_and, implies_true, and_true, Unique.forall_iff]

theorem sendable_raised (e : StepFault) : IsSendable e.raised := by
  cases e <;> simp [StepFault.raised, IsSendable, InstallFault.osError]

theorem sendable_perform : Within IsSendable (perform site env mgr source m) := by
  -- one fact a step, in the order the steps are taken
  have hmkdir : ∀ x : Except String Unit, Within IsSendable (x.mapError InstallFault.osError) :=
    fun x => within_mapError.mpr fun _ _ => rfl
  have hcopy : Within IsSendable ((env.copytree source m.name).mapError StepFault.raised) :=
    within_mapError.mpr fun e _ => sendable_raised e
  have hvenv : Within IsSendable (makeVenv site env m) := by
    unfold makeVenv
    split
    · exact within_error.mpr rfl
    · exact within_error.mpr rfl
    · exact within_error.mpr (sendable_raised _)
    · exact within_ok.mpr trivial
  have hpip : Within IsSendable (installRequirements site env m) := by
    unfold installRequirements
    split_ifs
    · exact within_ok.mpr trivial
    · split
      · exact within_error.mpr rfl
      · exact within_error.mpr (sendable_raised _)
      · split_ifs
        · exact within_error.mpr rfl
        · exact within_ok.mpr trivial
  exact (hmkdir _).bind fun _ => hcopy.bind fun _ => hvenv.bind fun _ => hpip.bind fun _ =>
    (hmkdir _).bind fun _ => (within_registerAll (fun _ => rfl) _ _).bind fun _ =>
      within_ok.mpr trivial

theorem sendable_surfaced {py : Spelling} {name : String} {e : InstallFault} :
    IsSendable (e.surfaced py name) ↔ IsSendable e := by
  cases e <;> exact Iff.rfl

end Steps

/-! ### The install and the request -/

section Request

variable {site : Site} {env : Environment} {mgr : Manager}

/-- The steps up to the manifest of a new extension were gone through. -/
theorem fresh_iff {source : PathText} {m : ExtensionManifest} :
    Fresh site env mgr source m ↔
      parseManifest site env source = .ok m ∧ checkFree site mgr m = .ok () := by
  rw [parseManifest_ok_iff, checkFree_ok_iff, Fresh]

/-- What comes out of an install comes out of one of its steps. -/
theorem within_installLocked_iff {P : InstallFault → Prop}
    (hP : ∀ message, P (.install (.conflict message) true)) {path : Str} :
    Within P (installLocked site env mgr path) ↔
      Within P ((env.resolve path).mapError LocateFault.raised) ∧
      ∀ source, env.resolve path = .ok source → Within P (checkDir env source) ∧
        (env.isDir source = .ok true → Within P (parseManifest site env source) ∧
          ∀ m, Fresh site env mgr source m → Within P (checkRoot site env m) ∧
            (env.rootExists m.name = .ok false →
              Within (fun e => P (e.surfaced site.py m.name))
                (perform site env mgr source m))) := by
  -- stage by stage: resolve, the directory, the manifest, the root, the writes
  rw [installLocked, within_bind_iff]
  refine and_congr_right fun _ => forall_congr' fun source => ?_
  rw [mapError_ok_iff, within_bind_iff]
  refine forall_congr' fun _ => and_congr_right fun _ => ?_
  simp only [Unique.forall_iff, checkDir_ok_iff]
  refine forall_congr' fun _ => ?_
  rw [within_bind_iff]
  refine and_congr_right fun _ => forall_congr' fun m => ?_
  rw [fresh_iff, and_imp, within_bind_iff]
  refine forall_congr' fun _ => ?_
  -- a name already taken is a conflict, which P allows
  rw [and_iff_right (within_checkFree hP)]
  simp only [Unique.forall_iff]
  refine forall_congr' fun _ => ?_
  rw [within_bind_iff]
  simp only [Unique.forall_iff, checkRoot_ok_iff, within_mapError]

/-- **What comes out of an install** is the service's own exactly when the
install settles. -/
theorem within_installLocked {path : Str} :
    Within IsOwn (installLocked site env mgr path) ↔ Settles site env mgr path := by
  rw [within_installLocked_iff fun _ => rfl, within_resolve]
  simp only [within_checkDir, within_parseManifest, within_checkRoot, isOwn_surfaced,
    within_perform]
  constructor
  · rintro ⟨⟨source, hsource⟩, h⟩
    obtain ⟨⟨isDir, hdir⟩, h⟩ := h source hsource
    refine ⟨source, hsource, isDir, hdir, fun hisDir => ?_⟩
    obtain ⟨hread, h⟩ := h (hisDir ▸ hdir)
    refine ⟨hread, fun m hm => ?_⟩
    obtain ⟨⟨taken, htaken⟩, h⟩ := h m hm
    exact ⟨taken, htaken, fun hno => h (hno ▸ htaken)⟩
  · rintro ⟨source, hsource, isDir, hdir, h⟩
    refine ⟨⟨source, hsource⟩, fun source' hsource' => ?_⟩
    obtain rfl := Except.ok.inj (hsource.symm.trans hsource')
    refine ⟨⟨isDir, hdir⟩, fun hisDir => ?_⟩
    obtain ⟨hread, h⟩ := h (Except.ok.inj (hdir.symm.trans hisDir))
    refine ⟨hread, fun m hm => ?_⟩
    obtain ⟨taken, htaken, h⟩ := h m hm
    exact ⟨⟨taken, htaken⟩, fun hno => h (Except.ok.inj (htaken.symm.trans hno))⟩

theorem sendable_installLocked {path : Str} :
    Within IsSendable (installLocked site env mgr path) ↔ Sendable site env mgr path := by
  have hresolve : Within IsSendable ((env.resolve path).mapError LocateFault.raised) := by
    refine within_mapError.mpr fun e _ => ?_
    cases e <;> simp [LocateFault.raised, IsSendable, InstallFault.osError]
  rw [within_installLocked_iff fun _ => rfl, and_iff_right hresolve]
  simp only [sendable_checkDir, sendable_parseManifest, sendable_checkRoot, sendable_surfaced,
    sendable_perform, implies_true, and_true, Sendable]

/-- The answers the route is documented with. -/
def answers : List Nat := [201, 400, 409, 422]

theorem status_refusal {status : Nat} {detail : String} {encodes : Bool} (h : status ∈ answers) :
    (refusal status detail encodes).status ∈ answers ↔ encodes = true := by
  cases encodes with
  | true => exact iff_of_true h rfl
  | false => exact iff_of_false (show ¬ 500 ∈ answers by decide) (by simp)

theorem status_replyOf {result : Except InstallFault InstalledExtension} :
    (replyOf result).status ∈ answers ↔ Within (fun e => IsOwn e ∧ IsSendable e) result := by
  cases result with
  | ok installed => exact iff_of_true (show 201 ∈ answers by decide) (within_ok.mpr trivial)
  | error e =>
      rw [within_error]
      cases e with
      | install e encodes =>
          cases e with
          | extension message | conflict message | notImplemented message =>
              refine (status_refusal (by decide)).trans ?_
              simp [IsOwn, IsSendable, InstallError.isOwn]
          | osError text | valueError text | recursionError text =>
              exact iff_of_false (show ¬ 500 ∈ answers by decide)
                (by simp [IsOwn, InstallError.isOwn])
      | runtimeError text | calledProcess text | timeoutExpired text =>
          exact iff_of_false (show ¬ 500 ∈ answers by decide) (by simp [IsOwn])

/-- The request is answered where what comes out of the install is the service's
own and can be sent. -/
theorem status_of_requests {body : Option Json} {path : Str} (h : Requests body path) :
    (installExtension site env (some mgr) body).status ∈ answers ↔
      Within (fun e => IsOwn e ∧ IsSendable e) (installLocked site env mgr path) := by
  obtain ⟨fields, rfl, hpath, hne⟩ := h
  simp only [installExtension, hpath, if_neg hne]
  exact status_replyOf

/-- What asks for no extension is refused at once. -/
theorem status_of_not_requests {body : Option Json} (h : ∀ path, ¬ Requests body path) :
    (installExtension site env (some mgr) body).status ∈ answers := by
  unfold installExtension
  dsimp only
  split
  · decide
  · rename_i fields
    split
    · rename_i path hpath
      split_ifs with hempty
      · decide
      · exact absurd ⟨fields, rfl, hpath, hempty⟩ (h path)
    · decide
  · decide

end Request

/-! ### The install as a run of its steps -/

section Runs

variable {site : Site} {env : Environment} {mgr : Manager} {source : Source}
  {m : ExtensionManifest}

/-- The environment shows this source at the path, and the directories of the
manager. -/
structure Agrees (env : Environment) (mgr : Manager) (source : Source) (path : Str)
    (encodes : Bool) : Prop where
  resolve : env.resolve path = .ok ⟨source.path, encodes⟩
  isDir : env.isDir ⟨source.path, encodes⟩ = .ok source.isDir
  isFile : env.manifestIsFile ⟨source.path, encodes⟩ = .ok source.toml.isSome
  read : ∀ toml, source.toml = some toml → env.readManifest ⟨source.path, encodes⟩ = toml
  root : ∀ name, env.rootExists name = .ok (decide (name ∈ mgr.dirs))

/-- The install ends in this result. -/
def Returns (site : Site) (source : Source) (x : Manager × Progress) (result : InstallResult) :
    Prop :=
  ∃ mgr', Reaches (InstallSteps site source) x (mgr', .returning result)

theorem Returns.of_step {x y : Manager × Progress} {result : InstallResult} {a : InstallAct}
    (hok : InstallOk a) (hs : installStep site source x a = some y)
    (h : Returns site source y result) : Returns site source x result := by
  obtain ⟨mgr', hrun⟩ := h
  exact ⟨mgr', .head ⟨a, hok, hs⟩ hrun⟩

/-- A failure on the way is taken back and surfaces. -/
theorem returns_of_fail {p : Progress} {e : InstallError} (hcaught : e.isCaught = true)
    (hs : installStep site source (mgr, p) (.fail e) = some (mgr, .rollback m e)) :
    Returns site source (mgr, p) (.error (e.surfaced site.py m.name)) := by
  apply Returns.of_step (a := .fail e) hcaught hs
  exact Returns.of_step (a := .go) trivial rfl ⟨_, .refl⟩

theorem returns_of_unregistering (names : List String) (e : InstallError) :
    Returns site source (mgr, .unregistering m names e) (.error (e.surfaced site.py m.name)) := by
  induction names generalizing mgr with
  | nil =>
      cases hcaught : e.isCaught with
      | true =>
          apply Returns.of_step (a := .go) (y := (mgr, .rollback m e)) trivial
          · simp [installStep, hcaught]
          · exact Returns.of_step (a := .go) trivial rfl ⟨_, .refl⟩
      | false =>
          have hsame : e.surfaced site.py m.name = e := by
            cases e <;> first | rfl | cases hcaught
          apply Returns.of_step (a := .go) (y := (mgr, .returning (.error e))) trivial
          · simp [installStep, hcaught]
          · rw [hsame]
            exact ⟨_, .refl⟩
  | cons name names ih => exact Returns.of_step (a := .go) trivial rfl ih

/-- The result as the steps have it, where they can raise it. -/
def resultOf : Except InstallFault InstalledExtension → Option InstallResult
  | .ok installed => some (.ok installed)
  | .error (.install e _) => some (.error e)
  | .error (.runtimeError _) | .error (.calledProcess _) | .error (.timeoutExpired _) => none

/-- What the handler raises for a step that raised within its classes. -/
def surfacedOf (site : Site) (m : ExtensionManifest)
    (x : Except InstallFault InstalledExtension) : Option InstallResult :=
  resultOf (x.mapError fun e => e.surfaced site.py m.name)

/-- A step that raises is a failing step, and one that does not goes on. -/
theorem returns_of_bind {α : Type} {x : Except InstallFault α}
    {f : α → Except InstallFault InstalledExtension} {p : Progress} {result : InstallResult}
    (h : surfacedOf site m (x >>= f) = some result)
    (hcaught : ∀ e encodes, x = .error (.install e encodes) → e.isCaught = true)
    (hfail : ∀ e, installStep site source (mgr, p) (.fail e) = some (mgr, .rollback m e))
    (hgo : ∀ a, x = .ok a → surfacedOf site m (f a) = some result →
      Returns site source (mgr, p) result) : Returns site source (mgr, p) result := by
  cases x with
  | ok a => exact hgo a rfl h
  | error fault =>
      cases fault with
      | install e encodes =>
          obtain rfl := Option.some.inj h
          exact returns_of_fail (hcaught e encodes rfl) (hfail e)
      | runtimeError | calledProcess | timeoutExpired => cases h

theorem returns_of_registering (registered : List String) (todo : List ExtensionModuleSpec)
    {result : InstallResult} (h : surfacedOf site m (registerAll site mgr.registry todo >>=
      fun _ => .ok ⟨m, m.name⟩) = some result) :
    Returns site source (mgr, .registering m registered todo) result := by
  induction todo generalizing mgr registered with
  | nil =>
      obtain rfl := Option.some.inj h
      exact Returns.of_step (a := .go) trivial rfl ⟨_, .refl⟩
  | cons spec todo ih =>
      cases hreg : mgr.registry.registerIsolated site.py.repr spec.manifest with
      | error e =>
          -- the first refused module ends it, and the earlier ones are unregistered
          have hraised : result = .error (e.raised.surfaced site.py m.name) := by
            simp only [registerAll, hreg] at h
            exact (Option.some.inj h).symm
          rw [hraised]
          apply Returns.of_step (a := .go)
            (y := (mgr, .unregistering m registered e.raised)) trivial
          · simp [installStep, hreg]
          · exact returns_of_unregistering registered e.raised
      | ok registry =>
          simp only [registerAll, hreg] at h
          apply Returns.of_step (a := .go) (y := ({ mgr with registry := registry },
            .registering m (registered ++ [spec.name]) todo)) trivial
          · simp [installStep, hreg]
          · exact ih _ h

theorem caught_osError {x : Except String Unit} {e : InstallError} {encodes : Bool}
    (h : x.mapError InstallFault.osError = .error (.install e encodes)) : e.isCaught = true := by
  cases x with
  | ok u => cases h
  | error text =>
      obtain ⟨rfl, -⟩ := InstallFault.install.inj (Except.error.inj h)
      rfl

theorem caught_raised {fault : StepFault} {e : InstallError} {encodes : Bool}
    (h : fault.raised = .install e encodes) : e.isCaught = true := by
  cases fault with
  | osError text | valueError text =>
      obtain ⟨rfl, -⟩ := InstallFault.install.inj h
      rfl
  | calledProcess text | timeoutExpired text => cases h

theorem caught_copytree {x : Except StepFault Unit} {e : InstallError} {encodes : Bool}
    (h : x.mapError StepFault.raised = .error (.install e encodes)) : e.isCaught = true := by
  cases x with
  | ok u => cases h
  | error fault => exact caught_raised (Except.error.inj h)

theorem caught_makeVenv {e : InstallError} {encodes : Bool}
    (h : makeVenv site env m = .error (.install e encodes)) : e.isCaught = true := by
  unfold makeVenv at h
  split at h
  · obtain ⟨rfl, -⟩ := InstallFault.install.inj (Except.error.inj h)
    rfl
  · obtain ⟨rfl, -⟩ := InstallFault.install.inj (Except.error.inj h)
    rfl
  · exact caught_raised (Except.error.inj h)
  · cases h

theorem caught_installRequirements {e : InstallError} {encodes : Bool}
    (h : installRequirements site env m = .error (.install e encodes)) : e.isCaught = true := by
  unfold installRequirements at h
  split_ifs at h
  split at h
  · obtain ⟨rfl, -⟩ := InstallFault.install.inj (Except.error.inj h)
    rfl
  · exact caught_raised (Except.error.inj h)
  · split_ifs at h
    obtain ⟨rfl, -⟩ := InstallFault.install.inj (Except.error.inj h)
    rfl

theorem returns_of_perform {found : PathText} {result : InstallResult}
    (h : surfacedOf site m (perform site env mgr found m) = some result) :
    Returns site source (mgr, .making m) result := by
  refine returns_of_bind h (fun _ _ => caught_osError) (fun _ => rfl) fun _ _ h => ?_
  apply Returns.of_step (a := .go) trivial rfl
  refine returns_of_bind h (fun _ _ => caught_copytree) (fun _ => rfl) fun _ _ h => ?_
  apply Returns.of_step (a := .go) trivial rfl
  refine returns_of_bind h (fun _ _ => caught_makeVenv) (fun _ => rfl) fun _ _ h => ?_
  apply Returns.of_step (a := .go) trivial rfl
  refine returns_of_bind h (fun _ _ => caught_installRequirements) (fun _ => rfl) fun _ _ h => ?_
  apply Returns.of_step (a := .go) trivial rfl
  refine returns_of_bind h (fun _ _ => caught_osError) (fun _ => rfl) fun _ _ h => ?_
  apply Returns.of_step (a := .go) trivial rfl
  exact returns_of_registering [] m.modules h

/-- The parser sees the source. -/
theorem parseManifest_of_agrees (site : Site) {path : Str} {encodes : Bool}
    (h : Agrees env mgr source path encodes) (hdir : source.isDir = true) :
    ∃ encodes', parseManifest site env ⟨source.path, encodes⟩ =
      (parseExtensionManifest site.py source).mapError fun e => .install e encodes' := by
  have hseen : (⟨source.path, true, if source.toml.isSome = true then
      some (env.readManifest ⟨source.path, encodes⟩) else none⟩ : Source) = source := by
    obtain ⟨path, isDir, toml⟩ := source
    obtain rfl : isDir = true := hdir
    cases toml with
    | none => rfl
    | some toml => simp [h.read toml rfl]
  rw [parseManifest, h.isFile]
  dsimp only
  rw [hseen]
  exact ⟨_, rfl⟩

/-- What is left of the checks once there is a manifest. -/
theorem checked_of_agrees {path : Str} {encodes : Bool}
    (h : Agrees env mgr source path encodes) (hdir : source.isDir = true)
    (hparse : parseExtensionManifest site.py source = .ok m) :
    (∃ e encodes', preflight site source mgr = .error e ∧
      (checkFree site mgr m >>= fun _ => checkRoot site env m) =
        .error (.install e encodes')) ∨
    preflight site source mgr = .ok m ∧
      (checkFree site mgr m >>= fun _ => checkRoot site env m) = .ok () := by
  have hpre : preflight site source mgr = (parseExtensionManifest site.py source >>= _) :=
    if_neg (by simp [hdir])
  rw [hpre, hparse]
  have hroot := h.root m.name
  by_cases hin : m.name ∈ mgr.installed
  -- the extension's own name is taken
  · refine Or.inl ⟨_, true, if_pos hin, ?_⟩
    rw [checkFree, if_pos hin]
    rfl
  · cases hfind : m.modules.find? fun spec => (mgr.registry.get spec.name).isSome with
    | some spec =>
        -- one of its modules is taken
        refine Or.inl ⟨.conflict ("module " ++ site.py.repr spec.name ++ " is already registered"),
          true, (if_neg hin).trans ?_, ?_⟩
        · rw [hfind]
        · rw [checkFree, if_neg hin, hfind]
          rfl
    | none =>
        have hfree : checkFree site mgr m = .ok () := by
          rw [checkFree, if_neg hin, hfind]
        rw [hfree]
        by_cases hdirs : m.name ∈ mgr.dirs
        -- a directory of its name is left from before
        · refine Or.inl ⟨.conflict ("extension directory " ++ site.root m.name ++
            " already exists (remove it to reinstall)"), env.dirEncodes, (if_neg hin).trans ?_, ?_⟩
          · rw [hfind]
            exact if_pos hdirs
          · show checkRoot site env m = _
            rw [checkRoot, hroot, decide_eq_true hdirs]
        · refine Or.inr ⟨(if_neg hin).trans ?_, ?_⟩
          · rw [hfind]
            exact if_neg hdirs
          · show checkRoot site env m = _
            rw [checkRoot, hroot, decide_eq_false hdirs]

/-- **An install is a run of its steps**: in an environment that shows the source
and the directories as they are, what it returns or raises is what the steps end
in. -/
theorem returns_of_installLocked {path : Str} {encodes : Bool}
    (h : Agrees env mgr source path encodes) {result : InstallResult}
    (hresult : resultOf (installLocked site env mgr path) = some result) :
    Returns site source (mgr, .checking) result := by
  -- a refused check is one step
  have hrefused : ∀ e, preflight site source mgr = .error e →
      Returns site source (mgr, .checking) (.error e) := by
    intro e he
    apply Returns.of_step (a := .go) (y := (mgr, .returning (.error e))) trivial
    · simp [installStep, he]
    · exact ⟨_, .refl⟩
  rw [installLocked, h.resolve] at hresult
  change resultOf (checkDir env ⟨source.path, encodes⟩ >>= _) = _ at hresult
  rw [checkDir, h.isDir] at hresult
  cases hdir : source.isDir with
  | false =>
      rw [hdir] at hresult
      obtain rfl := Option.some.inj hresult
      exact hrefused _ (if_pos hdir)
  | true =>
      rw [hdir] at hresult
      obtain ⟨encodes', hseen⟩ := parseManifest_of_agrees site h hdir
      change resultOf (parseManifest site env ⟨source.path, encodes⟩ >>= _) = _ at hresult
      rw [hseen] at hresult
      cases hparse : parseExtensionManifest site.py source with
      | error e =>
          rw [hparse] at hresult
          obtain rfl := Option.some.inj hresult
          refine hrefused e ((if_neg (by simp [hdir])).trans ?_)
          rw [hparse]
          rfl
      | ok m =>
          rw [hparse] at hresult
          change resultOf (checkFree site mgr m >>= fun _ => checkRoot site env m >>= _) = _
            at hresult
          rw [← bind_assoc] at hresult
          rcases checked_of_agrees h hdir hparse with ⟨e, encodes'', hpre, hcheck⟩ | ⟨hpre, hcheck⟩
          · rw [hcheck] at hresult
            obtain rfl := Option.some.inj hresult
            exact hrefused e hpre
          · rw [hcheck] at hresult
            apply Returns.of_step (a := .go) (y := (mgr, .making m)) trivial
            · simp [installStep, hpre]
            · exact returns_of_perform hresult

end Runs

/-- **An install request is answered unless a fault passes all four layers.**
The parser raises the service's own exceptions alone exactly where the manifest
can be read, the install exactly where it settles, and the request is answered
exactly where, moreover, a path that the refusal names can be sent. -/
theorem install_answered_iff (site : Site) (env : Environment) (mgr : Manager) :
    (∀ source, Within IsOwn (parseManifest site env source) ↔ Readable site env source) ∧
    (∀ path, Within IsOwn (installLocked site env mgr path) ↔ Settles site env mgr path) ∧
    ∀ body, (installExtension site env (some mgr) body).status ∈ answers ↔
      ∀ path, Requests body path → Settles site env mgr path ∧ Sendable site env mgr path := by
  refine ⟨fun source => within_parseManifest, fun path => within_installLocked, fun body => ?_⟩
  constructor
  · intro h path hpath
    have hwithin := within_and.mp ((status_of_requests hpath).mp h)
    exact ⟨within_installLocked.mp hwithin.1, sendable_installLocked.mp hwithin.2⟩
  · intro h
    by_cases hrequest : ∃ path, Requests body path
    · obtain ⟨path, hpath⟩ := hrequest
      obtain ⟨hsettles, hsendable⟩ := h path hpath
      exact (status_of_requests hpath).mpr (within_and.mpr
        ⟨within_installLocked.mpr hsettles, sendable_installLocked.mpr hsendable⟩)
    · exact status_of_not_requests fun path hpath => hrequest ⟨path, hpath⟩

/-- A directory whose `extension.toml` is the byte `0xff`. -/
def undecodable : Environment where
  resolve
    | .text path => .ok ⟨path, true⟩
    | .cut _ _ _ => .error (.valueError "surrogates not allowed")
  isDir _ := .ok true
  manifestIsFile _ := .ok true
  readManifest _ := .error
    (.unicode "'utf-8' codec can't decode byte 0xff in position 0: invalid start byte")
  rootExists _ := .ok false
  mkdir := .ok ()
  copytree _ _ := .ok ()
  venvCreate _ := .ok ()
  pip _ := .ok ⟨0, ""⟩
  writeState _ := .ok ()
  dirEncodes := true

theorem install_answered_fails :
    (installExtension sampleSite undecodable (some emptyManager)
      (some (.obj [("path", .str "/src")]))).status ∉ answers ∧
    ¬ Within IsOwn (installLocked sampleSite undecodable emptyManager "/src") ∧
    ¬ Within IsOwn (parseManifest sampleSite undecodable ⟨"/src", true⟩) := by
  refine ⟨by decide, fun h => ?_, fun h => ?_⟩
  · exact absurd (h _ rfl) Bool.false_ne_true
  · exact absurd (h _ rfl) Bool.false_ne_true

end Formshift
