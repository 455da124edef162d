/-
Formshift/Extensions.lean

The manifest of an extension and its parser (`parse_extension_manifest`,
`extensions.py`).

A source directory is what the parser can see of it: whether it is one, and
what `extension.toml` holds once the TOML reader is through with it.  `str` of a
value may raise: an integer of more than 4300 digits has no text, nor has what is
nested too deeply.  An accepted manifest names an extension and at least one
module, no module twice, every module isolated with ports on both sides
(`parse_ok`); nothing keeps a port name from being declared twice.
-/
import Formshift.Modules
import Formshift.Lib.Except
import Formshift.Lib.Number
import Formshift.Lib.Text

namespace Formshift

open Py

/-! ### TOML -/

/-- What `tomllib.loads` can return; floats and dates by their `str`. -/
inductive Toml where
  | str (s : String)
  | int (n : Int)
  | float (text : String)
  | bool (b : Bool)
  | date (text : String)
  | arr (items : List Toml)
  | table (fields : List (String × Toml))

namespace Toml

/-- `bool(value)`. -/
def truthy : Toml → Bool
  | str s => s ≠ ""
  | int n => n ≠ 0
  | float text => text ≠ "0.0" && text ≠ "-0.0"
  | bool b => b
  | date _ => true
  | arr items => !items.isEmpty
  | table fields => !fields.isEmpty

end Toml

/-- What an install or a load can raise. -/
inductive InstallError where
  | extension (message : String)
  | conflict (message : String)
  | notImplemented (message : String)
  | osError (text : String)
  | valueError (text : String)
  | recursionError (text : String)
  deriving DecidableEq

/-- Why `str` of a list or a table has no result: an integer in it, or its
depth. -/
inductive SpellFault where
  | tooLong
  | tooDeep
  deriving DecidableEq

def SpellFault.raised : SpellFault → InstallError
  | .tooLong => .valueError Py.tooLong.arg
  | .tooDeep => .recursionError "maximum recursion depth exceeded while getting the repr of an object"

/-- How Python spells values in texts: `repr` of a string, and `str` of a list or a
table, which may refuse. -/
structure Spelling where
  repr : Str → String
  compound : Toml → String
  refuses : Toml → Option SpellFault

namespace Spelling

variable (py : Spelling)

/-- The text of a value. -/
def text : Toml → String
  | .str s => s
  | .int n => n.repr
  | .float text | .date text => text
  | .bool b => if b then "True" else "False"
  | v => py.compound v

/-- What keeps `str` from the text. -/
def fault : Toml → Option SpellFault
  | .int n => if Spellable n then none else some .tooLong
  | .arr items => py.refuses (.arr items)
  | .table fields => py.refuses (.table fields)
  | .str _ | .float _ | .bool _ | .date _ => none

/-- `str(value)`. -/
def str (v : Toml) : Except InstallError String :=
  match py.fault v with
  | some f => .error f.raised
  | none => .ok (py.text v)

/-- `str(table.get(key, default))`. -/
def field (fields : List (String × Toml)) (key default : String) : Except InstallError String :=
  match fields.lookup key with
  | some v => py.str v
  | none => .ok default

/-- The text of a field, or the default. -/
def fieldText (fields : List (String × Toml)) (key default : String) : String :=
  ((fields.lookup key).map py.text).getD default

/-- `str` has a result. -/
def Spells (v : Toml) : Prop := py.fault v = none

/-- `str` has a result for the field, if it is there. -/
def SpellsField (fields : List (String × Toml)) (key : String) : Prop :=
  ∀ v, fields.lookup key = some v → py.Spells v

variable {py}

theorem str_ok_iff {v : Toml} {t : String} :
    py.str v = .ok t ↔ py.Spells v ∧ t = py.text v := by
  unfold str Spells
  cases py.fault v with
  | none => simp [eq_comm]
  | some f => simp

theorem field_ok_iff {fields : List (String × Toml)} {key default t : String} :
    py.field fields key default = .ok t ↔
      py.SpellsField fields key ∧ t = py.fieldText fields key default := by
  unfold field SpellsField fieldText
  cases fields.lookup key with
  | none => simp [eq_comm]
  | some v => simp [str_ok_iff]

end Spelling

/-! ### Sources -/

/-- Why `extension.toml` could not be read. -/
inductive ReadFault where
  /-- `OSError` or `TOMLDecodeError`. -/
  | reported (text : String)
  /-- `UnicodeDecodeError`, which the parser lets through like the next two. -/
  | unicode (text : String)
  /-- The plain `ValueError` of a decimal integer of more than 4300 digits. -/
  | value (text : String)
  /-- `RecursionError`, of arrays or inline tables nested too deeply. -/
  | recursion (text : String)

/-- A source directory, or a copy of one. -/
structure Source where
  path : String
  isDir : Bool
  /-- `extension.toml`, if it is a file. -/
  toml : Option (Except ReadFault (List (String × Toml)))

structure ExtensionModuleSpec where
  manifest : ModuleManifest
  entry : String
  deriving DecidableEq

def ExtensionModuleSpec.name (spec : ExtensionModuleSpec) : String := spec.manifest.name

structure ExtensionManifest where
  name : String
  version : String
  description : String
  isolation : String
  requirements : List String
  modules : List ExtensionModuleSpec
  deriving DecidableEq

/-! ### The parser -/

/-- What stands before the end that `$` finds: a last line break is skipped. -/
def beforeEnd (s : Text) : Text := if s.getLast? = some '\n' then s.dropLast else s

def isLowerOrDigit (c : Char) : Bool := ('a' ≤ c && c ≤ 'z') || ('0' ≤ c && c ≤ '9')

def isIdentStart (c : Char) : Bool := ('A' ≤ c && c ≤ 'Z') || ('a' ≤ c && c ≤ 'z') || c == '_'

def isIdentRest (c : Char) : Bool := isIdentStart c || ('0' ≤ c && c ≤ '9')

/-- `_NAME_RE`: `^[a-z0-9][a-z0-9._-]*$`. -/
def matchesName (name : String) : Bool :=
  match beforeEnd name.toList with
  | [] => false
  | c :: cs => isLowerOrDigit c && cs.all fun d => isLowerOrDigit d || d == '.' || d == '_' || d == '-'

/-- `_ENTRY_RE`: `^[A-Za-z_][A-Za-z0-9_.]*:[A-Za-z_][A-Za-z0-9_]*$`. -/
def matchesEntry (entry : String) : Bool :=
  match Text.partition ':' (beforeEnd entry.toList) with
  | (c :: cs, d :: ds) =>
    isIdentStart c && cs.all (fun e => isIdentRest e || e == '.') &&
      isIdentStart d && ds.all isIdentRest
  | _ => false

def namePattern : String := "^[a-z0-9][a-z0-9._-]*$"

section Parse

variable (py : Spelling)

/-- One turn of the loop in `_ports`. -/
def portOf (ext module direction : String) (port : Toml) : Except InstallError PortSpec :=
  let refused := InstallError.extension ("extension " ++ py.repr ext ++ " module " ++
    py.repr module ++ ": each " ++ direction ++ " port needs 'name' and 'type'")
  match port with
  | .table fields =>
    match fields.lookup "name", fields.lookup "type" with
    | some name, some type =>
      if name.truthy && type.truthy then do
        let name ← py.str name
        let type ← py.str type
        .ok ⟨name, type⟩
      else .error refused
    | _, _ => .error refused
  | _ => .error refused

/-- `_ports`. -/
def ports (ext module direction : String) (raw : Option Toml) : Except InstallError (List PortSpec) :=
  match raw with
  | some (.arr (port :: rest)) => (port :: rest).mapM (portOf py ext module direction)
  | _ => .error (.extension ("extension " ++ py.repr ext ++ " module " ++ py.repr module ++
      ": no " ++ direction ++ " ports"))

/-- One turn of the loop over the modules; `seen` are the names before. -/
def moduleOf (ext version : String) (seen : List String) (raw : Toml) :
    Except InstallError ExtensionModuleSpec :=
  match raw with
  | .table fields => do
    let name ← py.field fields "name" ""
    let entry ← py.field fields "entry" ""
    if name = "" then
      .error (.extension ("extension " ++ py.repr ext ++ ": module without a name"))
    else if name ∈ seen then
      .error (.extension ("extension " ++ py.repr ext ++ ": duplicate module name " ++ py.repr name))
    else if matchesEntry entry = false then
      .error (.extension ("extension " ++ py.repr ext ++ " module " ++ py.repr name ++
        ": entry must be 'file_module:callable', got " ++ py.repr entry))
    else do
      let description ← py.field fields "description" ""
      let inputs ← ports py ext name "input" (fields.lookup "inputs")
      let outputs ← ports py ext name "output" (fields.lookup "outputs")
      .ok {
        manifest := {
          name := name
          version := version
          description := description
          inputs := inputs
          outputs := outputs
          isolation := "isolated" }
        entry := entry }
  | _ => .error (.extension ("extension " ++ py.repr ext ++
      ": each module must be a [[modules]] table"))

/-- The loop over the modules, behind the specs of `done`. -/
def modulesFrom (ext version : String) (done : List ExtensionModuleSpec) :
    List Toml → Except InstallError (List ExtensionModuleSpec)
  | [] => .ok done
  | raw :: rest => do
    let spec ← moduleOf py ext version (done.map ExtensionModuleSpec.name) raw
    modulesFrom ext version (done ++ [spec]) rest

/-- The strings of a list of strings. -/
def stringsOf : List Toml → Option (List String)
  | [] => some []
  | .str s :: rest => (stringsOf rest).map (s :: ·)
  | _ :: _ => none

/-- `header.get("requirements", [])`, checked. -/
def requirementsOf (ext : String) (header : List (String × Toml)) :
    Except InstallError (List String) :=
  let refused := InstallError.extension ("extension " ++ py.repr ext ++
    ": requirements must be a list of strings")
  match header.lookup "requirements" with
  | none => .ok []
  | some (.arr items) =>
    match stringsOf items with
    | some requirements => .ok requirements
    | none => .error refused
  | some _ => .error refused

/-- `parse_extension_manifest` from the loop over the modules on. -/
def modulesOf (name version isolation : String) (requirements : List String)
    (header data : List (String × Toml)) : Except InstallError ExtensionManifest :=
  match data.lookup "modules" with
  | some (.arr (raw :: rest)) => do
    let modules ← modulesFrom py name version [] (raw :: rest)
    let description ← py.field header "description" ""
    .ok {
      name := name
      version := version
      description := description
      isolation := isolation
      requirements := requirements
      modules := modules }
  | _ => .error (.extension ("extension " ++ py.repr name ++ " declares no modules"))

/-- `parse_extension_manifest` behind the TOML reader. -/
def manifestOf (data : List (String × Toml)) : Except InstallError ExtensionManifest :=
  match data.lookup "extension" with
  | some (.table header) => do
    let name ← py.field header "name" ""
    let version ← py.field header "version" ""
    if matchesName name = false then
      .error (.extension ("invalid extension name " ++ py.repr name ++ " (want " ++
        namePattern ++ ")"))
    else if version = "" then
      .error (.extension ("extension " ++ py.repr name ++ ": missing version"))
    else do
      let isolation ← py.field header "isolation" "isolated"
      if isolation ≠ "isolated" then
        .error (.notImplemented ("extension " ++ py.repr name ++ " declares isolation=" ++
          py.repr isolation ++ "; only 'isolated' is implemented in this version"))
      else do
        let requirements ← requirementsOf py name header
        modulesOf py name version isolation requirements header data
  | _ => .error (.extension "extension.toml has no [extension] table")

/-- `parse_extension_manifest`. -/
def parseExtensionManifest (source : Source) : Except InstallError ExtensionManifest :=
  match source.toml with
  | none => .error (.extension ("no extension.toml in " ++ source.path))
  | some (.error (.reported text)) => .error (.extension ("could not read extension.toml: " ++ text))
  | some (.error (.unicode text)) | some (.error (.value text)) => .error (.valueError text)
  | some (.error (.recursion text)) => .error (.recursionError text)
  | some (.ok data) => manifestOf py data

end Parse

/-! ### What is accepted -/

structure ExtensionModuleSpec.Ok (spec : ExtensionModuleSpec) : Prop where
  named : spec.name ≠ ""
  isolated : spec.manifest.isolation = "isolated"
  inputs : spec.manifest.inputs ≠ []
  outputs : spec.manifest.outputs ≠ []

structure ExtensionManifest.Ok (m : ExtensionManifest) : Prop where
  modules_ne : m.modules ≠ []
  modules_ok : ∀ spec ∈ m.modules, spec.Ok
  modules_nodup : (m.modules.map ExtensionModuleSpec.name).Nodup

section Ok

variable {py : Spelling} {ext version module direction : String}

theorem ports_ne {raw : Option Toml} {specs : List PortSpec}
    (h : ports py ext module direction raw = .ok specs) : specs ≠ [] := by
  unfold ports at h
  split at h
  · obtain ⟨spec, specs', -, -, rfl⟩ := List.forall₂_cons_left_iff.mp (mapM_ok_iff.mp h)
    exact List.cons_ne_nil _ _
  · cases h

theorem moduleOf_ok {seen : List String} {raw : Toml} {spec : ExtensionModuleSpec}
    (h : moduleOf py ext version seen raw = .ok spec) : spec.Ok ∧ spec.name ∉ seen := by
  unfold moduleOf at h
  split at h
  · obtain ⟨name, -, h⟩ := bind_ok_iff.mp h
    obtain ⟨entry, -, h⟩ := bind_ok_iff.mp h
    split_ifs at h with hname hseen hentry
    obtain ⟨description, -, h⟩ := bind_ok_iff.mp h
    obtain ⟨inputs, hinputs, h⟩ := bind_ok_iff.mp h
    obtain ⟨outputs, houtputs, h⟩ := bind_ok_iff.mp h
    obtain rfl := Except.ok.inj h
    exact ⟨⟨hname, rfl, ports_ne hinputs, ports_ne houtputs⟩, hseen⟩
  · cases h

theorem modulesFrom_ok {done specs : List ExtensionModuleSpec} {raw : List Toml}
    (h : modulesFrom py ext version done raw = .ok specs) (hdone : ∀ spec ∈ done, spec.Ok)
    (hnodup : (done.map ExtensionModuleSpec.name).Nodup) :
    (∀ spec ∈ specs, spec.Ok) ∧ (specs.map ExtensionModuleSpec.name).Nodup ∧
      done.length + raw.length = specs.length := by
  induction raw generalizing done with
  | nil =>
      obtain rfl := Except.ok.inj h
      exact ⟨hdone, hnodup, rfl⟩
  | cons r raw ih =>
      obtain ⟨spec, hspec, h⟩ := bind_ok_iff.mp h
      obtain ⟨hok, hnew⟩ := moduleOf_ok hspec
      have hdone' : ∀ s ∈ done ++ [spec], s.Ok := by
        intro s hs
        rcases List.mem_append.mp hs with hs | hs
        · exact hdone s hs
        · exact List.mem_singleton.mp hs ▸ hok
      -- the loop refuses a name it has seen
      have hnodup' : ((done ++ [spec]).map ExtensionModuleSpec.name).Nodup := by
        rw [List.map_append]
        refine List.nodup_append.mpr ⟨hnodup, List.nodup_singleton _, ?_⟩
        rintro a ha b hb rfl
        exact hnew (List.mem_singleton.mp hb ▸ ha)
      obtain ⟨hall, hnd, hlen⟩ := ih h hdone' hnodup'
      refine ⟨hall, hnd, ?_⟩
      rw [← hlen, List.length_append, List.length_cons, List.length_singleton]
      omega

/-- Only what the TOML reader returns is looked at. -/
theorem parse_eq_ok_iff {source : Source} {m : ExtensionManifest} :
    parseExtensionManifest py source = .ok m ↔
      ∃ data, source.toml = some (.ok data) ∧ manifestOf py data = .ok m := by
  unfold parseExtensionManifest
  cases source.toml with
  | none => simp
  | some read =>
      cases read with
      | ok data => simp
      | error fault => cases fault <;> simp

theorem modulesOf_ok {name version isolation : String} {requirements : List String}
    {header data : List (String × Toml)} {m : ExtensionManifest}
    (h : modulesOf py name version isolation requirements header data = .ok m) : m.Ok := by
  unfold modulesOf at h
  split at h
  · obtain ⟨modules, hmodules, h⟩ := bind_ok_iff.mp h
    obtain ⟨description, -, h⟩ := bind_ok_iff.mp h
    obtain rfl := Except.ok.inj h
    obtain ⟨hall, hnd, hlen⟩ := modulesFrom_ok hmodules (by simp) (by simp)
    refine ⟨?_, hall, hnd⟩
    rintro rfl
    simp at hlen
  · cases h

/-- **What the parser accepts is well formed.** -/
theorem parse_ok {source : Source} {m : ExtensionManifest}
    (h : parseExtensionManifest py source = .ok m) : m.Ok := by
  obtain ⟨data, -, h⟩ := parse_eq_ok_iff.mp h
  unfold manifestOf at h
  split at h
  · obtain ⟨name, -, h⟩ := bind_ok_iff.mp h
    obtain ⟨version, -, h⟩ := bind_ok_iff.mp h
    split_ifs at h with hname hversion
    obtain ⟨isolation, -, h⟩ := bind_ok_iff.mp h
    split_ifs at h with hisolation
    obtain ⟨requirements, -, h⟩ := bind_ok_iff.mp h
    exact modulesOf_ok h
  · cases h

end Ok

end Formshift
