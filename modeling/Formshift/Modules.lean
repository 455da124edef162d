/-
Formshift/Modules.lean

The module contract: ports, manifests and the registry (`modules.py`).

A module is its manifest plus a `run` method.  What `run` does is not the
engine's to know, so it is no part of the registry here: the executor asks its
environment for the outcome of each call.  A registry files every manifest
under the manifest's own name.
-/
import Formshift.Lib.Dict
import Formshift.Lib.Json

namespace Formshift

open Py

/-- A port of a manifest; the type is a type string, matched strictly. -/
structure PortSpec where
  name : Str
  type : Str
  deriving DecidableEq

structure ModuleManifest where
  name : String
  version : String
  description : String
  inputs : List PortSpec
  outputs : List PortSpec
  isolation : String := "core"
  deriving DecidableEq

/-- The first input port of that name. -/
def ModuleManifest.inputPort (m : ModuleManifest) (name : Str) : Option PortSpec :=
  m.inputs.find? fun p => p.name = name

/-- The first output port of that name. -/
def ModuleManifest.outputPort (m : ModuleManifest) (name : Str) : Option PortSpec :=
  m.outputs.find? fun p => p.name = name

/-- One output port's produced value. -/
structure ModuleResult where
  type : Str
  data : Bytes
  deriving DecidableEq

/-! ### The registry -/

structure ModuleRegistry where
  modules : Dict Str ModuleManifest
  named : ∀ name m, modules.lookup name = some m → (m.name : Str) = name

namespace ModuleRegistry

/-- Why a registration is refused. -/
inductive Error where
  | notImplemented (message : String)
  | valueError (message : String)
  deriving DecidableEq

def empty : ModuleRegistry := ⟨∅, by simp⟩

/-- The registry of these modules. -/
def ofList (modules : List ModuleManifest) : ModuleRegistry where
  modules := Dict.ofPairs (modules.map fun m => (↑m.name, m))
  named := by
    intro name m h
    obtain ⟨m', -, heq⟩ := List.mem_map.mp (Dict.mem_of_lookup_ofPairs h)
    obtain ⟨rfl, rfl⟩ := Prod.mk.inj heq
    rfl

def get (reg : ModuleRegistry) (name : Str) : Option ModuleManifest := reg.modules.lookup name

/-- `_add`: the name must be free. -/
def add (repr : Str → String) (reg : ModuleRegistry) (m : ModuleManifest) :
    Except Error ModuleRegistry :=
  if ↑m.name ∈ reg.modules then
    .error (.valueError ("module " ++ repr m.name ++ " already registered"))
  else .ok {
    modules := reg.modules.insert m.name m
    named := by
      intro name m' h
      rw [Dict.lookup_insert_ite] at h
      split at h
      · rename_i hname
        rw [hname, ← Option.some.inj h]
      · exact reg.named name m' h }

/-- `register`: in-process modules declare isolation `core`. -/
def register (repr : Str → String) (reg : ModuleRegistry) (m : ModuleManifest) :
    Except Error ModuleRegistry :=
  if m.isolation ≠ "core" then
    .error (.notImplemented ("module " ++ repr m.name ++ " declares isolation=" ++
      repr m.isolation ++ "; in-process registration only implements 'core'"))
  else reg.add repr m

/-- `register_isolated`: modules backed by an environment of their own. -/
def registerIsolated (repr : Str → String) (reg : ModuleRegistry) (m : ModuleManifest) :
    Except Error ModuleRegistry :=
  if m.isolation ≠ "isolated" then
    .error (.notImplemented ("module " ++ repr m.name ++ " declares isolation=" ++
      repr m.isolation ++ "; isolated registration only implements 'isolated'"))
  else reg.add repr m

/-- `unregister`. -/
def unregister (reg : ModuleRegistry) (name : Str) : ModuleRegistry where
  modules := reg.modules.erase name
  named := by
    intro name' m h
    rw [Dict.lookup_erase_ite] at h
    split at h
    · cases h
    · exact reg.named name' m h

/-- `self._modules[name] = module`. -/
def set (reg : ModuleRegistry) (m : ModuleManifest) : ModuleRegistry where
  modules := reg.modules.insert m.name m
  named := by
    intro name m' h
    rw [Dict.lookup_insert_ite] at h
    split at h
    · rename_i hname
      rw [hname, ← Option.some.inj h]
    · exact reg.named name m' h

theorem name_of_get {reg : ModuleRegistry} {name : Str} {m : ModuleManifest}
    (h : reg.get name = some m) : (m.name : Str) = name :=
  reg.named name m h

theorem get_set (reg : ModuleRegistry) (m : ModuleManifest) (name : Str) :
    (reg.set m).get name = if name = ↑m.name then some m else reg.get name :=
  Dict.lookup_insert_ite reg.modules m.name name m

theorem get_eq_none_iff {reg : ModuleRegistry} {name : Str} :
    reg.get name = none ↔ name ∉ reg.modules :=
  AList.lookup_eq_none

/-- A free name is registered. -/
theorem registerIsolated_of_free {repr : Str → String} {reg : ModuleRegistry}
    {m : ModuleManifest} (hisolated : m.isolation = "isolated") (hfree : reg.get m.name = none) :
    reg.registerIsolated repr m = .ok (reg.set m) := by
  rw [registerIsolated, if_neg (not_not.mpr hisolated), add, if_neg (get_eq_none_iff.mp hfree)]
  rfl

theorem unregister_set_of_ne {reg : ModuleRegistry} {m : ModuleManifest} {name : Str}
    (h : name ≠ ↑m.name) : (reg.set m).unregister name = (reg.unregister name).set m := by
  simp only [unregister, set, ModuleRegistry.mk.injEq]
  exact Dict.erase_insert_of_ne h m

/-- A registration is undone. -/
theorem unregister_set {reg : ModuleRegistry} {m : ModuleManifest} (hfree : reg.get m.name = none) :
    (reg.set m).unregister m.name = reg := by
  obtain ⟨modules, named⟩ := reg
  simp only [unregister, set, ModuleRegistry.mk.injEq]
  exact Dict.erase_insert_of_notMem (get_eq_none_iff.mp hfree) m

end ModuleRegistry

end Formshift
