/-
Formshift/ManifestTexts.lean

What the parser of `extension.toml` raises (`parse_extension_manifest`,
`extensions.py`).

The parser refuses a document with exceptions of the service.  It also calls
`str` on values of the document, and where `str` has no result, its exception
passes through the parser.  Which values are spelled depends on how far the parser
gets: `TextsReached` says that those up to the first refusal have texts, and on
such documents alone the parser raises nothing but the service's own
(`within_manifestOf`).
-/
import Formshift.ManifestFormat

namespace Formshift

open Py

/-- `ExtensionError` or `NotImplementedError`. -/
def InstallError.isOwn : InstallError → Bool
  | .extension _ | .conflict _ | .notImplemented _ => true
  | .osError _ | .valueError _ | .recursionError _ => false

/-- The exceptions of the service itself. -/
def OwnError (e : InstallError) : Prop := e.isOwn = true

/-! ### The values that are spelled -/

section Reached

variable (py : Spelling)

/-- The ports up to the first that is none have texts. -/
def PortsReached : List Toml → Prop
  | [] => True
  | v :: rest => PortOk v → PortHasTexts py v ∧ PortsReached rest

/-- The name and the entry of the module are in order. -/
def ModuleNamed (seen : List String) (fields : List (String × Toml)) : Prop :=
  py.fieldText fields "name" "" ≠ "" ∧ py.fieldText fields "name" "" ∉ seen ∧
    matchesEntry (py.fieldText fields "entry" "") = true

/-- The module passes all the checks. -/
def ModulePasses (seen : List String) (raw : Toml) : Prop :=
  ∃ fields, raw = .table fields ∧ ModuleNamed py seen fields ∧
    PortsOk (fields.lookup "inputs") ∧ PortsOk (fields.lookup "outputs")

/-- The module has texts up to the first check it does not pass. -/
def ModuleReached (seen : List String) (raw : Toml) : Prop :=
  ∀ fields, raw = .table fields →
    py.SpellsField fields "name" ∧ py.SpellsField fields "entry" ∧
      (ModuleNamed py seen fields → py.SpellsField fields "description" ∧
        (∀ items, fields.lookup "inputs" = some (.arr items) → PortsReached py items) ∧
        (PortsOk (fields.lookup "inputs") →
          ∀ items, fields.lookup "outputs" = some (.arr items) → PortsReached py items))

/-- All modules pass, none of them named as one before. -/
def ModulesPass (seen : List String) : List Toml → Prop
  | [] => True
  | raw :: rest => ModulePasses py seen raw ∧ ModulesPass (seen ++ [moduleName py raw]) rest

/-- The modules up to the first that does not pass have texts. -/
def ModulesReached (seen : List String) : List Toml → Prop
  | [] => True
  | raw :: rest => ModuleReached py seen raw ∧
      (ModulePasses py seen raw → ModulesReached (seen ++ [moduleName py raw]) rest)

/-- The requirements are none or a list of strings. -/
def RequirementsOk (header : List (String × Toml)) : Prop :=
  header.lookup "requirements" = none ∨
    ∃ strings : List String, header.lookup "requirements" = some (.arr (strings.map .str))

/-- **Every value that is spelled** before a check fails has a text. -/
def TextsReached (data : List (String × Toml)) : Prop :=
  ∀ header, data.lookup "extension" = some (.table header) →
    py.SpellsField header "name" ∧ py.SpellsField header "version" ∧
      (matchesName (py.fieldText header "name" "") = true →
        py.fieldText header "version" "" ≠ "" → py.SpellsField header "isolation" ∧
          (py.fieldText header "isolation" "isolated" = "isolated" → RequirementsOk header →
            ∀ raws, data.lookup "modules" = some (.arr raws) → raws ≠ [] →
              ModulesReached py [] raws ∧
                (ModulesPass py [] raws → py.SpellsField header "description")))

end Reached

/-! ### One text -/

section Within

variable {py : Spelling} {ext version module direction : String}

theorem within_str {v : Toml} : Within OwnError (py.str v) ↔ py.Spells v := by
  unfold Spelling.str Spelling.Spells
  cases py.fault v with
  | none => simp
  | some f => cases f <;> simp [OwnError, SpellFault.raised, InstallError.isOwn]

theorem within_field {fields : List (String × Toml)} {key default : String} :
    Within OwnError (py.field fields key default) ↔ py.SpellsField fields key := by
  unfold Spelling.field Spelling.SpellsField
  cases fields.lookup key with
  | none => simp
  | some v => simp [within_str]

/-- A text that is taken, and what is done with it. -/
theorem within_field_bind {α : Type} {fields : List (String × Toml)} {key default : String}
    {f : String → Except InstallError α} :
    Within OwnError (py.field fields key default >>= f) ↔
      py.SpellsField fields key ∧ Within OwnError (f (py.fieldText fields key default)) := by
  rw [within_bind_iff, within_field]
  refine and_congr_right fun hspells => ?_
  simp [Spelling.field_ok_iff, hspells]

theorem within_refused {α : Type} {e : InstallError} (h : e.isOwn = true) :
    Within OwnError (.error e : Except InstallError α) :=
  within_error.mpr h

/-! ### Ports -/

theorem within_portOf {v : Toml} :
    Within OwnError (portOf py ext module direction v) ↔ (PortOk v → PortHasTexts py v) := by
  unfold portOf
  dsimp only
  split
  · rename_i fields
    split
    · rename_i name type hname htype
      split_ifs with htruthy
      · obtain ⟨h₁, h₂⟩ := Bool.and_eq_true_iff.mp htruthy
        have hok : PortOk (.table fields) := ⟨fields, name, type, rfl, hname, htype, h₁, h₂⟩
        -- the port's texts are those of its two fields
        have htexts : PortHasTexts py (.table fields) ↔ py.Spells name ∧ py.Spells type := by
          simp [PortHasTexts, Spelling.SpellsField, hname, htype]
        rw [forall_prop_of_true hok, htexts]
        simp only [within_bind_iff, within_str, within_ok, implies_true, and_true]
        refine and_congr_right fun hspells => ?_
        exact ⟨fun h => h _ (Spelling.str_ok_iff.mpr ⟨hspells, rfl⟩), fun h _ _ => h⟩
      · refine iff_of_true (within_refused rfl) ?_
        rintro ⟨fields', name', type', ⟨⟩, hname', htype', h₁, h₂⟩
        obtain rfl := Option.some.inj (hname.symm.trans hname')
        obtain rfl := Option.some.inj (htype.symm.trans htype')
        exact absurd (Bool.and_eq_true_iff.mpr ⟨h₁, h₂⟩) htruthy
    · rename_i hnot
      refine iff_of_true (within_refused rfl) ?_
      rintro ⟨fields', name', type', ⟨⟩, hname', htype', -⟩
      exact absurd htype' (hnot name' type' hname')
  · rename_i hnot
    refine iff_of_true (within_refused rfl) ?_
    rintro ⟨fields', name', type', rfl, -⟩
    exact absurd rfl (hnot fields')

theorem within_mapM_portOf {items : List Toml} :
    Within OwnError (items.mapM (portOf py ext module direction)) ↔ PortsReached py items := by
  induction items with
  | nil => exact iff_of_true (within_ok.mpr trivial) trivial
  | cons v items ih =>
      rw [List.mapM_cons, within_bind_iff, within_portOf]
      simp only [within_bind_iff, ih]
      constructor
      · rintro ⟨htexts, hrest⟩ hok
        obtain ⟨p, hp⟩ : ∃ p, ListsPort py v p := by
          obtain ⟨fields, name, type, rfl, hname, htype, -⟩ := hok
          exact ⟨_, fields, name, type, rfl, hname, htype, rfl⟩
        exact ⟨htexts hok, (hrest p (portOf_ok_iff.mpr ⟨⟨hok, htexts hok⟩, hp⟩)).1⟩
      · intro h
        refine ⟨fun hok => (h hok).1, fun p hp => ⟨?_, fun _ _ => within_ok.mpr trivial⟩⟩
        exact (h (portOf_ok_iff.mp hp).1.1).2

theorem within_ports {raw : Option Toml} :
    Within OwnError (ports py ext module direction raw) ↔
      ∀ items, raw = some (.arr items) → PortsReached py items := by
  unfold ports
  split
  · rw [within_mapM_portOf]
    simp
  · rename_i hnot
    refine iff_of_true (within_refused rfl) ?_
    rintro items rfl
    cases items with
    | nil => trivial
    | cons v rest => exact absurd rfl (hnot v rest)

theorem PortsReached.haveTexts {items : List Toml} (h : PortsReached py items)
    (hok : ∀ v ∈ items, PortOk v) : ∀ v ∈ items, PortHasTexts py v := by
  induction items with
  | nil => simp
  | cons v items ih =>
      obtain ⟨hv, hitems⟩ := List.forall_mem_cons.mp hok
      obtain ⟨htexts, hrest⟩ := h hv
      exact List.forall_mem_cons.mpr ⟨htexts, ih hrest hitems⟩

/-- Ports that are in order and have texts are returned. -/
theorem exists_ports {raw : Option Toml} (hok : PortsOk raw)
    (hreached : ∀ items, raw = some (.arr items) → PortsReached py items) :
    ∃ specs, ports py ext module direction raw = .ok specs := by
  obtain ⟨specs, hspecs⟩ := exists_listsPorts hok
  refine ⟨specs, ports_ok_iff.mpr ⟨hok, ?_, hspecs⟩⟩
  obtain ⟨items, rfl, -, hall⟩ := hok
  rintro _ ⟨⟩
  exact (hreached items rfl).haveTexts hall

/-! ### Modules -/

theorem within_moduleOf {seen : List String} {raw : Toml} :
    Within OwnError (moduleOf py ext version seen raw) ↔ ModuleReached py seen raw := by
  unfold moduleOf
  split
  · rename_i fields
    have hreached : ModuleReached py seen (.table fields) ↔
        py.SpellsField fields "name" ∧ py.SpellsField fields "entry" ∧
          (ModuleNamed py seen fields → py.SpellsField fields "description" ∧
            (∀ items, fields.lookup "inputs" = some (.arr items) → PortsReached py items) ∧
            (PortsOk (fields.lookup "inputs") →
              ∀ items, fields.lookup "outputs" = some (.arr items) → PortsReached py items)) := by
      simp [ModuleReached]
    rw [hreached, within_field_bind, within_field_bind]
    refine and_congr_right fun _ => and_congr_right fun _ => ?_
    split_ifs with hname hseen hentry
    -- each check that refuses ends the reading, so the later texts are not asked for
    · exact iff_of_true (within_refused rfl) fun h => absurd hname h.1
    · exact iff_of_true (within_refused rfl) fun h => absurd hseen h.2.1
    · refine iff_of_true (within_refused rfl) fun h => ?_
      rw [h.2.2] at hentry
      cases hentry
    · have hnamed : ModuleNamed py seen fields := ⟨hname, hseen, by simpa using hentry⟩
      rw [forall_prop_of_true hnamed, within_field_bind, within_bind_iff, within_ports]
      refine and_congr_right fun _ => and_congr_right fun hinputs => ?_
      simp only [within_bind_iff, within_ports, within_ok, implies_true, and_true]
      constructor
      · intro h hok
        obtain ⟨specs, hspecs⟩ := exists_ports hok hinputs
        exact h specs hspecs
      · intro h specs hspecs
        exact h (ports_ok_iff.mp hspecs).1
  · rename_i hnot
    exact iff_of_true (within_refused rfl) fun fields hraw => absurd hraw (hnot fields)

/-- A module that is returned passes, under its name. -/
theorem moduleOf_passes {seen : List String} {raw : Toml} {spec : ExtensionModuleSpec}
    (h : moduleOf py ext version seen raw = .ok spec) :
    ModulePasses py seen raw ∧ spec.name = moduleName py raw := by
  unfold moduleOf at h
  split at h
  · rename_i fields
    obtain ⟨_, hget, h⟩ := bind_ok_iff.mp h
    obtain ⟨-, rfl⟩ := Spelling.field_ok_iff.mp hget
    obtain ⟨_, hget, h⟩ := bind_ok_iff.mp h
    obtain ⟨-, rfl⟩ := Spelling.field_ok_iff.mp hget
    split_ifs at h with hname hseen hentry
    obtain ⟨description, -, h⟩ := bind_ok_iff.mp h
    obtain ⟨inputs, hinputs, h⟩ := bind_ok_iff.mp h
    obtain ⟨outputs, houtputs, h⟩ := bind_ok_iff.mp h
    obtain rfl := Except.ok.inj h
    exact ⟨⟨fields, rfl, ⟨hname, hseen, by simpa using hentry⟩, (ports_ok_iff.mp hinputs).1,
      (ports_ok_iff.mp houtputs).1⟩, rfl⟩
  · cases h

/-- A module that passes and has its texts is returned. -/
theorem exists_moduleOf {seen : List String} {raw : Toml} (hpasses : ModulePasses py seen raw)
    (hreached : ModuleReached py seen raw) :
    ∃ spec, moduleOf py ext version seen raw = .ok spec := by
  obtain ⟨fields, rfl, hnamed, hin, hout⟩ := hpasses
  obtain ⟨htname, htentry, h⟩ := hreached fields rfl
  obtain ⟨htdescription, htin, htout⟩ := h hnamed
  have hports : ∀ direction raw, PortsOk raw →
      (∀ items, raw = some (.arr items) → PortsReached py items) →
      ∃ specs, ports py ext (py.fieldText fields "name" "") direction raw = .ok specs :=
    fun _ _ => exists_ports
  obtain ⟨inputs, hinputs⟩ := hports "input" _ hin htin
  obtain ⟨outputs, houtputs⟩ := hports "output" _ hout (htout hin)
  obtain ⟨hname, hseen, hentry⟩ := hnamed
  refine ⟨⟨⟨py.fieldText fields "name" "", version, py.fieldText fields "description" "", inputs,
    outputs, "isolated"⟩, py.fieldText fields "entry" ""⟩, ?_⟩
  refine bind_ok_iff.mpr ⟨_, Spelling.field_ok_iff.mpr ⟨htname, rfl⟩, ?_⟩
  refine bind_ok_iff.mpr ⟨_, Spelling.field_ok_iff.mpr ⟨htentry, rfl⟩, ?_⟩
  rw [if_neg hname, if_neg hseen, if_neg (by simp [hentry])]
  refine bind_ok_iff.mpr ⟨_, Spelling.field_ok_iff.mpr ⟨htdescription, rfl⟩, ?_⟩
  exact bind_ok_iff.mpr ⟨inputs, hinputs, bind_ok_iff.mpr ⟨outputs, houtputs, rfl⟩⟩

theorem names_append {done : List ExtensionModuleSpec} {spec : ExtensionModuleSpec} {raw : Toml}
    (h : spec.name = moduleName py raw) :
    (done ++ [spec]).map ExtensionModuleSpec.name =
      done.map ExtensionModuleSpec.name ++ [moduleName py raw] := by
  rw [List.map_append, List.map_singleton, h]

theorem within_modulesFrom {done : List ExtensionModuleSpec} {raws : List Toml} :
    Within OwnError (modulesFrom py ext version done raws) ↔
      ModulesReached py (done.map ExtensionModuleSpec.name) raws := by
  induction raws generalizing done with
  | nil => exact iff_of_true (within_ok.mpr trivial) trivial
  | cons raw raws ih =>
      rw [modulesFrom, within_bind_iff, within_moduleOf]
      refine and_congr_right fun hreached => ?_
      constructor
      · intro h hpasses
        obtain ⟨spec, hspec⟩ := exists_moduleOf hpasses hreached
        rw [← names_append (moduleOf_passes hspec).2]
        exact ih.mp (h spec hspec)
      · intro h spec hspec
        obtain ⟨hpasses, hname⟩ := moduleOf_passes hspec
        rw [ih, names_append hname]
        exact h hpasses

/-- The loop returns exactly where all modules pass. -/
theorem exists_modulesFrom_iff {done : List ExtensionModuleSpec} {raws : List Toml}
    (hreached : ModulesReached py (done.map ExtensionModuleSpec.name) raws) :
    (∃ specs, modulesFrom py ext version done raws = .ok specs) ↔
      ModulesPass py (done.map ExtensionModuleSpec.name) raws := by
  induction raws generalizing done with
  | nil => exact iff_of_true ⟨done, rfl⟩ trivial
  | cons raw raws ih =>
      obtain ⟨hraw, hraws⟩ := hreached
      constructor
      · rintro ⟨specs, h⟩
        obtain ⟨spec, hspec, h⟩ := bind_ok_iff.mp h
        obtain ⟨hpasses, hname⟩ := moduleOf_passes hspec
        refine ⟨hpasses, ?_⟩
        rw [← names_append hname]
        refine (ih ?_).mp ⟨specs, h⟩
        rw [names_append hname]
        exact hraws hpasses
      · rintro ⟨hpasses, hrest⟩
        obtain ⟨spec, hspec⟩ := exists_moduleOf hpasses hraw
        have hname := (moduleOf_passes hspec).2
        rw [← names_append hname] at hrest
        obtain ⟨specs, hspecs⟩ := (ih (names_append hname ▸ hraws hpasses)).mpr hrest
        exact ⟨specs, bind_ok_iff.mpr ⟨spec, hspec, hspecs⟩⟩

/-! ### Documents -/

theorem within_requirementsOf {header : List (String × Toml)} :
    Within OwnError (requirementsOf py ext header) := by
  unfold requirementsOf
  dsimp only
  split
  · exact within_ok.mpr trivial
  · split
    · exact within_ok.mpr trivial
    · exact within_refused rfl
  · exact within_refused rfl

theorem exists_requirementsOf_iff {header : List (String × Toml)} :
    (∃ requirements, requirementsOf py ext header = .ok requirements) ↔ RequirementsOk header := by
  simp only [requirementsOf_ok_iff, RequirementsOk]
  constructor
  · rintro ⟨requirements, ⟨hnone, -⟩ | hsome⟩
    · exact Or.inl hnone
    · exact Or.inr ⟨requirements, hsome⟩
  · rintro (hnone | ⟨strings, hsome⟩)
    · exact ⟨[], Or.inl ⟨hnone, rfl⟩⟩
    · exact ⟨strings, Or.inr hsome⟩

theorem within_modulesOf {isolation : String} {requirements : List String}
    {header data : List (String × Toml)} :
    Within OwnError (modulesOf py ext version isolation requirements header data) ↔
      ∀ raws, data.lookup "modules" = some (.arr raws) → raws ≠ [] →
        ModulesReached py [] raws ∧
          (ModulesPass py [] raws → py.SpellsField header "description") := by
  unfold modulesOf
  split
  · rename_i raw rest hmodules
    have hraws : (∀ raws, data.lookup "modules" = some (.arr raws) → raws ≠ [] →
        ModulesReached py [] raws ∧
          (ModulesPass py [] raws → py.SpellsField header "description")) ↔
        ModulesReached py [] (raw :: rest) ∧
          (ModulesPass py [] (raw :: rest) → py.SpellsField header "description") := by
      simp [hmodules]
    rw [hraws, within_bind_iff, within_modulesFrom]
    refine and_congr_right fun hreached => ?_
    -- the description is read once every module has passed
    have hpass : (∃ specs, modulesFrom py ext version [] (raw :: rest) = .ok specs) ↔
        ModulesPass py [] (raw :: rest) := exists_modulesFrom_iff hreached
    rw [← hpass]
    simp only [within_field_bind, within_ok, and_true, forall_exists_index]
  · rename_i hnot
    refine iff_of_true (within_refused rfl) fun raws hmodules hne => ?_
    obtain ⟨raw, rest, rfl⟩ := List.exists_cons_of_ne_nil hne
    exact absurd hmodules (hnot raw rest)

/-- **Of a document the parser raises nothing but the service's own** exactly when
every value it spells has a text. -/
theorem within_manifestOf {data : List (String × Toml)} :
    Within OwnError (manifestOf py data) ↔ TextsReached py data := by
  unfold manifestOf TextsReached
  split
  · rename_i header hheader
    simp only [hheader, Option.some.injEq, Toml.table.injEq, forall_eq']
    rw [within_field_bind, within_field_bind]
    refine and_congr_right fun _ => and_congr_right fun _ => ?_
    split_ifs with hname hversion
    · refine iff_of_true (within_refused rfl) fun h => ?_
      rw [h] at hname
      cases hname
    · exact iff_of_true (within_refused rfl) fun _ h => absurd hversion h
    · rw [forall_prop_of_true (by simpa using hname), forall_prop_of_true hversion,
        within_field_bind]
      refine and_congr_right fun _ => ?_
      split_ifs with hisolation
      · exact iff_of_true (within_refused rfl) fun h => absurd h hisolation
      -- the modules are read once the requirements have passed
      · have hreq : (∃ requirements, requirementsOf py (py.fieldText header "name" "") header =
            .ok requirements) ↔ RequirementsOk header := exists_requirementsOf_iff
        rw [forall_prop_of_true (not_not.mp hisolation), within_bind_iff,
          and_iff_right within_requirementsOf, ← hreq]
        simp only [within_modulesOf, forall_exists_index]
  · rename_i hnot
    exact iff_of_true (within_refused rfl) fun header hheader => absurd hheader (hnot header)

end Within

end Formshift
