/-
Formshift/Raster.lean

How the core modules read their parameters (`_int_param`, `_float_param`,
`raster.py`).

A parameter that cannot be converted is refused with `ModuleError`, if the
conversion raises what the helper catches and the refusal can be spelled.  `SoundReading`
is what a reading is to be: it ends in a `ModuleError` or in values within the
module's bounds.  It can be pushed through a reading from parameter to parameter
(`sound_intParam`, `sound_floatParam`), which leaves a condition on the
parameters alone.
-/
import Formshift.Lib.Number

namespace Formshift

open Py

/-! ### Refusals -/

/-- A part of an f-string. -/
inductive Part where
  | text (s : String)
  | int (n : Int)
  | float (x : Double)
  /-- `{value!r}`. -/
  | value (v : Json)

section Messages

variable (num : Numerals)

def Part.spell : Part → Except Raised String
  | .text s => .ok s
  | .int n => intText n
  | .float x => .ok (num.floatText x)
  | .value v => reprOf num v

def Part.Spellable : Part → Prop
  | .text _ | .float _ => True
  | .int n => Py.Spellable n
  | .value v => v.spellable = true

def fString (parts : List Part) : Except Raised String := do
  let texts ← parts.mapM (Part.spell num)
  .ok (String.join texts)

def moduleError (message : String) : Raised := ⟨.own "ModuleError", message⟩

/-- `raise ModuleError(f"...")`. -/
def refuse {α : Type} (parts : List Part) : Except Raised α := do
  let message ← fString num parts
  .error (moduleError message)

/-- A parameter and its conversion; what the helper catches it refuses. -/
def param {α : Type} (convert : Json → Except Raised α) (params : JsonObject) (name : String)
    (default : α) : Except Raised α :=
  match params.fields.lookup (.text name) with
  | none => .ok default
  | some v =>
    match convert v with
    | .ok a => .ok a
    | .error e =>
      if e.isA [.typeError, .valueError] then
        refuse num [.text "invalid ", .value (.str name), .text ": ", .value v]
      else .error e

/-- `_int_param`. -/
def intParam (params : JsonObject) (name : String) (default : Int) : Except Raised Int :=
  param num (intOf num) params name default

/-- `_float_param`. -/
def floatParam (params : JsonObject) (name : String) (default : Double) : Except Raised Double :=
  param num (floatOf num) params name default

end Messages

/-! ### Sound readings -/

def IsModuleError (e : Raised) : Prop := e.type = .own "ModuleError"

/-- The reading ends in a `ModuleError` or in what `R` allows. -/
def SoundReading {α : Type} (R : α → Prop) (x : Except Raised α) : Prop :=
  Within IsModuleError x ∧ ∀ a, x = .ok a → R a

section SoundReading

variable {num : Numerals} {α β : Type} {R : α → Prop}

@[simp] theorem sound_ok {a : α} : SoundReading R (.ok a) ↔ R a := by
  simp [SoundReading]

theorem sound_bind_iff {S : β → Prop} {x : Except Raised α} {f : α → Except Raised β} :
    SoundReading S (x >>= f) ↔ Within IsModuleError x ∧ ∀ a, x = .ok a → SoundReading S (f a) := by
  rw [SoundReading, within_bind_iff]
  constructor
  · rintro ⟨⟨hx, hf⟩, hok⟩
    exact ⟨hx, fun a ha => ⟨hf a ha, fun b hb => hok b (bind_ok_iff.mpr ⟨a, ha, hb⟩)⟩⟩
  · rintro ⟨hx, hf⟩
    refine ⟨⟨hx, fun a ha => (hf a ha).1⟩, fun b hb => ?_⟩
    obtain ⟨a, ha, hb⟩ := bind_ok_iff.mp hb
    exact (hf a ha).2 b hb

theorem spell_ok_iff {p : Part} : (∃ s, p.spell num = .ok s) ↔ p.Spellable := by
  cases p with
  | text s => exact iff_of_true ⟨s, rfl⟩ trivial
  | float x => exact iff_of_true ⟨_, rfl⟩ trivial
  | int n =>
      rw [Part.spell, intText]
      split_ifs with h
      · exact iff_of_true ⟨_, rfl⟩ h
      · exact iff_of_false (by simp) h
  | value v =>
      rw [Part.spell, reprOf]
      split_ifs with h
      · exact iff_of_true ⟨_, rfl⟩ h
      · exact iff_of_false (by simp) h

theorem fString_ok_iff {parts : List Part} :
    (∃ s, fString num parts = .ok s) ↔ ∀ p ∈ parts, p.Spellable := by
  constructor
  · rintro ⟨s, hs⟩ p hp
    obtain ⟨texts, htexts, -⟩ := bind_ok_iff.mp hs
    have hall := forall₂_exists_iff.mp ⟨texts, mapM_ok_iff.mp htexts⟩
    exact spell_ok_iff.mp (hall p hp)
  · intro h
    obtain ⟨texts, htexts⟩ := exists_mapM_ok fun p hp => spell_ok_iff.mpr (h p hp)
    exact ⟨_, bind_ok_iff.mpr ⟨texts, htexts, rfl⟩⟩

theorem fString_error {parts : List Part} {e : Raised} (h : fString num parts = .error e) :
    e = tooLong := by
  have hspell : ∀ p, Within (fun e => e = tooLong) (Part.spell num p) := by
    intro p
    cases p with
    | text s | float x => exact within_ok.mpr trivial
    | int n =>
        rw [Part.spell, intText]
        split_ifs
        · exact within_ok.mpr trivial
        · exact within_error.mpr rfl
    | value v =>
        rw [Part.spell, reprOf]
        split_ifs
        · exact within_ok.mpr trivial
        · exact within_error.mpr rfl
  exact ((Within.mapM hspell parts).bind fun _ => within_ok.mpr trivial) e h

/-- A refusal is one if its text can be spelled. -/
theorem within_refuse {parts : List Part} :
    Within IsModuleError (refuse num parts : Except Raised α) ↔ ∀ p ∈ parts, p.Spellable := by
  rw [← @fString_ok_iff num, refuse]
  cases h : fString num parts with
  | ok s => exact iff_of_true (within_error.mpr rfl) ⟨s, rfl⟩
  | error e =>
      refine iff_of_false (fun hwithin => ?_) (by simp)
      have hown := hwithin e rfl
      rw [fString_error h] at hown
      cases hown

theorem refuse_ne_ok {parts : List Part} {a : α} : refuse num parts ≠ .ok a := by
  intro h
  obtain ⟨s, -, h⟩ := bind_ok_iff.mp h
  cases h

theorem sound_refuse {parts : List Part} :
    SoundReading R (refuse num parts) ↔ ∀ p ∈ parts, p.Spellable := by
  rw [SoundReading, within_refuse, and_iff_left]
  exact fun a h => absurd h refuse_ne_ok

/-! ### Parameters -/

/-- The value of a parameter: the default, or what the one given converts to. -/
def Given (convert : Json → Except Raised α) (params : JsonObject) (name : String) (default a : α) :
    Prop :=
  params.fields.lookup (.text name) = none ∧ a = default ∨
    ∃ v, params.fields.lookup (.text name) = some v ∧ convert v = .ok a

theorem param_ok_iff {convert : Json → Except Raised α} {params : JsonObject} {name : String}
    {default a : α} :
    param num convert params name default = .ok a ↔ Given convert params name default a := by
  unfold param Given
  cases params.fields.lookup (.text name) with
  | none => simp [eq_comm]
  | some v =>
      simp only [reduceCtorEq, false_and, Option.some.injEq, exists_eq_left', false_or]
      cases convert v with
      | ok b => simp
      | error e =>
          dsimp only
          split_ifs
          · exact iff_of_false refuse_ne_ok (by simp)
          · simp

theorem within_param {convert : Json → Except Raised α} {params : JsonObject} {name : String}
    {default : α} (hown : ∀ v e, convert v = .error e → ¬ IsModuleError e) :
    Within IsModuleError (param num convert params name default) ↔
      ∀ v, params.fields.lookup (.text name) = some v →
        Within (Caught [.typeError, .valueError]) (convert v) ∧
          ((∀ a, convert v ≠ .ok a) → v.spellable = true) := by
  unfold param
  cases params.fields.lookup (.text name) with
  | none => simp
  | some v =>
      simp only [Option.some.injEq, forall_eq']
      cases hv : convert v with
      | ok a => simp
      | error e =>
          dsimp only
          split_ifs with hcaught
          · rw [within_refuse]
            simp [Part.Spellable, Json.spellable, Caught, hcaught]
          · refine iff_of_false (fun h => hown v e hv (h e rfl)) fun h => hcaught (h.1 e rfl)

theorem not_module_of_conversion {e : Raised} (h : IsConversionError e) :
    ¬ IsModuleError e := by
  intro hown
  rw [IsConversionError, hown] at h
  simp at h

/-- The integer parameter is no infinite float, what it says if it cannot be
converted can be spelled, and its value goes on to satisfy `k`. -/
structure IntSettles (num : Numerals) (params : JsonObject) (name : String) (default : Int)
    (k : Int → Prop) : Prop where
  bounded : ∀ x negative, params.fields.lookup (.text name) = some (.float x) →
    x.value num ≠ .inf negative
  spellable : ∀ v, params.fields.lookup (.text name) = some v → (∀ n, intOf num v ≠ .ok n) →
    v.spellable = true
  next : ∀ n, Given (intOf num) params name default n → k n

/-- The same of a float parameter, which is to be no integer beyond the floats. -/
structure FloatSettles (num : Numerals) (params : JsonObject) (name : String) (default : Double)
    (k : Double → Prop) : Prop where
  bounded : ∀ n : Int, params.fields.lookup (.text name) = some (.int n) → |(n : ℚ)| < overflowBound
  spellable : ∀ v, params.fields.lookup (.text name) = some v → (∀ x, floatOf num v ≠ .ok x) →
    v.spellable = true
  next : ∀ x, Given (floatOf num) params name default x → k x

variable {params : JsonObject} {name : String}

theorem sound_intParam {default : Int} {f : Int → Except Raised α} :
    SoundReading R (intParam num params name default >>= f) ↔
      IntSettles num params name default fun n => SoundReading R (f n) := by
  have hown : ∀ v e, intOf num v = .error e → ¬ IsModuleError e := fun v e he =>
    not_module_of_conversion (intOf_error v e he)
  rw [sound_bind_iff, intParam, within_param hown]
  simp only [within_intOf, param_ok_iff]
  constructor
  · rintro ⟨hparam, hnext⟩
    exact ⟨fun x negative hx => (hparam _ hx).1 x negative rfl, fun v hv => (hparam v hv).2, hnext⟩
  · intro h
    refine ⟨fun v hv => ⟨?_, h.spellable v hv⟩, h.next⟩
    rintro x negative rfl
    exact h.bounded x negative hv

theorem sound_floatParam {default : Double} {f : Double → Except Raised α} :
    SoundReading R (floatParam num params name default >>= f) ↔
      FloatSettles num params name default fun x => SoundReading R (f x) := by
  have hown : ∀ v e, floatOf num v = .error e → ¬ IsModuleError e := fun v e he =>
    not_module_of_conversion (floatOf_error v e he)
  rw [sound_bind_iff, floatParam, within_param hown]
  simp only [within_floatOf, param_ok_iff]
  constructor
  · rintro ⟨hparam, hnext⟩
    exact ⟨fun n hn => (hparam _ hn).1 n rfl, fun v hv => (hparam v hv).2, hnext⟩
  · intro h
    refine ⟨fun v hv => ⟨?_, h.spellable v hv⟩, h.next⟩
    rintro n rfl
    exact h.bounded n hv

end SoundReading

/-- Python, of a document without strings and decimal literals. -/
def plainNumerals : Numerals where
  decimal _ := 0
  intOfStr _ := .error "invalid literal for int()"
  floatOfStr _ := .error "could not convert string to float"
  floatText _ := "0.0"
  repr _ := "None"

end Formshift
