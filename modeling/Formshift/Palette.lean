/-
Formshift/Palette.lean

Explicit palettes (`_validate_palette`, `color.py`).

What is accepted is a list of 2 to 256 colors in hexadecimal that are pairwise
distinct as colors (`validatePalette_ok_iff`); the colors come out in the order
of the list, so the index of one in the palette is its position in the list.
-/
import Formshift.Raster

namespace Formshift

open Py

/-! ### Colors -/

structure Rgb where
  r : Nat
  g : Nat
  b : Nat
  deriving DecidableEq

/-- The characters of `"0123456789abcdefABCDEF"`. -/
def hexDigits : List Char :=
  ['0', '1', '2', '3', '4', '5', '6', '7', '8', '9', 'a', 'b', 'c', 'd', 'e', 'f', 'A', 'B', 'C',
    'D', 'E', 'F']

def isHexDigit (c : Char) : Bool := c ∈ hexDigits

/-- `int(character, 16)`. -/
def hexDigitValue (c : Char) : Nat :=
  if c.toNat < 'A'.toNat then c.toNat - '0'.toNat
  else if c.toNat < 'a'.toNat then c.toNat - 'A'.toNat + 10
  else c.toNat - 'a'.toNat + 10

/-- `int(entry[i:i + 2], 16)`. -/
def hexByte (s : List Char) (i : Nat) : Nat :=
  ((s.drop i).take 2).foldl (fun n c => n * 16 + hexDigitValue c) 0

/-- The color of `#rrggbb`. -/
def rgbOf (s : String) : Rgb := ⟨hexByte s.toList 1, hexByte s.toList 3, hexByte s.toList 5⟩

def isHexColor (s : String) : Bool :=
  s.toList.head? = some '#' && s.length = 7 && (s.toList.drop 1).all isHexDigit

/-! ### The check -/

section Validate

variable (num : Numerals)

/-- The loop over the entries, behind those that were accepted. -/
def paletteFrom (entries : List Rgb) (position : Nat) : List Json → Except Raised (List Rgb)
  | [] => .ok entries
  | .str (.text s) :: rest =>
    if isHexColor s then
      if rgbOf s ∈ entries then
        refuse num [.text "palette[", .text position.repr, .text "] duplicates an earlier entry: ",
          .value (.str s)]
      else paletteFrom (entries ++ [rgbOf s]) (position + 1) rest
    else
      refuse num [.text "palette[", .text position.repr,
        .text "] must be a #rrggbb hex color, got ", .value (.str s)]
  | entry :: _ =>
    refuse num [.text "palette[", .text position.repr, .text "] must be a #rrggbb hex color, got ",
      .value entry]

/-- `_validate_palette`. -/
def validatePalette (raw : Json) : Except Raised (List Rgb) :=
  match raw with
  | .arr items =>
    if 2 ≤ items.length ∧ items.length ≤ 256 then paletteFrom num [] 0 items
    else
      refuse num [.text "palette length must be in [2, 256], got ", .text items.length.repr]
  | v => refuse num [.text ("palette must be a list of #rrggbb strings, got " ++ v.typeName)]

end Validate

/-! ### What is accepted -/

/-- A text as a JSON value. -/
def textValue (s : String) : Json := .str s

/-- `#` and six hexadecimal digits in either case. -/
def HexColor (s : String) : Prop :=
  ∃ digits, s.toList = '#' :: digits ∧ digits.length = 6 ∧
    ∀ c ∈ digits, ('0' ≤ c ∧ c ≤ '9') ∨ ('a' ≤ c ∧ c ≤ 'f') ∨ ('A' ≤ c ∧ c ≤ 'F')

/-- The characters of a range, by their code points. -/
theorem mem_range_of_le {lo hi c : Char} (hlo : lo ≤ c) (hhi : c ≤ hi) :
    c ∈ (List.range' lo.toNat (hi.toNat + 1 - lo.toNat)).map Char.ofNat := by
  have h₁ : lo.toNat ≤ c.toNat := hlo
  have h₂ : c.toNat ≤ hi.toNat := hhi
  refine List.mem_map.mpr ⟨c.toNat, ?_, Char.ofNat_toNat c⟩
  rw [List.mem_range'_1]
  omega

theorem isHexDigit_iff {c : Char} : isHexDigit c = true ↔
    ('0' ≤ c ∧ c ≤ '9') ∨ ('a' ≤ c ∧ c ≤ 'f') ∨ ('A' ≤ c ∧ c ≤ 'F') := by
  constructor
  · intro h
    rw [isHexDigit, decide_eq_true_eq] at h
    fin_cases h <;> decide
  · have hall : ∀ {lo hi : Char}, ((List.range' lo.toNat (hi.toNat + 1 - lo.toNat)).map
        Char.ofNat).all isHexDigit = true → lo ≤ c → c ≤ hi → isHexDigit c = true :=
      fun h hlo hhi => List.all_eq_true.mp h c (mem_range_of_le hlo hhi)
    rintro (⟨hlo, hhi⟩ | ⟨hlo, hhi⟩ | ⟨hlo, hhi⟩)
    · exact hall (by decide) hlo hhi
    · exact hall (by decide) hlo hhi
    · exact hall (by decide) hlo hhi

theorem isHexColor_iff {s : String} : isHexColor s = true ↔ HexColor s := by
  simp only [isHexColor, Bool.and_eq_true, decide_eq_true_eq, List.all_eq_true, HexColor,
    isHexDigit_iff, ← String.length_toList]
  constructor
  · rintro ⟨⟨hhead, hlen⟩, hall⟩
    obtain ⟨digits, hs⟩ := List.head?_eq_some_iff.mp hhead
    rw [hs] at hlen hall
    exact ⟨digits, hs, by simpa using hlen, hall⟩
  · rintro ⟨digits, hs, hlen, hall⟩
    rw [hs]
    exact ⟨⟨rfl, by simp [hlen]⟩, hall⟩

/-- The channels of a color are bytes. -/
theorem hexDigitValue_lt {c : Char} (h : isHexDigit c = true) : hexDigitValue c < 16 := by
  have hall : (hexDigits.all fun c => decide (hexDigitValue c < 16)) = true := by decide
  exact of_decide_eq_true (List.all_eq_true.mp hall c (of_decide_eq_true h))

section Accept

variable {num : Numerals}

/-- The loop accepts the colors that are new. -/
theorem paletteFrom_ok_iff {entries result : List Rgb} {position : Nat} {items : List Json} :
    paletteFrom num entries position items = .ok result ↔
      ∃ colors : List String, items = colors.map textValue ∧ (∀ s ∈ colors, HexColor s) ∧
        (colors.map rgbOf).Nodup ∧ (∀ s ∈ colors, rgbOf s ∉ entries) ∧
          result = entries ++ colors.map rgbOf := by
  induction items generalizing entries position with
  | nil =>
      constructor
      · intro h
        obtain rfl := Except.ok.inj h
        exact ⟨[], rfl, by simp, by simp, by simp, by simp⟩
      · rintro ⟨colors, hnil, -, -, -, rfl⟩
        obtain rfl : colors = [] := by simpa using hnil.symm
        simp [paletteFrom]
  | cons entry rest ih =>
      match entry with
      | .str (.text s) =>
          rw [paletteFrom]
          constructor
          · intro h
            split_ifs at h with hcolor hmem
            · exact absurd h refuse_ne_ok
            · obtain ⟨colors, rfl, hall, hnodup, hnew, rfl⟩ := ih.mp h
              -- the rest is new beside this color as well
              have hne : ∀ t ∈ colors, rgbOf t ∉ entries ∧ rgbOf t ≠ rgbOf s := by
                intro t ht
                simpa [not_or] using hnew t ht
              refine ⟨s :: colors, rfl, ?_, ?_, ?_, by simp⟩
              · exact List.forall_mem_cons.mpr ⟨isHexColor_iff.mp hcolor, hall⟩
              · rw [List.map_cons, List.nodup_cons]
                refine ⟨fun hs => ?_, hnodup⟩
                obtain ⟨t, ht, heq⟩ := List.mem_map.mp hs
                exact (hne t ht).2 heq
              · exact List.forall_mem_cons.mpr ⟨hmem, fun t ht => (hne t ht).1⟩
            · exact absurd h refuse_ne_ok
          · rintro ⟨colors, hitems, hall, hnodup, hnew, rfl⟩
            cases colors with
            | nil => cases hitems
            | cons t colors =>
                obtain ⟨hst, rfl⟩ := List.cons.inj hitems
                obtain rfl := Str.text.inj (Json.str.inj hst)
                rw [List.map_cons, List.nodup_cons] at hnodup
                -- the first is accepted, and the rest behind it
                obtain ⟨hcolor, hall⟩ := List.forall_mem_cons.mp hall
                obtain ⟨hs, hnew⟩ := List.forall_mem_cons.mp hnew
                rw [if_pos (isHexColor_iff.mpr hcolor), if_neg hs]
                refine ih.mpr ⟨colors, rfl, hall, hnodup.2, fun t ht => ?_, by simp⟩
                rw [List.mem_append, List.mem_singleton, not_or]
                exact ⟨hnew t ht, fun heq => hnodup.1 (List.mem_map.mpr ⟨t, ht, heq⟩)⟩
      | .null | .bool _ | .int _ | .float _ | .str (.cut _ _ _) | .arr _ | .obj _ =>
          refine iff_of_false refuse_ne_ok ?_
          rintro ⟨colors, hitems, -⟩
          cases colors <;> simp [textValue] at hitems

/-- **The palettes that are accepted**, and what they are read as. -/
theorem validatePalette_ok_iff {raw : Json} {palette : List Rgb} :
    validatePalette num raw = .ok palette ↔
      ∃ colors : List String, raw = .arr (colors.map textValue) ∧ 2 ≤ colors.length ∧
        colors.length ≤ 256 ∧ (∀ s ∈ colors, HexColor s) ∧ (colors.map rgbOf).Nodup ∧
          palette = colors.map rgbOf := by
  cases raw with
  | arr items =>
      rw [validatePalette]
      split_ifs with hlen
      -- the number is right, and the entries decide
      · rw [paletteFrom_ok_iff]
        constructor
        · rintro ⟨colors, rfl, hall, hnodup, -, rfl⟩
          rw [List.length_map] at hlen
          exact ⟨colors, rfl, hlen.1, hlen.2, hall, hnodup, by simp⟩
        · rintro ⟨colors, harr, -, -, hall, hnodup, rfl⟩
          exact ⟨colors, Json.arr.inj harr, hall, hnodup, by simp, by simp⟩
      · refine iff_of_false refuse_ne_ok ?_
        rintro ⟨colors, harr, h₂, h₂₅₆, -⟩
        rw [Json.arr.inj harr, List.length_map] at hlen
        exact hlen ⟨h₂, h₂₅₆⟩
  | null | bool | int | float | str | obj =>
      refine iff_of_false refuse_ne_ok ?_
      rintro ⟨colors, harr, -⟩
      cases harr

/-! ### What is refused -/

/-- An entry that is no string, behind distinct colors, can be spelled. -/
def RefusesSpellably (raw : Json) : Prop :=
  ∀ items, raw = .arr items → 2 ≤ items.length → items.length ≤ 256 →
    ∀ (colors : List String) entry rest, items = colors.map textValue ++ entry :: rest →
      (∀ s ∈ colors, HexColor s) → (colors.map rgbOf).Nodup → (∀ s, entry ≠ textValue s) →
        entry.spellable = true

theorem within_paletteFrom {entries : List Rgb} {position : Nat} {items : List Json} :
    Within IsModuleError (paletteFrom num entries position items) ↔
      ∀ (colors : List String) entry rest, items = colors.map textValue ++ entry :: rest →
        (∀ s ∈ colors, HexColor s) → (colors.map rgbOf).Nodup →
          (∀ s ∈ colors, rgbOf s ∉ entries) → (∀ s, entry ≠ textValue s) →
            entry.spellable = true := by
  induction items generalizing entries position with
  | nil => exact iff_of_true (within_ok.mpr trivial) (by simp)
  | cons first items ih =>
      match first with
      | .str (.text s) =>
          have hspell : (Part.value (.str (.text s))).Spellable := rfl
          -- the entry before which the loop stops is further on
          have hcons : ∀ (colors : List String) entry rest,
              .str (.text s) :: items = colors.map textValue ++ entry :: rest →
                (∀ t, entry ≠ textValue t) → ∃ colors', colors = s :: colors' ∧
                  items = colors'.map textValue ++ entry :: rest := by
            intro colors entry rest hitems hentry
            cases colors with
            | nil => exact absurd (List.cons.inj hitems).1.symm (hentry s)
            | cons t colors' =>
                obtain ⟨hst, hitems⟩ := List.cons.inj hitems
                exact ⟨colors', by rw [Str.text.inj (Json.str.inj hst)], hitems⟩
          rw [paletteFrom]
          split_ifs with hcolor hmem
          · refine iff_of_true (within_refuse.mpr ?_) ?_
            · simp [Part.Spellable, Json.spellable]
            · intro colors entry rest hitems _ _ hnew hentry
              obtain ⟨colors', rfl, -⟩ := hcons colors entry rest hitems hentry
              exact absurd hmem (hnew s List.mem_cons_self)
          · rw [ih]
            constructor
            · intro h colors entry rest hitems hall hnodup hnew hentry
              obtain ⟨colors', rfl, hrest⟩ := hcons colors entry rest hitems hentry
              rw [List.map_cons, List.nodup_cons] at hnodup
              refine h colors' entry rest hrest (fun t ht => hall t (List.mem_cons_of_mem _ ht))
                hnodup.2 (fun t ht => ?_) hentry
              rw [List.mem_append, List.mem_singleton, not_or]
              exact ⟨hnew t (List.mem_cons_of_mem _ ht),
                fun heq => hnodup.1 (List.mem_map.mpr ⟨t, ht, heq⟩)⟩
            · intro h colors entry rest hitems hall hnodup hnew hentry
              have hnew' : ∀ t ∈ colors, rgbOf t ∉ entries ∧ rgbOf t ≠ rgbOf s := by
                intro t ht
                simpa [not_or] using hnew t ht
              refine h (s :: colors) entry rest (by rw [hitems]; rfl)
                (List.forall_mem_cons.mpr ⟨isHexColor_iff.mp hcolor, hall⟩) ?_
                (List.forall_mem_cons.mpr ⟨hmem, fun t ht => (hnew' t ht).1⟩) hentry
              rw [List.map_cons, List.nodup_cons]
              refine ⟨fun hs => ?_, hnodup⟩
              obtain ⟨t, ht, heq⟩ := List.mem_map.mp hs
              exact (hnew' t ht).2 heq
          · refine iff_of_true (within_refuse.mpr ?_) ?_
            · simp [Part.Spellable, Json.spellable]
            · intro colors entry rest hitems hall _ _ hentry
              obtain ⟨colors', rfl, -⟩ := hcons colors entry rest hitems hentry
              exact absurd (isHexColor_iff.mpr (hall s List.mem_cons_self)) hcolor
      | .null | .bool _ | .int _ | .float _ | .str (.cut _ _ _) | .arr _ | .obj _ =>
          show Within IsModuleError (refuse num _) ↔ _
          rw [within_refuse]
          constructor
          · intro h colors entry rest hitems _ _ _ _
            cases colors with
            | nil =>
                rw [← (List.cons.inj hitems).1]
                exact h (.value _) (by simp)
            | cons t colors => cases (List.cons.inj hitems).1
          · intro h
            have hfirst := h [] _ items rfl (by simp) (by simp) (by simp) (by simp [textValue])
            simpa [Part.Spellable] using hfirst

theorem within_validatePalette {raw : Json} :
    Within IsModuleError (validatePalette num raw) ↔ RefusesSpellably raw := by
  unfold RefusesSpellably
  cases raw with
  | arr items =>
      rw [validatePalette]
      split_ifs with hlen
      · rw [within_paletteFrom]
        constructor
        · rintro h items' hitems - - colors entry rest rfl hall hnodup hentry
          exact h colors entry rest (Json.arr.inj hitems) hall hnodup (by simp) hentry
        · intro h colors entry rest hitems hall hnodup _ hentry
          exact h items rfl hlen.1 hlen.2 colors entry rest hitems hall hnodup hentry
      · refine iff_of_true (within_refuse.mpr (by simp [Part.Spellable])) ?_
        intro items' hitems h₂ h₂₅₆
        rw [← Json.arr.inj hitems] at h₂ h₂₅₆
        exact absurd ⟨h₂, h₂₅₆⟩ hlen
  | null | bool | int | float | str | obj =>
      exact iff_of_true (within_refuse.mpr (by simp [Part.Spellable])) (by simp)

end Accept

end Formshift
