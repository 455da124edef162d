/-
Formshift/ManifestFormat.lean

The format of `extension.toml`, and what the parser of it accepts
(`parse_extension_manifest`, `extensions.py`).

`WellFormedManifest` says what a manifest is to look like and `Lists` which extension
it declares.  The parser's two patterns end in `$`, which also stands before a
line break at the end of a text, and it spells values that `str` may refuse; so what
it accepts is the format up to one such break, where every text can be had
(`parse_ok_iff_loose`), and it accepts exactly the format on every document but those
in which a checked text ends in a line break and all else is in order, and those in
the format with a value that cannot be spelled (`acceptsExactly_iff`).
-/
import Formshift.Extensions
import Formshift.Lib.Json

namespace Formshift

open Py

/-! ### Documents -/

/-- `str` of a float: a number, or one of two words. -/
def isTomlFloatText (text : String) : Bool :=
  text = "nan" || text = "inf" || text.toList.head?.any fun c => Text.isDigit c || c == '-'

mutual

/-- Floats and dates are spelled as `str` spells them. -/
def Toml.spelled : Toml → Bool
  | .float text => isTomlFloatText text
  | .date text => text.toList.head?.any Text.isDigit
  | .arr items => Toml.spelledItems items
  | .table fields => Toml.spelledFields fields
  | .str _ | .int _ | .bool _ => true

def Toml.spelledItems : List Toml → Bool
  | [] => true
  | v :: rest => v.spelled && Toml.spelledItems rest

def Toml.spelledFields : List (String × Toml) → Bool
  | [] => true
  | (_, v) :: rest => v.spelled && Toml.spelledFields rest

end

/-- What came out of `tomllib.loads`. -/
structure TomlDocument where
  fields : List (String × Toml)
  spelled : Toml.spelledFields fields = true

/-- A source directory with this manifest. -/
def TomlDocument.source (doc : TomlDocument) (path : String) : Source where
  path := path
  isDir := true
  toml := some (.ok doc.fields)

/-- The texts of lists and dicts begin with their bracket. -/
structure LawfulSpelling extends Spelling where
  compound_arr : ∀ items, (compound (.arr items)).toList.head? = some '['
  compound_table : ∀ fields, (compound (.table fields)).toList.head? = some '\x7b'

/-! ### The format -/

/-- The texts that may name an extension. -/
def NameOk (t : Text) : Prop :=
  ∃ c cs, t = c :: cs ∧ isLowerOrDigit c = true ∧
    ∀ d ∈ cs, isLowerOrDigit d = true ∨ d = '.' ∨ d = '_' ∨ d = '-'

/-- The texts that may name an entry: a dotted name, a colon, an identifier. -/
def EntryOk (t : Text) : Prop :=
  ∃ c cs d ds, t = (c :: cs) ++ ':' :: d :: ds ∧ isIdentStart c = true ∧
    (∀ e ∈ cs, isIdentRest e = true ∨ e = '.') ∧ isIdentStart d = true ∧
    ∀ e ∈ ds, isIdentRest e = true

/-- `P`, with or without a line break at the end. -/
def UpToBreak (P : Text → Prop) (t : Text) : Prop := P t ∨ ∃ u, P u ∧ t = u ++ ['\n']

def PortOk (v : Toml) : Prop :=
  ∃ fields name type, v = .table fields ∧ fields.lookup "name" = some name ∧
    fields.lookup "type" = some type ∧ name.truthy = true ∧ type.truthy = true

def PortsOk (field : Option Toml) : Prop :=
  ∃ items, field = some (.arr items) ∧ items ≠ [] ∧ ∀ v ∈ items, PortOk v

section Format

variable (py : Spelling) (name entry : Text → Prop)

/-- The text of a module's name. -/
def moduleName : Toml → String
  | .table fields => py.fieldText fields "name" ""
  | _ => ""

def ModuleOk (v : Toml) : Prop :=
  ∃ fields, v = .table fields ∧ py.fieldText fields "name" "" ≠ "" ∧
    (∃ s, fields.lookup "entry" = some (.str s) ∧ entry s.toList) ∧
    PortsOk (fields.lookup "inputs") ∧ PortsOk (fields.lookup "outputs")

/-- The `[extension]` table. -/
structure HeaderOk (header : List (String × Toml)) : Prop where
  name : name (py.fieldText header "name" "").toList
  version : py.fieldText header "version" "" ≠ ""
  isolation : header.lookup "isolation" = none ∨ header.lookup "isolation" = some (.str "isolated")
  requirements : header.lookup "requirements" = none ∨
    ∃ strings : List String, header.lookup "requirements" = some (.arr (strings.map .str))

/-- The format, for these notions of a name and an entry. -/
def FormatWith (data : List (String × Toml)) : Prop :=
  (∃ header, data.lookup "extension" = some (.table header) ∧ HeaderOk py name header) ∧
    ∃ raws, data.lookup "modules" = some (.arr raws) ∧ raws ≠ [] ∧
      (raws.map (moduleName py)).Nodup ∧ ∀ raw ∈ raws, ModuleOk py entry raw

/-- **The format of `extension.toml`.** -/
def WellFormedManifest (data : List (String × Toml)) : Prop := FormatWith py NameOk EntryOk data

end Format

/-! ### What a document declares -/

section Lists

variable (py : Spelling)

def ListsPort (v : Toml) (p : PortSpec) : Prop :=
  ∃ fields name type, v = .table fields ∧ fields.lookup "name" = some name ∧
    fields.lookup "type" = some type ∧ p = ⟨py.text name, py.text type⟩

def ListsPorts (field : Option Toml) (ps : List PortSpec) : Prop :=
  ∃ items, field = some (.arr items) ∧ List.Forall₂ (ListsPort py) items ps

/-- The module a table declares in an extension of this version. -/
def ListsModule (version isolation : String) (raw : Toml) (spec : ExtensionModuleSpec) : Prop :=
  ∃ fields, raw = .table fields ∧ spec.entry = py.fieldText fields "entry" "" ∧
    spec.name = py.fieldText fields "name" "" ∧ spec.manifest.version = version ∧
    spec.manifest.isolation = isolation ∧
    spec.manifest.description = py.fieldText fields "description" "" ∧
    ListsPorts py (fields.lookup "inputs") spec.manifest.inputs ∧
    ListsPorts py (fields.lookup "outputs") spec.manifest.outputs

/-- The manifest lists what the document declares, in its order. -/
def Lists (data : List (String × Toml)) (m : ExtensionManifest) : Prop :=
  (∃ header, data.lookup "extension" = some (.table header) ∧
    m.name = py.fieldText header "name" "" ∧ m.version = py.fieldText header "version" "" ∧
    m.description = py.fieldText header "description" "" ∧
    m.isolation = py.fieldText header "isolation" "isolated" ∧
    (header.lookup "requirements" = none ∧ m.requirements = [] ∨
      header.lookup "requirements" = some (.arr (m.requirements.map .str)))) ∧
  ∃ raws, data.lookup "modules" = some (.arr raws) ∧
    List.Forall₂ (ListsModule py m.version m.isolation) raws m.modules

end Lists

/-! ### The texts of a manifest -/

section Texts

variable (py : Spelling)

def PortHasTexts (v : Toml) : Prop :=
  ∀ fields, v = .table fields → py.SpellsField fields "name" ∧ py.SpellsField fields "type"

def PortsHaveTexts (field : Option Toml) : Prop :=
  ∀ items, field = some (.arr items) → ∀ v ∈ items, PortHasTexts py v

def ModuleHasTexts (raw : Toml) : Prop :=
  ∀ fields, raw = .table fields →
    py.SpellsField fields "name" ∧ py.SpellsField fields "entry" ∧
      py.SpellsField fields "description" ∧ PortsHaveTexts py (fields.lookup "inputs") ∧
        PortsHaveTexts py (fields.lookup "outputs")

structure HeaderHasTexts (header : List (String × Toml)) : Prop where
  name : py.SpellsField header "name"
  version : py.SpellsField header "version"
  isolation : py.SpellsField header "isolation"
  description : py.SpellsField header "description"

/-- `str` has a result for every value that a manifest spells. -/
def HasTexts (data : List (String × Toml)) : Prop :=
  (∀ header, data.lookup "extension" = some (.table header) → HeaderHasTexts py header) ∧
    ∀ raws, data.lookup "modules" = some (.arr raws) → ∀ raw ∈ raws, ModuleHasTexts py raw

end Texts

/-! ### The two patterns -/

theorem beforeEnd_append_break (t : Text) : beforeEnd (t ++ ['\n']) = t := by
  simp [beforeEnd]

theorem beforeEnd_of_ne {t : Text} (h : t.getLast? ≠ some '\n') : beforeEnd t = t := by
  rw [beforeEnd, if_neg h]

/-- A pattern that ends in `$` matches up to a line break. -/
theorem beforeEnd_iff {P : Text → Prop} (hP : ∀ t, P t → '\n' ∉ t) {t : Text} :
    P (beforeEnd t) ↔ UpToBreak P t := by
  by_cases hlast : t.getLast? = some '\n'
  · obtain ⟨u, rfl⟩ := List.getLast?_eq_some_iff.mp hlast
    rw [beforeEnd_append_break]
    constructor
    · exact fun h => Or.inr ⟨u, h, rfl⟩
    · rintro (h | ⟨v, hv, heq⟩)
      · exact absurd (by simp) (hP _ h)
      · rwa [List.append_inj_left' heq rfl]
  · rw [beforeEnd_of_ne hlast]
    refine ⟨Or.inl, ?_⟩
    rintro (h | ⟨u, -, rfl⟩)
    · exact h
    · exact absurd (by simp) hlast

theorem not_mem_of_all {p : Char → Prop} {t : Text} (h : ∀ c ∈ t, p c) {c : Char} (hc : ¬ p c) :
    c ∉ t :=
  fun hmem => hc (h c hmem)

theorem NameOk.no_break {t : Text} (h : NameOk t) : '\n' ∉ t := by
  obtain ⟨c, cs, rfl, hc, hcs⟩ := h
  rw [List.mem_cons, not_or]
  constructor
  · rintro rfl
    revert hc
    decide
  · exact not_mem_of_all hcs (by decide)

theorem EntryOk.no_break {t : Text} (h : EntryOk t) : '\n' ∉ t := by
  obtain ⟨c, cs, d, ds, rfl, hc, hcs, hd, hds⟩ := h
  simp only [List.mem_append, List.mem_cons, not_or]
  refine ⟨⟨?_, not_mem_of_all hcs (by decide)⟩, by decide, ?_, not_mem_of_all hds (by decide)⟩
  · rintro rfl
    revert hc
    decide
  · rintro rfl
    revert hd
    decide

theorem matchesName_iff {name : String} :
    matchesName name = true ↔ UpToBreak NameOk name.toList := by
  rw [← beforeEnd_iff fun _ h => NameOk.no_break h, matchesName]
  cases beforeEnd name.toList with
  | nil => simp [NameOk]
  | cons c cs => simp [NameOk, or_assoc]

/-- The part of the text before its first colon, and the part after it. -/
theorem entryOk_iff {t : Text} : EntryOk t ↔ ∃ c cs d ds,
    Text.partition ':' t = (c :: cs, d :: ds) ∧ isIdentStart c = true ∧
      (∀ e ∈ cs, isIdentRest e = true ∨ e = '.') ∧ isIdentStart d = true ∧
        ∀ e ∈ ds, isIdentRest e = true := by
  constructor
  · rintro ⟨c, cs, d, ds, rfl, hc, hcs, hd, hds⟩
    refine ⟨c, cs, d, ds, Text.partition_append ?_, hc, hcs, hd, hds⟩
    rw [List.mem_cons, not_or]
    constructor
    · rintro rfl
      revert hc
      decide
    · exact not_mem_of_all hcs (by decide)
  · rintro ⟨c, cs, d, ds, hpart, hc, hcs, hd, hds⟩
    by_cases hcolon : ':' ∈ t
    · obtain ⟨a, b, rfl, hnot⟩ := Text.exists_first hcolon
      rw [Text.partition_append hnot] at hpart
      obtain ⟨rfl, rfl⟩ := Prod.mk.inj hpart
      exact ⟨c, cs, d, ds, rfl, hc, hcs, hd, hds⟩
    · rw [Text.partition_of_notMem hcolon] at hpart
      cases hpart

theorem matchesEntry_iff {entry : String} :
    matchesEntry entry = true ↔ UpToBreak EntryOk entry.toList := by
  rw [← beforeEnd_iff fun _ h => EntryOk.no_break h, entryOk_iff, matchesEntry]
  split
  · rename_i c cs d ds hpart
    rw [hpart]
    constructor
    · intro h
      simp only [Bool.and_eq_true, List.all_eq_true, Bool.or_eq_true, beq_iff_eq] at h
      exact ⟨c, cs, d, ds, rfl, h.1.1.1, h.1.1.2, h.1.2, h.2⟩
    · rintro ⟨c', cs', d', ds', heq, h₁, h₂, h₃, h₄⟩
      obtain ⟨hl, hr⟩ := Prod.mk.inj heq
      obtain ⟨rfl, rfl⟩ := List.cons.inj hl
      obtain ⟨rfl, rfl⟩ := List.cons.inj hr
      simp only [Bool.and_eq_true, List.all_eq_true, Bool.or_eq_true, beq_iff_eq]
      exact ⟨⟨⟨h₁, h₂⟩, h₃⟩, h₄⟩
  · rename_i hne
    refine iff_of_false (by simp) ?_
    rintro ⟨c, cs, d, ds, hpart, -⟩
    exact hne c cs d ds hpart

/-! ### Texts of values -/

section Values

variable {py : LawfulSpelling}

theorem not_identStart_of_digit {c : Char} (h : Text.isDigit c = true) :
    isIdentStart c = false := by
  simp only [Text.isDigit, Bool.and_eq_true, decide_eq_true_eq] at h
  have hA : ¬ 'A' ≤ c := fun hle => absurd (Char.le_trans hle h.2) (by decide)
  have ha : ¬ 'a' ≤ c := fun hle => absurd (Char.le_trans hle h.2) (by decide)
  have hunder : c ≠ '_' := by
    rintro rfl
    exact absurd h.2 (by decide)
  simp [isIdentStart, hA, ha, hunder]

/-- A text that begins like a number does not begin like an identifier. -/
theorem not_identStart_of_numeric {c : Char} (h : (Text.isDigit c || c == '-') = true) :
    isIdentStart c = false := by
  rcases Bool.or_eq_true_iff.mp h with h | h
  · exact not_identStart_of_digit h
  · obtain rfl := beq_iff_eq.mp h
    rfl

/-- Values other than strings whose text is a word. -/
def IsWord (text : String) : Prop := text ∈ ["True", "False", "nan", "inf"]

/-- A text that begins like an identifier is that of a string, or a word. -/
theorem str_of_identStart {v : Toml} (hv : v.spelled = true) {c : Char}
    (hc : (py.text v).toList.head? = some c) (hstart : isIdentStart c = true) :
    (∃ s, v = .str s) ∨ IsWord (py.text v) := by
  have hnot : isIdentStart c ≠ false := by simp [hstart]
  cases v with
  | str s => exact Or.inl ⟨s, rfl⟩
  | int n =>
      -- a number's text starts with a digit or a sign
      have hchar := Json.int_repr_chars n c (List.mem_of_head? hc)
      exact absurd (not_identStart_of_numeric hchar) hnot
  | float text =>
      rcases Bool.or_eq_true_iff.mp hv with hword | hnum
      · refine Or.inr ?_
        rcases Bool.or_eq_true_iff.mp hword with h | h
        · simp [IsWord, Spelling.text, of_decide_eq_true h]
        · simp [IsWord, Spelling.text, of_decide_eq_true h]
      · rw [show text.toList.head? = some c from hc] at hnum
        exact absurd (not_identStart_of_numeric hnum) hnot
  | bool b => exact Or.inr (by cases b <;> simp [IsWord, Spelling.text])
  | date text =>
      rw [Toml.spelled, show text.toList.head? = some c from hc] at hv
      exact absurd (not_identStart_of_digit hv) hnot
  | arr items =>
      -- a compound value's with a bracket
      obtain rfl := Option.some.inj ((py.compound_arr items).symm.trans hc)
      exact absurd rfl hnot
  | table fields =>
      obtain rfl := Option.some.inj ((py.compound_table fields).symm.trans hc)
      exact absurd rfl hnot

/-- A value whose text is an entry is a string. -/
theorem str_of_entry {v : Toml} (hv : v.spelled = true)
    (h : UpToBreak EntryOk (py.text v).toList) : ∃ s, v = .str s := by
  have hhead : ∃ c, (py.text v).toList.head? = some c ∧ isIdentStart c = true := by
    rcases h with ⟨c, cs, d, ds, ht, hc, -⟩ | ⟨u, ⟨c, cs, d, ds, rfl, hc, -⟩, ht⟩
    · exact ⟨c, by rw [ht]; rfl, hc⟩
    · exact ⟨c, by rw [ht]; rfl, hc⟩
  have hcolon : ':' ∈ (py.text v).toList := by
    rcases h with ⟨c, cs, d, ds, ht, -⟩ | ⟨u, ⟨c, cs, d, ds, rfl, -⟩, ht⟩
    · simp [ht]
    · simp [ht]
  obtain ⟨c, hc, hstart⟩ := hhead
  refine (str_of_identStart hv hc hstart).resolve_right fun hword => ?_
  simp only [IsWord, List.mem_cons, List.not_mem_nil, or_false] at hword
  rcases hword with hword | hword | hword | hword <;>
    · rw [hword] at hcolon
      simp at hcolon

theorem str_of_isolated {v : Toml} (hv : v.spelled = true) (h : py.text v = "isolated") :
    v = .str "isolated" := by
  have hc : (py.text v).toList.head? = some 'i' := by rw [h]; rfl
  rcases str_of_identStart hv hc rfl with ⟨s, rfl⟩ | hword
  · exact congrArg Toml.str h
  · rw [h] at hword
    simp [IsWord] at hword

theorem spelled_of_lookup {fields : List (String × Toml)} (h : Toml.spelledFields fields = true)
    {key : String} {v : Toml} (hv : fields.lookup key = some v) : v.spelled = true := by
  induction fields with
  | nil => cases hv
  | cons f fields ih =>
      obtain ⟨k, w⟩ := f
      obtain ⟨hw, hrest⟩ := Bool.and_eq_true_iff.mp (show (_ && _) = true from h)
      rw [List.lookup_cons] at hv
      split at hv
      · exact Option.some.inj hv ▸ hw
      · exact ih hrest hv

end Values

/-! ### What the steps accept -/

section Parts

variable {py : Spelling} {ext module direction : String}

theorem portOf_ok_iff {v : Toml} {p : PortSpec} :
    portOf py ext module direction v = .ok p ↔
      (PortOk v ∧ PortHasTexts py v) ∧ ListsPort py v p := by
  unfold portOf
  constructor
  · intro h
    dsimp only at h
    split at h
    · rename_i fields
      split at h
      · rename_i name type hname htype
        split_ifs at h with htruthy
        obtain ⟨h₁, h₂⟩ := Bool.and_eq_true_iff.mp htruthy
        obtain ⟨_, hget, h⟩ := bind_ok_iff.mp h
        obtain ⟨hn, rfl⟩ := Spelling.str_ok_iff.mp hget
        obtain ⟨_, hget, h⟩ := bind_ok_iff.mp h
        obtain ⟨ht, rfl⟩ := Spelling.str_ok_iff.mp hget
        refine ⟨⟨⟨fields, name, type, rfl, hname, htype, h₁, h₂⟩, ?_⟩, fields, name, type, rfl,
          hname, htype, (Except.ok.inj h).symm⟩
        rintro _ ⟨⟩
        constructor
        · rintro v hv
          exact Option.some.inj (hname.symm.trans hv) ▸ hn
        · rintro v hv
          exact Option.some.inj (htype.symm.trans hv) ▸ ht
      · cases h
    · cases h
  -- the other way: both texts are there to be read
  · rintro ⟨⟨⟨fields, name, type, rfl, hname, htype, h₁, h₂⟩, htexts⟩, fields', name', type', hobj,
      hname', htype', rfl⟩
    obtain rfl := Toml.table.inj hobj
    obtain rfl := Option.some.inj (hname.symm.trans hname')
    obtain rfl := Option.some.inj (htype.symm.trans htype')
    obtain ⟨hn, ht⟩ := htexts fields rfl
    simp only [hname, htype, h₁, h₂, Bool.and_self, if_true]
    refine bind_ok_iff.mpr ⟨_, Spelling.str_ok_iff.mpr ⟨hn name hname, rfl⟩, ?_⟩
    exact bind_ok_iff.mpr ⟨_, Spelling.str_ok_iff.mpr ⟨ht type htype, rfl⟩, rfl⟩

theorem ports_ok_iff {raw : Option Toml} {ps : List PortSpec} :
    ports py ext module direction raw = .ok ps ↔
      PortsOk raw ∧ PortsHaveTexts py raw ∧ ListsPorts py raw ps := by
  -- the loop is one port after another
  have hloop : ∀ items : List Toml,
      items.mapM (portOf py ext module direction) = .ok ps ↔
        (∀ v ∈ items, PortOk v ∧ PortHasTexts py v) ∧
          List.Forall₂ (ListsPort py) items ps := by
    intro items
    rw [mapM_ok_iff]
    simp only [portOf_ok_iff]
    exact List.forall₂_and_left items ps
  unfold ports
  split
  · rename_i port rest
    rw [hloop]
    constructor
    · rintro ⟨hok, hall⟩
      refine ⟨⟨_, rfl, List.cons_ne_nil _ _, fun v hv => (hok v hv).1⟩, ?_, _, rfl, hall⟩
      rintro _ ⟨⟩ v hv
      exact (hok v hv).2
    · rintro ⟨⟨items, hitems, -, hok⟩, htexts, items', hitems', hall⟩
      obtain rfl := Toml.arr.inj (Option.some.inj hitems)
      obtain rfl := Toml.arr.inj (Option.some.inj hitems')
      exact ⟨fun v hv => ⟨hok v hv, htexts _ rfl v hv⟩, hall⟩
  · rename_i hne
    refine iff_of_false (by simp) ?_
    rintro ⟨⟨items, rfl, hnil, -⟩, -⟩
    obtain ⟨port, rest, rfl⟩ := List.exists_cons_of_ne_nil hnil
    exact hne port rest rfl

theorem stringsOf_eq_some_iff {items : List Toml} {strings : List String} :
    stringsOf items = some strings ↔ items = strings.map .str := by
  induction items generalizing strings with
  | nil => cases strings <;> simp [stringsOf]
  | cons v items ih =>
      cases v with
      | str s =>
          rw [stringsOf, Option.map_eq_some_iff]
          simp only [ih]
          constructor
          · rintro ⟨rest, rfl, rfl⟩
            rfl
          · intro h
            cases strings with
            | nil => cases h
            | cons t rest =>
                obtain ⟨hs, hrest⟩ := List.cons.inj h
                exact ⟨rest, hrest, by rw [Toml.str.inj hs]⟩
      | int | float | bool | date | arr | table => cases strings <;> simp [stringsOf]

theorem requirementsOf_ok_iff {header : List (String × Toml)} {requirements : List String} :
    requirementsOf py ext header = .ok requirements ↔
      header.lookup "requirements" = none ∧ requirements = [] ∨
        header.lookup "requirements" = some (.arr (requirements.map .str)) := by
  unfold requirementsOf
  dsimp only
  split
  · rename_i hnone
    simp [hnone, eq_comm]
  · rename_i items hsome
    rw [hsome]
    split
    · rename_i strings hstrings
      have hitems := stringsOf_eq_some_iff.mp hstrings
      constructor
      · intro h
        rw [← Except.ok.inj h, hitems]
        exact Or.inr rfl
      · rintro (⟨hnone, -⟩ | harr)
        · cases hnone
        · have := stringsOf_eq_some_iff.mpr (Toml.arr.inj (Option.some.inj harr))
          rw [Option.some.inj (hstrings.symm.trans this)]
    · rename_i hnone
      refine iff_of_false (by simp) ?_
      rintro (⟨h, -⟩ | harr)
      · cases h
      · rw [stringsOf_eq_some_iff.mpr (Toml.arr.inj (Option.some.inj harr))] at hnone
        cases hnone
  · rename_i hne hsome
    refine iff_of_false (by simp) ?_
    rw [hsome]
    rintro (⟨h, -⟩ | harr)
    · cases h
    · exact hne _ (Option.some.inj harr)

theorem exists_listsPorts {field : Option Toml} (h : PortsOk field) :
    ∃ ps, ListsPorts py field ps := by
  obtain ⟨items, rfl, -, hok⟩ := h
  have hall : ∀ v ∈ items, ∃ p, ListsPort py v p := by
    intro v hv
    obtain ⟨fields, name, type, rfl, hname, htype, -⟩ := hok v hv
    exact ⟨_, fields, name, type, rfl, hname, htype, rfl⟩
  obtain ⟨ps, hps⟩ := forall₂_exists_iff.mpr hall
  exact ⟨ps, items, rfl, hps⟩

theorem exists_listsModule (version isolation : String) {entry : Text → Prop} {raw : Toml}
    (h : ModuleOk py entry raw) :
    ∃ spec, ListsModule py version isolation raw spec := by
  obtain ⟨fields, rfl, -, -, hin, hout⟩ := h
  obtain ⟨inputs, hinputs⟩ := exists_listsPorts hin
  obtain ⟨outputs, houtputs⟩ := exists_listsPorts hout
  exact ⟨⟨⟨_, version, _, inputs, outputs, isolation⟩, _⟩, fields, rfl, rfl, rfl, rfl, rfl, rfl,
    hinputs, houtputs⟩

/-- What is in the format declares an extension. -/
theorem exists_lists {name entry : Text → Prop} {data : List (String × Toml)}
    (h : FormatWith py name entry data) : ∃ m, Lists py data m := by
  obtain ⟨⟨header, hheader, hok⟩, raws, hmodules, -, -, hall⟩ := h
  obtain ⟨requirements, hreq⟩ : ∃ requirements : List String,
      header.lookup "requirements" = none ∧ requirements = [] ∨
        header.lookup "requirements" = some (.arr (requirements.map .str)) := by
    rcases hok.requirements with hnone | ⟨strings, hsome⟩
    · exact ⟨[], Or.inl ⟨hnone, rfl⟩⟩
    · exact ⟨strings, Or.inr hsome⟩
  obtain ⟨modules, hlists⟩ := forall₂_exists_iff.mpr fun raw hraw =>
    exists_listsModule (py.fieldText header "version" "") (py.fieldText header "isolation" "isolated")
      (hall raw hraw)
  exact ⟨⟨_, _, _, _, requirements, modules⟩, ⟨header, hheader, rfl, rfl, rfl, rfl, hreq⟩, raws,
    hmodules, hlists⟩

end Parts

section Accept

variable {py : LawfulSpelling} {ext version : String}

/-- An entry that matches is a string, up to its break an entry. -/
theorem entry_iff {fields : List (String × Toml)} (hd : Toml.spelledFields fields = true) :
    matchesEntry (py.fieldText fields "entry" "") = true ↔
      ∃ s, fields.lookup "entry" = some (.str s) ∧ UpToBreak EntryOk s.toList := by
  rw [matchesEntry_iff, Spelling.fieldText]
  cases hlookup : fields.lookup "entry" with
  | none =>
      refine iff_of_false ?_ (by simp)
      rintro (⟨c, cs, d, ds, ht, -⟩ | ⟨u, -, ht⟩)
      · simp at ht
      · simp at ht
  | some v =>
      constructor
      · intro h
        obtain ⟨s, rfl⟩ := str_of_entry (spelled_of_lookup hd hlookup) h
        exact ⟨s, rfl, h⟩
      · rintro ⟨s, hs, h⟩
        obtain rfl := Option.some.inj hs
        exact h

theorem ListsModule.name_eq {isolation : String} {raw : Toml} {spec : ExtensionModuleSpec}
    (h : ListsModule py.toSpelling version isolation raw spec) :
    spec.name = moduleName py.toSpelling raw := by
  obtain ⟨fields, rfl, -, hname, -⟩ := h
  exact hname

theorem moduleOf_ok_iff {raw : Toml} (hd : raw.spelled = true) {seen : List String}
    {spec : ExtensionModuleSpec} :
    moduleOf py.toSpelling ext version seen raw = .ok spec ↔
      moduleName py.toSpelling raw ∉ seen ∧
        (ModuleOk py.toSpelling (UpToBreak EntryOk) raw ∧ ModuleHasTexts py.toSpelling raw) ∧
          ListsModule py.toSpelling version "isolated" raw spec := by
  unfold moduleOf
  constructor
  · intro h
    split at h
    · rename_i fields
      obtain ⟨_, hget, h⟩ := bind_ok_iff.mp h
      obtain ⟨htname, rfl⟩ := Spelling.field_ok_iff.mp hget
      obtain ⟨_, hget, h⟩ := bind_ok_iff.mp h
      obtain ⟨htentry, rfl⟩ := Spelling.field_ok_iff.mp hget
      split_ifs at h with hname hseen hentry
      obtain ⟨_, hget, h⟩ := bind_ok_iff.mp h
      obtain ⟨htdescription, rfl⟩ := Spelling.field_ok_iff.mp hget
      obtain ⟨inputs, hinputs, h⟩ := bind_ok_iff.mp h
      obtain ⟨outputs, houtputs, h⟩ := bind_ok_iff.mp h
      obtain rfl := Except.ok.inj h
      obtain ⟨hin, htin, hlin⟩ := ports_ok_iff.mp hinputs
      obtain ⟨hout, htout, hlout⟩ := ports_ok_iff.mp houtputs
      refine ⟨hseen, ⟨⟨fields, rfl, hname, (entry_iff hd).mp (by simpa using hentry), hin, hout⟩,
        ?_⟩, fields, rfl, rfl, rfl, rfl, rfl, rfl, hlin, hlout⟩
      rintro _ ⟨⟩
      exact ⟨htname, htentry, htdescription, htin, htout⟩
    · cases h
  · rintro ⟨hseen, ⟨⟨fields, rfl, hname, hentry, hin, hout⟩, htexts⟩, fields', hobj, hlists⟩
    obtain rfl := Toml.table.inj hobj
    obtain ⟨hlentry, hlname, hlversion, hlisolation, hldescription, hlin, hlout⟩ := hlists
    obtain ⟨htname, htentry, htdescription, htin, htout⟩ := htexts fields rfl
    refine bind_ok_iff.mpr ⟨_, Spelling.field_ok_iff.mpr ⟨htname, rfl⟩, ?_⟩
    refine bind_ok_iff.mpr ⟨_, Spelling.field_ok_iff.mpr ⟨htentry, rfl⟩, ?_⟩
    rw [if_neg hname, if_neg (show py.fieldText fields "name" "" ∉ seen from hseen),
      if_neg (by simpa using (entry_iff hd).mpr hentry)]
    refine bind_ok_iff.mpr ⟨_, Spelling.field_ok_iff.mpr ⟨htdescription, rfl⟩, ?_⟩
    refine bind_ok_iff.mpr ⟨_, ports_ok_iff.mpr ⟨hin, htin, hlin⟩, ?_⟩
    refine bind_ok_iff.mpr ⟨_, ports_ok_iff.mpr ⟨hout, htout, hlout⟩, ?_⟩
    rw [← hlname, ← hlentry, ← hldescription, ← hlversion, ← hlisolation]
    rfl

theorem modulesFrom_ok_iff {raws : List Toml} (hd : Toml.spelledItems raws = true)
    {done specs : List ExtensionModuleSpec} :
    modulesFrom py.toSpelling ext version done raws = .ok specs ↔
      ((raws.map (moduleName py.toSpelling)).Nodup ∧
        ∀ raw ∈ raws,
          (ModuleOk py.toSpelling (UpToBreak EntryOk) raw ∧ ModuleHasTexts py.toSpelling raw) ∧
            moduleName py.toSpelling raw ∉ done.map ExtensionModuleSpec.name) ∧
      ∃ new, specs = done ++ new ∧
        List.Forall₂ (ListsModule py.toSpelling version "isolated") raws new := by
  induction raws generalizing done with
  | nil =>
      constructor
      · intro h
        obtain rfl := Except.ok.inj h
        exact ⟨⟨by simp, by simp⟩, [], by simp, .nil⟩
      · rintro ⟨-, new, rfl, hall⟩
        cases hall
        rw [List.append_nil]
        rfl
  | cons raw raws ih =>
      obtain ⟨hraw, hraws⟩ := Bool.and_eq_true_iff.mp (show (_ && _) = true from hd)
      rw [modulesFrom, bind_ok_iff]
      simp only [moduleOf_ok_iff hraw, ih hraws]
      constructor
      · rintro ⟨spec, ⟨hnew, hok, hlists⟩, ⟨hnodup, hall⟩, new, rfl, hrest⟩
        have hname : spec.name = moduleName py.toSpelling raw := hlists.name_eq
        -- the later names differ from this one and from those done
        have hother : ∀ r ∈ raws, moduleName py.toSpelling r ∉ done.map ExtensionModuleSpec.name ∧
            moduleName py.toSpelling r ≠ moduleName py.toSpelling raw := by
          intro r hr
          have := (hall r hr).2
          rw [List.map_append, List.mem_append, not_or] at this
          exact ⟨this.1, fun e => this.2 (by simp [e, hname])⟩
        refine ⟨⟨?_, ?_⟩, spec :: new, by simp, .cons hlists hrest⟩
        · rw [List.map_cons, List.nodup_cons]
          refine ⟨fun hmem => ?_, hnodup⟩
          obtain ⟨r, hr, heq⟩ := List.mem_map.mp hmem
          exact (hother r hr).2 heq
        · intro r hr
          rcases List.mem_cons.mp hr with rfl | hr
          · exact ⟨hok, hnew⟩
          · exact ⟨(hall r hr).1, (hother r hr).1⟩
      · rintro ⟨⟨hnodup, hall⟩, new, rfl, hlists⟩
        obtain ⟨spec, new', hspec, hrest, rfl⟩ := List.forall₂_cons_left_iff.mp hlists
        have hname : spec.name = moduleName py.toSpelling raw := hspec.name_eq
        rw [List.map_cons, List.nodup_cons] at hnodup
        obtain ⟨hok, hnew⟩ := hall raw List.mem_cons_self
        refine ⟨spec, ⟨hnew, hok, hspec⟩, ⟨hnodup.2, fun r hr => ?_⟩, new', by simp, hrest⟩
        obtain ⟨hrok, hrnew⟩ := hall r (List.mem_cons_of_mem _ hr)
        refine ⟨hrok, fun hmem => ?_⟩
        rw [List.map_append, List.mem_append] at hmem
        rcases hmem with hmem | hmem
        · exact hrnew hmem
        · refine hnodup.1 (List.mem_map.mpr ⟨r, hr, ?_⟩)
          rw [← hname]
          exact List.mem_singleton.mp hmem

/-- The `isolation` field, if it is there, spells the one word. -/
theorem isolation_iff {header : List (String × Toml)} (hd : Toml.spelledFields header = true) :
    py.fieldText header "isolation" "isolated" = "isolated" ↔
      header.lookup "isolation" = none ∨ header.lookup "isolation" = some (.str "isolated") := by
  rw [Spelling.fieldText]
  cases hlookup : header.lookup "isolation" with
  | none => simp
  | some v =>
      constructor
      · intro h
        exact Or.inr (congrArg some (str_of_isolated (spelled_of_lookup hd hlookup) h))
      · rintro (h | h)
        · cases h
        · rw [Option.some.inj h]
          rfl

theorem modulesOf_ok_iff {isolation : String} {requirements : List String}
    {header data : List (String × Toml)} (hd : Toml.spelledFields data = true)
    {m : ExtensionManifest} :
    modulesOf py.toSpelling ext version isolation requirements header data = .ok m ↔
      ∃ raws, data.lookup "modules" = some (.arr raws) ∧ raws ≠ [] ∧
        (raws.map (moduleName py.toSpelling)).Nodup ∧
        (∀ raw ∈ raws,
          ModuleOk py.toSpelling (UpToBreak EntryOk) raw ∧ ModuleHasTexts py.toSpelling raw) ∧
        py.SpellsField header "description" ∧
        ∃ specs, List.Forall₂ (ListsModule py.toSpelling version "isolated") raws specs ∧
          m = ⟨ext, version, py.fieldText header "description" "", isolation, requirements,
            specs⟩ := by
  unfold modulesOf
  constructor
  · intro h
    split at h
    · rename_i raw rest hmodules
      obtain ⟨modules, hloop, h⟩ := bind_ok_iff.mp h
      obtain ⟨_, hget, h⟩ := bind_ok_iff.mp h
      obtain ⟨hdescription, rfl⟩ := Spelling.field_ok_iff.mp hget
      obtain ⟨⟨hnodup, hall⟩, new, rfl, hlists⟩ :=
        (modulesFrom_ok_iff (spelled_of_lookup hd hmodules)).mp hloop
      exact ⟨_, hmodules, List.cons_ne_nil _ _, hnodup, fun r hr => (hall r hr).1, hdescription,
        _, hlists, (Except.ok.inj h).symm⟩
    · cases h
  · rintro ⟨raws, hmodules, hne, hnodup, hall, hdescription, specs, hlists, rfl⟩
    obtain ⟨raw, rest, rfl⟩ := List.exists_cons_of_ne_nil hne
    rw [hmodules]
    refine bind_ok_iff.mpr ⟨specs, ?_, ?_⟩
    · exact (modulesFrom_ok_iff (spelled_of_lookup hd hmodules)).mpr
        ⟨⟨hnodup, fun r hr => ⟨hall r hr, by simp⟩⟩, specs, by simp, hlists⟩
    · exact bind_ok_iff.mpr ⟨_, Spelling.field_ok_iff.mpr ⟨hdescription, rfl⟩, rfl⟩

/-- **What is accepted** is the format up to a line break, where every text can be
had, and what is returned is what the document declares. -/
theorem manifestOf_ok_iff (doc : TomlDocument) {m : ExtensionManifest} :
    manifestOf py.toSpelling doc.fields = .ok m ↔
      (FormatWith py.toSpelling (UpToBreak NameOk) (UpToBreak EntryOk) doc.fields ∧
        HasTexts py.toSpelling doc.fields) ∧ Lists py.toSpelling doc.fields m := by
  unfold manifestOf
  constructor
  · intro h
    split at h
    · rename_i header hheader
      have hd : Toml.spelledFields header = true := spelled_of_lookup doc.spelled hheader
      obtain ⟨_, hget, h⟩ := bind_ok_iff.mp h
      obtain ⟨htname, rfl⟩ := Spelling.field_ok_iff.mp hget
      obtain ⟨_, hget, h⟩ := bind_ok_iff.mp h
      obtain ⟨htversion, rfl⟩ := Spelling.field_ok_iff.mp hget
      split_ifs at h with hname hversion
      obtain ⟨_, hget, h⟩ := bind_ok_iff.mp h
      obtain ⟨htisolation, rfl⟩ := Spelling.field_ok_iff.mp hget
      split_ifs at h with hisolation
      obtain ⟨requirements, hreq, h⟩ := bind_ok_iff.mp h
      obtain ⟨raws, hmodules, hne, hnodup, hall, hdescription, specs, hlists, rfl⟩ :=
        (modulesOf_ok_iff doc.spelled).mp h
      have hreq := requirementsOf_ok_iff.mp hreq
      refine ⟨⟨⟨⟨header, hheader, matchesName_iff.mp (by simpa using hname), hversion,
        (isolation_iff hd).mp (not_not.mp hisolation), hreq.imp And.left fun h => ⟨_, h⟩⟩, raws, hmodules, hne,
          hnodup, fun r hr => (hall r hr).1⟩, ?_, ?_⟩, ⟨header, hheader, rfl, rfl, rfl, rfl, hreq⟩,
            raws, hmodules, ?_⟩
      · intro header' hheader'
        obtain rfl := Toml.table.inj (Option.some.inj (hheader.symm.trans hheader'))
        exact ⟨htname, htversion, htisolation, hdescription⟩
      · intro raws' hmodules' r hr
        obtain rfl := Toml.arr.inj (Option.some.inj (hmodules.symm.trans hmodules'))
        exact (hall r hr).2
      · rw [not_not.mp hisolation]
        exact hlists
    · cases h
  · rintro ⟨⟨⟨⟨header, hheader, hok⟩, raws, hmodules, hne, hnodup, hall⟩, htheader, htmodules⟩,
      ⟨header', hheader', hname, hversion, hdescription, hisolation, hreq⟩, raws', hmodules',
        hlists⟩
    obtain rfl := Toml.table.inj (Option.some.inj (hheader.symm.trans hheader'))
    obtain rfl := Toml.arr.inj (Option.some.inj (hmodules.symm.trans hmodules'))
    have hd : Toml.spelledFields header = true := spelled_of_lookup doc.spelled hheader
    -- the default is the only isolation accepted
    have hisolated : py.fieldText header "isolation" "isolated" = "isolated" :=
      (isolation_iff hd).mpr hok.isolation
    obtain ⟨htname, htversion, htisolation, htdescription⟩ := htheader header hheader
    rw [hheader]
    refine bind_ok_iff.mpr ⟨_, Spelling.field_ok_iff.mpr ⟨htname, rfl⟩, ?_⟩
    refine bind_ok_iff.mpr ⟨_, Spelling.field_ok_iff.mpr ⟨htversion, rfl⟩, ?_⟩
    rw [if_neg (by simpa using matchesName_iff.mpr hok.name), if_neg hok.version]
    refine bind_ok_iff.mpr ⟨_, Spelling.field_ok_iff.mpr ⟨htisolation, rfl⟩, ?_⟩
    rw [if_neg (not_not.mpr hisolated)]
    refine bind_ok_iff.mpr ⟨m.requirements, requirementsOf_ok_iff.mpr hreq, ?_⟩
    refine (modulesOf_ok_iff doc.spelled).mpr ⟨raws, hmodules, hne, hnodup,
      fun r hr => ⟨hall r hr, htmodules raws hmodules r hr⟩, htdescription, m.modules, ?_, ?_⟩
    · rw [← hversion, ← hisolated, ← hisolation]
      exact hlists
    · rw [← hname, ← hversion, ← hdescription, ← hisolation]

end Accept

/-! ### The parser and the format -/

/-- A text one of the two patterns is matched against. -/
def Checked (py : Spelling) (data : List (String × Toml)) (text : String) : Prop :=
  (∃ header, data.lookup "extension" = some (.table header) ∧ text = py.fieldText header "name" "") ∨
    ∃ raws fields, data.lookup "modules" = some (.arr raws) ∧ .table fields ∈ raws ∧
      text = py.fieldText fields "entry" ""

/-- In order but for a line break at the end of a checked text, every text of it
to be had. -/
def SlipsThrough (py : Spelling) (data : List (String × Toml)) : Prop :=
  FormatWith py (UpToBreak NameOk) (UpToBreak EntryOk) data ∧ HasTexts py data ∧
    ∃ text, Checked py data text ∧ text.toList.getLast? = some '\n'

/-- In order, but `str` of some value raises. -/
def LacksText (py : Spelling) (data : List (String × Toml)) : Prop :=
  WellFormedManifest py data ∧ ¬ HasTexts py data

/-- The parser accepts the document if it is well formed and not else, and
returns what it declares. -/
structure AcceptsExactly (py : Spelling) (doc : TomlDocument) (path : String) : Prop where
  accepts : (∃ m, parseExtensionManifest py (doc.source path) = .ok m) ↔
    WellFormedManifest py doc.fields
  lists : ∀ m, parseExtensionManifest py (doc.source path) = .ok m → Lists py doc.fields m

section Exact

variable {py : LawfulSpelling}

theorem UpToBreak.strict {P : Text → Prop} {t : Text} (h : UpToBreak P t)
    (hlast : t.getLast? ≠ some '\n') : P t := by
  rcases h with h | ⟨u, -, rfl⟩
  · exact h
  · exact absurd (by simp) hlast

theorem FormatWith.loose {data : List (String × Toml)}
    (h : FormatWith py.toSpelling NameOk EntryOk data) :
    FormatWith py.toSpelling (UpToBreak NameOk) (UpToBreak EntryOk) data := by
  obtain ⟨⟨header, hheader, hok⟩, raws, hmodules, hne, hnodup, hall⟩ := h
  refine ⟨⟨header, hheader, { hok with name := Or.inl hok.name }⟩, raws, hmodules, hne, hnodup, ?_⟩
  intro raw hraw
  obtain ⟨fields, hobj, hname, ⟨s, hs, hentry⟩, hports⟩ := hall raw hraw
  exact ⟨fields, hobj, hname, ⟨s, hs, Or.inl hentry⟩, hports⟩

/-- Without a line break at an end the loose format is the format. -/
theorem FormatWith.strict {data : List (String × Toml)}
    (h : FormatWith py.toSpelling (UpToBreak NameOk) (UpToBreak EntryOk) data)
    (hno : ∀ text, Checked py.toSpelling data text → text.toList.getLast? ≠ some '\n') :
    FormatWith py.toSpelling NameOk EntryOk data := by
  obtain ⟨⟨header, hheader, hok⟩, raws, hmodules, hne, hnodup, hall⟩ := h
  refine ⟨⟨header, hheader, { hok with
    name := hok.name.strict (hno _ (Or.inl ⟨header, hheader, rfl⟩)) }⟩, raws, hmodules, hne, hnodup,
      ?_⟩
  intro raw hraw
  obtain ⟨fields, rfl, hname, ⟨s, hs, hentry⟩, hports⟩ := hall raw hraw
  refine ⟨fields, rfl, hname, ⟨s, hs, hentry.strict (hno s (Or.inr ?_))⟩, hports⟩
  exact ⟨raws, fields, hmodules, hraw, by rw [Spelling.fieldText, hs]; rfl⟩

/-- In the format no checked text ends in a line break. -/
theorem FormatWith.no_break {data : List (String × Toml)}
    (h : FormatWith py.toSpelling NameOk EntryOk data) {text : String}
    (hc : Checked py.toSpelling data text) : text.toList.getLast? ≠ some '\n' := by
  obtain ⟨⟨header, hheader, hok⟩, raws, hmodules, -, -, hall⟩ := h
  rcases hc with ⟨header', hheader', rfl⟩ | ⟨raws', fields, hmodules', hraw, rfl⟩
  · obtain rfl := Toml.table.inj (Option.some.inj (hheader.symm.trans hheader'))
    exact fun hlast => hok.name.no_break (List.mem_of_getLast? hlast)
  · obtain rfl := Toml.arr.inj (Option.some.inj (hmodules.symm.trans hmodules'))
    obtain ⟨fields', hobj, -, ⟨s, hs, hentry⟩, -⟩ := hall _ hraw
    obtain rfl := Toml.table.inj hobj
    rw [show py.fieldText fields "entry" "" = s by rw [Spelling.fieldText, hs]; rfl]
    exact fun hlast => hentry.no_break (List.mem_of_getLast? hlast)

theorem parse_ok_iff_loose {doc : TomlDocument} {path : String} :
    (∃ m, parseExtensionManifest py.toSpelling (doc.source path) = .ok m) ↔
      FormatWith py.toSpelling (UpToBreak NameOk) (UpToBreak EntryOk) doc.fields ∧
        HasTexts py.toSpelling doc.fields := by
  constructor
  · rintro ⟨m, hm⟩
    exact ((manifestOf_ok_iff doc).mp hm).1
  · intro h
    obtain ⟨m, hm⟩ := exists_lists h.1
    exact ⟨m, (manifestOf_ok_iff doc).mpr ⟨h, hm⟩⟩

end Exact

/-- **The parser accepts exactly the format, but for a line break** at the end
of the name or of an entry, and but for a value that `str` cannot spell. -/
theorem acceptsExactly_iff (py : LawfulSpelling) (doc : TomlDocument) (path : String) :
    AcceptsExactly py.toSpelling doc path ↔
      ¬ SlipsThrough py.toSpelling doc.fields ∧ ¬ LacksText py.toSpelling doc.fields := by
  constructor
  · intro h
    constructor
    · rintro ⟨hloose, htexts, text, hchecked, hlast⟩
      exact (h.accepts.mp (parse_ok_iff_loose.mpr ⟨hloose, htexts⟩)).no_break hchecked hlast
    · rintro ⟨hok, hlacks⟩
      exact hlacks (parse_ok_iff_loose.mp (h.accepts.mpr hok)).2
  · rintro ⟨hslips, hlacks⟩
    refine ⟨parse_ok_iff_loose.trans ⟨?_, fun hok => ⟨hok.loose, ?_⟩⟩, fun m hm => ?_⟩
    · rintro ⟨hloose, htexts⟩
      exact hloose.strict fun text hchecked hlast =>
        hslips ⟨hloose, htexts, text, hchecked, hlast⟩
    · by_contra htexts
      exact hlacks ⟨hok, htexts⟩
    · exact ((manifestOf_ok_iff doc).mp hm).2

/-- Lists and tables as their brackets. -/
def bracketSpelling : LawfulSpelling where
  repr _ := ""
  compound v := match v with
    | .arr _ => "[]"
    | _ => "\x7b\x7d"
  refuses _ := none
  compound_arr _ := by simp
  compound_table _ := by simp

/-- A manifest in order but for the name, which ends in a line break. -/
def brokenName : TomlDocument where
  fields := [("extension", .table [("name", .str "shout\n"), ("version", .str "1")]),
    ("modules", .arr [.table [("name", .str "text.shout"), ("entry", .str "shout:run"),
      ("inputs", .arr [.table [("name", .str "text"), ("type", .str "text")]]),
      ("outputs", .arr [.table [("name", .str "text"), ("type", .str "text")]])]])]
  spelled := by decide

theorem acceptsExactly_fails : ¬ ∀ (py : LawfulSpelling) (doc : TomlDocument) (path : String),
    AcceptsExactly py.toSpelling doc path := by
  intro h
  have hok : WellFormedManifest bracketSpelling.toSpelling brokenName.fields :=
    (h bracketSpelling brokenName "shout").accepts.mp ⟨_, rfl⟩
  exact hok.no_break (Or.inl ⟨_, rfl, rfl⟩) (by decide)

end Formshift
