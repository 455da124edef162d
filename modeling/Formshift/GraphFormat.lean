/-
Formshift/GraphFormat.lean

The wire format of graphs and its parser (`parse_graph`, `graph.py`).

The parser is five loops of partial operations in one `try` block.  An
exception is a class and its argument; what the block does not catch would come
out as it is, so that it never does is a theorem (`parseGraph_total`).  The
format itself is `Describes`, a relation between a JSON value and a graph that
speaks of fields by lookup alone: `parseGraph` returns the graph a value
describes and fails on a value that describes none
(`parseGraph_eq_ok_iff`).  Nothing else in a value is looked at
(`parseGraph_congr`).
-/
import Formshift.Graph
import Formshift.Lib.Raised

namespace Formshift

open Py

/-- A value that came out of `json.loads`: no dict in it has a key twice. -/
structure JsonValue where
  value : Json
  distinct : value.distinct = true

/-! ### The parser -/

/-- What comes out of `parse_graph` when it does not return. -/
inductive ParseError where
  | graphValidation (errors : List Str)
  | other (e : Raised)
  deriving DecidableEq

/-- `data.get(name)`, if `data` has a `get`. -/
def getField (data : Json) (name : String) : Except Raised (Option Json) :=
  match data with
  | .obj fields => .ok (fields.lookup (.text name))
  | v => .error ⟨.attributeError, "'" ++ v.typeName ++ "' object has no attribute 'get'"⟩

/-- `dict(params)`; the fields of a JSON value are distinct. -/
def copyOf (fields : List (Str × Json)) : JsonObject :=
  if h : (Json.obj fields).distinct = true then ⟨fields, h⟩ else .empty

section Parse

variable (repr : Str → String)

/-- `_array`. -/
def arrayField (data : Json) (name : String) : Except Raised (List Json) := do
  match ← getField data name with
  | none => .ok []
  | some (.arr items) => .ok items
  | some _ => .error ⟨.typeError, repr name ++ " must be an array"⟩

/-- `_object`. -/
def objectOf (value : Json) (location : String) : Except Raised (List (Str × Json)) :=
  match value with
  | .obj fields => .ok fields
  | _ => .error ⟨.typeError, location ++ " must be an object"⟩

/-- `_string`. -/
def stringField (fields : List (Str × Json)) (name location : String) : Except Raised Str :=
  match fields.lookup (.text name) with
  | none => .error ⟨.keyError, name⟩
  | some (.str s) => .ok s
  | some _ => .error ⟨.typeError, location ++ "." ++ name ++ " must be a string"⟩

/-- `f"{name}[{index}]"`. -/
def entryLocation (name : String) (index : Nat) : String := name ++ "[" ++ Nat.repr index ++ "]"

/-- A node's `params`, or none. -/
def paramsOf (node : List (Str × Json)) (location : String) : Except Raised JsonObject :=
  match node.lookup (.text "params") with
  | none => .ok .empty
  | some (.obj params) => .ok (copyOf params)
  | some _ => .error ⟨.typeError, location ++ ".params must be an object"⟩

def nodeOf (value : Json) (index : Nat) : Except Raised Node := do
  let location := entryLocation "nodes" index
  let node ← objectOf value location
  let params ← paramsOf node location
  let id ← stringField node "id" location
  let module ← stringField node "module" location
  .ok { id := id, module := module, params := params }

def edgeOf (value : Json) (index : Nat) : Except Raised Edge := do
  let location := entryLocation "edges" index
  let edge ← objectOf value location
  let fromNode ← stringField edge "from_node" location
  let fromPort ← stringField edge "from_port" location
  let toNode ← stringField edge "to_node" location
  let toPort ← stringField edge "to_port" location
  .ok { fromNode := fromNode, fromPort := fromPort, toNode := toNode, toPort := toPort }

def bindingOf (value : Json) (index : Nat) : Except Raised Binding := do
  let location := entryLocation "bindings" index
  let binding ← objectOf value location
  let payload ← stringField binding "payload" location
  let node ← stringField binding "node" location
  let port ← stringField binding "port" location
  .ok { payload := payload, node := node, port := port }

/-- An output's `group`, if it has one. -/
def groupOf (output : List (Str × Json)) (location : String) : Except Raised (Option Str) :=
  match output.lookup (.text "group") with
  | none | some .null => .ok none
  | some (.str group) => .ok (some group)
  | some _ => .error ⟨.typeError, location ++ ".group must be a string or null"⟩

def outputRefOf (value : Json) (index : Nat) : Except Raised OutputRef := do
  let location := entryLocation "outputs" index
  let output ← objectOf value location
  let group ← groupOf output location
  let node ← stringField output "node" location
  let port ← stringField output "port" location
  .ok { node := node, port := port, group := group }

/-- A group's `order`, or the usual one. -/
def orderOf (group : List (Str × Json)) (location : String) : Except Raised Str :=
  match group.lookup (.text "order") with
  | none => .ok "completion"
  | some (.str order) => .ok order
  | some _ => .error ⟨.typeError, location ++ ".order must be a string"⟩

def outputGroupOf (value : Json) (index : Nat) : Except Raised OutputGroup := do
  let location := entryLocation "groups" index
  let group ← objectOf value location
  let order ← orderOf group location
  let id ← stringField group "id" location
  .ok { id := id, order := order }

/-- The loop over one array of the graph. -/
def entriesOf {α : Type} (entryOf : Json → Nat → Except Raised α) (data : Json) (name : String) :
    Except Raised (List α) := do
  let items ← arrayField repr data name
  items.zipIdx.mapM fun item => entryOf item.1 item.2

/-- The `try` block. -/
def decodeGraph (data : Json) : Except Raised Graph := do
  let nodes ← entriesOf repr nodeOf data "nodes"
  let edges ← entriesOf repr edgeOf data "edges"
  let bindings ← entriesOf repr bindingOf data "bindings"
  let outputs ← entriesOf repr outputRefOf data "outputs"
  let groups ← entriesOf repr outputGroupOf data "groups"
  .ok { nodes := nodes, edges := edges, bindings := bindings, outputs := outputs, groups := groups }

/-- The classes of the `except` clause. -/
def malformed : List ExceptionClass := [.attributeError, .keyError, .typeError, .valueError]

/-- `parse_graph`. -/
def parseGraph (data : Json) : Except ParseError Graph :=
  match decodeGraph repr data with
  | .ok graph => .ok graph
  | .error e =>
    if e.isA malformed then .error (.graphValidation ["malformed graph: " ++ e.text repr])
    else .error (.other e)

end Parse

/-! ### The format -/

/-- The field is there and is this string. -/
def HasString (fields : List (Str × Json)) (name : String) (value : Str) : Prop :=
  fields.lookup (.text name) = some (.str value)

def DescribesNode (value : Json) (n : Node) : Prop :=
  ∃ fields, value = .obj fields ∧ HasString fields "id" n.id ∧ HasString fields "module" n.module ∧
    (fields.lookup (.text "params") = none ∧ n.params = .empty ∨
      fields.lookup (.text "params") = some (.obj n.params.fields))

def DescribesEdge (value : Json) (e : Edge) : Prop :=
  ∃ fields, value = .obj fields ∧ HasString fields "from_node" e.fromNode ∧
    HasString fields "from_port" e.fromPort ∧ HasString fields "to_node" e.toNode ∧
    HasString fields "to_port" e.toPort

def DescribesBinding (value : Json) (b : Binding) : Prop :=
  ∃ fields, value = .obj fields ∧ HasString fields "payload" b.payload ∧
    HasString fields "node" b.node ∧ HasString fields "port" b.port

def DescribesOutput (value : Json) (o : OutputRef) : Prop :=
  ∃ fields, value = .obj fields ∧ HasString fields "node" o.node ∧ HasString fields "port" o.port ∧
    ((fields.lookup (.text "group") = none ∨ fields.lookup (.text "group") = some .null) ∧
        o.group = none ∨
      ∃ group, HasString fields "group" group ∧ o.group = some group)

def DescribesGroup (value : Json) (g : OutputGroup) : Prop :=
  ∃ fields, value = .obj fields ∧ HasString fields "id" g.id ∧
    (fields.lookup (.text "order") = none ∧ g.order = "completion" ∨
      HasString fields "order" g.order)

/-- An absent field describes no entries, an array its items one by one. -/
def DescribesAll {α : Type} (describes : Json → α → Prop) (field : Option Json) (xs : List α) :
    Prop :=
  field = none ∧ xs = [] ∨ ∃ items, field = some (.arr items) ∧ List.Forall₂ describes items xs

/-- **The wire format**: what graph a JSON value spells, if any. -/
def Describes (value : Json) (g : Graph) : Prop :=
  ∃ fields, value = .obj fields ∧
    DescribesAll DescribesNode (fields.lookup (.text "nodes")) g.nodes ∧
    DescribesAll DescribesEdge (fields.lookup (.text "edges")) g.edges ∧
    DescribesAll DescribesBinding (fields.lookup (.text "bindings")) g.bindings ∧
    DescribesAll DescribesOutput (fields.lookup (.text "outputs")) g.outputs ∧
    DescribesAll DescribesGroup (fields.lookup (.text "groups")) g.groups

/-- An object with these string fields. -/
def HasStrings (names : List String) (value : Json) : Prop :=
  ∃ fields, value = .obj fields ∧ ∀ name ∈ names, ∃ s, HasString fields name s

/-- The field, if the value is an object that has it, is of this kind. -/
def FieldIf (name : String) (kind : Json → Prop) (value : Json) : Prop :=
  ∀ fields v, value = .obj fields → fields.lookup (.text name) = some v → kind v

/-- Absent, or an array of such entries. -/
def ArrayOf (entry : Json → Prop) (field : Option Json) : Prop :=
  ∀ v, field = some v → ∃ items, v = .arr items ∧ ∀ item ∈ items, entry item

/-- The values that are in the format, with no word on what they describe. -/
def InFormat (value : Json) : Prop :=
  ∃ fields, value = .obj fields ∧
    ArrayOf (fun v => HasStrings ["id", "module"] v ∧
      FieldIf "params" (fun p => ∃ params, p = .obj params) v) (fields.lookup (.text "nodes")) ∧
    ArrayOf (HasStrings ["from_node", "from_port", "to_node", "to_port"])
      (fields.lookup (.text "edges")) ∧
    ArrayOf (HasStrings ["payload", "node", "port"]) (fields.lookup (.text "bindings")) ∧
    ArrayOf (fun v => HasStrings ["node", "port"] v ∧
      FieldIf "group" (fun g => g = .null ∨ ∃ s, g = .str s) v) (fields.lookup (.text "outputs")) ∧
    ArrayOf (fun v => HasStrings ["id"] v ∧ FieldIf "order" (fun o => ∃ s, o = .str s) v)
      (fields.lookup (.text "groups"))

/-! ### Values that differ outside the format -/

/-- Equal, or objects that agree on these fields. -/
def AgreeOn (names : List String) (a b : Json) : Prop :=
  a = b ∨ ∃ fs gs, a = .obj fs ∧ b = .obj gs ∧
    ∀ name ∈ names, fs.lookup (.text name) = gs.lookup (.text name)

/-- Equal, or arrays whose items agree on these fields one by one. -/
def ItemsAgreeOn (names : List String) (a b : Option Json) : Prop :=
  a = b ∨ ∃ xs ys, a = some (.arr xs) ∧ b = some (.arr ys) ∧ List.Forall₂ (AgreeOn names) xs ys

/-- The arrays of a graph, and the fields of their entries. -/
def graphFields : List (String × List String) :=
  [("nodes", ["id", "module", "params"]),
    ("edges", ["from_node", "from_port", "to_node", "to_port"]),
    ("bindings", ["payload", "node", "port"]),
    ("outputs", ["node", "port", "group"]),
    ("groups", ["id", "order"])]

/-- The two values differ in fields the format does not have, if at all. -/
def AgreeInFormat (a b : Json) : Prop :=
  a = b ∨ ∃ fs gs, a = .obj fs ∧ b = .obj gs ∧
    ∀ field ∈ graphFields,
      ItemsAgreeOn field.2 (fs.lookup (.text field.1)) (gs.lookup (.text field.1))

/-- The step returns what the entry describes, wherever the entry stands. -/
def Decodes {α : Type} (entryOf : Json → Nat → Except Raised α) (describes : Json → α → Prop) :
    Prop :=
  ∀ v i x, v.distinct = true → (entryOf v i = .ok x ↔ describes v x)

/-! ### What the steps return -/

section Steps

variable {repr : Str → String}

theorem objectOf_ok_iff {value : Json} {location : String} {fields : List (Str × Json)} :
    objectOf value location = .ok fields ↔ value = .obj fields := by
  cases value <;> simp [objectOf]

theorem stringField_ok_iff {fields : List (Str × Json)} {name location : String} {s : Str} :
    stringField fields name location = .ok s ↔ HasString fields name s := by
  unfold stringField HasString
  split
  · rename_i h
    simp [h]
  · rename_i h
    simp [h]
  · rename_i hne h
    simp only [reduceCtorEq, false_iff, h, Option.some.injEq]
    exact hne s

theorem arrayField_obj {fields : List (Str × Json)} {name : String} {items : List Json} :
    arrayField repr (.obj fields) name = .ok items ↔
      fields.lookup (.text name) = none ∧ items = [] ∨
        fields.lookup (.text name) = some (.arr items) := by
  unfold arrayField getField
  simp only [bind, Except.bind]
  split
  · rename_i h
    simp [h, eq_comm]
  · rename_i h
    simp [h]
  · rename_i hne h
    simp only [reduceCtorEq, h, false_and, Option.some.injEq, false_or, false_iff]
    exact hne items

theorem arrayField_ok {value : Json} {name : String} {items : List Json}
    (h : arrayField repr value name = .ok items) : ∃ fields, value = .obj fields := by
  cases value with
  | obj fields => exact ⟨fields, rfl⟩
  | null | bool | int | float | str | arr => simp [arrayField, getField, bind, Except.bind] at h

theorem copyOf_fields {fields : List (Str × Json)} (h : (Json.obj fields).distinct = true) :
    (copyOf fields).fields = fields := by
  rw [copyOf, dif_pos h]

theorem mem_of_lookup {fields : List (Str × Json)} {name : String} {v : Json}
    (h : fields.lookup (.text name) = some v) : (.text name, v) ∈ fields := by
  obtain ⟨l, r, rfl, -⟩ := List.lookup_eq_some_iff.mp h
  simp

theorem distinct_of_lookup {fields : List (Str × Json)} {name : String} {v : Json}
    (h : (Json.obj fields).distinct = true) (hv : fields.lookup (.text name) = some v) :
    v.distinct = true := by
  obtain ⟨-, hfields⟩ := Bool.and_eq_true_iff.mp (show (_ && _) = true from h)
  exact Json.distinctFields_mem hfields (mem_of_lookup hv)

theorem distinct_of_mem {items : List Json} (h : (Json.arr items).distinct = true) {v : Json}
    (hv : v ∈ items) : v.distinct = true := by
  change Json.distinctItems items = true at h
  induction items with
  | nil => cases hv
  | cons x xs ih =>
      obtain ⟨hx, hxs⟩ := Bool.and_eq_true_iff.mp (show (_ && _) = true from h)
      rcases List.mem_cons.mp hv with rfl | hv
      · exact hx
      · exact ih hv hxs

theorem paramsOf_ok_iff {fields : List (Str × Json)}
    (hd : (Json.obj fields).distinct = true) {location : String} {params : JsonObject} :
    paramsOf fields location = .ok params ↔
      fields.lookup (.text "params") = none ∧ params = .empty ∨
        fields.lookup (.text "params") = some (.obj params.fields) := by
  unfold paramsOf
  split
  · rename_i hnone
    simp [hnone, eq_comm]
  -- an object, of which a copy is made
  · rename_i ps hsome
    rw [hsome]
    constructor
    · intro h
      obtain rfl := Except.ok.inj h
      rw [copyOf_fields (distinct_of_lookup hd hsome)]
      exact Or.inr rfl
    · rintro (⟨hnone, -⟩ | hfields)
      · cases hnone
      · obtain rfl : ps = params.fields := Json.obj.inj (Option.some.inj hfields)
        show Except.ok (copyOf params.fields) = _
        rw [copyOf, dif_pos params.distinct]
  · rename_i hne hsome
    refine iff_of_false (by simp) ?_
    rw [hsome]
    rintro (⟨hnone, -⟩ | hfields)
    · cases hnone
    · exact hne _ (Option.some.inj hfields)

theorem groupOf_ok_iff {fields : List (Str × Json)} {location : String}
    {group : Option Str} : groupOf fields location = .ok group ↔
      (fields.lookup (.text "group") = none ∨ fields.lookup (.text "group") = some .null) ∧
          group = none ∨
        ∃ s, HasString fields "group" s ∧ group = some s := by
  unfold groupOf HasString
  split
  · rename_i hnone
    simp [hnone, eq_comm]
  · rename_i hnull
    simp [hnull, eq_comm]
  · rename_i s hsome
    simp [hsome, eq_comm]
  · rename_i hnull hne hsome
    refine iff_of_false (by simp) ?_
    rw [hsome]
    rintro (⟨hnone | hnone, -⟩ | ⟨s, hs, -⟩)
    · cases hnone
    · exact hnull (Option.some.inj hnone)
    · exact hne s (Option.some.inj hs)

theorem orderOf_ok_iff {fields : List (Str × Json)} {location : String} {order : Str} :
    orderOf fields location = .ok order ↔
      fields.lookup (.text "order") = none ∧ order = "completion" ∨
        HasString fields "order" order := by
  unfold orderOf HasString
  split
  · rename_i hnone
    simp [hnone, eq_comm]
  · rename_i s hsome
    simp [hsome]
  · rename_i hne hsome
    refine iff_of_false (by simp) ?_
    rw [hsome]
    rintro (⟨hnone, -⟩ | hs)
    · cases hnone
    · exact hne order (Option.some.inj hs)

theorem decodes_node : Decodes nodeOf DescribesNode := by
  intro value index n hd
  simp only [nodeOf, bind_ok_iff, objectOf_ok_iff, stringField_ok_iff, DescribesNode]
  constructor
  · rintro ⟨fields, rfl, params, hparams, id, hid, module, hmodule, h⟩
    obtain rfl := Except.ok.inj h
    exact ⟨fields, rfl, hid, hmodule, (paramsOf_ok_iff hd).mp hparams⟩
  · rintro ⟨fields, rfl, hid, hmodule, hparams⟩
    exact ⟨fields, rfl, _, (paramsOf_ok_iff hd).mpr hparams, _, hid, _, hmodule, rfl⟩

theorem decodes_edge : Decodes edgeOf DescribesEdge := by
  intro value index e _
  simp only [edgeOf, bind_ok_iff, objectOf_ok_iff, stringField_ok_iff, DescribesEdge]
  constructor
  · rintro ⟨fields, rfl, fromNode, hfromNode, fromPort, hfromPort, toNode, htoNode, toPort,
      htoPort, h⟩
    obtain rfl := Except.ok.inj h
    exact ⟨fields, rfl, hfromNode, hfromPort, htoNode, htoPort⟩
  · rintro ⟨fields, rfl, hfromNode, hfromPort, htoNode, htoPort⟩
    exact ⟨fields, rfl, _, hfromNode, _, hfromPort, _, htoNode, _, htoPort, rfl⟩

theorem decodes_binding : Decodes bindingOf DescribesBinding := by
  intro value index b _
  simp only [bindingOf, bind_ok_iff, objectOf_ok_iff, stringField_ok_iff, DescribesBinding]
  constructor
  · rintro ⟨fields, rfl, payload, hpayload, node, hnode, port, hport, h⟩
    obtain rfl := Except.ok.inj h
    exact ⟨fields, rfl, hpayload, hnode, hport⟩
  · rintro ⟨fields, rfl, hpayload, hnode, hport⟩
    exact ⟨fields, rfl, _, hpayload, _, hnode, _, hport, rfl⟩

theorem decodes_output : Decodes outputRefOf DescribesOutput := by
  intro value index o _
  simp only [outputRefOf, bind_ok_iff, objectOf_ok_iff, stringField_ok_iff, groupOf_ok_iff,
    DescribesOutput]
  constructor
  · rintro ⟨fields, rfl, group, hgroup, node, hnode, port, hport, h⟩
    obtain rfl := Except.ok.inj h
    exact ⟨fields, rfl, hnode, hport, hgroup⟩
  · rintro ⟨fields, rfl, hnode, hport, hgroup⟩
    exact ⟨fields, rfl, _, hgroup, _, hnode, _, hport, rfl⟩

theorem decodes_group : Decodes outputGroupOf DescribesGroup := by
  intro value index g _
  simp only [outputGroupOf, bind_ok_iff, objectOf_ok_iff, stringField_ok_iff, orderOf_ok_iff,
    DescribesGroup]
  constructor
  · rintro ⟨fields, rfl, order, horder, id, hid, h⟩
    obtain rfl := Except.ok.inj h
    exact ⟨fields, rfl, hid, horder⟩
  · rintro ⟨fields, rfl, hid, horder⟩
    exact ⟨fields, rfl, _, horder, _, hid, rfl⟩

/-! ### What the loops return -/

/-- A loop over the items with their indices sees the items. -/
theorem forall₂_zipIdx {α : Type} {R : Json → α → Prop} {items : List Json} {xs : List α}
    (start : Nat) : List.Forall₂ (fun item x => R item.1 x) (items.zipIdx start) xs ↔
      List.Forall₂ R items xs := by
  induction items generalizing xs start with
  | nil => simp
  | cons item items ih =>
      rw [List.zipIdx_cons, List.forall₂_cons_left_iff, List.forall₂_cons_left_iff]
      simp only [ih]

theorem forall₂_congr_mem {α β : Type} {R S : α → β → Prop} {xs : List α} {ys : List β}
    (h : ∀ x ∈ xs, ∀ y, R x y ↔ S x y) : List.Forall₂ R xs ys ↔ List.Forall₂ S xs ys := by
  induction xs generalizing ys with
  | nil => simp
  | cons x xs ih =>
      rw [List.forall₂_cons_left_iff, List.forall₂_cons_left_iff]
      simp only [h x List.mem_cons_self, ih fun z hz => h z (List.mem_cons_of_mem _ hz)]

section Loops

variable {α : Type} {entryOf : Json → Nat → Except Raised α} {describes : Json → α → Prop}

/-- The loop over an array returns what its items describe. -/
theorem loop_ok_iff {items : List Json} (hd : (Json.arr items).distinct = true)
    (hentry : Decodes entryOf describes) {xs : List α} :
    items.zipIdx.mapM (fun item => entryOf item.1 item.2) = .ok xs ↔
      List.Forall₂ describes items xs := by
  rw [mapM_ok_iff, ← forall₂_zipIdx 0]
  apply forall₂_congr_mem
  rintro ⟨v, i⟩ hmem x
  exact hentry v i x (distinct_of_mem hd (List.fst_mem_of_mem_zipIdx hmem))

theorem entriesOf_ok_iff {fields : List (Str × Json)} {name : String}
    (hd : (Json.obj fields).distinct = true)
    (hentry : Decodes entryOf describes) {xs : List α} :
    entriesOf repr entryOf (.obj fields) name = .ok xs ↔
      DescribesAll describes (fields.lookup (.text name)) xs := by
  rw [entriesOf, bind_ok_iff]
  simp only [arrayField_obj]
  constructor
  · rintro ⟨items, ⟨hnone, rfl⟩ | hsome, hloop⟩
    · exact Or.inl ⟨hnone, (Except.ok.inj hloop).symm⟩
    · exact Or.inr ⟨items, hsome, (loop_ok_iff (distinct_of_lookup hd hsome) hentry).mp hloop⟩
  · rintro (⟨hnone, rfl⟩ | ⟨items, hsome, hall⟩)
    · exact ⟨[], Or.inl ⟨hnone, rfl⟩, rfl⟩
    · exact ⟨items, Or.inr hsome, (loop_ok_iff (distinct_of_lookup hd hsome) hentry).mpr hall⟩

end Loops

theorem decodeGraph_ok_iff {value : Json} (hd : value.distinct = true) {g : Graph} :
    decodeGraph repr value = .ok g ↔ Describes value g := by
  constructor
  · intro h
    obtain ⟨nodes, hnodes, h⟩ := bind_ok_iff.mp h
    obtain ⟨edges, hedges, h⟩ := bind_ok_iff.mp h
    obtain ⟨bindings, hbindings, h⟩ := bind_ok_iff.mp h
    obtain ⟨outputs, houtputs, h⟩ := bind_ok_iff.mp h
    obtain ⟨groups, hgroups, h⟩ := bind_ok_iff.mp h
    obtain rfl := Except.ok.inj h
    obtain ⟨items, hitems, -⟩ := bind_ok_iff.mp hnodes
    obtain ⟨fields, rfl⟩ := arrayField_ok hitems
    exact ⟨fields, rfl, (entriesOf_ok_iff hd decodes_node).mp hnodes,
      (entriesOf_ok_iff hd decodes_edge).mp hedges,
      (entriesOf_ok_iff hd decodes_binding).mp hbindings,
      (entriesOf_ok_iff hd decodes_output).mp houtputs,
      (entriesOf_ok_iff hd decodes_group).mp hgroups⟩
  · rintro ⟨fields, rfl, hnodes, hedges, hbindings, houtputs, hgroups⟩
    refine bind_ok_iff.mpr ⟨_, (entriesOf_ok_iff hd decodes_node).mpr hnodes, ?_⟩
    refine bind_ok_iff.mpr ⟨_, (entriesOf_ok_iff hd decodes_edge).mpr hedges, ?_⟩
    refine bind_ok_iff.mpr ⟨_, (entriesOf_ok_iff hd decodes_binding).mpr hbindings, ?_⟩
    refine bind_ok_iff.mpr ⟨_, (entriesOf_ok_iff hd decodes_output).mpr houtputs, ?_⟩
    exact bind_ok_iff.mpr ⟨_, (entriesOf_ok_iff hd decodes_group).mpr hgroups, rfl⟩

/-- The parser returns the graph a value describes. -/
theorem parseGraph_ok_iff {value : Json} (hd : value.distinct = true) {g : Graph} :
    parseGraph repr value = .ok g ↔ Describes value g := by
  rw [← @decodeGraph_ok_iff repr _ hd, parseGraph]
  cases decodeGraph repr value with
  | ok graph => simp
  | error e =>
      dsimp only
      split_ifs <;> simp

/-! ### What the steps raise -/

theorem within_getField (value : Json) (name : String) :
    Within (Caught malformed) (getField value name) := by
  cases value with
  | obj fields => exact within_ok.mpr trivial
  | null | bool | int | float | str | arr => exact Within.raise (by simp [malformed])

theorem within_arrayField (value : Json) (name : String) :
    Within (Caught malformed) (arrayField repr value name) := by
  refine (within_getField value name).bind fun field => ?_
  split
  · exact within_ok.mpr trivial
  · exact within_ok.mpr trivial
  · exact Within.raise (by simp [malformed])

theorem within_objectOf (value : Json) (location : String) :
    Within (Caught malformed) (objectOf value location) := by
  cases value with
  | obj fields => exact within_ok.mpr trivial
  | null | bool | int | float | str | arr => exact Within.raise (by simp [malformed])

theorem within_stringField (fields : List (Str × Json)) (name location : String) :
    Within (Caught malformed) (stringField fields name location) := by
  unfold stringField
  split
  · exact Within.raise (by simp [malformed])
  · exact within_ok.mpr trivial
  · exact Within.raise (by simp [malformed])

theorem within_paramsOf (fields : List (Str × Json)) (location : String) :
    Within (Caught malformed) (paramsOf fields location) := by
  unfold paramsOf
  split
  · exact within_ok.mpr trivial
  · exact within_ok.mpr trivial
  · exact Within.raise (by simp [malformed])

theorem within_groupOf (fields : List (Str × Json)) (location : String) :
    Within (Caught malformed) (groupOf fields location) := by
  unfold groupOf
  split
  · exact within_ok.mpr trivial
  · exact within_ok.mpr trivial
  · exact within_ok.mpr trivial
  · exact Within.raise (by simp [malformed])

theorem within_orderOf (fields : List (Str × Json)) (location : String) :
    Within (Caught malformed) (orderOf fields location) := by
  unfold orderOf
  split
  · exact within_ok.mpr trivial
  · exact within_ok.mpr trivial
  · exact Within.raise (by simp [malformed])

theorem within_nodeOf (value : Json) (index : Nat) :
    Within (Caught malformed) (nodeOf value index) :=
  (within_objectOf _ _).bind fun _ => (within_paramsOf _ _).bind fun _ =>
    (within_stringField _ _ _).bind fun _ => (within_stringField _ _ _).bind fun _ =>
      within_ok.mpr trivial

theorem within_edgeOf (value : Json) (index : Nat) :
    Within (Caught malformed) (edgeOf value index) :=
  (within_objectOf _ _).bind fun _ => (within_stringField _ _ _).bind fun _ =>
    (within_stringField _ _ _).bind fun _ => (within_stringField _ _ _).bind fun _ =>
      (within_stringField _ _ _).bind fun _ => within_ok.mpr trivial

theorem within_bindingOf (value : Json) (index : Nat) :
    Within (Caught malformed) (bindingOf value index) :=
  (within_objectOf _ _).bind fun _ => (within_stringField _ _ _).bind fun _ =>
    (within_stringField _ _ _).bind fun _ => (within_stringField _ _ _).bind fun _ =>
      within_ok.mpr trivial

theorem within_outputRefOf (value : Json) (index : Nat) :
    Within (Caught malformed) (outputRefOf value index) :=
  (within_objectOf _ _).bind fun _ => (within_groupOf _ _).bind fun _ =>
    (within_stringField _ _ _).bind fun _ => (within_stringField _ _ _).bind fun _ =>
      within_ok.mpr trivial

theorem within_outputGroupOf (value : Json) (index : Nat) :
    Within (Caught malformed) (outputGroupOf value index) :=
  (within_objectOf _ _).bind fun _ => (within_orderOf _ _).bind fun _ =>
    (within_stringField _ _ _).bind fun _ => within_ok.mpr trivial

theorem within_entriesOf {α : Type} {entryOf : Json → Nat → Except Raised α}
    (h : ∀ v i, Within (Caught malformed) (entryOf v i)) (value : Json) (name : String) :
    Within (Caught malformed) (entriesOf repr entryOf value name) :=
  (within_arrayField value name).bind fun _ =>
    Within.mapM (fun item : Json × Nat => h item.1 item.2) _

/-- The `try` block raises nothing but what its clause names. -/
theorem within_decodeGraph (value : Json) : Within (Caught malformed) (decodeGraph repr value) :=
  (within_entriesOf within_nodeOf value _).bind fun _ =>
    (within_entriesOf within_edgeOf value _).bind fun _ =>
      (within_entriesOf within_bindingOf value _).bind fun _ =>
        (within_entriesOf within_outputRefOf value _).bind fun _ =>
          (within_entriesOf within_outputGroupOf value _).bind fun _ => within_ok.mpr trivial

theorem parseGraph_ne_other (value : Json) (e : Raised) :
    parseGraph repr value ≠ .error (.other e) := by
  unfold parseGraph
  split
  · simp
  · rename_i e' he
    rw [if_pos (show e'.isA malformed = true from within_decodeGraph value e' he)]
    simp

end Steps

/-! ### What the format asks for -/

/-- A field describes entries when it is absent or an array of what describes
one. -/
theorem arrayOf_iff {α : Type} {describes : Json → α → Prop} {entry : Json → Prop}
    (h : ∀ v, v.distinct = true → (entry v ↔ ∃ x, describes v x))
    {fields : List (Str × Json)} (hd : (Json.obj fields).distinct = true) (name : String) :
    ArrayOf entry (fields.lookup (.text name)) ↔
      ∃ xs, DescribesAll describes (fields.lookup (.text name)) xs := by
  unfold ArrayOf DescribesAll
  cases hlookup : fields.lookup (.text name) with
  | none => exact iff_of_true (fun v hv => by cases hv) ⟨[], Or.inl ⟨rfl, rfl⟩⟩
  | some v =>
      have hv := distinct_of_lookup hd hlookup
      constructor
      · intro harr
        obtain ⟨items, rfl, hitems⟩ := harr v rfl
        obtain ⟨xs, hxs⟩ := forall₂_exists_iff.mpr fun item hitem =>
          (h item (distinct_of_mem hv hitem)).mp (hitems item hitem)
        exact ⟨xs, Or.inr ⟨items, rfl, hxs⟩⟩
      · rintro ⟨xs, ⟨hnone, -⟩ | ⟨items, hsome, hall⟩⟩ w hw
        · cases hnone
        · obtain rfl := Option.some.inj hsome
          obtain rfl := Option.some.inj hw
          exact ⟨items, rfl, fun item hitem => (h item (distinct_of_mem hv hitem)).mpr
            (forall₂_exists_iff.mp ⟨xs, hall⟩ item hitem)⟩

/-- An object that has these strings, spelled out. -/
theorem hasStrings_cons {name : String} {names : List String} {fields : List (Str × Json)} :
    HasStrings (name :: names) (.obj fields) ↔
      (∃ s, HasString fields name s) ∧ HasStrings names (.obj fields) := by
  constructor
  · rintro ⟨fields', hobj, hall⟩
    obtain rfl := Json.obj.inj hobj
    exact ⟨hall name List.mem_cons_self, fields, rfl, fun n hn =>
      hall n (List.mem_cons_of_mem _ hn)⟩
  · rintro ⟨hname, fields', hobj, hall⟩
    obtain rfl := Json.obj.inj hobj
    exact ⟨fields, rfl, List.forall_mem_cons.mpr ⟨hname, hall⟩⟩

theorem hasStrings_nil {fields : List (Str × Json)} : HasStrings [] (.obj fields) :=
  ⟨fields, rfl, by simp⟩

theorem fieldIf_obj {name : String} {kind : Json → Prop} {fields : List (Str × Json)} :
    FieldIf name kind (.obj fields) ↔ ∀ v, fields.lookup (.text name) = some v → kind v :=
  ⟨fun h v => h fields v rfl, fun h _ v hobj hv => h v (Json.obj.inj hobj ▸ hv)⟩

theorem node_iff {v : Json} (hd : v.distinct = true) : HasStrings ["id", "module"] v ∧
    FieldIf "params" (fun p => ∃ params, p = .obj params) v ↔ ∃ n, DescribesNode v n := by
  constructor
  · rintro ⟨⟨fields, rfl, hstrings⟩, hparams⟩
    obtain ⟨⟨id, hid⟩, ⟨module, hmodule⟩, -⟩ := by
      simpa only [List.forall_mem_cons] using hstrings
    cases hlookup : fields.lookup (.text "params") with
    | none => exact ⟨⟨id, module, .empty⟩, fields, rfl, hid, hmodule, Or.inl ⟨hlookup, rfl⟩⟩
    | some p =>
        obtain ⟨params, rfl⟩ := fieldIf_obj.mp hparams p hlookup
        exact ⟨⟨id, module, ⟨params, distinct_of_lookup hd hlookup⟩⟩, fields, rfl, hid, hmodule,
          Or.inr hlookup⟩
  · rintro ⟨n, fields, rfl, hid, hmodule, hparams⟩
    refine ⟨hasStrings_cons.mpr ⟨⟨_, hid⟩, hasStrings_cons.mpr ⟨⟨_, hmodule⟩, hasStrings_nil⟩⟩, ?_⟩
    refine fieldIf_obj.mpr fun p hlookup => ?_
    rcases hparams with ⟨hnone, -⟩ | hsome
    · rw [hnone] at hlookup
      cases hlookup
    · exact ⟨_, Option.some.inj (hlookup.symm.trans hsome)⟩

theorem edge_iff {v : Json} : HasStrings ["from_node", "from_port", "to_node", "to_port"] v ↔
    ∃ e, DescribesEdge v e := by
  constructor
  · rintro ⟨fields, rfl, hstrings⟩
    obtain ⟨⟨fromNode, h₁⟩, ⟨fromPort, h₂⟩, ⟨toNode, h₃⟩, ⟨toPort, h₄⟩, -⟩ := by
      simpa only [List.forall_mem_cons] using hstrings
    exact ⟨⟨fromNode, fromPort, toNode, toPort⟩, fields, rfl, h₁, h₂, h₃, h₄⟩
  · rintro ⟨e, fields, rfl, h₁, h₂, h₃, h₄⟩
    simp only [hasStrings_cons]
    exact ⟨⟨_, h₁⟩, ⟨_, h₂⟩, ⟨_, h₃⟩, ⟨_, h₄⟩, hasStrings_nil⟩

theorem binding_iff {v : Json} : HasStrings ["payload", "node", "port"] v ↔
    ∃ b, DescribesBinding v b := by
  constructor
  · rintro ⟨fields, rfl, hstrings⟩
    obtain ⟨⟨payload, h₁⟩, ⟨node, h₂⟩, ⟨port, h₃⟩, -⟩ := by
      simpa only [List.forall_mem_cons] using hstrings
    exact ⟨⟨payload, node, port⟩, fields, rfl, h₁, h₂, h₃⟩
  · rintro ⟨b, fields, rfl, h₁, h₂, h₃⟩
    simp only [hasStrings_cons]
    exact ⟨⟨_, h₁⟩, ⟨_, h₂⟩, ⟨_, h₃⟩, hasStrings_nil⟩

theorem output_iff {v : Json} : HasStrings ["node", "port"] v ∧
    FieldIf "group" (fun g => g = .null ∨ ∃ s, g = .str s) v ↔ ∃ o, DescribesOutput v o := by
  constructor
  · rintro ⟨⟨fields, rfl, hstrings⟩, hgroup⟩
    obtain ⟨⟨node, h₁⟩, ⟨port, h₂⟩, -⟩ := by simpa only [List.forall_mem_cons] using hstrings
    cases hlookup : fields.lookup (.text "group") with
    | none => exact ⟨⟨node, port, none⟩, fields, rfl, h₁, h₂, Or.inl ⟨Or.inl hlookup, rfl⟩⟩
    | some g =>
        rcases fieldIf_obj.mp hgroup g hlookup with rfl | ⟨s, rfl⟩
        · exact ⟨⟨node, port, none⟩, fields, rfl, h₁, h₂, Or.inl ⟨Or.inr hlookup, rfl⟩⟩
        · exact ⟨⟨node, port, some s⟩, fields, rfl, h₁, h₂, Or.inr ⟨s, hlookup, rfl⟩⟩
  · rintro ⟨o, fields, rfl, h₁, h₂, hgroup⟩
    refine ⟨hasStrings_cons.mpr ⟨⟨_, h₁⟩, hasStrings_cons.mpr ⟨⟨_, h₂⟩, hasStrings_nil⟩⟩, ?_⟩
    refine fieldIf_obj.mpr fun g hlookup => ?_
    rcases hgroup with ⟨hnone | hnull, -⟩ | ⟨s, hs, -⟩
    · rw [hnone] at hlookup
      cases hlookup
    · exact Or.inl (Option.some.inj (hlookup.symm.trans hnull))
    · exact Or.inr ⟨s, Option.some.inj (hlookup.symm.trans hs)⟩

theorem group_iff {v : Json} : HasStrings ["id"] v ∧
    FieldIf "order" (fun o => ∃ s, o = .str s) v ↔ ∃ g, DescribesGroup v g := by
  constructor
  · rintro ⟨⟨fields, rfl, hstrings⟩, horder⟩
    obtain ⟨⟨id, hid⟩, -⟩ := by simpa only [List.forall_mem_cons] using hstrings
    cases hlookup : fields.lookup (.text "order") with
    | none => exact ⟨⟨id, "completion"⟩, fields, rfl, hid, Or.inl ⟨hlookup, rfl⟩⟩
    | some o =>
        obtain ⟨s, rfl⟩ := fieldIf_obj.mp horder o hlookup
        exact ⟨⟨id, s⟩, fields, rfl, hid, Or.inr hlookup⟩
  · rintro ⟨g, fields, rfl, hid, horder⟩
    refine ⟨hasStrings_cons.mpr ⟨⟨_, hid⟩, hasStrings_nil⟩, fieldIf_obj.mpr fun o hlookup => ?_⟩
    rcases horder with ⟨hnone, -⟩ | hs
    · rw [hnone] at hlookup
      cases hlookup
    · exact ⟨_, Option.some.inj (hlookup.symm.trans hs)⟩

/-- The format is what describes a graph. -/
theorem inFormat_iff {value : Json} (hd : value.distinct = true) :
    InFormat value ↔ ∃ g, Describes value g := by
  constructor
  · rintro ⟨fields, rfl, hnodes, hedges, hbindings, houtputs, hgroups⟩
    obtain ⟨nodes, hnodes⟩ := (arrayOf_iff (fun _ => node_iff) hd _).mp hnodes
    obtain ⟨edges, hedges⟩ := (arrayOf_iff (fun _ _ => edge_iff) hd _).mp hedges
    obtain ⟨bindings, hbindings⟩ := (arrayOf_iff (fun _ _ => binding_iff) hd _).mp hbindings
    obtain ⟨outputs, houtputs⟩ := (arrayOf_iff (fun _ _ => output_iff) hd _).mp houtputs
    obtain ⟨groups, hgroups⟩ := (arrayOf_iff (fun _ _ => group_iff) hd _).mp hgroups
    exact ⟨⟨nodes, edges, bindings, outputs, groups⟩, fields, rfl, hnodes, hedges, hbindings,
      houtputs, hgroups⟩
  · rintro ⟨g, fields, rfl, hnodes, hedges, hbindings, houtputs, hgroups⟩
    exact ⟨fields, rfl, (arrayOf_iff (fun _ => node_iff) hd _).mpr ⟨_, hnodes⟩,
      (arrayOf_iff (fun _ _ => edge_iff) hd _).mpr ⟨_, hedges⟩,
      (arrayOf_iff (fun _ _ => binding_iff) hd _).mpr ⟨_, hbindings⟩,
      (arrayOf_iff (fun _ _ => output_iff) hd _).mpr ⟨_, houtputs⟩,
      (arrayOf_iff (fun _ _ => group_iff) hd _).mpr ⟨_, hgroups⟩⟩

/-! ### Nothing else is looked at -/

theorem AgreeOn.symm {names : List String} {a b : Json} (h : AgreeOn names a b) :
    AgreeOn names b a := by
  rcases h with rfl | ⟨fs, gs, rfl, rfl, h⟩
  · exact Or.inl rfl
  · exact Or.inr ⟨gs, fs, rfl, rfl, fun name hname => (h name hname).symm⟩

theorem ItemsAgreeOn.symm {names : List String} {a b : Option Json} (h : ItemsAgreeOn names a b) :
    ItemsAgreeOn names b a := by
  rcases h with rfl | ⟨xs, ys, rfl, rfl, h⟩
  · exact Or.inl rfl
  · exact Or.inr ⟨ys, xs, rfl, rfl, h.flip.imp fun _ _ => AgreeOn.symm⟩

theorem AgreeInFormat.symm {a b : Json} (h : AgreeInFormat a b) : AgreeInFormat b a := by
  rcases h with rfl | ⟨fs, gs, rfl, rfl, h⟩
  · exact Or.inl rfl
  · exact Or.inr ⟨gs, fs, rfl, rfl, fun field hfield => (h field hfield).symm⟩

/-- The relation depends on these fields of an object alone. -/
def ReadsOnly {α : Type} (names : List String) (describes : Json → α → Prop) : Prop :=
  ∀ a b x, AgreeOn names a b → describes a x → describes b x

theorem readsOnly_node : ReadsOnly ["id", "module", "params"] DescribesNode := by
  rintro a b n (rfl | ⟨fs, gs, rfl, rfl, h⟩) ⟨fields, hobj, hdesc⟩
  · exact ⟨fields, hobj, hdesc⟩
  · obtain rfl := Json.obj.inj hobj
    simp only [List.forall_mem_cons] at h
    refine ⟨gs, rfl, ?_⟩
    simpa only [HasString, ← h.1, ← h.2.1, ← h.2.2.1] using hdesc

theorem readsOnly_edge :
    ReadsOnly ["from_node", "from_port", "to_node", "to_port"] DescribesEdge := by
  rintro a b e (rfl | ⟨fs, gs, rfl, rfl, h⟩) ⟨fields, hobj, hdesc⟩
  · exact ⟨fields, hobj, hdesc⟩
  · obtain rfl := Json.obj.inj hobj
    simp only [List.forall_mem_cons] at h
    refine ⟨gs, rfl, ?_⟩
    simpa only [HasString, ← h.1, ← h.2.1, ← h.2.2.1, ← h.2.2.2.1] using hdesc

theorem readsOnly_binding : ReadsOnly ["payload", "node", "port"] DescribesBinding := by
  rintro a b c (rfl | ⟨fs, gs, rfl, rfl, h⟩) ⟨fields, hobj, hdesc⟩
  · exact ⟨fields, hobj, hdesc⟩
  · obtain rfl := Json.obj.inj hobj
    simp only [List.forall_mem_cons] at h
    refine ⟨gs, rfl, ?_⟩
    simpa only [HasString, ← h.1, ← h.2.1, ← h.2.2.1] using hdesc

theorem readsOnly_output : ReadsOnly ["node", "port", "group"] DescribesOutput := by
  rintro a b o (rfl | ⟨fs, gs, rfl, rfl, h⟩) ⟨fields, hobj, hdesc⟩
  · exact ⟨fields, hobj, hdesc⟩
  · obtain rfl := Json.obj.inj hobj
    simp only [List.forall_mem_cons] at h
    refine ⟨gs, rfl, ?_⟩
    simpa only [HasString, ← h.1, ← h.2.1, ← h.2.2.1] using hdesc

theorem readsOnly_group : ReadsOnly ["id", "order"] DescribesGroup := by
  rintro a b g (rfl | ⟨fs, gs, rfl, rfl, h⟩) ⟨fields, hobj, hdesc⟩
  · exact ⟨fields, hobj, hdesc⟩
  · obtain rfl := Json.obj.inj hobj
    simp only [List.forall_mem_cons] at h
    refine ⟨gs, rfl, ?_⟩
    simpa only [HasString, ← h.1, ← h.2.1] using hdesc

theorem DescribesAll.congr {α : Type} {names : List String} {describes : Json → α → Prop}
    (hread : ReadsOnly names describes) {a b : Option Json} (h : ItemsAgreeOn names a b)
    {xs : List α} (ha : DescribesAll describes a xs) : DescribesAll describes b xs := by
  rcases h with rfl | ⟨items, items', rfl, rfl, hagree⟩
  · exact ha
  · rcases ha with ⟨hnone, -⟩ | ⟨items₁, hsome, hall⟩
    · cases hnone
    · obtain rfl := Json.arr.inj (Option.some.inj hsome)
      refine Or.inr ⟨items', rfl, ?_⟩
      clear hsome
      induction hagree generalizing xs with
      | nil => exact hall
      | cons hab _ ih =>
          obtain ⟨x, xs', hx, hxs, rfl⟩ := List.forall₂_cons_left_iff.mp hall
          exact .cons (hread _ _ x hab hx) (ih hxs)

theorem Describes.congr {a b : Json} (h : AgreeInFormat a b) {g : Graph} (ha : Describes a g) :
    Describes b g := by
  rcases h with rfl | ⟨fs, gs, rfl, rfl, h⟩
  · exact ha
  · obtain ⟨fields, hobj, hnodes, hedges, hbindings, houtputs, hgroups⟩ := ha
    obtain rfl := Json.obj.inj hobj
    simp only [graphFields, List.forall_mem_cons] at h
    obtain ⟨h₁, h₂, h₃, h₄, h₅, -⟩ := h
    exact ⟨gs, rfl, hnodes.congr readsOnly_node h₁, hedges.congr readsOnly_edge h₂,
      hbindings.congr readsOnly_binding h₃, houtputs.congr readsOnly_output h₄,
      hgroups.congr readsOnly_group h₅⟩

/-- Values that differ outside the format give equal graphs or fail both. -/
theorem parseGraph_congr {repr : Str → String} {a b : Json} (hda : a.distinct = true)
    (hdb : b.distinct = true) (h : AgreeInFormat a b) (g : Graph) :
    parseGraph repr a = .ok g ↔ parseGraph repr b = .ok g := by
  rw [parseGraph_ok_iff hda, parseGraph_ok_iff hdb]
  exact ⟨Describes.congr h, Describes.congr h.symm⟩

/-! ### The parser and the format -/

/-- **The parser is the wire format**: it returns on the values in the format
alone, what they describe and nothing else of them, and fails on the others in
one way. -/
theorem parse_graph_exact (repr : Str → String) :
    (∀ value : JsonValue,
      (∀ e, parseGraph repr value.value ≠ .error (.other e)) ∧
      ((∃ g, parseGraph repr value.value = .ok g) ↔ InFormat value.value) ∧
      ∀ g, parseGraph repr value.value = .ok g ↔ Describes value.value g) ∧
    ∀ a b : JsonValue, AgreeInFormat a.value b.value →
      ∀ g, parseGraph repr a.value = .ok g ↔ parseGraph repr b.value = .ok g := by
  refine ⟨fun value => ⟨parseGraph_ne_other value.value, ?_, fun g => ?_⟩, fun a b h => ?_⟩
  · rw [inFormat_iff value.distinct]
    simp only [parseGraph_ok_iff value.distinct]
  · exact parseGraph_ok_iff value.distinct
  · exact parseGraph_congr a.distinct b.distinct h

/-- A graph with two fields the format does not have, and one without. -/
theorem parse_graph_exact_extended :
    parseGraph (fun _ => "") (.obj [("nodes", .arr [.obj [("id", .str "a"), ("x", .null),
        ("module", .str "m")]]), ("meta", .int 1)]) = .ok ⟨[⟨"a", "m", .empty⟩], [], [], [], []⟩ ∧
      parseGraph (fun _ => "")
          (.obj [("nodes", .arr [.obj [("id", .str "a"), ("module", .str "m")]])]) =
        .ok ⟨[⟨"a", "m", .empty⟩], [], [], [], []⟩ := by
  have hplain : parseGraph (fun _ => "") (.obj [("nodes", .arr [.obj [("id", .str "a"),
      ("module", .str "m")]])]) = .ok ⟨[⟨"a", "m", .empty⟩], [], [], [], []⟩ := rfl
  refine ⟨((parse_graph_exact fun _ => "").2 ⟨_, by decide⟩ ⟨_, by decide⟩ ?_ _).mpr hplain, hplain⟩
  refine Or.inr ⟨_, _, rfl, rfl, ?_⟩
  simp only [graphFields, List.forall_mem_cons]
  refine ⟨Or.inr ⟨_, _, rfl, rfl, .cons (Or.inr ⟨_, _, rfl, rfl, by simp [List.lookup]⟩) .nil⟩,
    Or.inl rfl, Or.inl rfl, Or.inl rfl, Or.inl rfl, by simp⟩

end Formshift
