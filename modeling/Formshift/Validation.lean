/-
Formshift/Validation.lean

What a valid graph is, said without the validator.

`ValidGraph` speaks of nodes, ports, edges and groups by membership alone.
`validate_graph` returns the empty list for exactly these graphs
(`validateGraph_accepts_iff`): the lookups of its loops, where the last node of
an id and the first port of a name win, and its feed counters see the same.
-/
import Formshift.Graph

namespace Formshift

open Py

section Spec

variable (g : Graph) (reg : ModuleRegistry) (session : Session)

/-- Some node of this id has an output port of this name; a manifest's port of
a name is the first one. -/
def HasOutputPort (node port type : Str) : Prop :=
  ∃ n ∈ g.nodes, n.id = node ∧ ∃ m, reg.get n.module = some m ∧
    ∃ p, m.outputPort port = some p ∧ p.type = type

def HasInputPort (node port type : Str) : Prop :=
  ∃ n ∈ g.nodes, n.id = node ∧ ∃ m, reg.get n.module = some m ∧
    ∃ p, m.inputPort port = some p ∧ p.type = type

/-- The edges and the bindings into a port, counted together. -/
def feedCount (node port : Str) : Nat :=
  (g.edges.filter fun e => e.toNode = node ∧ e.toPort = port).length +
    (g.bindings.filter fun b => b.node = node ∧ b.port = port).length

structure ValidGraph : Prop where
  some_node : ∃ n, n ∈ g.nodes
  some_output : ∃ o, o ∈ g.outputs
  ids_distinct : g.nodes.Pairwise fun a b => a.id ≠ b.id
  modules_registered : ∀ n ∈ g.nodes, ∃ m, reg.get n.module = some m
  edges_typed : ∀ e ∈ g.edges, ∃ type, HasOutputPort g reg e.fromNode e.fromPort type ∧
    HasInputPort g reg e.toNode e.toPort type
  bindings_typed : ∀ b ∈ g.bindings, ∃ p, session.payloads.lookup b.payload = some p ∧
    HasInputPort g reg b.node b.port p.type
  ports_fed : ∀ n ∈ g.nodes, ∀ m, reg.get n.module = some m → ∀ port ∈ m.inputs,
    feedCount g n.id port.name = 1
  groups_named : ∀ group ∈ g.groups, group.id ≠ ""
  groups_distinct : g.groups.Pairwise fun a b => a.id ≠ b.id
  groups_order : ∀ group ∈ g.groups, group.order = "completion" ∨ group.order = "pinned"
  outputs_distinct : g.outputs.Pairwise fun a b => (a.node, a.port) ≠ (b.node, b.port)
  outputs_known : ∀ o ∈ g.outputs, ∃ type, HasOutputPort g reg o.node o.port type
  outputs_grouped : ∀ o ∈ g.outputs, ∀ group, o.group = some group →
    ∃ x ∈ g.groups, x.id = group
  acyclic : ∀ v, ¬ Relation.TransGen g.Feeds v v

end Spec

variable {g : Graph} {reg : ModuleRegistry} {session : Session}

/-- Among distinct ids the node dict has exactly the graph's nodes. -/
theorem lookup_nodesById_iff (hids : g.nodeIds.Nodup) {id : Str} {n : Node} :
    g.nodesById.lookup id = some n ↔ n ∈ g.nodes ∧ n.id = id := by
  constructor
  · intro h
    obtain ⟨n', hn', heq⟩ := List.mem_map.mp (Dict.mem_of_lookup_ofPairs h)
    obtain ⟨rfl, rfl⟩ := Prod.mk.inj heq
    exact ⟨hn', rfl⟩
  · rintro ⟨hn, rfl⟩
    apply Dict.lookup_ofPairs
    · rw [List.map_map]
      exact hids
    · exact List.mem_map.mpr ⟨n, hn, rfl⟩

theorem nodeManifest_iff (hids : g.nodeIds.Nodup) {id : Str} {m : ModuleManifest} :
    nodeManifest g reg id = some m ↔
      ∃ n ∈ g.nodes, n.id = id ∧ reg.get n.module = some m := by
  rw [nodeManifest, Option.bind_eq_bind, Option.bind_eq_some_iff]
  constructor
  · rintro ⟨n, hn, hm⟩
    obtain ⟨hmem, hid⟩ := (lookup_nodesById_iff hids).mp hn
    exact ⟨n, hmem, hid, hm⟩
  · rintro ⟨n, hmem, hid, hm⟩
    exact ⟨n, (lookup_nodesById_iff hids).mpr ⟨hmem, hid⟩, hm⟩

theorem outputType_iff (hids : g.nodeIds.Nodup) {node port type : Str} :
    outputType g reg node port = some type ↔ HasOutputPort g reg node port type := by
  simp only [outputType, Option.map_eq_some_iff, Option.bind_eq_bind, Option.bind_eq_some_iff,
    nodeManifest_iff hids, HasOutputPort]
  constructor
  · rintro ⟨p, ⟨m, ⟨n, hn, hid, hm⟩, hp⟩, htype⟩
    exact ⟨n, hn, hid, m, hm, p, hp, htype⟩
  · rintro ⟨n, hn, hid, m, hm, p, hp, htype⟩
    exact ⟨p, ⟨m, ⟨n, hn, hid, hm⟩, hp⟩, htype⟩

theorem inputType_iff (hids : g.nodeIds.Nodup) {node port type : Str} :
    inputType g reg node port = some type ↔ HasInputPort g reg node port type := by
  simp only [inputType, Option.map_eq_some_iff, Option.bind_eq_bind, Option.bind_eq_some_iff,
    nodeManifest_iff hids, HasInputPort]
  constructor
  · rintro ⟨p, ⟨m, ⟨n, hn, hid, hm⟩, hp⟩, htype⟩
    exact ⟨n, hn, hid, m, hm, p, hp, htype⟩
  · rintro ⟨n, hn, hid, m, hm, p, hp, htype⟩
    exact ⟨p, ⟨m, ⟨n, hn, hid, hm⟩, hp⟩, htype⟩

/-- The feed counter of a port, taken apart. -/
theorem count_targets (node port : Str) :
    g.targets.count (node, port) = feedCount g node port := by
  have hcount : ∀ {α : Type} (target : α → Str × Str) (l : List α),
      (l.map target).count (node, port) =
        (l.filter fun x => (target x).1 = node ∧ (target x).2 = port).length := by
    intro α target l
    rw [List.count_eq_countP, List.countP_map, List.countP_eq_length_filter]
    congr 1
    apply List.filter_congr
    intro x _
    rw [Bool.eq_iff_iff]
    simp [Prod.ext_iff]
  rw [Graph.targets, List.count_append, hcount, hcount]
  rfl

theorem nodup_map_iff {α : Type} {β : Type} {f : α → β} {l : List α} :
    (l.map f).Nodup ↔ l.Pairwise fun a b => f a ≠ f b :=
  List.pairwise_map

theorem wellFormed_iff_validGraph : WellFormed g reg session ↔ ValidGraph g reg session := by
  constructor
  · intro h
    -- with distinct ids a lookup and a membership are the same
    have hids := h.ids_nodup
    exact {
      some_node := List.exists_mem_of_ne_nil _ h.nodes_ne
      some_output := List.exists_mem_of_ne_nil _ h.outputs_ne
      ids_distinct := nodup_map_iff.mp hids
      modules_registered := h.module_known
      edges_typed := fun e he => by
        simpa only [outputType_iff hids, inputType_iff hids] using h.edge_typed e he
      bindings_typed := fun b hb => by
        simpa only [inputType_iff hids] using h.binding_typed b hb
      ports_fed := fun n hn m hm port hport => by
        rw [← count_targets]
        exact h.fed_once n hn m hm port hport
      groups_named := h.groups_named
      groups_distinct := nodup_map_iff.mp h.groups_nodup
      groups_order := fun group hgroup => by
        simpa [outputGroupOrders] using h.groups_order group hgroup
      outputs_distinct := nodup_map_iff.mp h.outputs_nodup
      outputs_known := fun o ho => by
        simpa only [outputType_iff hids] using h.output_known o ho
      outputs_grouped := fun o ho group hgroup => by
        simpa using h.output_group o ho group hgroup
      acyclic := h.acyclic }
  · intro h
    have hids : g.nodeIds.Nodup := nodup_map_iff.mpr h.ids_distinct
    exact {
      nodes_ne := List.ne_nil_of_mem h.some_node.choose_spec
      outputs_ne := List.ne_nil_of_mem h.some_output.choose_spec
      ids_nodup := hids
      module_known := h.modules_registered
      edge_typed := fun e he => by
        simpa only [outputType_iff hids, inputType_iff hids] using h.edges_typed e he
      binding_typed := fun b hb => by
        simpa only [inputType_iff hids] using h.bindings_typed b hb
      fed_once := fun n hn m hm port hport => by
        rw [count_targets]
        exact h.ports_fed n hn m hm port hport
      groups_named := h.groups_named
      groups_nodup := nodup_map_iff.mpr h.groups_distinct
      groups_order := fun group hgroup => by
        simpa [outputGroupOrders] using h.groups_order group hgroup
      outputs_nodup := nodup_map_iff.mpr h.outputs_distinct
      output_known := fun o ho => by
        simpa only [outputType_iff hids] using h.outputs_known o ho
      output_group := fun o ho group hgroup => by
        simpa using h.outputs_grouped o ho group hgroup
      acyclic := h.acyclic }

/-- **`validate_graph` accepts exactly the valid graphs.** -/
theorem validateGraph_accepts_iff (g : Graph) (reg : ModuleRegistry) (session : Session) :
    validateGraph g reg session = [] ↔ ValidGraph g reg session :=
  validateGraph_nil_iff.trans wellFormed_iff_validGraph

/-! ### What stays valid -/

/-- Nothing a graph can refer to is taken away or replaced. -/
structure Keeps (reg reg' : ModuleRegistry) (session session' : Session) : Prop where
  modules : ∀ name m, reg.get name = some m → reg'.get name = some m
  payloads : ∀ id p, session.payloads.lookup id = some p → session'.payloads.lookup id = some p

section Keeps

variable {g : Graph} {reg reg' : ModuleRegistry} {session session' : Session}

theorem nodeManifest_mono (hk : ∀ name m, reg.get name = some m → reg'.get name = some m)
    {id : Str} {m : ModuleManifest} (h : nodeManifest g reg id = some m) :
    nodeManifest g reg' id = some m := by
  obtain ⟨n, hn, hm⟩ := Option.bind_eq_some_iff.mp h
  exact Option.bind_eq_some_iff.mpr ⟨n, hn, hk _ m hm⟩

theorem outputType_mono (hk : ∀ name m, reg.get name = some m → reg'.get name = some m)
    {id port t : Str} (h : outputType g reg id port = some t) :
    outputType g reg' id port = some t := by
  obtain ⟨p, hp, rfl⟩ := Option.map_eq_some_iff.mp h
  obtain ⟨m, hm, hport⟩ := Option.bind_eq_some_iff.mp hp
  exact Option.map_eq_some_iff.mpr
    ⟨p, Option.bind_eq_some_iff.mpr ⟨m, nodeManifest_mono hk hm, hport⟩, rfl⟩

theorem inputType_mono (hk : ∀ name m, reg.get name = some m → reg'.get name = some m)
    {id port t : Str} (h : inputType g reg id port = some t) :
    inputType g reg' id port = some t := by
  obtain ⟨p, hp, rfl⟩ := Option.map_eq_some_iff.mp h
  obtain ⟨m, hm, hport⟩ := Option.bind_eq_some_iff.mp hp
  exact Option.map_eq_some_iff.mpr
    ⟨p, Option.bind_eq_some_iff.mpr ⟨m, nodeManifest_mono hk hm, hport⟩, rfl⟩

/-- **Validity is monotone** in the registry and in the session's payloads. -/
theorem WellFormed.keep (h : WellFormed g reg session) (hk : Keeps reg reg' session session') :
    WellFormed g reg' session' where
  nodes_ne := h.nodes_ne
  outputs_ne := h.outputs_ne
  ids_nodup := h.ids_nodup
  module_known := by
    intro n hn
    obtain ⟨m, hm⟩ := h.module_known n hn
    exact ⟨m, hk.modules _ m hm⟩
  edge_typed := by
    intro e he
    obtain ⟨t, hout, hin⟩ := h.edge_typed e he
    exact ⟨t, outputType_mono hk.modules hout, inputType_mono hk.modules hin⟩
  binding_typed := by
    intro b hb
    obtain ⟨p, hp, hin⟩ := h.binding_typed b hb
    exact ⟨p, hk.payloads _ p hp, inputType_mono hk.modules hin⟩
  fed_once := by
    intro n hn m hm port hport
    -- the module was registered before, and is the same
    obtain ⟨m₀, hm₀⟩ := h.module_known n hn
    obtain rfl : m₀ = m := Option.some.inj ((hk.modules _ m₀ hm₀).symm.trans hm)
    exact h.fed_once n hn m₀ hm₀ port hport
  groups_named := h.groups_named
  groups_nodup := h.groups_nodup
  groups_order := h.groups_order
  outputs_nodup := h.outputs_nodup
  output_known := by
    intro o ho
    obtain ⟨t, hout⟩ := h.output_known o ho
    exact ⟨t, outputType_mono hk.modules hout⟩
  output_group := h.output_group
  acyclic := h.acyclic

end Keeps

end Formshift
