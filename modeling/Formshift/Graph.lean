/-
Formshift/Graph.lean

The graph data model and its validation (`graph.py`, `sessions.py`).

`validateGraph` collects its errors in the order the source does; each error
carries what its message names, and `GraphError.message` spells the message
(`repr` stands for Python's `repr` of a string).  `topologicalOrder` runs the
sorter of `Lib/Graphlib`.

Main result: `validateGraph` returns the empty list exactly on the
`WellFormed` graphs (`validateGraph_nil_iff`).  `WellFormed` is what every
later module uses of a validated graph.
-/
import Formshift.Lib.Graphlib
import Formshift.Modules

namespace Formshift

open Py

/-! ### Sessions -/

structure Payload where
  id : Str
  type : Str
  data : Bytes
  deriving DecidableEq

structure Session where
  id : Str
  payloads : Dict Str Payload

/-- `add_payload`, under the id the server draws. -/
def Session.addPayload (s : Session) (id type : Str) (data : Bytes) : Session :=
  { s with payloads := s.payloads.insert id ⟨id, type, data⟩ }

/-! ### Graphs -/

structure Node where
  id : Str
  module : Str
  params : JsonObject := .empty

structure Edge where
  fromNode : Str
  fromPort : Str
  toNode : Str
  toPort : Str
  deriving DecidableEq

structure Binding where
  payload : Str
  node : Str
  port : Str
  deriving DecidableEq

structure OutputRef where
  node : Str
  port : Str
  group : Option Str := none
  deriving DecidableEq

/-- Emission-order semantics an output group may ask for. -/
def outputGroupOrders : List Str := ["completion", "pinned"]

structure OutputGroup where
  id : Str
  order : Str
  deriving DecidableEq

structure Graph where
  nodes : List Node
  edges : List Edge
  bindings : List Binding
  outputs : List OutputRef
  groups : List OutputGroup := []

/-- The input port an edge feeds. -/
def Edge.target (e : Edge) : Str × Str := (e.toNode, e.toPort)

/-- The input port a binding feeds. -/
def Binding.target (b : Binding) : Str × Str := (b.node, b.port)

def OutputRef.key (o : OutputRef) : Str × Str := (o.node, o.port)

def Graph.nodeIds (g : Graph) : List Str := g.nodes.map Node.id

/-- `{node.id: node for node in graph.nodes}`. -/
def Graph.nodesById (g : Graph) : Dict Str Node := Dict.ofPairs (g.nodes.map fun n => (n.id, n))

/-- Every fed input port, once for each edge or binding that feeds it. -/
def Graph.targets (g : Graph) : List (Str × Str) :=
  g.edges.map Edge.target ++ g.bindings.map Binding.target

/-- `u` feeds `v`. -/
def Graph.Feeds (g : Graph) (u v : Str) : Prop := ∃ e ∈ g.edges, e.fromNode = u ∧ e.toNode = v

/-! ### Validation -/

/-- An entry of the list `validate_graph` returns. -/
inductive GraphError where
  | duplicateNodeId (id : Str)
  | unknownModule (id module : Str)
  | noNodes
  | noOutputs
  | edgeFromUnknownPort (node port : Str)
  | edgeToUnknownPort (node port : Str)
  | edgeTypeMismatch (edge : Edge) (src dst : Str)
  | bindingToUnknownPort (node port : Str)
  | unknownPayload (payload : Str)
  | bindingTypeMismatch (binding : Binding) (type dst : Str)
  | notFed (node port : Str)
  | fedTimes (node port : Str) (count : Nat)
  | groupWithoutId
  | duplicateGroupId (id : Str)
  | unknownOrder (id order : Str)
  | duplicateOutput (node port : Str)
  | outputUnknownPort (node port : Str)
  | undeclaredGroup (node port group : Str)
  | cycle
  deriving DecidableEq

/-- The text of an error; `repr` is `str.__repr__`. -/
def GraphError.message (repr : Str → String) : GraphError → Str
  | .duplicateNodeId id => "duplicate node id " ++ repr id
  | .unknownModule id m => "node " ++ repr id ++ ": unknown module " ++ repr m
  | .noNodes => "graph has no nodes"
  | .noOutputs => "graph declares no outputs"
  | .edgeFromUnknownPort n p => "edge from unknown port " ++ repr n ++ ":" ++ repr p
  | .edgeToUnknownPort n p => "edge to unknown port " ++ repr n ++ ":" ++ repr p
  | .edgeTypeMismatch e src dst =>
      "type mismatch on edge " ++ e.fromNode ++ ":" ++ e.fromPort ++ " -> " ++ e.toNode ++ ":" ++
        e.toPort ++ ": " ++ repr src ++ " != " ++ repr dst
  | .bindingToUnknownPort n p => "binding to unknown port " ++ repr n ++ ":" ++ repr p
  | .unknownPayload p => "binding references unknown payload " ++ repr p
  | .bindingTypeMismatch b type dst =>
      "binding payload type " ++ repr type ++ " does not match port " ++ b.node ++ ":" ++ b.port ++
        " type " ++ repr dst
  | .notFed n p => "input port " ++ n ++ ":" ++ p ++ " is not fed"
  | .fedTimes n p k => "input port " ++ n ++ ":" ++ p ++ " is fed " ++ toString k ++ " times"
  | .groupWithoutId => "output group without an id"
  | .duplicateGroupId id => "duplicate output group id " ++ repr id
  | .unknownOrder id order =>
      "output group " ++ repr id ++ ": unknown order " ++ repr order ++
        " (implemented: ['completion', 'pinned'])"
  | .duplicateOutput n p => "duplicate output reference " ++ repr n ++ ":" ++ repr p
  | .outputUnknownPort n p => "output references unknown port " ++ repr n ++ ":" ++ repr p
  | .undeclaredGroup n p group =>
      "output " ++ n ++ ":" ++ p ++ " references undeclared group " ++ repr group
  | .cycle => "graph contains a cycle"

section Validate

variable (g : Graph) (reg : ModuleRegistry) (session : Session)

/-- The manifest of the module a node names. -/
def nodeManifest (id : Str) : Option ModuleManifest :=
  g.nodesById.lookup id >>= fun n => reg.get n.module

def outputType (id port : Str) : Option Str :=
  (nodeManifest g reg id >>= fun m => m.outputPort port).map PortSpec.type

def inputType (id port : Str) : Option Str :=
  (nodeManifest g reg id >>= fun m => m.inputPort port).map PortSpec.type

/-- The loop over the nodes; `seen` holds the ids met so far. -/
def nodeErrors : List Str → List Node → List GraphError
  | _, [] => []
  | seen, n :: ns =>
      (if n.id ∈ seen then [.duplicateNodeId n.id] else []) ++
        (if reg.get n.module = none then [.unknownModule n.id n.module] else []) ++
        nodeErrors (n.id :: seen) ns

def edgeErrors (e : Edge) : List GraphError :=
  let src := outputType g reg e.fromNode e.fromPort
  let dst := inputType g reg e.toNode e.toPort
  (if src = none then [.edgeFromUnknownPort e.fromNode e.fromPort] else []) ++
    (if dst = none then [.edgeToUnknownPort e.toNode e.toPort] else []) ++
    match src, dst with
    | some s, some d => if s ≠ d then [.edgeTypeMismatch e s d] else []
    | _, _ => []

def bindingErrors (b : Binding) : List GraphError :=
  let dst := inputType g reg b.node b.port
  (if dst = none then [.bindingToUnknownPort b.node b.port] else []) ++
    match session.payloads.lookup b.payload, dst with
    | none, _ => [.unknownPayload b.payload]
    | some p, some d => if p.type ≠ d then [.bindingTypeMismatch b p.type d] else []
    | some _, none => []

/-- `fed[key] = fed.get(key, 0) + 1`. -/
def feed (fed : Dict (Str × Str) Nat) (key : Str × Str) : Dict (Str × Str) Nat :=
  fed.insert key ((fed.lookup key).getD 0 + 1)

def fed : Dict (Str × Str) Nat := g.targets.foldl feed ∅

def portErrors (n : Node) : List GraphError :=
  match reg.get n.module with
  | none => []
  | some m => m.inputs.flatMap fun port =>
      match ((fed g).lookup (n.id, port.name)).getD 0 with
      | 0 => [.notFed n.id port.name]
      | 1 => []
      | k => [.fedTimes n.id port.name k]

def groupErrors : List Str → List OutputGroup → List GraphError
  | _, [] => []
  | seen, group :: groups =>
      (if group.id = "" then [.groupWithoutId] else []) ++
        (if group.id ∈ seen then [.duplicateGroupId group.id] else []) ++
        (if group.order ∉ outputGroupOrders then [.unknownOrder group.id group.order] else []) ++
        groupErrors (group.id :: seen) groups

def groupRefErrors (o : OutputRef) : List GraphError :=
  match o.group with
  | none => []
  | some group =>
      if group ∉ g.groups.map OutputGroup.id then [.undeclaredGroup o.node o.port group] else []

def outputErrors : List (Str × Str) → List OutputRef → List GraphError
  | _, [] => []
  | seen, o :: os =>
      (if o.key ∈ seen then [.duplicateOutput o.node o.port] else []) ++
        (if outputType g reg o.node o.port = none then [.outputUnknownPort o.node o.port] else []) ++
        groupRefErrors g o ++ outputErrors (o.key :: seen) os

/-- The sorter `topological_order` fills. -/
def sorter : TopologicalSorter Str :=
  g.edges.foldl (fun s e => s.add e.toNode [e.fromNode])
    (g.nodes.foldl (fun s n => s.add n.id []) TopologicalSorter.empty)

/-- Node ids in execution order, or `none` if the graph has a cycle. -/
def topologicalOrder : Option (List Str) := (sorter g).staticOrder

/-- All validation errors; the empty list means valid. -/
def validateGraph : List GraphError :=
  nodeErrors reg [] g.nodes ++
    (if g.nodes.isEmpty then [.noNodes] else []) ++
    (if g.outputs.isEmpty then [.noOutputs] else []) ++
    g.edges.flatMap (edgeErrors g reg) ++
    g.bindings.flatMap (bindingErrors g reg session) ++
    g.nodes.flatMap (portErrors g reg) ++
    groupErrors [] g.groups ++
    outputErrors g reg [] g.outputs ++
    (if topologicalOrder g = none then [.cycle] else [])

end Validate

/-! ### What validation establishes -/

/-- A graph that can run: what the executor takes for granted. -/
structure WellFormed (g : Graph) (reg : ModuleRegistry) (session : Session) : Prop where
  nodes_ne : g.nodes ≠ []
  outputs_ne : g.outputs ≠ []
  ids_nodup : g.nodeIds.Nodup
  module_known : ∀ n ∈ g.nodes, ∃ m, reg.get n.module = some m
  edge_typed : ∀ e ∈ g.edges, ∃ t, outputType g reg e.fromNode e.fromPort = some t ∧
    inputType g reg e.toNode e.toPort = some t
  binding_typed : ∀ b ∈ g.bindings, ∃ p, session.payloads.lookup b.payload = some p ∧
    inputType g reg b.node b.port = some p.type
  fed_once : ∀ n ∈ g.nodes, ∀ m, reg.get n.module = some m → ∀ port ∈ m.inputs,
    g.targets.count (n.id, port.name) = 1
  groups_named : ∀ group ∈ g.groups, group.id ≠ ""
  groups_nodup : (g.groups.map OutputGroup.id).Nodup
  groups_order : ∀ group ∈ g.groups, group.order ∈ outputGroupOrders
  outputs_nodup : (g.outputs.map OutputRef.key).Nodup
  output_known : ∀ o ∈ g.outputs, ∃ t, outputType g reg o.node o.port = some t
  output_group : ∀ o ∈ g.outputs, ∀ group, o.group = some group →
    group ∈ g.groups.map OutputGroup.id
  acyclic : ∀ v, ¬ Relation.TransGen g.Feeds v v

variable {g : Graph} {reg : ModuleRegistry} {session : Session}

theorem nodeErrors_eq_nil_iff (seen : List Str) (ns : List Node) :
    nodeErrors reg seen ns = [] ↔
      (ns.map Node.id).Nodup ∧ (∀ n ∈ ns, n.id ∉ seen) ∧
        ∀ n ∈ ns, ∃ m, reg.get n.module = some m := by
  induction ns generalizing seen with
  | nil => simp [nodeErrors]
  | cons n ns ih =>
      simp only [nodeErrors, List.append_eq_nil_iff, ih, List.map_cons, List.nodup_cons,
        List.forall_mem_cons, ite_eq_right_iff, reduceCtorEq, imp_false,
        ← Option.isSome_iff_exists, Option.isSome_iff_ne_none]
      simp only [List.mem_cons, not_or, List.mem_map, not_exists, not_and]
      constructor
      · rintro ⟨⟨h₁, h₂⟩, h₃, h₄, h₅⟩
        exact ⟨⟨fun x hx hid => (h₄ x hx).1 hid, h₃⟩, ⟨h₁, fun x hx => (h₄ x hx).2⟩, h₂, h₅⟩
      · rintro ⟨⟨h₁, h₂⟩, ⟨h₃, h₄⟩, h₅, h₆⟩
        exact ⟨⟨h₃, h₅⟩, h₂, fun x hx => ⟨h₁ x hx, h₄ x hx⟩, h₆⟩

theorem edgeErrors_eq_nil_iff (e : Edge) :
    edgeErrors g reg e = [] ↔ ∃ t, outputType g reg e.fromNode e.fromPort = some t ∧
      inputType g reg e.toNode e.toPort = some t := by
  unfold edgeErrors
  cases outputType g reg e.fromNode e.fromPort with
  | none => simp
  | some s =>
      cases inputType g reg e.toNode e.toPort with
      | none => simp
      | some d => simp [eq_comm]

theorem bindingErrors_eq_nil_iff (b : Binding) :
    bindingErrors g reg session b = [] ↔ ∃ p, session.payloads.lookup b.payload = some p ∧
      inputType g reg b.node b.port = some p.type := by
  unfold bindingErrors
  cases session.payloads.lookup b.payload with
  | none => simp
  | some p =>
      cases inputType g reg b.node b.port with
      | none => simp
      | some d => simp [eq_comm]

theorem lookup_foldl_feed (ts : List (Str × Str)) (d : Dict (Str × Str) Nat)
    (key : Str × Str) :
    ((ts.foldl feed d).lookup key).getD 0 = (d.lookup key).getD 0 + ts.count key := by
  induction ts generalizing d with
  | nil => simp
  | cons t ts ih =>
      rw [List.foldl_cons, ih, feed, Dict.lookup_insert_ite, List.count_cons]
      by_cases h : key = t
      · subst h
        simp only [if_pos, Option.getD_some, beq_self_eq_true]
        omega
      · have h' : ¬ t = key := fun e => h e.symm
        simp [h, h']

/-- `fed` counts the edges and bindings into a port. -/
theorem fed_eq_count (g : Graph) (key : Str × Str) :
    ((fed g).lookup key).getD 0 = g.targets.count key := by
  simp [fed, lookup_foldl_feed]

theorem portErrors_eq_nil_iff (n : Node) :
    portErrors g reg n = [] ↔ ∀ m, reg.get n.module = some m → ∀ port ∈ m.inputs,
      g.targets.count (n.id, port.name) = 1 := by
  unfold portErrors
  cases reg.get n.module with
  | none => simp
  | some m =>
      simp only [List.flatMap_eq_nil_iff, Option.some.injEq, forall_eq', fed_eq_count]
      refine forall₂_congr fun port _ => ?_
      rcases g.targets.count (n.id, port.name) with - | - | k <;> simp

theorem groupErrors_eq_nil_iff (seen : List Str) (groups : List OutputGroup) :
    groupErrors seen groups = [] ↔
      (groups.map OutputGroup.id).Nodup ∧ (∀ x ∈ groups, x.id ∉ seen) ∧
        (∀ x ∈ groups, x.id ≠ "") ∧ ∀ x ∈ groups, x.order ∈ outputGroupOrders := by
  induction groups generalizing seen with
  | nil => simp [groupErrors]
  | cons x xs ih =>
      simp only [groupErrors, List.append_eq_nil_iff, ih, List.map_cons, List.nodup_cons,
        List.forall_mem_cons, ite_eq_right_iff, reduceCtorEq, imp_false, not_not]
      simp only [List.mem_cons, not_or, List.mem_map, not_exists, not_and]
      constructor
      · rintro ⟨⟨⟨h₁, h₂⟩, h₃⟩, h₄, h₅, h₆, h₇⟩
        exact ⟨⟨fun y hy hid => (h₅ y hy).1 hid, h₄⟩, ⟨h₂, fun y hy => (h₅ y hy).2⟩,
          ⟨h₁, h₆⟩, h₃, h₇⟩
      · rintro ⟨⟨h₁, h₂⟩, ⟨h₃, h₄⟩, ⟨h₅, h₆⟩, h₇, h₈⟩
        exact ⟨⟨⟨h₅, h₃⟩, h₇⟩, h₂, fun y hy => ⟨h₁ y hy, h₄ y hy⟩, h₆, h₈⟩

theorem groupRefErrors_eq_nil_iff (o : OutputRef) :
    groupRefErrors g o = [] ↔
      ∀ group, o.group = some group → group ∈ g.groups.map OutputGroup.id := by
  unfold groupRefErrors
  cases o.group with
  | none => simp
  | some group => simp

theorem outputErrors_eq_nil_iff (seen : List (Str × Str)) (os : List OutputRef) :
    outputErrors g reg seen os = [] ↔
      (os.map OutputRef.key).Nodup ∧ (∀ o ∈ os, o.key ∉ seen) ∧
        (∀ o ∈ os, ∃ t, outputType g reg o.node o.port = some t) ∧
        ∀ o ∈ os, ∀ group, o.group = some group → group ∈ g.groups.map OutputGroup.id := by
  induction os generalizing seen with
  | nil => simp [outputErrors]
  | cons o os ih =>
      simp only [outputErrors, List.append_eq_nil_iff, ih, List.map_cons, List.nodup_cons,
        List.forall_mem_cons, ite_eq_right_iff, reduceCtorEq, imp_false,
        groupRefErrors_eq_nil_iff, ← Option.isSome_iff_exists, Option.isSome_iff_ne_none]
      simp only [List.mem_cons, not_or, List.mem_map, not_exists, not_and]
      constructor
      · rintro ⟨⟨⟨h₁, h₂⟩, h₃⟩, h₄, h₅, h₆, h₇⟩
        exact ⟨⟨fun y hy hid => (h₅ y hy).1 hid, h₄⟩, ⟨h₁, fun y hy => (h₅ y hy).2⟩,
          ⟨h₂, h₆⟩, h₃, h₇⟩
      · rintro ⟨⟨h₁, h₂⟩, ⟨h₃, h₄⟩, ⟨h₅, h₆⟩, h₇, h₈⟩
        exact ⟨⟨⟨h₃, h₅⟩, h₇⟩, h₂, fun y hy => ⟨h₁ y hy, h₄ y hy⟩, h₆, h₈⟩

/-! ### The sorter of a graph -/

theorem foldl_add_nodes (ns : List Node) (s : TopologicalSorter Str) (hs : s.WellFormed) :
    (ns.foldl (fun s n => s.add n.id []) s).WellFormed ∧
      ∀ u v, (ns.foldl (fun s n => s.add n.id []) s).Arc u v ↔ s.Arc u v := by
  induction ns generalizing s with
  | nil => exact ⟨hs, fun _ _ => Iff.rfl⟩
  | cons n ns ih =>
      obtain ⟨h₁, h₂⟩ := ih _ (hs.add n.id [])
      refine ⟨h₁, fun u v => (h₂ u v).trans ?_⟩
      simp [TopologicalSorter.arc_add]

theorem foldl_add_edges (es : List Edge) (s : TopologicalSorter Str) (hs : s.WellFormed) :
    (es.foldl (fun s e => s.add e.toNode [e.fromNode]) s).WellFormed ∧
      ∀ u v, (es.foldl (fun s e => s.add e.toNode [e.fromNode]) s).Arc u v ↔
        s.Arc u v ∨ ∃ e ∈ es, e.fromNode = u ∧ e.toNode = v := by
  induction es generalizing s with
  | nil => exact ⟨hs, by simp⟩
  | cons e es ih =>
      obtain ⟨h₁, h₂⟩ := ih _ (hs.add e.toNode [e.fromNode])
      refine ⟨h₁, fun u v => (h₂ u v).trans ?_⟩
      rw [TopologicalSorter.arc_add, List.mem_singleton, or_assoc, List.exists_mem_cons_iff]
      simp only [eq_comm]

theorem sorter_wellFormed (g : Graph) : (sorter g).WellFormed :=
  (foldl_add_edges g.edges _
    (foldl_add_nodes g.nodes _ TopologicalSorter.wellFormed_empty).1).1

/-- The arcs of the sorter are the edges of the graph. -/
theorem sorter_arc (g : Graph) : (sorter g).Arc = g.Feeds := by
  funext u v
  refine propext ((foldl_add_edges g.edges _
    (foldl_add_nodes g.nodes _ TopologicalSorter.wellFormed_empty).1).2 u v |>.trans ?_)
  rw [(foldl_add_nodes g.nodes _ TopologicalSorter.wellFormed_empty).2]
  simp [TopologicalSorter.Arc, TopologicalSorter.empty, Graph.Feeds]

theorem topologicalOrder_ne_none_iff (g : Graph) :
    topologicalOrder g ≠ none ↔ ∀ v, ¬ Relation.TransGen g.Feeds v v := by
  have hs := sorter_wellFormed g
  rw [← Option.isSome_iff_ne_none, topologicalOrder,
    TopologicalSorter.staticOrder_isSome_iff hs.nodup hs.source_mem hs.target_mem, sorter_arc]

/-- Where every edge joins nodes of the graph, the sorter has no others. -/
theorem mem_sorter_nodes {g : Graph}
    (hends : ∀ e ∈ g.edges, e.fromNode ∈ g.nodeIds ∧ e.toNode ∈ g.nodeIds) (v : Str) :
    v ∈ (sorter g).nodes ↔ v ∈ g.nodeIds := by
  -- the first loop adds the nodes
  have hnodes : ∀ (ns : List Node) (s : TopologicalSorter Str),
      v ∈ (ns.foldl (fun s n => s.add n.id []) s).nodes ↔ v ∈ s.nodes ∨ v ∈ ns.map Node.id := by
    intro ns
    induction ns with
    | nil => simp
    | cons n ns ih =>
        intro s
        rw [List.foldl_cons, ih, TopologicalSorter.mem_nodes_add]
        simp [or_assoc]
  -- and the second only what is there
  have hedges : ∀ (es : List Edge) (s : TopologicalSorter Str),
      (∀ e ∈ es, e.fromNode ∈ g.nodeIds ∧ e.toNode ∈ g.nodeIds) →
      (v ∈ s.nodes ↔ v ∈ g.nodeIds) →
      (v ∈ (es.foldl (fun s e => s.add e.toNode [e.fromNode]) s).nodes ↔ v ∈ g.nodeIds) := by
    intro es
    induction es with
    | nil => exact fun _ _ h => h
    | cons e es ih =>
        intro s hes hs
        obtain ⟨hfrom, hto⟩ := hes e List.mem_cons_self
        refine ih _ (fun x hx => hes x (List.mem_cons_of_mem _ hx)) ?_
        rw [TopologicalSorter.mem_nodes_add, hs, List.mem_singleton]
        constructor
        · rintro (h | rfl | rfl) <;> assumption
        · exact Or.inl
  exact hedges g.edges _ hends ((hnodes g.nodes _).trans (by
    simp [TopologicalSorter.empty, Graph.nodeIds]))

/-- An order lists the sorter's nodes once each, sources before targets. -/
theorem topologicalOrder_spec {g : Graph} {order : List Str}
    (h : topologicalOrder g = some order) :
    order.Perm (sorter g).nodes ∧ ∀ u v, g.Feeds u v → order.idxOf u < order.idxOf v := by
  have hs := sorter_wellFormed g
  have hrank := TopologicalSorter.staticOrder_rank hs.nodup hs.target_mem h
  rwa [sorter_arc] at hrank

/-- An acyclic graph can be walked from its sources down. -/
theorem feeds_wellFounded {g : Graph} (hacyc : ∀ v, ¬ Relation.TransGen g.Feeds v v) :
    WellFounded g.Feeds := by
  obtain ⟨order, horder⟩ := Option.ne_none_iff_exists'.mp
    ((topologicalOrder_ne_none_iff g).mpr hacyc)
  exact Subrelation.wf (fun {u v} h => (topologicalOrder_spec horder).2 u v h)
    (InvImage.wf order.idxOf Nat.lt_wfRel.wf)

/-- **Validation accepts exactly the well-formed graphs.** -/
theorem validateGraph_nil_iff : validateGraph g reg session = [] ↔ WellFormed g reg session := by
  simp only [validateGraph, List.append_eq_nil_iff, nodeErrors_eq_nil_iff,
    List.flatMap_eq_nil_iff, edgeErrors_eq_nil_iff, bindingErrors_eq_nil_iff,
    portErrors_eq_nil_iff, groupErrors_eq_nil_iff, outputErrors_eq_nil_iff, ite_eq_right_iff,
    reduceCtorEq, imp_false, List.isEmpty_iff]
  constructor
  · rintro ⟨⟨⟨⟨⟨⟨⟨⟨⟨hids, -, hmods⟩, hn⟩, ho⟩, he⟩, hb⟩, hp⟩, hgd, -, hgn, hgo⟩,
      hod, -, hok, hog⟩, hc⟩
    exact ⟨hn, ho, hids, hmods, he, hb, hp, hgn, hgd, hgo, hod, hok, hog,
      (topologicalOrder_ne_none_iff g).mp hc⟩
  · rintro ⟨hn, ho, hids, hmods, he, hb, hp, hgn, hgd, hgo, hod, hok, hog, hc⟩
    exact ⟨⟨⟨⟨⟨⟨⟨⟨⟨hids, by simp, hmods⟩, hn⟩, ho⟩, he⟩, hb⟩, hp⟩, hgd, by simp, hgn, hgo⟩,
      hod, by simp, hok, hog⟩, (topologicalOrder_ne_none_iff g).mpr hc⟩

end Formshift
