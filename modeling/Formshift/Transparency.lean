/-
Formshift/Transparency.lean

The cache is transparent.

`referenceOutputs` walks a graph in topological order with no cache at all.
`HasValue` is what it computes for a node, as a relation, and depends on the
recipe alone (`HasValue.eq_of_recipe`).  Keys forget which source port an
input reads and do not tell a payload from a node that hashes like it; among
calls where neither loses anything (`NoConfusion`) every completed call
returns what the reference evaluator computes (`cache_transparent`).
-/
import Formshift.Recipe

namespace Formshift

open Py Steps

/-! ### The reference evaluator -/

/-- `module.run` as a function of inputs, parameters and draft flag. -/
abbrev Run := ModuleManifest → Dict Str Bytes → JsonObject → Bool → Results

/-- Modules that compute `run`. -/
def Run.behaviour (run : Run) : Behaviour := fun m inputs params draft outcome =>
  outcome = .ok (run m inputs params draft)

section Reference

variable (run : Run) (call : Call)

/-- The value of an input port: the bound payload's bytes, or the value of the
named port of the source node. -/
def referenceInput (values : Dict Str Results) (v : Str) (port : PortSpec) :
    Option (Str × Bytes) :=
  match call.graph.bindings.find? fun b => b.target = (v, port.name) with
  | some b => do
    let payload ← call.session.payloads.lookup b.payload
    return (port.name, payload.data)
  | none => do
    let e ← call.graph.edges.find? fun e => e.target = (v, port.name)
    let results ← values.lookup e.fromNode
    let result ← results.lookup e.fromPort
    return (port.name, result.data)

def referenceNode (values : Dict Str Results) (v : Str) : Option Results := do
  let n ← call.graph.nodes.find? fun n => n.id = v
  let m ← call.registry.get n.module
  let inputs ← m.inputs.mapM (referenceInput call values v)
  return run m (Dict.ofPairs inputs) n.params call.draft

def referenceValues : List Str → Dict Str Results → Option (Dict Str Results)
  | [], values => some values
  | v :: vs, values => do
    let results ← referenceNode run call values v
    referenceValues vs (values.insert v results)

/-- Every node once, sources first; then the requested outputs. -/
def referenceOutputs : Option (List ExecutionOutput) := do
  let order ← topologicalOrder call.graph
  let values ← referenceValues run call order ∅
  call.graph.outputs.mapM fun o => do
    let results ← values.lookup o.node
    let result ← results.lookup o.port
    return ⟨o.node, o.port, result.type, result.data⟩

end Reference

/-! ### Values -/

/-- These are the values the ports of `v` read. -/
inductive Reads (run : Run) (call : Call) : Str → List PortSpec → List (Str × Bytes) → Prop
  | nil {v} : Reads run call v [] []
  | payload {v port ports id p rest} (hfeed : feedOf call (v, port.name) = some (.payload id))
      (hp : call.session.payloads.lookup id = some p) (hrest : Reads run call v ports rest) :
      Reads run call v (port :: ports) ((port.name, p.data) :: rest)
  | port {v port ports u q n m inputs result rest}
      (hfeed : feedOf call (v, port.name) = some (.edge u q))
      (hn : call.graph.nodesById.lookup u = some n)
      (hm : call.registry.get n.module = some m)
      (hsrc : Reads run call u m.inputs inputs)
      (hresult : (run m (Dict.ofPairs inputs) n.params call.draft).lookup q = some result)
      (hrest : Reads run call v ports rest) :
      Reads run call v (port :: ports) ((port.name, result.data) :: rest)

/-- `results` is the value of node `v`. -/
def HasValue (run : Run) (call : Call) (v : Str) (results : Results) : Prop :=
  ∃ n m inputs, call.graph.nodesById.lookup v = some n ∧ call.registry.get n.module = some m ∧
    Reads run call v m.inputs inputs ∧ results = run m (Dict.ofPairs inputs) n.params call.draft

section Values

variable {run : Run} {call call' : Call}

/-- A head names its manifest. -/
theorem manifest_of_head {n n' : Node} {m m' : ModuleManifest}
    (hreg : call'.registry = call.registry) (hm : call.registry.get n.module = some m)
    (hm' : call'.registry.get n'.module = some m')
    (hhead : headOf call n m = headOf call' n' m') : m = m' := by
  have hname : m.name = m'.name := congrArg Head.name hhead
  have hget : call.registry.get m.name = some m := by rwa [ModuleRegistry.name_of_get hm]
  have hget' : call.registry.get m'.name = some m' := by
    rw [← hreg, ModuleRegistry.name_of_get hm', hm']
  rw [hname, hget'] at hget
  exact (Option.some.inj hget).symm

/-- A module run on the same inputs under equal heads gives the same results. -/
theorem run_of_head (hsame : ∀ m inputs p p' draft, p.toJson.Same p'.toJson →
      run m inputs p draft = run m inputs p' draft) {n n' : Node} {m : ModuleManifest}
    (hhead : headOf call n m = headOf call' n' m) (inputs : Dict Str Bytes) :
    run m inputs n.params call.draft = run m inputs n'.params call'.draft := by
  have hparams : n.params.toJson.canon = n'.params.toJson.canon := congrArg Head.params hhead
  have hdraft : call.draft = call'.draft := congrArg Head.draft hhead
  rw [hdraft, hsame m inputs _ _ _ (Json.same_of_canon_eq _ _ hparams)]

/-- What the ports read depends on the unfolded inputs alone. -/
theorem Reads.eq_of_inputs (hsame : ∀ m inputs p p' draft, p.toJson.Same p'.toJson →
      run m inputs p draft = run m inputs p' draft) (hreg : call'.registry = call.registry)
    {v v' : Str} {ports ports' : List PortSpec} {inputs : Inputs}
    (h : HasInputs call v ports inputs) (h' : HasInputs call' v' ports' inputs)
    (hnames : ports.map PortSpec.name = ports'.map PortSpec.name) {xs xs' : List (Str × Bytes)}
    (hr : Reads run call v ports xs) (hr' : Reads run call' v' ports' xs') : xs = xs' := by
  induction h generalizing v' ports' xs xs' with
  | nil =>
      cases h'
      cases hr
      cases hr'
      rfl
  | payload hfeed hp _ ih =>
      -- the second call's payload has the bytes the inputs name
      generalize hin : Inputs.payload _ _ = inputs at h'
      cases h' with
      | nil => cases hin
      | port => cases hin
      | payload hfeed' hp' hrest' =>
          obtain ⟨hdata, rfl⟩ := Inputs.payload.inj hin
          obtain ⟨hname, hnames⟩ := List.cons.inj hnames
          cases hr with
          | port hf => cases hfeed.symm.trans hf
          | payload hf hq hrest =>
              obtain rfl := Feed.payload.inj (Option.some.inj (hfeed.symm.trans hf))
              obtain rfl := Option.some.inj (hp.symm.trans hq)
              cases hr' with
              | port hf' => cases hfeed'.symm.trans hf'
              | payload hf' hq' hrest'' =>
                  obtain rfl := Feed.payload.inj (Option.some.inj (hfeed'.symm.trans hf'))
                  obtain rfl := Option.some.inj (hp'.symm.trans hq')
                  rw [hname, hdata, ih hrest' hnames hrest hrest'']
  | port hfeed hn hm _ _ ihsrc ihrest =>
      generalize hin : Inputs.port _ _ _ _ = inputs at h'
      cases h' with
      | nil => cases hin
      | payload => cases hin
      | port hfeed' hn' hm' hsrc' hrest' =>
          obtain ⟨hhead, rfl, rfl, rfl⟩ := Inputs.port.inj hin
          obtain ⟨hname, hnames⟩ := List.cons.inj hnames
          cases hr with
          | payload hf => cases hfeed.symm.trans hf
          | port hf hn₁ hm₁ hsrc₁ hres₁ hrest₁ =>
              obtain ⟨rfl, rfl⟩ := Feed.edge.inj (Option.some.inj (hfeed.symm.trans hf))
              obtain rfl := Option.some.inj (hn.symm.trans hn₁)
              obtain rfl := Option.some.inj (hm.symm.trans hm₁)
              cases hr' with
              | payload hf' => cases hfeed'.symm.trans hf'
              | port hf' hn₂ hm₂ hsrc₂ hres₂ hrest₂ =>
                  obtain ⟨rfl, -⟩ := Feed.edge.inj (Option.some.inj (hfeed'.symm.trans hf'))
                  obtain ⟨-, rfl⟩ := Feed.edge.inj (Option.some.inj (hfeed'.symm.trans hf'))
                  obtain rfl := Option.some.inj (hn'.symm.trans hn₂)
                  obtain rfl := Option.some.inj (hm'.symm.trans hm₂)
                  obtain rfl := manifest_of_head hreg hm hm' hhead
                  obtain rfl := ihsrc hsrc' rfl hsrc₁ hsrc₂
                  rw [run_of_head hsame hhead, hres₂] at hres₁
                  obtain rfl := Option.some.inj hres₁
                  rw [hname, ihrest hrest' hnames hrest₁ hrest₂]

/-- **The value of a node depends on its recipe alone.** -/
theorem HasValue.eq_of_recipe (hsame : ∀ m inputs p p' draft, p.toJson.Same p'.toJson →
      run m inputs p draft = run m inputs p' draft) (hreg : call'.registry = call.registry)
    {v v' : Str} {rec : Recipe} (hrec : HasRecipe call v rec) (hrec' : HasRecipe call' v' rec)
    {results results' : Results} (h : HasValue run call v results)
    (h' : HasValue run call' v' results') : results = results' := by
  obtain ⟨n, m, hn, hm, hhead, hin⟩ := hrec
  obtain ⟨n', m', hn', hm', hhead', hin'⟩ := hrec'
  obtain ⟨n₁, m₁, xs, hn₁, hm₁, hread, rfl⟩ := h
  obtain ⟨n₂, m₂, ys, hn₂, hm₂, hread', rfl⟩ := h'
  obtain rfl := Option.some.inj (hn.symm.trans hn₁)
  obtain rfl := Option.some.inj (hm.symm.trans hm₁)
  obtain rfl := Option.some.inj (hn'.symm.trans hn₂)
  obtain rfl := Option.some.inj (hm'.symm.trans hm₂)
  have hheads : headOf call n m = headOf call' n' m' := hhead.symm.trans hhead'
  obtain rfl := manifest_of_head hreg hm hm' hheads
  rw [Reads.eq_of_inputs hsame hreg hin hin' rfl hread hread', run_of_head hsame hheads]

/-- Modules of the registry return conforming results. -/
def Run.Conforms (run : Run) (reg : ModuleRegistry) : Prop :=
  ∀ m, reg.get m.name = some m → ∀ inputs params draft,
    Formshift.Conforms m (run m inputs params draft)

/-- A value has a result on every port validation knows. -/
theorem HasValue.port (hconf : run.Conforms call.registry) {u q ty : Str} {results : Results}
    (h : HasValue run call u results)
    (hout : outputType call.graph call.registry u q = some ty) :
    ∃ result, results.lookup q = some result := by
  obtain ⟨n, m, hn, hm, hport⟩ := nodeManifest_of_outputType hout
  obtain ⟨n', m', inputs, hn', hm', -, rfl⟩ := h
  obtain rfl := Option.some.inj (hn.symm.trans hn')
  obtain rfl := Option.some.inj (hm.symm.trans hm')
  obtain ⟨p, hp, -⟩ := Option.map_eq_some_iff.mp hport
  have hreg : call.registry.get m.name = some m := by rwa [ModuleRegistry.name_of_get hm]
  exact (hconf m hreg _ _ _).exists_lookup hp

theorem exists_reads (hw : call.Valid) (hconf : run.Conforms call.registry) {v : Str} {n : Node}
    {m : ModuleManifest} (hn : call.graph.nodesById.lookup v = some n)
    (hm : call.registry.get n.module = some m)
    (hsrc : ∀ u ∈ call.deps v, ∃ results, HasValue run call u results) (ports : List PortSpec)
    (hports : ∀ port ∈ ports, port ∈ m.inputs) : ∃ xs, Reads run call v ports xs := by
  induction ports with
  | nil => exact ⟨[], .nil⟩
  | cons port ports ih =>
      obtain ⟨rest, hrest⟩ := ih fun p hp => hports p (List.mem_cons_of_mem _ hp)
      obtain ⟨feed, hfeed⟩ := hw.feedOf hn hm (hports port List.mem_cons_self)
      cases feed with
      | payload id =>
          obtain ⟨b, hb, -, rfl⟩ := binding_of_feedOf hfeed
          obtain ⟨p, hp, -⟩ := hw.binding_typed b hb
          exact ⟨_, .payload hfeed hp hrest⟩
      | edge u q =>
          obtain ⟨results, hval⟩ := hsrc u (mem_deps_of_feedOf hfeed)
          obtain ⟨e, he, -, rfl, rfl⟩ := edge_of_feedOf hfeed
          obtain ⟨ty, hout, -⟩ := hw.edge_typed e he
          obtain ⟨result, hresult⟩ := hval.port hconf hout
          obtain ⟨n', m', inputs, hn', hm', hread, rfl⟩ := hval
          exact ⟨_, .port hfeed hn' hm' hread hresult hrest⟩

/-- Every node of a valid graph has a value. -/
theorem exists_hasValue (hw : call.Valid) (hconf : run.Conforms call.registry) {v : Str}
    (hv : v ∈ call.graph.nodeIds) : ∃ results, HasValue run call v results := by
  induction v using (feeds_wellFounded hw.acyclic).induction with
  | _ v ih =>
      obtain ⟨n, m, hn, hm⟩ := hw.lookup_node hv
      obtain ⟨xs, hread⟩ := exists_reads hw hconf hn hm
        (fun u hu => ih u (Call.mem_deps.mp hu) (hw.deps_subset hu).1) m.inputs fun _ => id
      exact ⟨_, n, m, xs, hn, hm, hread, rfl⟩

/-! ### The evaluator computes values -/

/-- The evaluator has the value of `u`. -/
def Knows (run : Run) (call : Call) (values : Dict Str Results) (u : Str) : Prop :=
  ∃ results, values.lookup u = some results ∧ HasValue run call u results

theorem referenceInput_reads (hw : call.Valid) (hconf : run.Conforms call.registry) {v : Str}
    {n : Node} {m : ModuleManifest} (hn : call.graph.nodesById.lookup v = some n)
    (hm : call.registry.get n.module = some m) {values : Dict Str Results}
    (hsrc : ∀ u ∈ call.deps v, Knows run call values u) (ports : List PortSpec)
    (hports : ∀ port ∈ ports, port ∈ m.inputs) :
    ∃ xs, List.Forall₂ (fun port x => referenceInput call values v port = some x) ports xs ∧
      Reads run call v ports xs := by
  induction ports with
  | nil => exact ⟨[], .nil, .nil⟩
  | cons port ports ih =>
      -- the other ports, by the induction
      obtain ⟨rest, hrest, hread⟩ := ih fun p hp => hports p (List.mem_cons_of_mem _ hp)
      have hport := hports port List.mem_cons_self
      cases hb : call.graph.bindings.find? fun b => b.target = (v, port.name) with
      -- the payload of the binding
      | some b =>
          have hmem := List.mem_of_find?_eq_some hb
          have htarget : b.target = (v, port.name) := by simpa using List.find?_some hb
          obtain ⟨p, hp, -⟩ := hw.binding_typed b hmem
          refine ⟨(port.name, p.data) :: rest, .cons (by simp [referenceInput, hb, hp]) hrest, ?_⟩
          exact .payload (feedOf_of_binding hw hn hm hport hmem htarget) hp hread
      | none =>
          -- without a binding the port is fed by an edge
          have hnob : ∀ b ∈ call.graph.bindings, b.target ≠ (v, port.name) := by
            simpa using List.find?_eq_none.mp hb
          cases he : call.graph.edges.find? fun e => e.target = (v, port.name) with
          | none =>
              have hnoe : ∀ e ∈ call.graph.edges, e.target ≠ (v, port.name) := by
                simpa using List.find?_eq_none.mp he
              obtain ⟨feed, hfeed⟩ := hw.feedOf hn hm hport
              cases feed with
              | payload id =>
                  obtain ⟨b, hmem, ht, -⟩ := binding_of_feedOf hfeed
                  exact absurd ht (hnob b hmem)
              | edge u q =>
                  obtain ⟨e, hmem, ht, -, -⟩ := edge_of_feedOf hfeed
                  exact absurd ht (hnoe e hmem)
          | some e =>
              have hmem := List.mem_of_find?_eq_some he
              have htarget : e.target = (v, port.name) := by simpa using List.find?_some he
              have hfeed := feedOf_of_edge hw hn hm hport hmem htarget
              -- the result of the source, which has its port
              obtain ⟨results, hlook, hval⟩ := hsrc _ (mem_deps_of_feedOf hfeed)
              obtain ⟨ty, hout, -⟩ := hw.edge_typed e hmem
              obtain ⟨result, hresult⟩ := hval.port hconf hout
              obtain ⟨n', m', inputs, hn', hm', hsub, rfl⟩ := hval
              refine ⟨(port.name, result.data) :: rest,
                .cons (by simp [referenceInput, hb, he, hlook, hresult]) hrest, ?_⟩
              exact .port hfeed hn' hm' hsub hresult hread

/-- One step of the walk, at a node whose sources are known. -/
theorem referenceNode_value (hw : call.Valid) (hconf : run.Conforms call.registry) {v : Str}
    (hv : v ∈ call.graph.nodeIds) {values : Dict Str Results}
    (hsrc : ∀ u ∈ call.deps v, Knows run call values u) :
    ∃ results, referenceNode run call values v = some results ∧ HasValue run call v results := by
  obtain ⟨n, m, hn, hm⟩ := hw.lookup_node hv
  obtain ⟨hmem, hid⟩ := mem_nodeIds_of_lookup hn
  obtain ⟨xs, hxs, hread⟩ := referenceInput_reads hw hconf hn hm hsrc m.inputs fun _ => id
  have hfind : call.graph.nodes.find? (fun n => n.id = v) = some n := by
    cases hf : call.graph.nodes.find? fun n => n.id = v with
    | none => exact absurd hid (by simpa using List.find?_eq_none.mp hf n hmem)
    | some n' =>
        have hid' : n'.id = v := by simpa using List.find?_some hf
        rw [List.inj_on_of_nodup_map hw.ids_nodup (List.mem_of_find?_eq_some hf) hmem
          (hid'.trans hid.symm)]
  refine ⟨run m (Dict.ofPairs xs) n.params call.draft, ?_, n, m, xs, hn, hm, hread, rfl⟩
  simp [referenceNode, hfind, hm, mapM_some_iff.mpr hxs]

/-- The walk over the rest of an order knows every node of it in the end. -/
theorem referenceValues_known (hw : call.Valid) (hconf : run.Conforms call.registry)
    {order : List Str} (hids : ∀ v ∈ order, v ∈ call.graph.nodeIds) (hnd : order.Nodup)
    (hrank : ∀ u v, call.graph.Feeds u v → order.idxOf u < order.idxOf v)
    (todo done : List Str) (hsplit : order = done ++ todo) (values : Dict Str Results)
    (hdone : ∀ u ∈ done, Knows run call values u) :
    ∃ values', referenceValues run call todo values = some values' ∧
      ∀ u ∈ order, Knows run call values' u := by
  induction todo generalizing done values with
  | nil =>
      rw [List.append_nil] at hsplit
      exact ⟨values, rfl, hsplit ▸ hdone⟩
  | cons v todo ih =>
      have hvnot : v ∉ done := fun hin => by
        rw [hsplit] at hnd
        exact (List.nodup_append.mp hnd).2.2 v hin v List.mem_cons_self rfl
      -- a source of `v` comes earlier in the order
      have hsrc : ∀ u ∈ call.deps v, Knows run call values u := by
        intro u hu
        refine hdone u ?_
        have hlt := hrank u v (Call.mem_deps.mp hu)
        rw [hsplit, List.idxOf_append_of_notMem hvnot, List.idxOf_cons_self, Nat.add_zero] at hlt
        by_contra hnot
        rw [List.idxOf_append_of_notMem hnot] at hlt
        omega
      obtain ⟨results, hres, hval⟩ := referenceNode_value hw hconf
        (hids v (by rw [hsplit]; simp)) hsrc
      have hnext : ∀ u ∈ done ++ [v], Knows run call (values.insert v results) u := by
        intro u hu
        by_cases huv : u = v
        · subst huv
          exact ⟨results, by rw [Dict.lookup_insert_ite, if_pos rfl], hval⟩
        · have hin : u ∈ done := by simpa [huv] using hu
          obtain ⟨r, hr, hv'⟩ := hdone u hin
          exact ⟨r, by rw [Dict.lookup_insert_ite, if_neg huv, hr], hv'⟩
      obtain ⟨values', hvals, hall⟩ := ih (done ++ [v]) (by simp [hsplit]) _ hnext
      exact ⟨values', by simp [referenceValues, hres, hvals], hall⟩

/-- On a valid graph the evaluator knows every node when it collects the outputs. -/
theorem exists_referenceValues (hw : call.Valid) (hconf : run.Conforms call.registry) :
    ∃ order values, topologicalOrder call.graph = some order ∧
      referenceValues run call order ∅ = some values ∧
      ∀ v ∈ call.graph.nodeIds, Knows run call values v := by
  obtain ⟨order, horder⟩ := Option.ne_none_iff_exists'.mp
    ((topologicalOrder_ne_none_iff call.graph).mpr hw.acyclic)
  obtain ⟨hperm, hrank⟩ := topologicalOrder_spec horder
  have hmem : ∀ v, v ∈ order ↔ v ∈ call.graph.nodeIds := fun v =>
    hperm.mem_iff.trans (mem_sorter_nodes (fun e he => hw.edge_ends he) v)
  have hnd : order.Nodup := hperm.nodup_iff.mpr (sorter_wellFormed call.graph).nodup
  obtain ⟨values, hvals, hall⟩ := referenceValues_known hw hconf (fun v hv => (hmem v).mp hv) hnd
    hrank order [] rfl ∅ fun _ h => nomatch h
  exact ⟨order, values, horder, hvals, fun v hv => hall v ((hmem v).mpr hv)⟩

end Values

/-! ### Transparency -/

/-- Keys tell the nodes of these calls apart: no bound payload spells the
canonical text of a node, no two nodes have one text by the spelling of their
parameters, and recipes that differ, differ in more than the source ports they
read. -/
structure NoConfusion (host : Host) (S : Call → Prop) : Prop extends KeysTell host S where
  ports : ∀ call call', S call → S call' → ∀ v v' rec rec', HasRecipe call v rec →
    HasRecipe call' v' rec' → rec.forgetPorts = rec'.forgetPorts → rec = rec'

section Transparent

variable {host : Host} {run : Run}

/-- A cached result is the value of every node with its key. -/
def CacheValues (host : Host) (run : Run) (S : Call → Prop) (cache : ResultCache) : Prop :=
  ∀ key results, cache.get key = some results → ∀ call, S call → call.Valid → ∀ v rec,
    HasRecipe call v rec → rec.key host.blake2b = key → HasValue run call v results

/-- What a node reads from recorded values. -/
theorem reads_of_found {call : Call} {s : ExecState} {v : Str}
    (hrec : ∀ u results, s.nodeResults.lookup u = some results → HasValue run call u results)
    {ports : List PortSpec} {found : List (Str × String × Bytes)}
    (h : List.Forall₂ (fun port x => x.1 = port.name ∧
      InputIs host call s v port.name x.2.1 x.2.2) ports found) :
    Reads run call v ports (found.map fun x => (x.1, x.2.2)) := by
  induction h with
  | nil => exact .nil
  | cons hx _ ih =>
      rw [List.map_cons, hx.1]
      rcases hx.2 with ⟨id, p, hfeed, hp, -, hdata⟩ | ⟨u, q, results, result, hfeed, -, hres, hq, hdata⟩
      · rw [hdata]
        exact .payload hfeed hp ih
      · obtain ⟨n, m, inputs, hn, hm, hread, rfl⟩ := hrec u results hres
        rw [hdata]
        exact .port hfeed hn hm hread hq ih

/-- The value of a begun node. -/
def Valued (run : Run) (call : Call) (c : NodeCall) (results : Results) : Prop :=
  HasValue run call c.node.id results

theorem begun_node_id {call : Call} {s : ExecState} {v : Str} {c : NodeCall}
    (h : beginNode host call s v = .ok c) : c.node.id = v := by
  obtain ⟨_, hn, -⟩ := beginNode_ok_iff.mp h
  exact (mem_nodeIds_of_lookup hn).2

theorem begun_mem_nodeIds {call : Call} {s : ExecState} {v : Str} {c : NodeCall}
    (h : beginNode host call s v = .ok c) : v ∈ call.graph.nodeIds := by
  obtain ⟨_, hn, -⟩ := beginNode_ok_iff.mp h
  obtain ⟨hmem, hid⟩ := mem_nodeIds_of_lookup hn
  exact hid ▸ List.mem_map.mpr ⟨c.node, hmem, rfl⟩

/-- Recorded results are values. -/
theorem recorded_value {call : Call} {s : ExecState}
    (hD : DataInv host call (Valued run call) s) (u : Str) (results : Results)
    (hres : s.nodeResults.lookup u = some results) : HasValue run call u results := by
  obtain ⟨key, hkey⟩ := Dict.exists_lookup_of_mem
    ((hD.results_iff u).mp (Dict.mem_of_lookup hres))
  obtain ⟨c, results', hc, -, hres', hval⟩ := hD.recorded u key hkey
  obtain rfl := Option.some.inj (hres.symm.trans hres')
  exact begun_node_id hc ▸ hval

theorem transparent_rule {reg : ModuleRegistry} (hinj : Function.Injective host.blake2b)
    (hconf : run.Conforms reg) (hsame : ∀ m inputs p p' draft, p.toJson.Same p'.toJson →
      run m inputs p draft = run m inputs p' draft) {S : Call → Prop}
    (hreg : ∀ call, S call → call.registry = reg)
    (hno : NoConfusion host fun call => S call ∧ call.Valid) :
    CacheRule host S run.behaviour (Valued run) (CacheValues host run S) where
  hit := by
    intro cache call s v c results hS hw hI hC hc hget
    obtain ⟨rec, hrec⟩ := exists_hasRecipe hw (begun_mem_nodeIds hc)
    have hval := hC c.key results hget call hS hw v rec hrec (begun_key_eq hI.data hc hrec).symm
    show HasValue run call c.node.id results
    rw [begun_node_id hc]
    exact hval
  ret := by
    intro call s v c results hS hw hI hc hrun hconf'
    obtain rfl := Except.ok.inj hrun
    have hid := begun_node_id hc
    obtain ⟨found, hn, hm, hf, hi, -⟩ := beginNode_ok_iff.mp hc
    refine ⟨c.node, c.manifest, found.map fun x => (x.1, x.2.2), hid ▸ hn, hm, ?_, by rw [hi]⟩
    exact hid ▸ reads_of_found (recorded_value hI.data) hf
  put := by
    intro cache call s v c results hS hw hI hC hc hval key r hget call' hS' hw' v' rec' hrec' hkey
    rw [ResultCache.get_put] at hget
    split at hget
    · rename_i hck
      obtain rfl := Option.some.inj hget
      obtain ⟨rec, hrec⟩ := exists_hasRecipe hw (begun_mem_nodeIds hc)
      have hkeys : rec.key host.blake2b = rec'.key host.blake2b := by
        rw [← begun_key_eq hI.data hc hrec, hkey, hck]
      -- equal keys, so equal recipes, so equal values
      have hfp := forgetPorts_eq_of_key_eq hinj hno.toKeysTell ⟨hS, hw⟩ ⟨hS', hw'⟩ hrec hrec' hkeys
      obtain rfl := hno.ports call call' ⟨hS, hw⟩ ⟨hS', hw'⟩ v v' rec rec' hrec hrec' hfp
      have hmem' : v' ∈ call'.graph.nodeIds := by
        obtain ⟨n, _, hn, -⟩ := hrec'
        obtain ⟨hmem, hid⟩ := mem_nodeIds_of_lookup hn
        exact hid ▸ List.mem_map.mpr ⟨n, hmem, rfl⟩
      obtain ⟨r', hval'⟩ := exists_hasValue hw' ((hreg call' hS').symm ▸ hconf) hmem'
      have hval₀ : HasValue run call v results := begun_node_id hc ▸ hval
      rwa [hval₀.eq_of_recipe hsame ((hreg call' hS').trans (hreg call hS).symm) hrec hrec' hval']
    · exact hC key r hget call' hS' hw' v' rec' hrec' hkey

/-- **The cache is transparent** wherever keys tell the nodes of the started
calls apart: every completed call reports what the reference evaluator, which
has no cache, computes. -/
theorem cache_transparent (host : Host) (hinj : Function.Injective host.blake2b)
    (reg : ModuleRegistry) (run : Run) (hconf : run.Conforms reg)
    (hsame : ∀ m inputs p p' draft, p.toJson.Same p'.toJson →
      run m inputs p draft = run m inputs p' draft) {E : Engine}
    (hrun : EngineReaches host (fun call => call.registry = reg) run.behaviour Engine.empty E)
    (hno : NoConfusion host fun call => call ∈ E.members.map Prod.fst ∧ call.Valid)
    {call : Call} {s : ExecState} (hmem : (call, s) ∈ E.members) {r : ExecutionReport}
    (hr : s.phase = .returned r) : referenceOutputs run call = some r.outputs := by
  obtain ⟨i, hi⟩ := List.mem_iff_getElem?.mp hmem
  have hreg : ∀ call ∈ E.members.map Prod.fst, call.registry = reg := by
    intro call' hmem'
    obtain ⟨⟨_, s'⟩, hin, rfl⟩ := List.mem_map.mp hmem'
    obtain ⟨j, hj⟩ := List.mem_iff_getElem?.mp hin
    have hinv := engine_inv (trivial_rule host _ run.behaviour) trivial hrun
    exact (hinv.members j _ s' hj).1
  -- the cache holds values of the reference, and of nothing else
  have hrule := transparent_rule hinj hconf hsame
    (S := fun call => call ∈ E.members.map Prod.fst) hreg hno
  have hempty : CacheValues host run (fun call => call ∈ E.members.map Prod.fst) ∅ := by
    intro key results hget
    simp at hget
  have hinv := engine_inv hrule hempty (hrun.restrict fun _ h => h)
  obtain ⟨hS, hcall⟩ := hinv.members i call s hi
  have hw := hcall.valid_of_returned hr
  have hI := hcall.1 hw
  -- the reference computes a value of each node
  obtain ⟨order, values, horder, hvals, hknown⟩ :=
    exists_referenceValues hw ((hreg call hS).symm ▸ hconf)
  have hrep := hI.report r hr
  unfold report at hrep
  split at hrep
  · cases hrep
  · rename_i outputs hout
    obtain rfl := Phase.returned.inj hrep
    have hcollect := collected_outputs hI.data hout
    simp only [referenceOutputs, horder, hvals, Option.bind_eq_bind, Option.bind_some]
    refine mapM_some_iff.mpr (hcollect.imp fun o output ho => ?_)
    obtain ⟨results, result, hres, hport, rfl⟩ := ho
    -- what was recorded is the value of a recipe, and a node has one
    have hval := recorded_value hI.data _ _ hres
    have hval' := hval
    obtain ⟨n, -, -, hn, -⟩ := hval'
    have hnode : o.node ∈ call.graph.nodeIds := by
      obtain ⟨hmemn, hid⟩ := mem_nodeIds_of_lookup hn
      have hid' : n.id = o.node := hid
      exact hid' ▸ List.mem_map.mpr ⟨n, hmemn, rfl⟩
    obtain ⟨r', hlook, hval''⟩ := hknown o.node hnode
    obtain ⟨rec, hrec⟩ := exists_hasRecipe hw hnode
    obtain rfl := hval''.eq_of_recipe hsame rfl hrec hrec hval
    have hport' : r'.lookup o.port = some result := hport
    simp [hlook, hport', OutputRef.key]

end Transparent

/-! ### Two ports of one source -/

/-- Results compared entry by entry, so that the guard below computes. -/
theorem eq_ok_iff_entries {outcome : Except ModuleExn Results} {results : Results} :
    outcome = .ok results ↔ outcome.toOption.map AList.entries = some results.entries := by
  cases outcome with
  | error e => simp [Except.toOption]
  | ok r => simp [Except.toOption, AList.ext_iff]

instance (run : Run) (call : Call) (x : ResultCache × ExecState) (a : Act) :
    Decidable (Permits run.behaviour call x a) :=
  match a with
  | .worker i (.ret outcome) =>
    decidable_of_iff (∀ f ∈ x.2.futures[i]?, ∀ c ∈ f.stage.runningCall,
        outcome.toOption.map AList.entries =
          some (run c.manifest c.inputs c.node.params call.draft).entries) (by
      simp only [Permits, Option.mem_def, Stage.runningCall_eq_some_iff, ← eq_ok_iff_entries]
      exact ⟨fun h f c hf hc => h f hf c hc, fun h f hf c hc => h f c hf hc⟩)
  | .worker _ .start | .worker _ .lookup | .worker _ .check | .worker _ .put | .worker _ .record
  | .worker _ .notify | .worker _ .emit | .worker _ .emitted | .worker _ .finish
  | .loop | .submit | .wait _ | .process _ | .join | .cancel => isTrue trivial

/-- The bytes of a name. -/
def nameBytes : Str → Bytes
  | .text name => encode name
  | .cut _ _ _ => []

/-- What comes in, and then the name of the port. -/
def sampleRun : Run := fun m inputs _ _ =>
  resultsWith m fun p => (inputs.lookup (.text "in")).getD [] ++ nameBytes p.name

/-- `x` copies the first port of `split`, `y` the second. -/
def twoPortsCall : Call where
  graph := {
    nodes := [{ id := "s", module := "split" }, { id := "x", module := "copy" },
      { id := "y", module := "copy" }]
    edges := [⟨"s", "a", "x", "in"⟩, ⟨"s", "b", "y", "in"⟩]
    bindings := []
    outputs := [{ node := "x", port := "out" }, { node := "y", port := "out" }] }
  registry := sampleRegistry
  session := ⟨"session", ∅⟩
  draft := false
  workers := some 1

/-- `s`, then `x`, then `y`, which finds what `x` has put into the cache. -/
def twoPortsActs : List Act :=
  [.loop, .submit, .submit] ++ ranActs 0 (resultsWith splitModule fun p => nameBytes p.name) ++
    [.worker 0 .finish, .wait [0], .process ["x", "y"], .loop, .submit, .submit, .submit] ++
    ranActs 1 (resultsWith copyModule fun _ => encode "aout") ++ emitActs 1 ++
    servedActs 2 ++ emitActs 2 ++ [.wait [1, 2], .process [], .process [], .loop]

/-- What a call that has returned reports. -/
def Phase.outputs : Phase → Option (List ExecutionOutput)
  | .returned r => some r.outputs
  | _ => none

theorem Phase.outputs_eq_some_iff {p : Phase} {outputs : List ExecutionOutput} :
    p.outputs = some outputs ↔ ∃ r, p = .returned r ∧ r.outputs = outputs := by
  cases p <;> simp [Phase.outputs]

theorem sampleRun_conforms (reg : ModuleRegistry) : sampleRun.Conforms reg :=
  fun m _ _ _ _ => resultsWith_conform m _

/-- `y` gets the bytes of `x`: their keys are the same. -/
theorem cache_transparent_fails : ¬ ∀ (host : Host) (reg : ModuleRegistry) (run : Run) (E : Engine),
    Function.Injective host.blake2b → run.Conforms reg →
    (∀ m inputs p p' draft, p.toJson.Same p'.toJson →
      run m inputs p draft = run m inputs p' draft) →
    EngineReaches host (fun call => call.registry = reg) run.behaviour Engine.empty E →
    ∀ call s r, (call, s) ∈ E.members → s.phase = .returned r →
      referenceOutputs run call = some r.outputs := by
  intro h
  have hcheck : (runActs (guarded (step sampleHost twoPortsCall)
      (Permits sampleRun.behaviour twoPortsCall)) twoPortsActs (∅, enter twoPortsCall)).bind
        (fun x => x.2.phase.outputs) = some [⟨"x", "out", "text", encode "aout"⟩,
          ⟨"y", "out", "text", encode "aout"⟩] := by
    decide +kernel
  obtain ⟨x, hx, houtputs⟩ := Option.bind_eq_some_iff.mp hcheck
  obtain ⟨r, hr, hout⟩ := Phase.outputs_eq_some_iff.mp houtputs
  have hrun : EngineReaches sampleHost (fun call => call.registry = sampleRegistry)
      sampleRun.behaviour Engine.empty ⟨x.1, [(twoPortsCall, x.2)]⟩ :=
    engineReaches_of_call (S := fun call => call.registry = sampleRegistry) rfl (reaches_of_guarded hx)
  have href := h sampleHost sampleRegistry sampleRun _ sampleHost_injective (sampleRun_conforms _)
    (fun _ _ _ _ _ _ => rfl) hrun twoPortsCall x.2 r List.mem_cons_self hr
  rw [hout] at href
  revert href
  decide +kernel

/-- The chain's nodes differ in more than ports. -/
theorem chain_noConfusion : NoConfusion sampleHost fun call => call = chainCall ∧ call.Valid where
  spelling := by
    rintro call ⟨rfl, -⟩ v port id p hfeed
    obtain ⟨b, hb, -⟩ := binding_of_feedOf hfeed
    cases hb
  homographs := by
    refine noHomographs_of_shown ?_
    rintro call ⟨rfl, -⟩ n hn
    simp only [chainCall, List.mem_cons, List.not_mem_nil, or_false] at hn
    rcases hn with rfl | rfl <;> rfl
  ports := by
    rintro call call' ⟨rfl, -⟩ ⟨rfl, -⟩ v v' ⟨head, inputs⟩ ⟨head', inputs'⟩ hrec hrec' hfp
    have hhead : head = head' := congrArg Recipe.head hfp
    obtain ⟨n, m, hn, hm, rfl, hin⟩ := hrec
    obtain ⟨n', m', hn', hm', rfl, hin'⟩ := hrec'
    obtain ⟨hmem, hid⟩ := mem_nodeIds_of_lookup hn
    obtain ⟨hmem', hid'⟩ := mem_nodeIds_of_lookup hn'
    have hmodule : n.module = n'.module := by
      rw [← ModuleRegistry.name_of_get hm, ← ModuleRegistry.name_of_get hm']
      exact congrArg (fun h : Head => Str.text h.name) hhead
    -- the two nodes run different modules
    have hsame : n = n' := by
      simp only [chainCall, List.mem_cons, List.not_mem_nil, or_false] at hmem hmem'
      rcases hmem with rfl | rfl <;> rcases hmem' with rfl | rfl
      · rfl
      · exact absurd hmodule (by decide)
      · exact absurd hmodule (by decide)
      · rfl
    subst hsame
    obtain rfl : v = v' := hid.symm.trans hid'
    obtain rfl := Option.some.inj (hm.symm.trans hm')
    obtain rfl : inputs = inputs' := hin.unique hin'
    rfl

theorem cache_transparent_chain : ∃ (E : Engine) (s : ExecState) (r : ExecutionReport),
    EngineReaches sampleHost (fun call => call.registry = sampleRegistry) sampleRun.behaviour
      Engine.empty E ∧ (chainCall, s) ∈ E.members ∧ s.phase = .returned r ∧
      referenceOutputs sampleRun chainCall = some r.outputs := by
  have hcheck : ((runActs (guarded (step sampleHost chainCall)
      (Permits sampleRun.behaviour chainCall)) (chainActs
        (ranActs 0 (resultsWith splitModule fun p => nameBytes p.name)) "c"
        (resultsWith copyModule fun _ => encode "aout")) (∅, enter chainCall)).map
          fun x => x.2.phase.isReturned) = some true := by
    decide +kernel
  obtain ⟨x, hx, hdone⟩ := Option.map_eq_some_iff.mp hcheck
  obtain ⟨r, hr⟩ := Phase.returned_of_isReturned hdone
  have hrun : EngineReaches sampleHost (fun call => call.registry = sampleRegistry)
      sampleRun.behaviour Engine.empty ⟨x.1, [(chainCall, x.2)]⟩ :=
    engineReaches_of_call (S := fun call => call.registry = sampleRegistry) rfl (reaches_of_guarded hx)
  have hno : NoConfusion sampleHost fun call =>
      call ∈ [(chainCall, x.2)].map Prod.fst ∧ call.Valid := by
    simpa using chain_noConfusion
  exact ⟨_, x.2, r, hrun, List.mem_cons_self, hr, cache_transparent sampleHost sampleHost_injective
    sampleRegistry sampleRun (sampleRun_conforms _) (fun _ _ _ _ _ _ => rfl) hrun hno
    List.mem_cons_self hr⟩

end Formshift
