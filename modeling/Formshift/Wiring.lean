/-
Formshift/Wiring.lean

What feeds an input port, and what `run_node` makes of it.

`feedOf` is the one binding or edge into a port.  `beginNode_ok_iff` unfolds
the part of `run_node` before the cache lookup into what it reads;
`beginNode_ok` says that on a valid call it cannot fail once the results of
every source are there, and `beginNode_mono` that nothing recorded later can
change its outcome.
-/
import Formshift.Lib.Except
import Formshift.Scheduler

namespace Formshift

open Py

/-! ### Feeds -/

/-- What an input port is fed from. -/
inductive Feed where
  | payload (id : Str)
  | edge (node port : Str)
  deriving DecidableEq

section Feeds

variable (call : Call)

/-- The binding into a port if there is one, otherwise the edge. -/
def feedOf (target : Str × Str) : Option Feed :=
  match (bindingInto call).lookup target with
  | some payload => some (.payload payload)
  | none => ((edgeInto call).lookup target).map fun src => .edge src.1 src.2

variable {call}

theorem binding_of_feedOf {target : Str × Str} {id : Str}
    (h : feedOf call target = some (.payload id)) :
    ∃ b ∈ call.graph.bindings, b.target = target ∧ b.payload = id := by
  unfold feedOf at h
  split at h
  · rename_i payload hb
    obtain rfl : payload = id := by simpa using h
    obtain ⟨b, hmem, heq⟩ := List.mem_map.mp (Dict.mem_of_lookup_ofPairs hb)
    obtain ⟨rfl, rfl⟩ := Prod.mk.inj heq
    exact ⟨b, hmem, rfl, rfl⟩
  · simp at h

theorem edge_of_feedOf {target : Str × Str} {u q : Str}
    (h : feedOf call target = some (.edge u q)) :
    ∃ e ∈ call.graph.edges, e.target = target ∧ e.fromNode = u ∧ e.fromPort = q := by
  unfold feedOf at h
  split at h
  · simp at h
  · obtain ⟨src, hsrc, heq⟩ := Option.map_eq_some_iff.mp h
    obtain ⟨rfl, rfl⟩ := Feed.edge.inj heq
    obtain ⟨e, he, hpair⟩ := List.mem_map.mp (Dict.mem_of_lookup_ofPairs hsrc)
    obtain ⟨rfl, rfl⟩ := Prod.mk.inj hpair
    exact ⟨e, he, rfl, rfl, rfl⟩

/-- A port fed by an edge belongs to a dependent of the edge's source. -/
theorem mem_deps_of_feedOf {v p u q : Str} (h : feedOf call (v, p) = some (.edge u q)) :
    u ∈ call.deps v := by
  obtain ⟨e, he, htarget, rfl, rfl⟩ := edge_of_feedOf h
  exact Call.mem_deps.mpr ⟨e, he, rfl, (Prod.mk.inj htarget).1⟩

/-- What a port is fed from if it is one of `call.graph.targets`. -/
theorem exists_feedOf {target : Str × Str} (h : target ∈ call.graph.targets) :
    ∃ feed, feedOf call target = some feed := by
  unfold feedOf
  cases hb : (bindingInto call).lookup target with
  | some payload => exact ⟨_, rfl⟩
  | none =>
      rcases List.mem_append.mp h with he | hb'
      · obtain ⟨e, hmem, rfl⟩ := List.mem_map.mp he
        have hkey : e.target ∈ edgeInto call := by
          refine Dict.mem_ofPairs.mpr ?_
          rw [List.map_map]
          exact List.mem_map.mpr ⟨e, hmem, rfl⟩
        obtain ⟨src, hsrc⟩ := Dict.exists_lookup_of_mem hkey
        exact ⟨.edge src.1 src.2, by simp [hsrc]⟩
      · obtain ⟨b, hmem, rfl⟩ := List.mem_map.mp hb'
        have hkey : b.target ∈ bindingInto call := by
          refine Dict.mem_ofPairs.mpr ?_
          rw [List.map_map]
          exact List.mem_map.mpr ⟨b, hmem, rfl⟩
        obtain ⟨payload, hpayload⟩ := Dict.exists_lookup_of_mem hkey
        rw [hb] at hpayload
        cases hpayload

/-- A node of a valid graph, and its manifest. -/
theorem Call.Valid.lookup_node (hw : call.Valid) {v : Str} (hv : v ∈ call.graph.nodeIds) :
    ∃ n m, call.graph.nodesById.lookup v = some n ∧ call.registry.get n.module = some m := by
  obtain ⟨n, hmem, rfl⟩ := List.mem_map.mp hv
  obtain ⟨m, hm⟩ := hw.module_known n hmem
  have hkeys : (call.graph.nodes.map fun n => (n.id, n)).map Prod.fst = call.graph.nodeIds := by
    simp [Graph.nodeIds]
  exact ⟨n, m, Dict.lookup_ofPairs (by rw [hkeys]; exact hw.ids_nodup)
    (List.mem_map.mpr ⟨n, hmem, rfl⟩), hm⟩

/-- Every input port of a valid graph is fed. -/
theorem Call.Valid.feedOf (hw : call.Valid) {v : Str} {n : Node} {m : ModuleManifest}
    {port : PortSpec} (hn : call.graph.nodesById.lookup v = some n)
    (hm : call.registry.get n.module = some m) (hp : port ∈ m.inputs) :
    ∃ feed, feedOf call (v, port.name) = some feed := by
  obtain ⟨hmem, rfl⟩ := mem_nodeIds_of_lookup hn
  refine exists_feedOf (List.count_pos_iff.mp ?_)
  rw [hw.fed_once n hmem m hm port hp]
  exact Nat.one_pos

/-- Where a value is taken once, it is taken by one element. -/
theorem eq_of_count_map_eq_one {α β : Type} [BEq β] [LawfulBEq β] {f : α → β} {l : List α} {t : β}
    (h : (l.map f).count t = 1) {a b : α} (ha : a ∈ l) (hb : b ∈ l) (hfa : f a = t)
    (hfb : f b = t) : a = b := by
  rw [List.count, List.countP_map, List.countP_eq_length_filter] at h
  obtain ⟨x, hx⟩ := List.length_eq_one_iff.mp h
  have hmem : ∀ c ∈ l, f c = t → c = x := by
    intro c hc hfc
    have hin : c ∈ l.filter ((fun y => y == t) ∘ f) := List.mem_filter.mpr ⟨hc, by simp [hfc]⟩
    rw [hx] at hin
    exact List.mem_singleton.mp hin
  rw [hmem a ha hfa, hmem b hb hfb]

/-- A port of a valid graph is fed by one edge or one binding, never both. -/
theorem Call.Valid.fed_split (hw : call.Valid) {v : Str} {n : Node} {m : ModuleManifest}
    {port : PortSpec} (hn : call.graph.nodesById.lookup v = some n)
    (hm : call.registry.get n.module = some m) (hp : port ∈ m.inputs) :
    (call.graph.edges.map Edge.target).count (v, port.name) +
      (call.graph.bindings.map Binding.target).count (v, port.name) = 1 := by
  obtain ⟨hmem, rfl⟩ := mem_nodeIds_of_lookup hn
  rw [← List.count_append]
  exact hw.fed_once n hmem m hm port hp

/-- A binding into a known port of a valid graph is what feeds it. -/
theorem feedOf_of_binding (hw : call.Valid) {v : Str} {n : Node} {m : ModuleManifest}
    {port : PortSpec} (hn : call.graph.nodesById.lookup v = some n)
    (hm : call.registry.get n.module = some m) (hp : port ∈ m.inputs) {b : Binding}
    (hb : b ∈ call.graph.bindings) (ht : b.target = (v, port.name)) :
    feedOf call (v, port.name) = some (.payload b.payload) := by
  have hsplit := hw.fed_split hn hm hp
  have hpos : 0 < (call.graph.bindings.map Binding.target).count (v, port.name) :=
    List.count_pos_iff.mpr (List.mem_map.mpr ⟨b, hb, ht⟩)
  obtain ⟨feed, hfeed⟩ := hw.feedOf hn hm hp
  cases feed with
  | payload id =>
      obtain ⟨b', hb', ht', rfl⟩ := binding_of_feedOf hfeed
      have hone : (call.graph.bindings.map Binding.target).count (v, port.name) = 1 := by omega
      rw [hfeed, eq_of_count_map_eq_one hone hb hb' ht ht']
  | edge u q =>
      obtain ⟨e, he, ht', -, -⟩ := edge_of_feedOf hfeed
      have hpos' : 0 < (call.graph.edges.map Edge.target).count (v, port.name) :=
        List.count_pos_iff.mpr (List.mem_map.mpr ⟨e, he, ht'⟩)
      omega

/-- An edge into a known port of a valid graph is what feeds it. -/
theorem feedOf_of_edge (hw : call.Valid) {v : Str} {n : Node} {m : ModuleManifest}
    {port : PortSpec} (hn : call.graph.nodesById.lookup v = some n)
    (hm : call.registry.get n.module = some m) (hp : port ∈ m.inputs) {e : Edge}
    (he : e ∈ call.graph.edges) (ht : e.target = (v, port.name)) :
    feedOf call (v, port.name) = some (.edge e.fromNode e.fromPort) := by
  have hsplit := hw.fed_split hn hm hp
  have hpos : 0 < (call.graph.edges.map Edge.target).count (v, port.name) :=
    List.count_pos_iff.mpr (List.mem_map.mpr ⟨e, he, ht⟩)
  obtain ⟨feed, hfeed⟩ := hw.feedOf hn hm hp
  cases feed with
  | payload id =>
      obtain ⟨b, hb, ht', -⟩ := binding_of_feedOf hfeed
      have hpos' : 0 < (call.graph.bindings.map Binding.target).count (v, port.name) :=
        List.count_pos_iff.mpr (List.mem_map.mpr ⟨b, hb, ht'⟩)
      omega
  | edge u q =>
      obtain ⟨e', he', ht', rfl, rfl⟩ := edge_of_feedOf hfeed
      have hone : (call.graph.edges.map Edge.target).count (v, port.name) = 1 := by omega
      rw [hfeed, eq_of_count_map_eq_one hone he he' ht ht']

end Feeds

/-! ### Inputs -/

section Inputs

variable {host : Host} {call : Call} {s t : ExecState}

/-- The key and the bytes an input port contributes. -/
def InputIs (host : Host) (call : Call) (s : ExecState) (v port : Str) (key : String)
    (data : Bytes) : Prop :=
  (∃ id p, feedOf call (v, port) = some (.payload id) ∧ call.session.payloads.lookup id = some p ∧
    key = contentHash host.blake2b p.data ∧ data = p.data) ∨
  ∃ u q results result, feedOf call (v, port) = some (.edge u q) ∧
    s.nodeKeys.lookup u = some key ∧ s.nodeResults.lookup u = some results ∧
    results.lookup q = some result ∧ data = result.data

theorem require_ok_iff {β : Type} {o : Option β} {f : Fault} {x : β} :
    require o f = .ok x ↔ o = some x := by
  cases o <;> simp [require]

theorem inputOf_ok_iff {v : Str} {port : PortSpec} {x : Str × String × Bytes} :
    inputOf host call s v port = .ok x ↔
      x.1 = port.name ∧ InputIs host call s v port.name x.2.1 x.2.2 := by
  obtain ⟨name, key, data⟩ := x
  simp only [inputOf, InputIs, feedOf]
  cases (bindingInto call).lookup (v, port.name) with
  | some payload =>
      simp only [bind_ok_iff, require_ok_iff, pure, Except.pure, Except.ok.injEq, Prod.mk.injEq]
      grind
  | none =>
      cases (edgeInto call).lookup (v, port.name) with
      | none => simp [require, bind, Except.bind]
      | some src =>
          simp only [bind_ok_iff, require_ok_iff, pure, Except.pure, Except.ok.injEq,
            Prod.mk.injEq]
          grind

/-- What `run_node` has computed when it looks into the cache. -/
theorem beginNode_ok_iff {v : Str} {c : NodeCall} :
    beginNode host call s v = .ok c ↔ ∃ found : List (Str × String × Bytes),
      call.graph.nodesById.lookup v = some c.node ∧
      call.registry.get c.node.module = some c.manifest ∧
      List.Forall₂ (fun port x => x.1 = port.name ∧ InputIs host call s v port.name x.2.1 x.2.2)
        c.manifest.inputs found ∧
      c.inputs = Dict.ofPairs (found.map fun x => (x.1, x.2.2)) ∧
      c.key = recipeKey host.blake2b c.manifest.name c.manifest.version c.node.params
        (found.map fun x => x.2.1) call.draft := by
  simp only [← inputOf_ok_iff, ← mapM_ok_iff]
  obtain ⟨node, manifest, inputs, key⟩ := c
  simp only [beginNode, bind_ok_iff, require_ok_iff, pure, Except.pure, Except.ok.injEq,
    NodeCall.mk.injEq]
  constructor
  · rintro ⟨n, hn, m, hm, found, hf, rfl, rfl, rfl, rfl⟩
    exact ⟨found, hn, hm, hf, rfl, rfl⟩
  · rintro ⟨found, hn, hm, hf, rfl, rfl⟩
    exact ⟨node, hn, manifest, hm, found, hf, rfl, rfl, rfl, rfl⟩

/-- A port contributes one key and one value. -/
theorem InputIs.unique {v port : Str} {key key' : String} {data data' : Bytes}
    (h : InputIs host call s v port key data) (h' : InputIs host call s v port key' data') :
    key = key' ∧ data = data' := by
  rcases h with ⟨id, p, hfeed, hp, rfl, rfl⟩ | ⟨u, q, results, result, hfeed, hkey, hres, hq, rfl⟩
  · rcases h' with ⟨id', p', hfeed', hp', rfl, rfl⟩ | ⟨_, _, _, _, hfeed', -⟩
    · obtain rfl := Feed.payload.inj (Option.some.inj (hfeed.symm.trans hfeed'))
      obtain rfl := Option.some.inj (hp.symm.trans hp')
      exact ⟨rfl, rfl⟩
    · cases hfeed.symm.trans hfeed'
  · rcases h' with ⟨_, _, hfeed', -⟩ | ⟨u', q', results', result', hfeed', hkey', hres', hq', rfl⟩
    · cases hfeed.symm.trans hfeed'
    · obtain ⟨rfl, rfl⟩ := Feed.edge.inj (Option.some.inj (hfeed.symm.trans hfeed'))
      obtain rfl := Option.some.inj (hres.symm.trans hres')
      obtain rfl := Option.some.inj (hq.symm.trans hq')
      exact ⟨Option.some.inj (hkey.symm.trans hkey'), rfl⟩

/-- Pairing the names with what the loop over the ports found. -/
theorem forall₂_names {v : Str} {ports : List PortSpec}
    {found : List (Str × String × Bytes)}
    (h : List.Forall₂ (fun port x => x.1 = port.name ∧
      InputIs host call s v port.name x.2.1 x.2.2) ports found) :
    found.map Prod.fst = ports.map PortSpec.name ∧
      (∀ port ∈ ports, ∃ x ∈ found, x.1 = port.name ∧
        InputIs host call s v port.name x.2.1 x.2.2) ∧
      ∀ x ∈ found, InputIs host call s v x.1 x.2.1 x.2.2 := by
  induction h with
  | nil => simp
  | @cons port x ports found hx _ ih =>
      obtain ⟨hnames, hports, hfound⟩ := ih
      refine ⟨by simp [hx.1, hnames], ?_, ?_⟩
      · rintro port' hp
        rcases List.mem_cons.mp hp with rfl | hp
        · exact ⟨x, List.mem_cons_self, hx⟩
        · obtain ⟨y, hy, hrest⟩ := hports port' hp
          exact ⟨y, List.mem_cons_of_mem _ hy, hrest⟩
      · rintro y hy
        rcases List.mem_cons.mp hy with rfl | hy
        · exact hx.1 ▸ hx.2
        · exact hfound y hy

/-- The inputs dict has the manifest's ports, each with what feeds it. -/
theorem begun_inputs {v : Str} {c : NodeCall} (h : beginNode host call s v = .ok c) :
    (∀ p, p ∈ c.inputs ↔ p ∈ c.manifest.inputs.map PortSpec.name) ∧
      ∀ port ∈ c.manifest.inputs, ∃ key data, InputIs host call s v port.name key data ∧
        c.inputs.lookup port.name = some data := by
  obtain ⟨found, -, -, hf, hi, -⟩ := beginNode_ok_iff.mp h
  obtain ⟨hnames, hports, hfound⟩ := forall₂_names hf
  have hkeys : ∀ p, p ∈ c.inputs ↔ p ∈ c.manifest.inputs.map PortSpec.name := by
    intro p
    rw [hi, Dict.mem_ofPairs, ← hnames, List.map_map]
    rfl
  refine ⟨hkeys, fun port hport => ?_⟩
  obtain ⟨x, -, -, hx⟩ := hports port hport
  obtain ⟨data, hdata⟩ := Dict.exists_lookup_of_mem
    ((hkeys port.name).mpr (List.mem_map.mpr ⟨port, hport, rfl⟩))
  refine ⟨x.2.1, x.2.2, hx, ?_⟩
  rw [hdata]
  -- two ports of one name are fed by the same thing
  rw [hi] at hdata
  obtain ⟨y, hy, heq⟩ := List.mem_map.mp (Dict.mem_of_lookup_ofPairs hdata)
  obtain ⟨hname, rfl⟩ := Prod.mk.inj heq
  have hy' := hfound y hy
  rw [hname] at hy'
  rw [(hy'.unique hx).2]

/-! ### Recorded nodes stay -/

/-- `t` has every key and every result `s` has. -/
structure Extends (s t : ExecState) : Prop where
  keys : ∀ v k, s.nodeKeys.lookup v = some k → t.nodeKeys.lookup v = some k
  results : ∀ v r, s.nodeResults.lookup v = some r → t.nodeResults.lookup v = some r

theorem Extends.refl (s : ExecState) : Extends s s := ⟨fun _ _ => id, fun _ _ => id⟩

theorem Extends.trans {u : ExecState} (h : Extends s t) (h' : Extends t u) : Extends s u :=
  ⟨fun v k hk => h'.keys v k (h.keys v k hk), fun v r hr => h'.results v r (h.results v r hr)⟩

theorem InputIs.mono (hext : Extends s t) {v port : Str} {key : String} {data : Bytes}
    (h : InputIs host call s v port key data) : InputIs host call t v port key data := by
  rcases h with h | ⟨u, q, results, result, hfeed, hkey, hres, hq, hdata⟩
  · exact Or.inl h
  · exact Or.inr ⟨u, q, results, result, hfeed, hext.keys u key hkey,
      hext.results u results hres, hq, hdata⟩

/-- A node's inputs and key are settled once its sources are recorded. -/
theorem beginNode_mono (hext : Extends s t) {v : Str} {c : NodeCall}
    (h : beginNode host call s v = .ok c) : beginNode host call t v = .ok c := by
  obtain ⟨found, hn, hm, hf, hi, hk⟩ := beginNode_ok_iff.mp h
  exact beginNode_ok_iff.mpr ⟨found, hn, hm, hf.imp fun _ _ hx => ⟨hx.1, hx.2.mono hext⟩, hi, hk⟩

/-- On a valid call `run_node` reaches the cache once every source has its key
and a result for each port it declares. -/
theorem beginNode_ok (hw : call.Valid) {v : Str} (hv : v ∈ call.graph.nodeIds)
    (hsrc : ∀ u ∈ call.deps v, ∀ q t, outputType call.graph call.registry u q = some t →
      ∃ key results result, s.nodeKeys.lookup u = some key ∧
        s.nodeResults.lookup u = some results ∧ results.lookup q = some result) :
    ∃ c, beginNode host call s v = .ok c := by
  obtain ⟨n, m, hn, hm⟩ := hw.lookup_node hv
  -- each port is fed by a payload or by a source that has been recorded
  have hall : ∀ port ∈ m.inputs, ∃ x, inputOf host call s v port = .ok x := by
    intro port hport
    obtain ⟨feed, hfeed⟩ := hw.feedOf hn hm hport
    cases feed with
    | payload id =>
        obtain ⟨b, hb, -, rfl⟩ := binding_of_feedOf hfeed
        obtain ⟨p, hp, -⟩ := hw.binding_typed b hb
        exact ⟨(port.name, _, _), inputOf_ok_iff.mpr ⟨rfl, Or.inl ⟨_, p, hfeed, hp, rfl, rfl⟩⟩⟩
    | edge u q =>
        obtain ⟨e, he, -, rfl, rfl⟩ := edge_of_feedOf hfeed
        obtain ⟨t, hout, -⟩ := hw.edge_typed e he
        obtain ⟨key, results, result, hkey, hres, hq⟩ :=
          hsrc _ (mem_deps_of_feedOf hfeed) _ t hout
        exact ⟨(port.name, _, _), inputOf_ok_iff.mpr
          ⟨rfl, Or.inr ⟨_, _, results, result, hfeed, hkey, hres, hq, rfl⟩⟩⟩
  obtain ⟨found, hfound⟩ := exists_mapM_ok hall
  have hforall := (mapM_ok_iff.mp hfound).imp fun _ _ hx => inputOf_ok_iff.mp hx
  exact ⟨{
    node := n
    manifest := m
    inputs := Dict.ofPairs (found.map fun x => (x.1, x.2.2))
    key := recipeKey host.blake2b m.name m.version n.params (found.map fun x => x.2.1) call.draft },
    beginNode_ok_iff.mpr ⟨found, hn, hm, hforall, rfl, rfl⟩⟩

end Inputs

end Formshift
