/-
Formshift/PortTypes.lean

Port types from end to end.

Types are checked in three places that look a port up differently: validation
takes the first port of a name, the contract check the last one, and
`parse_extension_manifest` lets a name be declared twice.  Where they agree on
the ports a graph uses (`PortsAgree`), every value a module is called with and
every output has the type that was validated (`port_types_hold`).  An accepted
extension can make them disagree, and then a value of another type goes through
(`port_types_unsafe`).
-/
import Formshift.Contract
import Formshift.InstallOrder
import Formshift.Progress

namespace Formshift

open Py Steps

/-! ### What is delivered -/

/-- The value that feeds an input port: a payload, or a port of a result. -/
def deliveredTo (call : Call) (s : ExecState) (v port : Str) : Option ModuleResult :=
  match feedOf call (v, port) with
  | some (.payload id) => (call.session.payloads.lookup id).map fun p => ⟨p.type, p.data⟩
  | some (.edge u q) => (s.nodeResults.lookup u).bind fun results => results.lookup q
  | none => none

/-- Every value a module is called with has the type of every port of its
name, and every output the type validation saw. -/
structure TypesOk (call : Call) (s : ExecState) : Prop where
  delivered : ∀ f ∈ s.futures, ∀ c, f.stage = .running c → ∀ port ∈ c.manifest.inputs,
    ∃ value, deliveredTo call s f.node port.name = some value ∧
      c.inputs.lookup port.name = some value.data ∧ value.type = port.type
  emitted : ∀ key output, s.emittedOutputs.lookup key = some output →
    outputType call.graph call.registry output.node output.port = some output.type
  announced : ∀ f ∈ s.futures, ∀ results output todo, f.stage = .calling results output todo →
    outputType call.graph call.registry output.node output.port = some output.type

/-- An edge takes from this port, or it is requested. -/
def Graph.Uses (g : Graph) (node port : Str) : Prop :=
  (∃ e ∈ g.edges, e.fromNode = node ∧ e.fromPort = port) ∨
    ∃ o ∈ g.outputs, o.node = node ∧ o.port = port

/-- The three places agree on the ports the graph uses: input ports of one name
have one type, and the first output port of a name has the type of the last. -/
structure PortsAgree (call : Call) : Prop where
  inputs : ∀ v m, nodeManifest call.graph call.registry v = some m →
    ∀ p ∈ m.inputs, ∀ q ∈ m.inputs, p.name = q.name → p.type = q.type
  outputs : ∀ v port, call.graph.Uses v port →
    ∀ m, nodeManifest call.graph call.registry v = some m →
      (declaredOutputs m).lookup port = (m.outputPort port).map PortSpec.type

/-! ### Where the ports agree -/

section Agree

variable {host : Host} {call : Call} {s : ExecState}

theorem begun_nodeManifest {v : Str} {c : NodeCall} (h : beginNode host call s v = .ok c) :
    nodeManifest call.graph call.registry v = some c.manifest := by
  obtain ⟨_, hn, hm, -⟩ := beginNode_ok_iff.mp h
  exact Option.bind_eq_some_iff.mpr ⟨_, hn, hm⟩

/-- A recorded value of a port in use has the type validation saw. -/
theorem type_of_recorded (hD : DataInv host call (Conforming call) s) (hports : PortsAgree call)
    {u q : Str} {results : Results} {result : ModuleResult} (huse : call.graph.Uses u q)
    (hres : s.nodeResults.lookup u = some results) (hq : results.lookup q = some result) :
    outputType call.graph call.registry u q = some result.type := by
  obtain ⟨key, hkey⟩ := Dict.exists_lookup_of_mem ((hD.results_iff u).mp (Dict.mem_of_lookup hres))
  obtain ⟨c, results', hc, -, hres', hconf⟩ := hD.recorded u key hkey
  obtain rfl := Option.some.inj (hres.symm.trans hres')
  have hm := begun_nodeManifest hc
  have hdeclared := hconf.2 q result hq
  rw [hports.outputs u q huse _ hm] at hdeclared
  rw [outputType, hm]
  exact hdeclared

/-- The first input port of a name stands for all of them. -/
theorem type_of_input (hports : PortsAgree call) {v type : Str} {m : ModuleManifest}
    (hm : nodeManifest call.graph call.registry v = some m) {port : PortSpec}
    (hport : port ∈ m.inputs) (htype : inputType call.graph call.registry v port.name = some type) :
    type = port.type := by
  obtain ⟨p, hp, rfl⟩ := Option.map_eq_some_iff.mp htype
  obtain ⟨m', hm', hfind⟩ := Option.bind_eq_some_iff.mp hp
  obtain rfl := Option.some.inj (hm.symm.trans hm')
  have hname : p.name = port.name := by simpa using List.find?_some hfind
  exact hports.inputs v m hm p (List.mem_of_find?_eq_some hfind) port hport hname

/-- What `module.run` is called with. -/
theorem delivered_ok (hw : call.Valid) (hD : DataInv host call (Conforming call) s)
    (hports : PortsAgree call) {v : Str} {c : NodeCall} (hc : beginNode host call s v = .ok c)
    {port : PortSpec} (hport : port ∈ c.manifest.inputs) :
    ∃ value, deliveredTo call s v port.name = some value ∧
      c.inputs.lookup port.name = some value.data ∧ value.type = port.type := by
  have hm := begun_nodeManifest hc
  obtain ⟨key, data, hin, hdata⟩ := (begun_inputs hc).2 port hport
  rcases hin with ⟨id, p, hfeed, hp, -, rfl⟩ | ⟨u, q, results, result, hfeed, -, hres, hq, rfl⟩
  · refine ⟨⟨p.type, p.data⟩, by simp [deliveredTo, hfeed, hp], hdata, ?_⟩
    obtain ⟨b, hb, htarget, rfl⟩ := binding_of_feedOf hfeed
    obtain ⟨hnode, hbport⟩ := Prod.mk.inj htarget
    obtain ⟨p', hp', htype⟩ := hw.binding_typed b hb
    obtain rfl := Option.some.inj (hp.symm.trans hp')
    rw [hnode, hbport] at htype
    exact type_of_input hports hm hport htype
  · refine ⟨result, by simp [deliveredTo, hfeed, hres, hq], hdata, ?_⟩
    obtain ⟨e, he, htarget, rfl, rfl⟩ := edge_of_feedOf hfeed
    obtain ⟨hnode, heport⟩ := Prod.mk.inj htarget
    obtain ⟨type, hout, htype⟩ := hw.edge_typed e he
    have hresult := type_of_recorded hD hports (Or.inl ⟨e, he, rfl, rfl⟩) hres hq
    obtain rfl := Option.some.inj (hout.symm.trans hresult)
    rw [hnode, heport] at htype
    exact type_of_input hports hm hport htype

theorem uses_of_mem_outputsByNode {v : Str} {o : Str × Str}
    (h : o ∈ outputsByNode call v) : call.graph.Uses o.1 o.2 := by
  obtain ⟨ref, href, rfl⟩ := List.mem_map.mp h
  exact Or.inr ⟨ref, (List.mem_filter.mp href).1, rfl, rfl⟩

/-- What is emitted is requested, and what `on_output` is called with is a port
of the node's results. -/
structure EmitsOk (call : Call) (s : ExecState) : Prop where
  emitted : ∀ key ∈ s.emittedOutputs, call.graph.Uses key.1 key.2
  calling : ∀ f ∈ s.futures, ∀ results output todo, f.stage = .calling results output todo →
    output.node = f.node ∧ call.graph.Uses f.node output.port ∧
      ∃ result, results.lookup output.port = some result ∧ output.type = result.type

theorem EmitsOk.enter (hw : call.Valid) : EmitsOk call (enter call) := by
  obtain ⟨dependents, remaining, -, -, heq⟩ := enter_eq hw
  rw [heq]
  constructor <;> simp [blank]

theorem EmitsOk.step (h : EmitsOk call s) (hD : DataInv host call (Conforming call) s)
    {cache cache' : ResultCache} {s' : ExecState} {a : Act}
    (hs : Formshift.step host call (cache, s) a = some (cache', s')) : EmitsOk call s' := by
  rcases step_move host call hs with ⟨i, w, f, t, f', rfl, hf, hm, rfl⟩ | ⟨-, hm⟩
  · have hfuts : (t.setFuture i f').futures = s.futures.set i f' := by
      rw [hm.frame.1]
      rfl
    -- only the one that moves can call now
    have hcalling : (∀ results output todo, f'.stage = .calling results output todo →
        output.node = f'.node ∧ call.graph.Uses f'.node output.port ∧
          ∃ result, results.lookup output.port = some result ∧ output.type = result.type) →
        ∀ g ∈ (t.setFuture i f').futures, ∀ results output todo,
          g.stage = .calling results output todo → output.node = g.node ∧
            call.graph.Uses g.node output.port ∧
            ∃ result, results.lookup output.port = some result ∧ output.type = result.type := by
      intro hnew g hg
      rw [hfuts] at hg
      rcases List.mem_or_eq_of_mem_set hg with hg | rfl
      · exact h.calling g hg
      · exact hnew
    cases hm with
    -- the port is one of the outputs that are asked for, and has its result
    | @emit results outNode outPort todo result hst hr =>
        have hok := hD.stages f (List.mem_of_getElem? hf)
        simp only [StageOk, hst] at hok
        obtain ⟨-, done, hsplit, -⟩ := hok
        have hmem : (outNode, outPort) ∈ outputsByNode call f.node := by
          rw [hsplit]
          simp
        obtain rfl : outNode = f.node := node_of_mem_outputsByNode hmem
        have huse := uses_of_mem_outputsByNode hmem
        refine ⟨fun key hkey => ?_, hcalling fun results' output todo' hst' => ?_⟩
        · rcases (AList.mem_insert s.emittedOutputs).mp hkey with rfl | hkey
          · exact huse
          · exact h.emitted key hkey
        · obtain ⟨rfl, rfl, rfl⟩ := Stage.calling.inj hst'
          exact ⟨rfl, huse, result, hr, rfl⟩
    | start | startFault | hit | miss | raise | reject | accept | stop | pass | put | record
    | notify | emitFault | emitted | finish =>
        exact ⟨h.emitted, hcalling fun results output todo hst => by cases hst⟩
  · obtain ⟨-, -, -, -, hemitted, hfut⟩ := hm.frame
    refine ⟨fun key hkey => h.emitted key (hemitted ▸ hkey), fun g hg results output todo hst => ?_⟩
    rcases hfut with hfut | ⟨n, rest, -, -, hfut⟩
    · exact h.calling g (hfut ▸ hg) results output todo hst
    · rw [hfut] at hg
      rcases List.mem_append.mp hg with hg | hg
      · exact h.calling g hg results output todo hst
      · rw [List.mem_singleton.mp hg] at hst
        cases hst

theorem typesOk_of_inv (hw : call.Valid) (hI : CallInv host call (Conforming call) s)
    (hE : EmitsOk call s) (hports : PortsAgree call) : TypesOk call s := by
  have hD := hI.data
  constructor
  case delivered =>
    intro f hf c hst port hport
    have hok := hD.stages f hf
    simp only [StageOk, hst] at hok
    exact delivered_ok hw hD hports hok.2 hport
  case emitted =>
    intro key output hout
    obtain ⟨results, result, hres, hq, rfl⟩ := hD.emitted key output hout
    exact type_of_recorded hD hports (hE.emitted key (Dict.mem_of_lookup hout)) hres hq
  case announced =>
    intro f hf results output todo hst
    have hok := hD.stages f hf
    simp only [StageOk, hst] at hok
    obtain ⟨hnode, huse, result, hq, htype⟩ := hE.calling f hf results output todo hst
    rw [htype, hnode]
    exact type_of_recorded hD hports huse hok.1 hq

/-- **Port types hold end to end where the ports agree**: in every run of the
engine from an empty cache, every call of a validated graph whose ports agree
delivers and emits the types that were validated. -/
theorem port_types_hold (host : Host) (hinj : Function.Injective host.blake2b)
    (reg : ModuleRegistry) (beh : Behaviour) {E : Engine}
    (hrun : EngineReaches host (fun call => call.registry = reg) beh Engine.empty E) (call : Call)
    (s : ExecState) (hmem : (call, s) ∈ E.members)
    (hvalid : validateGraph call.graph call.registry call.session = [])
    (hports : PortsAgree call) : TypesOk call s := by
  have hw : call.Valid := validateGraph_nil_iff.mp hvalid
  have hrule := conforming_rule hinj reg beh
  have hinv : PoolInv (fun call => call.registry = reg) (CacheConforms host reg)
      (fun _ call _ s => EngineCallInv host Conforming call s ∧ (call.Valid → EmitsOk call s)) E := by
    refine PoolInv.reaches (G := fun _ _ => True)
      (fun _ call _ _ _ => ⟨EngineCallInv.enter call, fun hw => EmitsOk.enter hw⟩) ?_
      (fun _ _ _ _ _ _ _ => id) hrun
      ⟨cacheConforms_empty host reg, fun _ _ _ h => by simp [Engine.empty] at h⟩
    rintro - call x a y hS hok hs hC ⟨hI, hE⟩
    obtain ⟨hC', hI'⟩ := hI.step hrule hS hok hs hC
    exact ⟨hC', ⟨hI', fun hw => (hE hw).step (hI.1 hw).data hs⟩, trivial⟩
  obtain ⟨i, hi⟩ := List.mem_iff_getElem?.mp hmem
  obtain ⟨-, hI, hE⟩ := hinv.members i call s hi
  exact typesOk_of_inv hw (hI.1 hw) (hE hw) hports

end Agree

/-! ### A chain of two nodes -/

/-- What a running future's module is called with: for each port its declared
type and the delivered one. -/
def calledWith (call : Call) (s : ExecState) (i : Nat) : Option (List (Str × Option Str)) :=
  (s.futures[i]?).bind fun f => f.stage.runningCall.map fun c => c.manifest.inputs.map fun port =>
    (port.type, (deliveredTo call s f.node port.name).map ModuleResult.type)

theorem TypesOk.calledWith {call : Call} {s : ExecState} (h : TypesOk call s) {i : Nat}
    {ports : List (Str × Option Str)} (hcalled : calledWith call s i = some ports) :
    ∀ x ∈ ports, x.2 = some x.1 := by
  obtain ⟨f, hf, hports⟩ := Option.bind_eq_some_iff.mp hcalled
  obtain ⟨c, hc, rfl⟩ := Option.map_eq_some_iff.mp hports
  intro x hx
  obtain ⟨port, hport, rfl⟩ := List.mem_map.mp hx
  obtain ⟨value, hvalue, -, htype⟩ := h.delivered f (List.mem_of_getElem? hf) c
    (Stage.runningCall_eq_some_iff.mp hc) port hport
  simp [hvalue, htype]

/-- The first node runs and the second one is called. -/
def untilSecond (results : Results) : List Act :=
  [.loop, .submit, .submit] ++ ranActs 0 results ++ [.worker 0 .finish, .wait [0], .process ["c"],
    .loop, .submit, .submit, .worker 1 .start, .worker 1 .lookup]

theorem port_types_hold_chain : ∃ (E : Engine) (s : ExecState),
    EngineReaches sampleHost (fun call => call.registry = sampleRegistry) anyBehaviour Engine.empty
      E ∧ (chainCall, s) ∈ E.members ∧
      calledWith chainCall s 1 = some [(.text "text", some (.text "text"))] ∧
      TypesOk chainCall s := by
  -- the second module is called with the text of the first
  have hcheck : (runActs (step sampleHost chainCall) (untilSecond (emptyResults splitModule))
      (∅, enter chainCall)).bind (fun x => calledWith chainCall x.2 1) =
        some [(.text "text", some (.text "text"))] := by
    decide +kernel
  obtain ⟨x, hx, hcalled⟩ := Option.bind_eq_some_iff.mp hcheck
  have hrun : EngineReaches sampleHost (fun call => call.registry = sampleRegistry) anyBehaviour
      Engine.empty ⟨x.1, [(chainCall, x.2)]⟩ :=
    engineReaches_of_call (S := fun call => call.registry = sampleRegistry) rfl
      (reaches_of_runActs (permits_any _) hx)
  have hmanifest : ∀ v m, nodeManifest chainCall.graph chainCall.registry v = some m →
      m = splitModule ∨ m = copyModule := by
    intro v m hm
    obtain ⟨n, -, hm⟩ := Option.bind_eq_some_iff.mp hm
    obtain ⟨m', hin, heq⟩ := List.mem_map.mp (Dict.mem_of_lookup_ofPairs hm)
    rw [← (Prod.mk.inj heq).2]
    simpa using hin
  -- no name is used twice among the ports
  have hports : PortsAgree chainCall := by
    constructor
    · intro v m hm
      rcases hmanifest v m hm with rfl | rfl
      · simp [splitModule]
      · simp [copyModule]
    · intro v port huse m hm
      have hport : port = "a" ∨ port = "out" := by
        rcases huse with ⟨e, he, -, rfl⟩ | ⟨o, ho, -, rfl⟩
        · rw [List.mem_singleton.mp he]
          exact Or.inl rfl
        · rw [List.mem_singleton.mp ho]
          exact Or.inr rfl
      rcases hmanifest v m hm with rfl | rfl <;> rcases hport with rfl | rfl <;> decide +kernel
  exact ⟨_, x.2, hrun, List.mem_cons_self, hcalled,
    port_types_hold sampleHost sampleHost_injective sampleRegistry anyBehaviour hrun chainCall x.2
      List.mem_cons_self (by decide +kernel) hports⟩

/-! ### A port declared twice -/

/-- In-process modules with distinct port names, and modules of extensions
whose manifest is accepted. -/
def Supplied (reg : ModuleRegistry) : Prop :=
  ∀ name m, reg.get name = some m →
    ((m.inputs.map PortSpec.name).Nodup ∧ (m.outputs.map PortSpec.name).Nodup) ∨
      ∃ py source ext, parseExtensionManifest py source = .ok ext ∧
        ∃ spec ∈ ext.modules, spec.manifest = m

/-- An extension whose output port is declared with two types. -/
def twiceSource : Source where
  path := "/src"
  isDir := true
  toml := some (.ok [
    ("extension", .table [("name", .str "twice"), ("version", .str "1")]),
    ("modules", .arr [.table [
      ("name", .str "twice"),
      ("entry", .str "main:run"),
      ("inputs", .arr [.table [("name", .str "in"), ("type", .str "text")]]),
      ("outputs", .arr [
        .table [("name", .str "out"), ("type", .str "text")],
        .table [("name", .str "out"), ("type", .str "image")]])]])])

def twiceModule : ModuleManifest where
  name := "twice"
  version := "1"
  description := ""
  inputs := [⟨"in", "text"⟩]
  outputs := [⟨"out", "text"⟩, ⟨"out", "image"⟩]
  isolation := "isolated"

/-- A payload into `twice`, and its output into `copy`. -/
def twiceCall : Call where
  graph := {
    nodes := [{ id := "t", module := "twice" }, { id := "c", module := "copy" }]
    edges := [⟨"t", "out", "c", "in"⟩]
    bindings := [⟨"p", "t", "in"⟩]
    outputs := [{ node := "c", port := "out" }] }
  registry := .ofList [twiceModule, copyModule]
  session := ⟨"session", AList.insert "p" ⟨"p", "text", []⟩ ∅⟩
  draft := false
  workers := some 1

theorem twiceCall_supplied : Supplied twiceCall.registry := by
  intro name m hm
  obtain ⟨m', hin, heq⟩ := List.mem_map.mp (Dict.mem_of_lookup_ofPairs hm)
  rw [← (Prod.mk.inj heq).2]
  have hcases : m' = twiceModule ∨ m' = copyModule := by simpa using hin
  rcases hcases with rfl | rfl
  · refine Or.inr ⟨sampleSite.py, twiceSource, _, rfl, ⟨twiceModule, "main:run"⟩, ?_, rfl⟩
    decide +kernel
  · exact Or.inl (by decide)

/-- `copy` declares `text` and is called with an `image`. -/
theorem port_types_unsafe : ¬ ∀ (host : Host) (reg : ModuleRegistry) (beh : Behaviour) (E : Engine)
    (call : Call) (s : ExecState), Function.Injective host.blake2b → Supplied reg →
      EngineReaches host (fun call => call.registry = reg) beh Engine.empty E →
      (call, s) ∈ E.members → validateGraph call.graph call.registry call.session = [] →
      TypesOk call s := by
  intro hclaim
  have hcheck : (runActs (step sampleHost twiceCall)
      (untilSecond (Dict.ofPairs [("out", ⟨"image", []⟩)])) (∅, enter twiceCall)).bind
        (fun x => calledWith twiceCall x.2 1) = some [(.text "text", some (.text "image"))] := by
    decide +kernel
  obtain ⟨x, hx, hcalled⟩ := Option.bind_eq_some_iff.mp hcheck
  have hrun : EngineReaches sampleHost (fun call => call.registry = twiceCall.registry) anyBehaviour
      Engine.empty ⟨x.1, [(twiceCall, x.2)]⟩ :=
    engineReaches_of_call (S := fun call => call.registry = twiceCall.registry) rfl
      (reaches_of_runActs (permits_any _) hx)
  have htypes := hclaim sampleHost twiceCall.registry anyBehaviour _ twiceCall x.2
    sampleHost_injective twiceCall_supplied hrun List.mem_cons_self (by decide +kernel)
  have himage := htypes.calledWith hcalled _ List.mem_cons_self
  revert himage
  decide

end Formshift
