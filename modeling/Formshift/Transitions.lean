/-
Formshift/Transitions.lean

What one step of a call can do, said once.

`Move` lists the transitions of a future and `SchedMove` those of the
scheduler thread, guards included; every step is one of them (`step_move`)
and every invariant of a call is derived from them.  The last section is the
state a valid call starts its loop in (`enter_eq`).
-/
import Formshift.Executor

namespace Formshift

open Py

/-! ### What a step can do -/

section Moves

variable (host : Host) (call : Call)

/-- The transitions of a future, with the shared state they leave behind. -/
inductive Move (cache : ResultCache) (s : ExecState) (i : Nat) (f : Future) :
    WorkerAct → ResultCache → ExecState → Future → Prop
  | start {c} (hf : f.stage = .queued) (hs : CanStart host call s i)
      (hc : beginNode host call s f.node = .ok c) :
      Move cache s i f .start cache s { f with stage := .keyed c }
  | startFault {e} (hf : f.stage = .queued) (hs : CanStart host call s i)
      (he : beginNode host call s f.node = .error e) :
      Move cache s i f .start cache s { f with stage := .failed (.fault e) }
  | hit {c results} (hf : f.stage = .keyed c) (hhit : cache.get c.key = some results) :
      Move cache s i f .lookup cache s { f with stage := .recording c results true }
  | miss {c} (hf : f.stage = .keyed c) (hmiss : cache.get c.key = none) :
      Move cache s i f .lookup cache s { f with stage := .running c, ran := true }
  | raise {c e} (hf : f.stage = .running c) :
      Move cache s i f (.ret (.error e)) cache s { f with stage := .failed (.module e) }
  | reject {c results e} (hf : f.stage = .running c)
      (he : checkContract c.manifest results = some e) :
      Move cache s i f (.ret (.ok results)) cache s { f with stage := .failed e }
  | accept {c results} (hf : f.stage = .running c)
      (hok : checkContract c.manifest results = none) :
      Move cache s i f (.ret (.ok results)) cache s { f with stage := .returned c results }
  | stop {c results} (hf : f.stage = .returned c results) (hc : s.cancel = true) :
      Move cache s i f .check cache s { f with stage := .failed .cancelled }
  | pass {c results} (hf : f.stage = .returned c results) (hc : s.cancel = false) :
      Move cache s i f .check cache s { f with stage := .storing c results }
  | put {c results} (hf : f.stage = .storing c results) :
      Move cache s i f .put (cache.put c.key results) s
        { f with stage := .recording c results false }
  | record {c results cached} (hf : f.stage = .recording c results cached) :
      Move cache s i f .record cache (recordNode s f.node c results cached)
        { f with stage := .notifying results cached }
  | notify {results cached} (hf : f.stage = .notifying results cached) :
      Move cache s i f .notify cache s
        { f with stage := .emitting results (outputsByNode call f.node) }
  | emitFault {results outNode outPort todo}
      (hf : f.stage = .emitting results ((outNode, outPort) :: todo))
      (hr : results.lookup outPort = none) :
      Move cache s i f .emit cache s { f with stage := .failed (.fault (.results outPort)) }
  | emit {results outNode outPort todo result}
      (hf : f.stage = .emitting results ((outNode, outPort) :: todo))
      (hr : results.lookup outPort = some result) :
      Move cache s i f .emit cache
        (emitOutput s ⟨outNode, outPort, result.type, result.data⟩)
        { f with stage := .calling results ⟨outNode, outPort, result.type, result.data⟩ todo }
  | emitted {results output todo} (hf : f.stage = .calling results output todo) :
      Move cache s i f .emitted cache s { f with stage := .emitting results todo }
  | finish {results} (hf : f.stage = .emitting results []) :
      Move cache s i f .finish cache s { f with stage := .finished }

section Worker

variable {host call} {cache cache' : ResultCache} {s s' : ExecState} {i : Nat} {f : Future}

/-- One transition has led from here to `(cache', s')`. -/
def Moved (host : Host) (call : Call) (cache : ResultCache) (s : ExecState) (i : Nat) (f : Future)
    (w : WorkerAct) (cache' : ResultCache) (s' : ExecState) : Prop :=
  ∃ t f', Move host call cache s i f w cache' t f' ∧ s' = t.setFuture i f'

theorem Move.moved {w : WorkerAct} {t : ExecState} {f' : Future}
    (hm : Move host call cache s i f w cache' t f')
    {x : ResultCache × ExecState} (h : some (cache', t.setFuture i f') = some x) :
    Moved host call cache s i f w x.1 x.2 := by
  obtain rfl := Option.some.inj h
  exact ⟨t, f', hm, rfl⟩

variable {x : ResultCache × ExecState}

theorem start_moved (h : workerStep host call cache s i f .start = some x) :
    Moved host call cache s i f .start x.1 x.2 := by
  simp only [workerStep] at h
  split at h
  · rename_i hf
    split at h
    · rename_i hs
      split at h
      · rename_i c hc
        exact (Move.start hf hs hc).moved h
      · rename_i e he
        exact (Move.startFault hf hs he).moved h
    · cases h
  · cases h

theorem lookup_moved (h : workerStep host call cache s i f .lookup = some x) :
    Moved host call cache s i f .lookup x.1 x.2 := by
  simp only [workerStep] at h
  split at h
  · rename_i c hf
    split at h
    · rename_i results hhit
      exact (Move.hit hf hhit).moved h
    · rename_i hmiss
      exact (Move.miss hf hmiss).moved h
  · cases h

theorem ret_moved {outcome : Except ModuleExn Results}
    (h : workerStep host call cache s i f (.ret outcome) = some x) :
    Moved host call cache s i f (.ret outcome) x.1 x.2 := by
  simp only [workerStep] at h
  split at h
  · rename_i c hf
    split at h
    · exact (Move.raise hf).moved h
    · -- what the module has returned is checked against its manifest
      split at h
      · rename_i e he
        exact (Move.reject hf he).moved h
      · rename_i hok
        exact (Move.accept hf hok).moved h
  · cases h

theorem check_moved (h : workerStep host call cache s i f .check = some x) :
    Moved host call cache s i f .check x.1 x.2 := by
  simp only [workerStep] at h
  split at h
  · rename_i c results hf
    split at h
    · rename_i hc
      exact (Move.stop hf hc).moved h
    · rename_i hc
      exact (Move.pass hf (by simpa using hc)).moved h
  · cases h

theorem emit_moved (h : workerStep host call cache s i f .emit = some x) :
    Moved host call cache s i f .emit x.1 x.2 := by
  simp only [workerStep] at h
  split at h
  · rename_i results outNode outPort todo hf
    split at h
    · rename_i hr
      exact (Move.emitFault hf hr).moved h
    · rename_i result hr
      exact (Move.emit hf hr).moved h
  · cases h

end Worker

/-- A worker step is one of the transitions. -/
theorem workerStep_move {cache cache' : ResultCache} {s s' : ExecState} {i : Nat} {f : Future}
    {w : WorkerAct} (h : workerStep host call cache s i f w = some (cache', s')) :
    ∃ t f', Move host call cache s i f w cache' t f' ∧ s' = t.setFuture i f' := by
  show Moved host call cache s i f w cache' s'
  cases w with
  | start => exact start_moved h
  | lookup => exact lookup_moved h
  | ret outcome => exact ret_moved h
  | check => exact check_moved h
  | emit => exact emit_moved h
  -- the others are enabled in one stage only
  | put =>
      simp only [workerStep] at h
      split at h
      · rename_i c results hf
        exact (Move.put hf).moved h
      · cases h
  | record =>
      simp only [workerStep] at h
      split at h
      · rename_i c results cached hf
        exact (Move.record hf).moved h
      · cases h
  | notify =>
      simp only [workerStep] at h
      split at h
      · rename_i results cached hf
        exact (Move.notify hf).moved h
      · cases h
  | emitted =>
      simp only [workerStep] at h
      split at h
      · rename_i results output todo hf
        exact (Move.emitted hf).moved h
      · cases h
  | finish =>
      simp only [workerStep] at h
      split at h
      · rename_i results hf
        exact (Move.finish hf).moved h
      · cases h

/-- The transitions of the scheduler thread. -/
inductive SchedMove (s : ExecState) : Act → ExecState → Prop
  | exit (hp : s.phase = .head) (hr : s.ready = []) (hi : s.inFlight = []) (hd : s.Drained) :
      SchedMove s .loop { s with phase := report call s }
  | stop (hp : s.phase = .head) (hn : s.ready ≠ [] ∨ s.inFlight ≠ []) (hc : s.cancel = true) :
      SchedMove s .loop { s with phase := .draining .cancelled }
  | dispatch (hp : s.phase = .head) (hn : s.ready ≠ [] ∨ s.inFlight ≠ [])
      (hc : s.cancel = false) : SchedMove s .loop { s with phase := .submitting }
  | submit {n rest} (hp : s.phase = .submitting) (hr : s.ready = n :: rest) :
      SchedMove s .submit { s with
        futures := s.futures ++ [{ node := n, stage := .queued }]
        inFlight := s.inFlight ++ [s.futures.length]
        ready := rest }
  | submitted (hp : s.phase = .submitting) (hr : s.ready = []) :
      SchedMove s .submit { s with phase := .waiting }
  | wait {done} (hp : s.phase = .waiting) (hne : done ≠ []) (hnd : done.Nodup)
      (hdone : ∀ i ∈ done, i ∈ s.inFlight ∧
        ∃ f, s.futures[i]? = some f ∧ f.stage.isFinal = true) :
      SchedMove s (.wait done) { s with phase := .processing done }
  | failed {i todo f e order} (hp : s.phase = .processing (i :: todo))
      (hf : s.futures[i]? = some f) (he : f.stage = .failed e) :
      SchedMove s (.process order)
        { s with inFlight := s.inFlight.erase i, phase := .draining e }
  | processFault {i todo f fault order} (hp : s.phase = .processing (i :: todo))
      (hf : s.futures[i]? = some f) (hfin : f.stage = .finished)
      (hfault : s.dependents.lookup f.node = none ∨ ∃ ds, s.dependents.lookup f.node = some ds ∧
        order.Nodup ∧ order.toFinset = ds ∧
          release f.node order (s.remainingDeps, s.ready) = .error fault) :
      SchedMove s (.process order)
        { s with inFlight := s.inFlight.erase i, phase := .draining (.fault fault) }
  | process {i todo f ds remaining ready order} (hp : s.phase = .processing (i :: todo))
      (hf : s.futures[i]? = some f) (hfin : f.stage = .finished)
      (hds : s.dependents.lookup f.node = some ds) (hnd : order.Nodup)
      (hord : order.toFinset = ds)
      (hrel : release f.node order (s.remainingDeps, s.ready) = .ok (remaining, ready)) :
      SchedMove s (.process order)
        { s with
          inFlight := s.inFlight.erase i
          remainingDeps := remaining
          ready := ready
          processed := s.processed ++ [f.node]
          phase := afterFuture todo }
  | join {e} (hp : s.phase = .draining e) (hd : s.Drained) :
      SchedMove s .join { s with phase := .raised e }
  | cancel : SchedMove s .cancel { s with cancel := true }

theorem processFinished_move {s s' : ExecState} {i : Nat} {todo : List Nat} {f : Future}
    {order : List Str} (hp : s.phase = .processing (i :: todo)) (hf : s.futures[i]? = some f)
    (hfin : f.stage = .finished) (h : processFinished s i todo f.node order = some s') :
    SchedMove call s (.process order) s' := by
  simp only [processFinished] at h
  split at h
  · rename_i hds
    obtain rfl := (Option.some.inj h).symm
    exact .processFault hp hf hfin (Or.inl hds)
  · rename_i ds hds
    split at h
    · rename_i hord
      split at h
      · rename_i e he
        obtain rfl := (Option.some.inj h).symm
        exact .processFault hp hf hfin (Or.inr ⟨ds, hds, hord.1, hord.2, he⟩)
      · rename_i remaining ready hrel
        obtain rfl := (Option.some.inj h).symm
        exact .process hp hf hfin hds hord.1 hord.2 hrel
    · cases h

/-- A scheduler step is one of the transitions. -/
theorem schedStep_move {s s' : ExecState} {a : Act} (h : schedStep call s a = some s') :
    SchedMove call s a s' := by
  cases a with
  | worker i w => cases h
  -- the head of the loop: it is left, or broken off, or goes on to submit
  | loop =>
      simp only [schedStep] at h
      split at h
      · rename_i hp
        split at h
        · rename_i hn
          split at h
          · rename_i hd
            obtain rfl := (Option.some.inj h).symm
            exact .exit hp hn.1 hn.2 hd
          · cases h
        · rename_i hn
          have hn' : s.ready ≠ [] ∨ s.inFlight ≠ [] := not_and_or.mp hn
          split at h
          · rename_i hc
            obtain rfl := (Option.some.inj h).symm
            exact .stop hp hn' hc
          · rename_i hc
            obtain rfl := (Option.some.inj h).symm
            exact .dispatch hp hn' (by simpa using hc)
      · cases h
  | submit =>
      simp only [schedStep] at h
      split at h
      · rename_i hp hr
        obtain rfl := (Option.some.inj h).symm
        exact .submit hp hr
      · rename_i hp hr
        obtain rfl := (Option.some.inj h).symm
        exact .submitted hp hr
      · cases h
  | wait done =>
      simp only [schedStep] at h
      split at h
      · rename_i hp
        split at h
        · rename_i hd
          obtain rfl := (Option.some.inj h).symm
          exact .wait hp hd.1 hd.2.1 hd.2.2
        · cases h
      · cases h
  -- what is done has failed, or releases its dependents
  | process order =>
      simp only [schedStep] at h
      split at h
      · rename_i i todo hp
        split at h
        · rename_i e ran hf
          obtain rfl := (Option.some.inj h).symm
          exact .failed hp hf rfl
        · rename_i node ran hf
          exact processFinished_move call (f := ⟨node, .finished, ran⟩) hp hf rfl h
        · cases h
      · cases h
  | join =>
      simp only [schedStep] at h
      split at h
      · rename_i e hp
        split at h
        · rename_i hd
          obtain rfl := (Option.some.inj h).symm
          exact .join hp hd
        · cases h
      · cases h
  | cancel =>
      obtain rfl := (Option.some.inj h).symm
      exact .cancel

/-- A step of the call is a transition of one future or of the scheduler. -/
theorem step_move {cache cache' : ResultCache} {s s' : ExecState} {a : Act}
    (h : step host call (cache, s) a = some (cache', s')) :
    (∃ i w f t f', a = .worker i w ∧ s.futures[i]? = some f ∧
      Move host call cache s i f w cache' t f' ∧ s' = t.setFuture i f') ∨
    cache' = cache ∧ SchedMove call s a s' := by
  cases a with
  | worker i w =>
      simp only [step] at h
      split at h
      · rename_i f hf
        obtain ⟨t, f', hmove, rfl⟩ := workerStep_move host call h
        exact Or.inl ⟨i, w, f, t, f', rfl, hf, hmove, rfl⟩
      · cases h
  | loop | submit | wait done | process order | join | cancel =>
      simp only [step, Option.map_eq_some_iff] at h
      obtain ⟨t, ht, hpair⟩ := h
      obtain ⟨rfl, rfl⟩ := Prod.mk.inj hpair
      exact Or.inr ⟨rfl, schedStep_move call ht⟩

/-- A worker step leaves the scheduler's own state alone, keeps its node and
finds its future unfinished. -/
theorem Move.frame {cache cache' : ResultCache} {s t : ExecState} {i : Nat} {f f' : Future}
    {w : WorkerAct} (h : Move host call cache s i f w cache' t f') :
    t = { s with
      nodeKeys := t.nodeKeys
      nodeResults := t.nodeResults
      executed := t.executed
      cached := t.cached
      emittedOutputs := t.emittedOutputs } ∧
    f'.node = f.node ∧ f.stage.isFinal = false := by
  cases h with
  | start hf | startFault hf | hit hf | miss hf | raise hf | reject hf | accept hf | stop hf
  | pass hf | put hf | record hf | notify hf | emitFault hf | emit hf | emitted hf | finish hf =>
      exact ⟨rfl, rfl, by rw [hf]; rfl⟩

end Moves

/-! ### One future replaced -/

/-- The futures after one of them has been replaced. -/
theorem getElem?_set_iff {fs : List Future} {i j : Nat} {f f' g : Future}
    (hf : fs[i]? = some f) :
    (fs.set i f')[j]? = some g ↔ (j = i ∧ g = f') ∨ (j ≠ i ∧ fs[j]? = some g) := by
  have hlt : i < fs.length := (List.getElem?_eq_some_iff.mp hf).1
  by_cases hij : j = i
  · subst hij
    simp [List.getElem?_set_self hlt, eq_comm]
  · have hij' : i ≠ j := fun e => hij e.symm
    simp [List.getElem?_set_ne hij', hij]

theorem map_node_set {fs : List Future} {i : Nat} {f f' : Future} (hf : fs[i]? = some f)
    (hnode : f'.node = f.node) : (fs.set i f').map Future.node = fs.map Future.node := by
  refine List.ext_getElem? fun j => ?_
  rw [List.getElem?_map, List.getElem?_map, List.getElem?_set]
  split
  · rename_i hij
    subst hij
    have hlt : i < fs.length := (List.getElem?_eq_some_iff.mp hf).1
    rw [if_pos hlt, hf]
    simp [hnode]
  · rfl

/-! ### The dependency dicts -/

/-- The sources of the edges into `v`. -/
def sources (es : List Edge) (v : Str) : Finset Str :=
  ((es.filter fun e => e.toNode = v).map Edge.fromNode).toFinset

/-- The targets of the edges out of `v`. -/
def sinks (es : List Edge) (v : Str) : Finset Str :=
  ((es.filter fun e => e.fromNode = v).map Edge.toNode).toFinset

theorem mem_sources {es : List Edge} {u v : Str} :
    u ∈ sources es v ↔ ∃ e ∈ es, e.fromNode = u ∧ e.toNode = v := by
  simp [sources, and_comm, and_assoc]

theorem mem_sinks {es : List Edge} {u v : Str} :
    v ∈ sinks es u ↔ ∃ e ∈ es, e.fromNode = u ∧ e.toNode = v := by
  simp [sinks, and_assoc]

theorem sources_cons (e : Edge) (es : List Edge) (v : Str) :
    sources (e :: es) v = if v = e.toNode then insert e.fromNode (sources es v)
      else sources es v := by
  ext u
  split <;> simp [mem_sources] <;> grind

theorem sinks_cons (e : Edge) (es : List Edge) (u : Str) :
    sinks (e :: es) u = if u = e.fromNode then insert e.toNode (sinks es u)
      else sinks es u := by
  ext v
  split <;> simp [mem_sinks] <;> grind

/-- `d[v]` is `D v` for every node. -/
def Holds (ids : List Str) (d : Dict Str (Finset Str)) (D : Str → Finset Str) :
    Prop :=
  ∀ v ∈ ids, d.lookup v = some (D v)

theorem Holds.addTo {ids : List Str} {d : Dict Str (Finset Str)}
    {D : Str → Finset Str} (h : Holds ids d D) {k : Str} (hk : k ∈ ids) (v : Str)
    (fault : Fault) : ∃ d', addTo d k v fault = .ok d' ∧
      Holds ids d' (fun u => if u = k then insert v (D u) else D u) := by
  refine ⟨d.insert k (insert v (D k)), ?_, fun u hu => ?_⟩
  · simp only [Formshift.addTo, require, h k hk]
    rfl
  · simp only [Dict.lookup_insert_ite]
    split
    · rename_i huk
      rw [huk]
    · exact h u hu

theorem addEdges_ok {ids : List Str} (es : List Edge)
    (hes : ∀ e ∈ es, e.fromNode ∈ ids ∧ e.toNode ∈ ids) {a b : Dict Str (Finset Str)}
    {A B : Str → Finset Str} (ha : Holds ids a A) (hb : Holds ids b B) :
    ∃ a' b', addEdges es (a, b) = .ok (a', b') ∧ Holds ids a' (fun v => A v ∪ sources es v) ∧
      Holds ids b' (fun u => B u ∪ sinks es u) := by
  induction es generalizing a b A B with
  | nil => exact ⟨a, b, rfl, by simpa [sources] using ha, by simpa [sinks] using hb⟩
  | cons e es ih =>
      obtain ⟨hfrom, hto⟩ := hes e List.mem_cons_self
      obtain ⟨a₁, ha₁, hA⟩ := ha.addTo hto e.fromNode (.dependencies e.toNode)
      obtain ⟨b₁, hb₁, hB⟩ := hb.addTo hfrom e.toNode (.dependents e.fromNode)
      obtain ⟨a₂, b₂, hab, hA', hB'⟩ :=
        ih (fun x hx => hes x (List.mem_cons_of_mem _ hx)) hA hB
      refine ⟨a₂, b₂, ?_, fun v hv => (hA' v hv).trans ?_, fun u hu => (hB' u hu).trans ?_⟩
      · rw [addEdges, ha₁]
        simp only [bind, Except.bind, hb₁, hab]
      · simp only [sources_cons]
        split <;> simp
      · simp only [sinks_cons]
        split <;> simp

theorem holds_emptySets (call : Call) (hnd : call.graph.nodeIds.Nodup) :
    Holds call.graph.nodeIds (emptySets call) fun _ => ∅ := by
  intro v hv
  have hkeys : (call.graph.nodes.map fun n => (n.id, (∅ : Finset Str))).map Prod.fst
      = call.graph.nodeIds := by
    simp [Graph.nodeIds]
  refine Dict.lookup_ofPairs (by rw [hkeys]; exact hnd) ?_
  obtain ⟨n, hn, rfl⟩ := List.mem_map.mp hv
  exact List.mem_map.mpr ⟨n, hn, rfl⟩

theorem mem_nodeIds_of_lookup {g : Graph} {id : Str} {n : Node}
    (h : g.nodesById.lookup id = some n) : n ∈ g.nodes ∧ n.id = id := by
  obtain ⟨m, hm, heq⟩ := List.mem_map.mp (Dict.mem_of_lookup_ofPairs h)
  obtain ⟨rfl, rfl⟩ := Prod.mk.inj heq
  exact ⟨hm, rfl⟩

theorem nodeManifest_of_outputType {g : Graph} {reg : ModuleRegistry} {id port t : Str}
    (h : outputType g reg id port = some t) : ∃ n m, g.nodesById.lookup id = some n ∧
      reg.get n.module = some m ∧ (m.outputPort port).map PortSpec.type = some t := by
  simp only [outputType, nodeManifest, Option.bind_eq_bind, Option.map_eq_some_iff,
    Option.bind_eq_some_iff] at h
  obtain ⟨p, ⟨m, ⟨n, hn, hm⟩, hp⟩, rfl⟩ := h
  exact ⟨n, m, hn, hm, by rw [hp]; rfl⟩

theorem nodeManifest_of_inputType {g : Graph} {reg : ModuleRegistry} {id port t : Str}
    (h : inputType g reg id port = some t) : ∃ n m, g.nodesById.lookup id = some n ∧
      reg.get n.module = some m ∧ (m.inputPort port).map PortSpec.type = some t := by
  simp only [inputType, nodeManifest, Option.bind_eq_bind, Option.map_eq_some_iff,
    Option.bind_eq_some_iff] at h
  obtain ⟨p, ⟨m, ⟨n, hn, hm⟩, hp⟩, rfl⟩ := h
  exact ⟨n, m, hn, hm, by rw [hp]; rfl⟩

/-- Both ends of an edge are nodes of the graph. -/
theorem WellFormed.edge_ends {g : Graph} {reg : ModuleRegistry} {session : Session}
    (hw : WellFormed g reg session) {e : Edge} (he : e ∈ g.edges) :
    e.fromNode ∈ g.nodeIds ∧ e.toNode ∈ g.nodeIds := by
  obtain ⟨t, hout, hin⟩ := hw.edge_typed e he
  obtain ⟨n, -, hn, -, -⟩ := nodeManifest_of_outputType hout
  obtain ⟨n', -, hn', -, -⟩ := nodeManifest_of_inputType hin
  exact ⟨List.mem_map.mpr ⟨n, mem_nodeIds_of_lookup hn⟩,
    List.mem_map.mpr ⟨n', mem_nodeIds_of_lookup hn'⟩⟩

/-- A call whose graph is well-formed. -/
def Call.Valid (call : Call) : Prop := WellFormed call.graph call.registry call.session

/-- The nodes that feed `v`. -/
def Call.deps (call : Call) (v : Str) : Finset Str := sources call.graph.edges v

/-- The nodes `v` feeds. -/
def Call.succs (call : Call) (v : Str) : Finset Str := sinks call.graph.edges v

section Valid

variable {call : Call}

theorem Call.mem_deps {u v : Str} : u ∈ call.deps v ↔ call.graph.Feeds u v := mem_sources

theorem Call.mem_succs {u v : Str} : v ∈ call.succs u ↔ call.graph.Feeds u v := mem_sinks

theorem Call.Valid.deps_subset (hw : call.Valid) {u v : Str} (h : u ∈ call.deps v) :
    u ∈ call.graph.nodeIds ∧ v ∈ call.graph.nodeIds := by
  obtain ⟨e, he, rfl, rfl⟩ := Call.mem_deps.mp h
  exact hw.edge_ends he

/-- What `execute_graph` starts its loop with. -/
theorem enter_eq (hw : call.Valid) : ∃ dependents remaining,
    Holds call.graph.nodeIds dependents call.succs ∧
    Holds call.graph.nodeIds remaining call.deps ∧
    enter call = { blank .head with
      dependents := dependents
      remainingDeps := remaining
      ready := call.graph.nodeIds.filter fun n => remaining.lookup n = some ∅ } := by
  have hempty := holds_emptySets call hw.ids_nodup
  obtain ⟨deps, dependents, hadd, hD, hS⟩ :=
    addEdges_ok call.graph.edges (fun e he => hw.edge_ends he) hempty hempty
  refine ⟨dependents, deps, by simpa [Holds, Call.succs] using hS,
    by simpa [Holds, Call.deps] using hD, ?_⟩
  have hval : validateGraph call.graph call.registry call.session = [] :=
    validateGraph_nil_iff.mpr hw
  have htop := (topologicalOrder_ne_none_iff call.graph).mpr hw.acyclic
  simp [enter, hval, htop, hadd]

end Valid

end Formshift
