/-
Formshift/Progress.lean

`execute_graph` ends, and does what the graph says.

`measure` counts the work left: every step but setting the cancel event
lowers it (`measure_lt`).  A call that has not ended can always move
(`exists_step`), so without cancellation a run can only end with a report.
Main result: `execute_graph_correct`, the schedule, the inputs of every node
and the report of a valid call under every interleaving.
-/
import Formshift.Contract
import Formshift.Lib.Digest

namespace Formshift

open Py Steps

/-! ### The work left -/

/-- The steps a future still has to take, for at most `L` requested outputs. -/
def Stage.rank (L : Nat) : Stage → Nat
  | .queued => 10 + 2 * L
  | .keyed _ => 9 + 2 * L
  | .running _ => 8 + 2 * L
  | .returned _ _ => 7 + 2 * L
  | .storing _ _ => 6 + 2 * L
  | .recording _ _ _ => 5 + 2 * L
  | .notifying _ _ => 4 + 2 * L
  | .emitting _ todo => 1 + 2 * todo.length
  | .calling _ _ todo => 2 + 2 * todo.length
  | .finished | .failed _ => 0

/-- The steps the scheduler takes before it looks at another future. -/
def Phase.rank : Phase → Nat
  | .head => 3
  | .submitting => 2
  | .waiting | .draining _ => 1
  | .processing _ | .raised _ | .returned _ => 0

/-- The work of the futures. -/
def futuresRank (L : Nat) (fs : List Future) : Nat := (fs.map fun f => f.stage.rank L).sum

/-- The work a call has left: its futures, the nodes to submit, the futures to
process and the scheduler's way to the next of them. -/
def measure (call : Call) (s : ExecState) : Nat :=
  futuresRank call.graph.outputs.length s.futures +
    (call.graph.nodes.length - s.futures.length) * (15 + 2 * call.graph.outputs.length) +
    4 * s.inFlight.length + s.phase.rank

theorem futuresRank_set {L : Nat} {fs : List Future} {i : Nat} {f f' : Future}
    (hf : fs[i]? = some f) :
    futuresRank L (fs.set i f') + f.stage.rank L = futuresRank L fs + f'.stage.rank L := by
  induction fs generalizing i with
  | nil => simp at hf
  | cons g gs ih =>
      cases i with
      | zero =>
          obtain rfl : g = f := by simpa using hf
          simp only [futuresRank, List.set_cons_zero, List.map_cons, List.sum_cons]
          omega
      | succ i =>
          have hi := ih (i := i) (by simpa using hf)
          simp only [futuresRank, List.set_cons_succ, List.map_cons, List.sum_cons] at hi ⊢
          omega

section Measure

variable {host : Host} {call : Call} {s t : ExecState}

theorem Move.rank_lt {cache cache' : ResultCache} {i : Nat} {f f' : Future} {w : WorkerAct}
    (hm : Move host call cache s i f w cache' t f') :
    f'.stage.rank call.graph.outputs.length < f.stage.rank call.graph.outputs.length := by
  cases hm with
  | notify hf =>
      have hle : (outputsByNode call f.node).length ≤ call.graph.outputs.length := by
        simpa [outputsByNode] using List.length_filter_le _ call.graph.outputs
      simp only [hf, Stage.rank]
      omega
  | start hf | startFault hf | hit hf | miss hf | raise hf | reject hf | accept hf | stop hf
  | pass hf | put hf | record hf | emitFault hf | emit hf | emitted hf | finish hf =>
      simp only [hf, Stage.rank, List.length_cons]
      omega

/-- There is a place for every node that is still to be submitted. -/
theorem SchedInv.futures_lt (h : SchedInv call s) {n : Str} {rest : List Str}
    (hr : s.ready = n :: rest) : s.futures.length < call.graph.nodes.length := by
  have hsub : (s.submitted ++ s.ready).Subperm call.graph.nodeIds :=
    List.subperm_of_subset h.nodup fun v hv => ((h.mem_iff v).mp hv).1
  have hle := hsub.length_le
  simp only [ExecState.submitted, hr, Graph.nodeIds, List.length_append, List.length_map,
    List.length_cons] at hle
  omega

/-- Every step of a valid call but `cancel` leaves less work. -/
theorem measure_lt (h : SchedInv call s) {cache cache' : ResultCache} {a : Act} {s' : ExecState}
    (hs : step host call (cache, s) a = some (cache', s')) (ha : a ≠ .cancel) :
    measure call s' < measure call s := by
  rcases step_move host call hs with ⟨i, w, f, t, f', -, hf, hm, rfl⟩ | ⟨-, hm⟩
  -- a worker brings its own future on
  · have hset : futuresRank call.graph.outputs.length (s.futures.set i f') +
        f.stage.rank call.graph.outputs.length = _ := futuresRank_set hf
    have hlt := hm.rank_lt
    rw [hm.frame.1]
    simp only [measure, ExecState.setFuture, List.length_set]
    omega
  · have hpo := h.phase
    -- a future that is processed is in flight no more
    have herase : ∀ i todo, s.phase = .processing (i :: todo) →
        (s.inFlight.erase i).length + 1 = s.inFlight.length := by
      intro i todo hp
      simp only [PhaseOk, hp] at hpo
      have hmem := (hpo.2.2 i List.mem_cons_self).1
      have hpos := List.length_pos_of_mem hmem
      rw [List.length_erase_of_mem hmem]
      omega
    cases hm with
    | exit hp hr hi hd =>
        simp only [measure, hp, report]
        cases collectOutputs call s <;> simp [Phase.rank]
    | stop hp | dispatch hp | submitted hp | wait hp | join hp =>
        simp [measure, hp, Phase.rank]
    -- a new future costs less than the node that waited for it
    | submit hp hr =>
        have hlt := h.futures_lt hr
        obtain ⟨k, hk⟩ : ∃ k, call.graph.nodes.length - s.futures.length = k + 1 :=
          ⟨_, (Nat.succ_pred_eq_of_pos (Nat.sub_pos_of_lt hlt)).symm⟩
        have hk' : call.graph.nodes.length - (s.futures.length + 1) = k := by omega
        simp only [measure, futuresRank, hp, List.length_append, List.map_append, List.map_cons,
          List.map_nil, List.sum_append, List.sum_cons, List.sum_nil, List.length_cons,
          List.length_nil, Nat.zero_add, Stage.rank, hk, hk', Nat.add_mul, Nat.one_mul]
        omega
    | failed hp hf he =>
        have hlen := herase _ _ hp
        simp only [measure, hp, Phase.rank]
        omega
    | processFault hp =>
        have hlen := herase _ _ hp
        simp only [measure, hp, Phase.rank]
        omega
    | process hp =>
        have hlen := herase _ _ hp
        have hle : ∀ todo, (afterFuture todo).rank ≤ 3 := by
          intro todo
          cases todo <;> simp [afterFuture, Phase.rank]
        have hle' := hle ‹List Nat›
        simp only [measure, hp, Phase.rank] at hle' ⊢
        omega
    | cancel => exact absurd rfl ha

/-! ### A call that has not ended can move -/

/-- A pool thread at work has something to do. -/
theorem exists_worker_step {beh : Behaviour}
    (htotal : ∀ m inputs params draft, ∃ outcome, beh m inputs params draft outcome)
    {cache : ResultCache} {i : Nat} {f : Future} (hf : s.futures[i]? = some f)
    (hactive : f.stage.isActive = true) :
    ∃ w, Permits beh call (cache, s) (.worker i w) ∧
      (workerStep host call cache s i f w).isSome = true := by
  cases hst : f.stage with
  | queued | finished | failed =>
      simp [hst, Stage.isActive, Stage.isQueued, Stage.isFinal] at hactive
  | keyed c =>
      refine ⟨.lookup, trivial, ?_⟩
      cases hget : cache.get c.key <;> simp [workerStep, hst, hget]
  -- the module returns something
  | running c =>
      obtain ⟨outcome, hout⟩ := htotal c.manifest c.inputs c.node.params call.draft
      refine ⟨.ret outcome, fun g c' hg hst' => ?_, ?_⟩
      · obtain rfl := Option.some.inj (hf.symm.trans hg)
        obtain rfl := Stage.running.inj (hst.symm.trans hst')
        exact hout
      · cases outcome with
        | error e => simp [workerStep, hst]
        | ok results =>
            cases hcheck : checkContract c.manifest results <;> simp [workerStep, hst, hcheck]
  | returned c results =>
      refine ⟨.check, trivial, ?_⟩
      by_cases hc : s.cancel = true <;> simp [workerStep, hst, hc]
  | storing c results => exact ⟨.put, trivial, by simp [workerStep, hst]⟩
  | recording c results cached => exact ⟨.record, trivial, by simp [workerStep, hst]⟩
  | notifying results cached => exact ⟨.notify, trivial, by simp [workerStep, hst]⟩
  -- an output that is missing fails the future, and that is a step
  | emitting results todo =>
      cases todo with
      | nil => exact ⟨.finish, trivial, by simp [workerStep, hst]⟩
      | cons o todo =>
          refine ⟨.emit, trivial, ?_⟩
          cases hr : results.lookup o.2 <;> simp [workerStep, hst, hr]
  | calling results output todo => exact ⟨.emitted, trivial, by simp [workerStep, hst]⟩

/-- With nobody at work and somebody queued, the first of them can start. -/
theorem exists_start {cache : ResultCache} (hidle : ∀ f ∈ s.futures, f.stage.isActive = false)
    {g : Future} (hg : g ∈ s.futures) (hq : g.stage.isQueued = true) :
    ∃ i f, s.futures[i]? = some f ∧ (workerStep host call cache s i f .start).isSome = true := by
  obtain ⟨i, hi⟩ : ∃ i, s.futures.findIdx? (fun f => f.stage.isQueued) = some i := by
    refine Option.isSome_iff_exists.mp ?_
    rw [List.findIdx?_isSome]
    exact List.any_eq_true.mpr ⟨g, hg, hq⟩
  obtain ⟨hlt, hqi, hbefore⟩ := List.findIdx?_eq_some_iff_getElem.mp hi
  refine ⟨i, s.futures[i], List.getElem?_eq_getElem hlt, ?_⟩
  have hst : s.futures[i].stage = .queued := by
    cases hstage : s.futures[i].stage <;> simp [hstage, Stage.isQueued] at hqi ⊢
  have hstart : CanStart host call s i := by
    refine ⟨fun f hf => ?_, ?_⟩
    · obtain ⟨j, hj, rfl⟩ := List.mem_take_iff_getElem.mp hf
      simpa using hbefore j (by omega)
    · have hzero : s.active = 0 := List.countP_eq_zero.mpr fun f hf => by simp [hidle f hf]
      have hpos : 0 < maxWorkers host call := by
        simp only [maxWorkers]
        omega
      omega
  cases hc : beginNode host call s s.futures[i].node <;> simp [workerStep, hst, hstart, hc]

/-- The scheduler can move once the pool is idle. -/
theorem exists_sched_step (h : SchedInv call s) (hdrained : s.Drained)
    (hend : (∀ e, s.phase ≠ .raised e) ∧ ∀ r, s.phase ≠ .returned r) :
    ∃ a, a ≠ .cancel ∧ (schedStep call s a).isSome = true := by
  have hpo := h.phase
  cases hp : s.phase with
  | head =>
      refine ⟨.loop, by simp, ?_⟩
      by_cases hn : s.ready = [] ∧ s.inFlight = []
      · simp only [schedStep, hp, if_pos hn, if_pos hdrained, Option.isSome_some]
      · by_cases hc : s.cancel = true
        · simp only [schedStep, hp, if_neg hn, if_pos hc, Option.isSome_some]
        · simp only [schedStep, hp, if_neg hn, if_neg hc, Option.isSome_some]
  | submitting =>
      refine ⟨.submit, by simp, ?_⟩
      cases hr : s.ready <;> simp [schedStep, hp, hr]
  | waiting =>
      simp only [PhaseOk, hp] at hpo
      obtain ⟨i, rest, hi⟩ := List.exists_cons_of_ne_nil hpo.2
      have hmem : i ∈ s.inFlight := by simp [hi]
      obtain ⟨f, hf, -⟩ := h.flight i hmem
      have hdone : [i] ≠ [] ∧ [i].Nodup ∧ ∀ j ∈ [i], j ∈ s.inFlight ∧
          ∃ f, s.futures[j]? = some f ∧ f.stage.isFinal = true := by
        refine ⟨by simp, by simp, fun j hj => ?_⟩
        obtain rfl := List.mem_singleton.mp hj
        exact ⟨hmem, f, hf, hdrained f (List.mem_of_getElem? hf)⟩
      exact ⟨.wait [i], by simp, by simp only [schedStep, hp, if_pos hdone, Option.isSome_some]⟩
  | processing todo =>
      simp only [PhaseOk, hp] at hpo
      obtain ⟨hne, -, hdone⟩ := hpo
      obtain ⟨i, todo, rfl⟩ := List.exists_cons_of_ne_nil hne
      obtain ⟨⟨node, stage, ran⟩, hf, hfin⟩ := (hdone i List.mem_cons_self).2
      have hlook := h.dependents node (h.node_mem hf)
      -- the set of dependents, iterated in some order
      have hord : (call.succs node).toList.Nodup ∧
          (call.succs node).toList.toFinset = call.succs node :=
        ⟨Finset.nodup_toList _, Finset.toList_toFinset _⟩
      refine ⟨.process (call.succs node).toList, by simp, ?_⟩
      cases stage with
      | failed e => simp only [schedStep, hp, hf, Option.isSome_some]
      | finished =>
          simp only [schedStep, hp, hf, processFinished, hlook, if_pos hord]
          cases release node (call.succs node).toList (s.remainingDeps, s.ready) <;> rfl
      | queued | keyed | running | returned | storing | recording | notifying | emitting
      | calling => simp [Stage.isFinal] at hfin
  | draining e =>
      exact ⟨.join, by simp, by simp only [schedStep, hp, if_pos hdrained, Option.isSome_some]⟩
  | raised e => exact absurd hp (hend.1 e)
  | returned r => exact absurd hp (hend.2 r)

/-- **No deadlock**: some thread of a call that has not ended can move. -/
theorem exists_step {beh : Behaviour}
    (htotal : ∀ m inputs params draft, ∃ outcome, beh m inputs params draft outcome)
    (h : SchedInv call s) {cache : ResultCache}
    (hend : (∀ e, s.phase ≠ .raised e) ∧ ∀ r, s.phase ≠ .returned r) :
    ∃ a y, a ≠ .cancel ∧ Permits beh call (cache, s) a ∧ step host call (cache, s) a = some y := by
  -- a worker that is at work goes on
  by_cases hactive : ∃ f ∈ s.futures, f.stage.isActive = true
  · obtain ⟨f, hf, hact⟩ := hactive
    obtain ⟨i, hi⟩ := List.mem_iff_getElem?.mp hf
    obtain ⟨w, hok, hsome⟩ : ∃ w, Permits beh call (cache, s) (.worker i w) ∧
        (workerStep host call cache s i f w).isSome := exists_worker_step htotal hi hact
    obtain ⟨y, hy⟩ := Option.isSome_iff_exists.mp hsome
    exact ⟨.worker i w, y, by simp, hok, by simp only [step, hi, hy]⟩
  · have hidle : ∀ f ∈ s.futures, f.stage.isActive = false := by simpa using hactive
    -- otherwise the pool starts a queued one
    by_cases hq : ∃ f ∈ s.futures, f.stage.isQueued = true
    · obtain ⟨g, hg, hq⟩ := hq
      obtain ⟨i, f, hi, hsome⟩ : ∃ i f, s.futures[i]? = some f ∧
          (workerStep host call cache s i f .start).isSome := exists_start hidle hg hq
      obtain ⟨y, hy⟩ := Option.isSome_iff_exists.mp hsome
      exact ⟨.worker i .start, y, by simp, trivial, by simp only [step, hi, hy]⟩
    -- otherwise all are done, and it is the scheduler's turn
    · have hdrained : s.Drained := by
        intro f hf
        have h₁ := hidle f hf
        have h₂ : f.stage.isQueued = false := by simpa using fun hq' => hq ⟨f, hf, hq'⟩
        simpa [Stage.isActive, h₂] using h₁
      obtain ⟨a, ha, hsome⟩ := exists_sched_step h hdrained hend
      obtain ⟨s', hs⟩ := Option.isSome_iff_exists.mp hsome
      refine ⟨a, (cache, s'), ha, ?_⟩
      cases a with
      | worker i w => cases hs
      | loop | submit | wait | process | join | cancel =>
          exact ⟨trivial, by simp only [step, hs, Option.map_some]⟩

/-- A requested output carries what its node recorded. -/
theorem collected_outputs {Q : NodeCall → Results → Prop} (hD : DataInv host call Q s)
    {outputs : List ExecutionOutput} (h : collectOutputs call s = .ok outputs) :
    List.Forall₂ (fun o output => OutputOk s o.key output) call.graph.outputs outputs :=
  (mapM_ok_iff.mp h).imp fun o output ho => hD.emitted o.key output (require_ok_iff.mp ho)

end Measure

/-! ### Correctness of `execute_graph` -/

/-- The arguments `run_node` holds while its module is asked for. -/
def Stage.nodeCall : Stage → Option NodeCall
  | .keyed c | .running c | .returned c _ | .storing c _ | .recording c _ _ => some c
  | _ => none

/-- The inputs dict of a node: its manifest's ports, each with the bytes of its
only binding, or of the source port of its only edge. -/
def InputsExact (call : Call) (s : ExecState) (v : Str) (c : NodeCall) : Prop :=
  nodeManifest call.graph call.registry v = some c.manifest ∧
  (∀ p, p ∈ c.inputs ↔ p ∈ c.manifest.inputs.map PortSpec.name) ∧
  ∀ port ∈ c.manifest.inputs,
    (∃ b payload, (∀ x, (x ∈ call.graph.bindings ∧ x.target = (v, port.name)) ↔ x = b) ∧
      (∀ e ∈ call.graph.edges, e.target ≠ (v, port.name)) ∧
      call.session.payloads.lookup b.payload = some payload ∧
      c.inputs.lookup port.name = some payload.data) ∨
    ∃ e results result, (∀ x, (x ∈ call.graph.edges ∧ x.target = (v, port.name)) ↔ x = e) ∧
      (∀ b ∈ call.graph.bindings, b.target ≠ (v, port.name)) ∧
      s.nodeResults.lookup e.fromNode = some results ∧
      results.lookup e.fromPort = some result ∧ c.inputs.lookup port.name = some result.data

/-- On a valid graph `run_node` builds exactly the inputs the wiring says. -/
theorem inputs_exact (host : Host) {call : Call} {s : ExecState} (hw : call.Valid) {v : Str}
    {c : NodeCall} (h : beginNode host call s v = .ok c) : InputsExact call s v c := by
  obtain ⟨found, hn, hm, -⟩ := beginNode_ok_iff.mp h
  obtain ⟨hkeys, hports⟩ := begun_inputs h
  refine ⟨by simp [nodeManifest, hn, hm], hkeys, fun port hport => ?_⟩
  -- a port is fed once
  have hsplit := hw.fed_split hn hm hport
  obtain ⟨key, data, hin, hdata⟩ := hports port hport
  rcases hin with ⟨id, p, hfeed, hp, -, rfl⟩ | ⟨u, q, results, result, hfeed, -, hres, hq, rfl⟩
  · obtain ⟨b, hb, htarget, rfl⟩ := binding_of_feedOf hfeed
    have hpos : 0 < (call.graph.bindings.map Binding.target).count (v, port.name) :=
      List.count_pos_iff.mpr (List.mem_map.mpr ⟨b, hb, htarget⟩)
    have hone : (call.graph.bindings.map Binding.target).count (v, port.name) = 1 := by omega
    have hzero : (call.graph.edges.map Edge.target).count (v, port.name) = 0 := by omega
    refine Or.inl ⟨b, p, fun x => ⟨fun hx => ?_, fun e => e ▸ ⟨hb, htarget⟩⟩, ?_, hp, hdata⟩
    · exact eq_of_count_map_eq_one hone hx.1 hb hx.2 htarget
    · exact fun e he hte => List.count_eq_zero.mp hzero (List.mem_map.mpr ⟨e, he, hte⟩)
  · obtain ⟨e, he, htarget, rfl, rfl⟩ := edge_of_feedOf hfeed
    have hpos : 0 < (call.graph.edges.map Edge.target).count (v, port.name) :=
      List.count_pos_iff.mpr (List.mem_map.mpr ⟨e, he, htarget⟩)
    have hone : (call.graph.edges.map Edge.target).count (v, port.name) = 1 := by omega
    have hzero : (call.graph.bindings.map Binding.target).count (v, port.name) = 0 := by omega
    refine Or.inr ⟨e, results, result, fun x => ⟨fun hx => ?_, fun h => h ▸ ⟨he, htarget⟩⟩,
      ?_, hres, hq, hdata⟩
    · exact eq_of_count_map_eq_one hone hx.1 he hx.2 htarget
    · exact fun b hb htb => List.count_eq_zero.mp hzero (List.mem_map.mpr ⟨b, hb, htb⟩)

/-- The steps of a call nobody cancels. -/
abbrev Uncancelled (host : Host) (beh : Behaviour) (call : Call) :
    ResultCache × ExecState → ResultCache × ExecState → Prop :=
  Fires (step host call) fun x a => Permits beh call x a ∧ a ≠ .cancel

/-- What holds along an uncancelled run whose modules conform. -/
structure CleanRun (host : Host) (call : Call) (x : ResultCache × ExecState) : Prop where
  cache : CacheConforms host call.registry x.1
  inv : CallInv host call (Conforming call) x.2
  raises : Raises (fun _ => False) x.2
  cancel : x.2.cancel = false

section Clean

variable {host : Host} {call : Call} {beh : Behaviour}

theorem cancel_of_step {cache cache' : ResultCache} {s s' : ExecState} {a : Act}
    (hs : step host call (cache, s) a = some (cache', s')) (ha : a ≠ .cancel) :
    s'.cancel = s.cancel := by
  rcases step_move host call hs with ⟨i, w, f, t, f', -, -, hm, rfl⟩ | ⟨-, hm⟩
  · rw [hm.frame.1]
    rfl
  · cases hm with
    | cancel => exact absurd rfl ha
    | exit | stop | dispatch | submit | submitted | wait | failed | processFault | process | join =>
        rfl

theorem CleanRun.enter {cache : ResultCache} (hw : call.Valid)
    (hcache : CacheConforms host call.registry cache) : CleanRun host call (cache, enter call) := by
  obtain ⟨dependents, remaining, -, -, heq⟩ := enter_eq hw
  refine ⟨hcache, CallInv.enter hw, Raises.enter hw, ?_⟩
  rw [heq]
  rfl

theorem CleanRun.step (hinj : Function.Injective host.blake2b)
    (hconf : ∀ m inputs params draft outcome, beh m inputs params draft outcome →
      ∃ results, outcome = .ok results ∧ Conforms m results)
    {x y : ResultCache × ExecState} (h : CleanRun host call x) (hw : call.Valid)
    (hfire : Uncancelled host beh call x y) : CleanRun host call y := by
  obtain ⟨a, ⟨hok, ha⟩, hs⟩ := hfire
  obtain ⟨hC, hI⟩ := h.inv.step (conforming_rule hinj call.registry beh) rfl hw h.cache hok hs
  refine ⟨hC, hI, ?_, (cancel_of_step hs ha).trans h.cancel⟩
  refine h.raises.step hw h.inv hok hs ?_ ?_ (fun hc => by simp [h.cancel] at hc)
  · intro m inputs params draft e he
    obtain ⟨results, hr, -⟩ := hconf _ _ _ _ _ he
    cases hr
  · intro m inputs params draft results e he hcheck
    obtain ⟨results', hr, hconf'⟩ := hconf _ _ _ _ _ he
    obtain rfl := Except.ok.inj hr
    rw [checkContract_none_iff.mpr hconf'] at hcheck
    cases hcheck

/-- With a report out, every node has been submitted and is recorded. -/
theorem SchedInv.returned {s : ExecState} (hS : SchedInv call s) (hw : call.Valid)
    {Q : NodeCall → Results → Prop} (hD : DataInv host call Q s) {r : ExecutionReport}
    (hr : s.phase = .returned r) :
    s.submitted.Perm call.graph.nodeIds ∧ ∀ v, v ∈ s.nodeKeys ↔ v ∈ call.graph.nodeIds := by
  have hpo := hS.phase
  simp only [PhaseOk, hr] at hpo
  have hall := hS.all_processed hw hpo.2.1 hpo.2.2 (by rw [hr]; trivial)
  have hmem : ∀ v, v ∈ s.submitted ↔ v ∈ call.graph.nodeIds := by
    intro v
    constructor
    · exact fun hv => ((hS.mem_iff v).mp (List.mem_append_left _ hv)).1
    · intro hv
      obtain ⟨f, hf, hnode, -⟩ := hS.processed v (hall v hv)
      exact List.mem_map.mpr ⟨f, hf, hnode⟩
  refine ⟨(List.perm_ext_iff_of_nodup (List.nodup_append.mp hS.nodup).1 hw.ids_nodup).mpr hmem,
    fun v => ⟨fun hv => (hmem v).mp (hD.submitted v hv), fun hv => ?_⟩⟩
  obtain ⟨f, hf, rfl, hfin⟩ := hS.processed v (hall v hv)
  have hok := hD.stages f hf
  rw [StageOk, hfin] at hok
  exact hok.1

/-- **`execute_graph` does what the graph says**, under every interleaving: it
ends, and only with a report; nodes are submitted once each, after their
sources are recorded; each gets exactly the inputs it is wired to; and the
report covers every node and every requested output. -/
theorem execute_graph_correct (host : Host) (call : Call) (beh : Behaviour) (cache : ResultCache)
    (hinj : Function.Injective host.blake2b)
    (hconf : ∀ m inputs params draft outcome, beh m inputs params draft outcome →
      ∃ results, outcome = .ok results ∧ Conforms m results)
    (htotal : ∀ m inputs params draft, ∃ outcome, beh m inputs params draft outcome)
    (hvalid : validateGraph call.graph call.registry call.session = [])
    (hcache : CacheConforms host call.registry cache) :
    Terminates (Uncancelled host beh call) (cache, enter call) ∧
    ∀ x, Reaches (Uncancelled host beh call) (cache, enter call) x →
      ((∀ y, ¬ Uncancelled host beh call x y) → ∃ r, x.2.phase = .returned r) ∧
      x.2.submitted.Nodup ∧
      (∀ v ∈ x.2.submitted, v ∈ call.graph.nodeIds ∧
        ∀ u, call.graph.Feeds u v → u ∈ x.2.nodeKeys ∧ u ∈ x.2.nodeResults) ∧
      (∀ f ∈ x.2.futures, ∀ c, f.stage.nodeCall = some c → InputsExact call x.2 f.node c) ∧
      ∀ r, x.2.phase = .returned r →
        x.2.submitted.Perm call.graph.nodeIds ∧
        r.executedNodes ∪ r.cachedNodes = call.graph.nodeIds.toFinset ∧
        Disjoint r.executedNodes r.cachedNodes ∧
        List.Forall₂ (fun o output => OutputOk x.2 o.key output) call.graph.outputs r.outputs := by
  have hw : call.Valid := validateGraph_nil_iff.mp hvalid
  have hstart := CleanRun.enter hw hcache
  have hstep : ∀ x y, Uncancelled host beh call x y → CleanRun host call x → CleanRun host call y :=
    fun x y hfire h => h.step hinj hconf hw hfire
  constructor
  · refine terminates_of_measure (m := fun x => measure call x.2) hstep ?_ hstart
    rintro ⟨cache, s⟩ ⟨cache', s'⟩ ⟨a, ⟨-, ha⟩, hs⟩ h
    exact measure_lt h.inv.sched hs ha
  · intro x hrun
    have h := Reaches.invariant hstep hrun hstart
    have hS := h.inv.sched
    have hD := h.inv.data
    refine ⟨fun hstuck => ?_, (List.nodup_append.mp hS.nodup).1, fun v hv => ?_,
      fun f hf c hc => ?_, fun r hr => ?_⟩
    · by_contra hnone
      -- what cannot go on has ended, and it has not raised
      have hend : (∀ e, x.2.phase ≠ .raised e) ∧ ∀ r, x.2.phase ≠ .returned r :=
        ⟨fun e he => h.raises.raised e he, fun r hr => hnone ⟨r, hr⟩⟩
      obtain ⟨a, y, ha, hok, hs⟩ : ∃ a y, a ≠ .cancel ∧ Permits beh call x a ∧
          step host call x a = some y := exists_step htotal hS hend
      exact hstuck y ⟨a, ⟨hok, ha⟩, hs⟩
    · refine ⟨((hS.mem_iff v).mp (List.mem_append_left _ hv)).1, fun u hu => ?_⟩
      -- a node is submitted behind its sources
      have hrec := hS.sources_recorded hD hv (Call.mem_deps.mpr hu)
      exact ⟨hrec, (hD.results_iff u).mpr hrec⟩
    · have hok := hD.stages f hf
      -- the call of a future is what `begin` made of its node
      refine inputs_exact host hw ?_
      unfold StageOk at hok
      cases hst : f.stage with
      | keyed c' | running c' =>
          obtain rfl : c' = c := by simpa [hst, Stage.nodeCall] using hc
          rw [hst] at hok
          exact hok.2
      | returned c' | storing c' | recording c' =>
          obtain rfl : c' = c := by simpa [hst, Stage.nodeCall] using hc
          rw [hst] at hok
          exact hok.2.1
      | queued | notifying | emitting | calling | finished | failed =>
          simp [hst, Stage.nodeCall] at hc
    · obtain ⟨hperm, hkeys⟩ := hS.returned hw hD hr
      have hrep := h.inv.report r hr
      unfold report at hrep
      split at hrep
      · cases hrep
      · rename_i outputs hout
        obtain rfl := Phase.returned.inj hrep
        refine ⟨hperm, ?_, hD.disjoint, collected_outputs hD hout⟩
        ext v
        rw [← hD.keys_iff, hkeys, List.mem_toFinset]

end Clean

/-! ### A small registry -/

/-- A source with two ports of one type. -/
def splitModule : ModuleManifest where
  name := "split"
  version := "1"
  description := ""
  inputs := []
  outputs := [⟨"a", "text"⟩, ⟨"b", "text"⟩]

/-- One port in, one port out. -/
def copyModule : ModuleManifest where
  name := "copy"
  version := "1"
  description := ""
  inputs := [⟨"in", "text"⟩]
  outputs := [⟨"out", "text"⟩]

def sampleRegistry : ModuleRegistry := .ofList [splitModule, copyModule]

def splitText : String :=
  "\x7b\"draft\":false,\"inputs\":[],\"module\":\"split\",\"params\":\x7b\x7d,\"version\":\"1\"\x7d"

def splitKey : String := "afd77a52be1025f4da4f716b1760c9d6"

def copyText : String :=
  "\x7b\"draft\":false,\"inputs\":[\"afd77a52be1025f4da4f716b1760c9d6\"],\"module\":\"copy\",\"params\":\x7b\x7d,\"version\":\"1\"\x7d"

def copyKey : String := "5723d596f2ac415b5c94ebd2063a1711"

/-- `copy` with `{"n": 1}` for parameters. -/
def editedText : String :=
  "\x7b\"draft\":false,\"inputs\":[\"afd77a52be1025f4da4f716b1760c9d6\"],\"module\":\"copy\",\"params\":\x7b\"n\":1\x7d,\"version\":\"1\"\x7d"

def editedKey : String := "eef5f2e6b22e36b9647557254cb5e724"

/-- BLAKE2b with 16 bytes, at the texts of the nodes below. -/
def sampleHost : Host where
  blake2b := digestOf [(encode splitText, splitKey), (encode copyText, copyKey),
    (encode editedText, editedKey)]
  cpuCount := some 2

theorem sampleHost_injective : Function.Injective sampleHost.blake2b :=
  digestOf_injective (by decide) (by decide)

/-- `split` feeds `copy` from its first port. -/
def chainCall : Call where
  graph := {
    nodes := [{ id := "s", module := "split" }, { id := "c", module := "copy" }]
    edges := [⟨"s", "a", "c", "in"⟩]
    bindings := []
    outputs := [{ node := "c", port := "out" }] }
  registry := sampleRegistry
  session := ⟨"session", ∅⟩
  draft := false
  workers := some 1

/-- A result for every declared port, with these bytes. -/
def resultsWith (m : ModuleManifest) (value : PortSpec → Bytes) : Results :=
  Dict.ofPairs (m.outputs.map fun p => (p.name, ⟨p.type, value p⟩))

theorem resultsWith_conform (m : ModuleManifest) (value : PortSpec → Bytes) :
    Conforms m (resultsWith m value) := by
  have htype : ∀ ports : List PortSpec, ∀ p result,
      (Dict.ofPairs (ports.map fun p => (p.name, (⟨p.type, value p⟩ : ModuleResult)))).lookup p =
        some result → (Dict.ofPairs (ports.map fun p => (p.name, p.type))).lookup p =
          some result.type := by
    intro ports p result h
    induction ports using List.reverseRecOn with
    | nil => cases h
    | append_singleton ports port ih =>
        simp only [List.map_append, List.map_cons, List.map_nil, Dict.ofPairs_concat,
          Dict.lookup_insert_ite] at h ⊢
        split at h
        · rename_i hp
          rw [if_pos hp, ← Option.some.inj h]
        · rename_i hp
          rw [if_neg hp]
          exact ih h
  refine ⟨fun p => ?_, htype m.outputs⟩
  rw [resultsWith, Dict.mem_ofPairs, List.map_map]
  rfl

def emptyResults (m : ModuleManifest) : Results := resultsWith m fun _ => []

/-- Modules may return any conforming results. -/
def anyConforming : Behaviour := fun m _ _ _ outcome => ∃ results, outcome = .ok results ∧
  Conforms m results

/-- A thread takes future `i` and runs its module. -/
def ranActs (i : Nat) (results : Results) : List Act :=
  [.worker i .start, .worker i .lookup, .worker i (.ret (.ok results)), .worker i .check,
    .worker i .put, .worker i .record, .worker i .notify]

/-- A thread takes future `i` and finds it in the cache. -/
def servedActs (i : Nat) : List Act :=
  [.worker i .start, .worker i .lookup, .worker i .record, .worker i .notify]

/-- A thread reports the one requested output of future `i`. -/
def emitActs (i : Nat) : List Act := [.worker i .emit, .worker i .emitted, .worker i .finish]

/-- Two nodes one after the other, the first one run or served. -/
def chainActs (first : List Act) (next : Str) (results : Results) : List Act :=
  [.loop, .submit, .submit] ++ first ++ [.worker 0 .finish, .wait [0], .process [next], .loop,
    .submit, .submit] ++ ranActs 1 results ++ emitActs 1 ++ [.wait [1], .process [], .loop]

theorem execute_graph_correct_chain :
    ∃ x r, Reaches (Uncancelled sampleHost anyConforming chainCall) (∅, enter chainCall) x ∧
      x.2.phase = .returned r ∧
        r.executedNodes ∪ r.cachedNodes = ([.text "s", .text "c"] : List Str).toFinset := by
  obtain ⟨hterm, hreach⟩ := execute_graph_correct sampleHost chainCall anyConforming ∅
    sampleHost_injective (fun _ _ _ _ _ h => h)
    (fun m _ _ _ => ⟨_, emptyResults m, rfl, resultsWith_conform m _⟩) (by decide)
    (cacheConforms_empty _ _)
  have hlive : ∀ x, Reaches (Uncancelled sampleHost anyConforming chainCall)
      (∅, enter chainCall) x → (∃ r, x.2.phase = .returned r) ∨
        ∃ y, Uncancelled sampleHost anyConforming chainCall x y := by
    intro x hx
    by_cases hstuck : ∀ y, ¬ Uncancelled sampleHost anyConforming chainCall x y
    · exact Or.inl ((hreach x hx).1 hstuck)
    · exact Or.inr (by simpa using hstuck)
  obtain ⟨x, hx, r, hr⟩ := hterm.reaches_final hlive
  exact ⟨x, r, hx, hr, ((hreach x hx).2.2.2.2 r hr).2.1⟩

end Formshift
