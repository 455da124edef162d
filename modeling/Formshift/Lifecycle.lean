/-
Formshift/Lifecycle.lean

The events of a job.

While `execute_graph` runs, `RunInv` ties the stages of the futures to the
gate and the log: a node has its event once it is past `on_node`, an output is
handed over once its future is past it, and what is announced is what the gate
says.  `JobInv` adds the places before and after.  Main result: the log of a
job is always a prefix of the one shape the protocol promises, complete in a
completed job and frozen at its end (`job_lifecycle`).
-/
import Formshift.Server
import Formshift.PinnedOrder

namespace Formshift

open Py Steps

/-! ### A session that grows -/

section Grow

variable {host : Host} {call : Call} {session : Session}

/-- The payloads a valid graph is bound to are found in every later session. -/
theorem beginNode_session (hw : call.Valid) (hgrow : ∀ id p,
    call.session.payloads.lookup id = some p → session.payloads.lookup id = some p)
    (s : ExecState) (v : Str) :
    beginNode host { call with session := session } s v = beginNode host call s v := by
  have hinput : ∀ port, inputOf host { call with session := session } s v port =
      inputOf host call s v port := by
    intro port
    have hbind : bindingInto { call with session := session } = bindingInto call := rfl
    have hedge : edgeInto { call with session := session } = edgeInto call := rfl
    unfold inputOf
    rw [hbind, hedge]
    cases hb : (bindingInto call).lookup (v, port.name) with
    | none => rfl
    -- the payload of a binding is there, and stays
    | some payload =>
        obtain ⟨b, hmem, heq⟩ := List.mem_map.mp (Dict.mem_of_lookup_ofPairs hb)
        obtain ⟨p, hp, -⟩ := hw.binding_typed b hmem
        rw [(Prod.mk.inj heq).2] at hp
        simp only [hp, hgrow _ p hp]
  unfold beginNode
  have hfun : inputOf host { call with session := session } s v = inputOf host call s v :=
    funext hinput
  rw [hfun]

/-- A valid call takes the same steps in every later session. -/
theorem step_session (hw : call.Valid) (hgrow : ∀ id p,
    call.session.payloads.lookup id = some p → session.payloads.lookup id = some p)
    (x : ResultCache × ExecState) (a : Act) :
    step host { call with session := session } x a = step host call x a := by
  cases a with
  | worker i w =>
      cases w with
      | start =>
          unfold step workerStep
          simp only [beginNode_session hw hgrow]
          rfl
      | lookup | ret | check | put | record | notify | emit | emitted | finish => rfl
  | loop | submit | wait | process | join | cancel => rfl

end Grow

/-! ### Events and futures -/

def EventBody.node? : EventBody → Option Str
  | .nodeCompleted node _ => some node
  | _ => none

/-- The nodes completed so far, in order. -/
def completedNodes (bodies : List EventBody) : List Str := bodies.filterMap EventBody.node?

@[simp] theorem completedNodes_append (bodies bodies' : List EventBody) :
    completedNodes (bodies ++ bodies') = completedNodes bodies ++ completedNodes bodies' :=
  List.filterMap_append

def Handling.isIdle : Handling → Bool
  | .idle => true
  | _ => false

namespace Stage

/-- The node has had its `on_node`. -/
def isPast : Stage → Bool
  | emitting _ _ | calling _ _ _ | finished => true
  | _ => false

/-- Ended by a failed lookup. -/
def isFaulted : Stage → Bool
  | failed (.fault _) => true
  | _ => false

end Stage

/-- What a future has still to hand over; `c` is its call of `on_output`. -/
def owed (call : Call) (c : Handling) (f : Future) : List (Str × Str) :=
  match f.stage with
  | .emitting _ todo => todo
  | .calling _ output todo => if c.isIdle then output.key :: todo else todo
  | .finished => []
  | _ => outputsByNode call f.node

/-- What the log and the gate know of a future: `nodes` are the completed ones. -/
def FutureOk (call : Call) (gate : GateState) (nodes : List Str) (t : Nat) (f : Future) : Prop :=
  f.stage.isFaulted = false →
    (f.node ∈ nodes ↔ f.stage.isPast = true) ∧
    ∀ key ∈ outputsByNode call f.node,
      (key, t) ∈ gate.handed ↔ key ∉ owed call (gate.calls t) f

/-! ### The invariant of `execute_graph` -/

/-- The calls of `on_output` and the log go with the futures. -/
structure RunInv (host : Host) (call : Call) (job : Str) (k : SessionState) (gate : GateState)
    (s : ExecState) : Prop where
  exec : CallInv host call (fun _ _ => True) s
  inOrder : GateInv call.graph job (k, gate)
  calling : ∀ t, gate.calls t ≠ .idle → ∃ output, s.calling t = some output
  handed_by : ∀ p ∈ gate.handed, ∃ f, s.futures[p.2]? = some f ∧ p.1 ∈ outputsByNode call f.node
  nodes_nodup : (completedNodes (k.events.ofJob job)).Nodup
  nodes_by : ∀ v ∈ completedNodes (k.events.ofJob job), v ∈ s.submitted
  futures : ∀ t f, s.futures[t]? = some f →
    FutureOk call gate (completedNodes (k.events.ofJob job)) t f

section Run

variable {host : Host} {call : Call} {job : Str} {k : SessionState} {gate : GateState}
  {s s' : ExecState} {groups : Groups} {cache cache' : ResultCache}

theorem calling_eq_some {t : Nat} {output : ExecutionOutput} :
    s.calling t = some output ↔ ∃ f results todo, s.futures[t]? = some f ∧
      f.stage = .calling results output todo := by
  unfold ExecState.calling
  rw [Option.bind_eq_some_iff]
  constructor
  · rintro ⟨f, hf, hout⟩
    split at hout
    · rename_i results output' todo hst
      obtain rfl := Option.some.inj hout
      exact ⟨f, results, todo, hf, hst⟩
    · cases hout
  · rintro ⟨f, results, todo, hf, hst⟩
    exact ⟨f, hf, by rw [hst]⟩

/-- A future that is not calling `on_output` has no call there. -/
theorem RunInv.idle (h : RunInv host call job k gate s) {t : Nat} {f : Future}
    (hf : s.futures[t]? = some f)
    (hst : ∀ results output todo, f.stage ≠ .calling results output todo) :
    gate.calls t = .idle := by
  by_contra hbusy
  obtain ⟨output, hout⟩ := h.calling t hbusy
  obtain ⟨f', results, todo, hf', hst'⟩ := calling_eq_some.mp hout
  obtain rfl := Option.some.inj (hf.symm.trans hf')
  exact hst _ _ _ hst'

/-- A transition that calls neither callback leaves what is owed alone. -/
theorem Move.owed {t : ExecState} {i : Nat} {f f' : Future} {w : WorkerAct}
    (hm : Move host call cache s i f w cache' t f') (hplain : (Act.worker i w).isPlain = true)
    (hok : f'.stage.isFaulted = false) :
    f.stage.isFaulted = false ∧ f'.stage.isPast = f.stage.isPast ∧
      owed call .idle f' = owed call .idle f ∧
      ∀ results output todo, f.stage ≠ .calling results output todo := by
  cases hm with
  | notify | emitted => cases hplain
  | startFault | emitFault => cases hok
  | start hf | hit hf | miss hf | raise hf | reject hf | accept hf | stop hf | pass hf | put hf
  | record hf | emit hf | finish hf =>
      simp [hf, Formshift.owed, Stage.isFaulted, Stage.isPast, Handling.isIdle,
        ExecutionOutput.key]

/-- A step of one future that changes neither the log nor the gate. -/
theorem RunInv.worker (h : RunInv host call job k gate s) (hexec : CallInv host call (fun _ _ => True) s')
    {t : ExecState} {i : Nat} {f f' : Future} {w : WorkerAct} (hf : s.futures[i]? = some f)
    (hm : Move host call cache s i f w cache' t f') (hplain : (Act.worker i w).isPlain = true)
    (hs' : s' = t.setFuture i f') : RunInv host call job k gate s' := by
  obtain ⟨ht, hnode, -⟩ := hm.frame
  have hfuts : s'.futures = s.futures.set i f' := by rw [hs', ht]; rfl
  have hsub : s'.submitted = s.submitted := by
    rw [ExecState.submitted, hfuts]
    exact map_node_set hf hnode
  refine ⟨hexec, h.inOrder, fun j hbusy => ?_, fun p hp => ?_, h.nodes_nodup,
    fun v hv => hsub ▸ h.nodes_by v hv, fun j g hg => ?_⟩
  · obtain ⟨output, hout⟩ := h.calling j hbusy
    obtain ⟨g, results, todo, hg, hst⟩ := calling_eq_some.mp hout
    refine ⟨output, calling_eq_some.mpr ⟨g, results, todo, ?_, hst⟩⟩
    rw [hfuts]
    refine (getElem?_set_iff hf).mpr (Or.inr ⟨?_, hg⟩)
    rintro rfl
    -- the only moves of a calling future call back
    obtain rfl := Option.some.inj (hf.symm.trans hg)
    cases hm with
    | emitted => cases hplain
    | start hst' | startFault hst' | hit hst' | miss hst' | raise hst' | reject hst' | accept hst'
    | stop hst' | pass hst' | put hst' | record hst' | notify hst' | emitFault hst' | emit hst'
    | finish hst' =>
        rw [hst] at hst'
        cases hst'
  · obtain ⟨g, hg, hkey⟩ := h.handed_by p hp
    by_cases hpi : p.2 = i
    · rw [hpi] at hg
      obtain rfl := Option.some.inj (hf.symm.trans hg)
      refine ⟨f', ?_, hnode.symm ▸ hkey⟩
      rw [hfuts]
      exact (getElem?_set_iff hf).mpr (Or.inl ⟨hpi, rfl⟩)
    · refine ⟨g, ?_, hkey⟩
      rw [hfuts]
      exact (getElem?_set_iff hf).mpr (Or.inr ⟨hpi, hg⟩)
  · rw [hfuts] at hg
    rcases (getElem?_set_iff hf).mp hg with ⟨rfl, rfl⟩ | ⟨-, hg⟩
    · intro hok
      obtain ⟨hok', hpast, howed, hnot⟩ := hm.owed hplain hok
      obtain ⟨hcompleted, hhanded⟩ := h.futures j f hf hok'
      rw [h.idle hf hnot] at hhanded ⊢
      rw [hnode, hpast, howed]
      exact ⟨hcompleted, hhanded⟩
    · exact h.futures j g hg

/-- The scheduler's own steps. -/
theorem RunInv.sched (h : RunInv host call job k gate s) (hexec : CallInv host call (fun _ _ => True) s')
    {a : Act} (hm : SchedMove call s a s') : RunInv host call job k gate s' := by
  obtain ⟨-, -, -, -, -, hfut⟩ := hm.frame
  rcases hfut with hfut | ⟨n, rest, hready, -, hfut⟩
  · refine ⟨hexec, h.inOrder, fun t hbusy => ?_, fun p hp => hfut ▸ h.handed_by p hp, h.nodes_nodup,
      fun v hv => ?_, fun t f hf => h.futures t f (hfut ▸ hf)⟩
    · obtain ⟨output, hout⟩ := h.calling t hbusy
      exact ⟨output, by rw [ExecState.calling, hfut]; exact hout⟩
    · rw [ExecState.submitted, hfut]
      exact h.nodes_by v hv
  · have hkeep : ∀ (t : Nat) (f : Future), s.futures[t]? = some f → s'.futures[t]? = some f := by
      intro t f hf
      rw [hfut, List.getElem?_append_left (List.getElem?_eq_some_iff.mp hf).1, hf]
    refine ⟨hexec, h.inOrder, fun t hbusy => ?_, fun p hp => ?_, h.nodes_nodup, fun v hv => ?_,
      fun t f hf => ?_⟩
    · obtain ⟨output, hout⟩ := h.calling t hbusy
      obtain ⟨f, results, todo, hf, hst⟩ := calling_eq_some.mp hout
      exact ⟨output, calling_eq_some.mpr ⟨f, results, todo, hkeep t f hf, hst⟩⟩
    · obtain ⟨f, hf, hkey⟩ := h.handed_by p hp
      exact ⟨f, hkeep _ f hf, hkey⟩
    · rw [ExecState.submitted, hfut, List.map_append]
      exact List.mem_append_left _ (h.nodes_by v hv)
    · rcases Nat.lt_or_ge t s.futures.length with hlt | hge
      · rw [hfut, List.getElem?_append_left hlt] at hf
        exact h.futures t f hf
      · rw [hfut, List.getElem?_append_right hge, List.getElem?_singleton] at hf
        split at hf
        · obtain rfl := Option.some.inj hf
          intro _
          -- the new future's node was not submitted before
          have hnew : n ∉ s.submitted := fun hin =>
            (List.nodup_append.mp h.exec.sched.nodup).2.2 n hin n (by simp [hready]) rfl
          refine ⟨iff_of_false (fun hin => hnew (h.nodes_by n hin)) (by simp [Stage.isPast]), ?_⟩
          intro key hkey
          refine iff_of_false (fun hin => ?_) (fun hno => hno hkey)
          obtain ⟨g, hg, -⟩ := h.handed_by _ hin
          exact absurd (List.getElem?_eq_some_iff.mp hg).1 (by simpa using hge)
        · cases hf

theorem Handling.isIdle_iff {c : Handling} : c.isIdle = true ↔ c = .idle := by
  cases c <;> simp [Handling.isIdle]

theorem owed_congr {c c' : Handling} (h : c'.isIdle = c.isIdle) (f : Future) :
    owed call c' f = owed call c f := by
  unfold owed
  rw [h]

/-- `on_node`. -/
theorem RunInv.notify (h : RunInv host call job k gate s) {i : Nat} {f : Future}
    {results : Results} {cached : Bool}
    (hf : s.futures[i]? = some f) (hst : f.stage = .notifying results cached)
    (hs' : s' = s.setFuture i { f with stage := .emitting results (outputsByNode call f.node) })
    (hexec : CallInv host call (fun _ _ => True) s') :
    RunInv host call job (k.log job (.nodeCompleted f.node cached)) gate s' := by
  have hfuts : s'.futures = s.futures.set i
      { f with stage := .emitting results (outputsByNode call f.node) } := by rw [hs']; rfl
  have hsub : s'.submitted = s.submitted := by
    rw [ExecState.submitted, hfuts]
    exact map_node_set hf rfl
  have hnodes : completedNodes ((k.log job (.nodeCompleted f.node cached)).events.ofJob job) =
      completedNodes (k.events.ofJob job) ++ [f.node] := by
    simp [completedNodes, EventBody.node?]
  -- a thread that is notifying has not called `on_output`
  have hidle : gate.calls i = .idle := h.idle hf (by simp [hst])
  obtain ⟨hcompleted, hhanded⟩ := h.futures i f hf (by rw [hst]; rfl)
  -- nor has it notified of this node before
  have hnew : f.node ∉ completedNodes (k.events.ofJob job) := fun hin => by
    have hpast := hcompleted.mp hin
    rw [hst] at hpast
    cases hpast
  refine ⟨hexec, h.inOrder.of_announced rfl ?_, fun t hbusy => ?_, fun p hp => ?_, ?_, ?_, ?_⟩
  · simp [announced, outputsOf, EventBody.output?]
  · obtain ⟨output, hout⟩ := h.calling t hbusy
    obtain ⟨g, results', todo, hg, hgst⟩ := calling_eq_some.mp hout
    refine ⟨output, calling_eq_some.mpr ⟨g, results', todo, ?_, hgst⟩⟩
    rw [hfuts]
    refine (getElem?_set_iff hf).mpr (Or.inr ⟨?_, hg⟩)
    rintro rfl
    exact hbusy hidle
  · obtain ⟨g, hg, hkey⟩ := h.handed_by p hp
    rw [hfuts]
    by_cases hpi : p.2 = i
    · rw [hpi] at hg
      obtain rfl := Option.some.inj (hf.symm.trans hg)
      exact ⟨_, (getElem?_set_iff hf).mpr (Or.inl ⟨hpi, rfl⟩), hkey⟩
    · exact ⟨g, (getElem?_set_iff hf).mpr (Or.inr ⟨hpi, hg⟩), hkey⟩
  · rw [hnodes]
    refine List.nodup_append.mpr ⟨h.nodes_nodup, List.nodup_singleton _, ?_⟩
    rintro v hv u hu rfl
    exact hnew (List.mem_singleton.mp hu ▸ hv)
  · intro v hv
    rw [hnodes] at hv
    rw [hsub]
    rcases List.mem_append.mp hv with hv | hv
    · exact h.nodes_by v hv
    · rw [List.mem_singleton.mp hv]
      exact List.mem_map.mpr ⟨f, List.mem_of_getElem? hf, rfl⟩
  · intro t g hg
    rw [hfuts] at hg
    rw [hnodes]
    -- this future has notified now, the others are of other nodes
    rcases (getElem?_set_iff hf).mp hg with ⟨rfl, rfl⟩ | ⟨hti, hg⟩
    · intro _
      refine ⟨iff_of_true (by simp) rfl, fun key hkey => ?_⟩
      have hold := hhanded key hkey
      simp only [owed, hst] at hold
      exact hold
    · intro hok
      obtain ⟨hgc, hgh⟩ := h.futures t g hg hok
      have hne : g.node ≠ f.node := fun e => hti (h.exec.sched.future_inj hg hf e)
      refine ⟨?_, hgh⟩
      rw [List.mem_append, List.mem_singleton, or_iff_left hne]
      exact hgc

/-- `on_output` returns, and the worker goes on. -/
theorem RunInv.emitted (h : RunInv host call job k gate s) {i : Nat} {f : Future}
    {results : Results} {output : ExecutionOutput} {todo : List (Str × Str)}
    (hf : s.futures[i]? = some f) (hst : f.stage = .calling results output todo)
    (hcall : gate.calls i = .returning)
    (hs' : s' = s.setFuture i { f with stage := .emitting results todo })
    (hexec : CallInv host call (fun _ _ => True) s') :
    RunInv host call job k (gate.setCall i .idle) s' := by
  have hfuts : s'.futures = s.futures.set i { f with stage := .emitting results todo } := by
    rw [hs']
    rfl
  have hsub : s'.submitted = s.submitted := by
    rw [ExecState.submitted, hfuts]
    exact map_node_set hf rfl
  obtain ⟨hcompleted, hhanded⟩ := h.futures i f hf (by rw [hst]; rfl)
  refine ⟨hexec, h.inOrder.ret_call hcall, fun t hbusy => ?_, fun p hp => ?_, h.nodes_nodup,
    fun v hv => hsub ▸ h.nodes_by v hv, fun t g hg => ?_⟩
  -- the thread that has returned is idle, the others go on
  · have hti : t ≠ i := by
      rintro rfl
      exact hbusy (calls_setCall_self t _)
    rw [calls_setCall_ne hti] at hbusy
    obtain ⟨output', hout⟩ := h.calling t hbusy
    obtain ⟨g, results', todo', hg, hgst⟩ := calling_eq_some.mp hout
    refine ⟨output', calling_eq_some.mpr ⟨g, results', todo', ?_, hgst⟩⟩
    rw [hfuts]
    exact (getElem?_set_iff hf).mpr (Or.inr ⟨hti, hg⟩)
  · obtain ⟨g, hg, hkey⟩ := h.handed_by p hp
    rw [hfuts]
    by_cases hpi : p.2 = i
    · rw [hpi] at hg
      obtain rfl := Option.some.inj (hf.symm.trans hg)
      exact ⟨_, (getElem?_set_iff hf).mpr (Or.inl ⟨hpi, rfl⟩), hkey⟩
    · exact ⟨g, (getElem?_set_iff hf).mpr (Or.inr ⟨hpi, hg⟩), hkey⟩
  · rw [hfuts] at hg
    -- what this future owed has been handed over
    rcases (getElem?_set_iff hf).mp hg with ⟨rfl, rfl⟩ | ⟨hti, hg⟩
    · intro _
      refine ⟨hcompleted.trans (iff_of_true (by rw [hst]; rfl) rfl), fun key hkey => ?_⟩
      have hold := hhanded key hkey
      simp only [owed, hst, hcall, Handling.isIdle, Bool.false_eq_true, if_false] at hold
      exact hold
    · intro hok
      obtain ⟨hgc, hgh⟩ := h.futures t g hg hok
      refine ⟨hgc, ?_⟩
      rw [calls_setCall_ne hti]
      exact hgh

/-- What is owed has not been handed over. -/
theorem RunInv.call_ok (h : RunInv host call job k gate s) (hw : call.Valid) {t : Nat}
    {output : ExecutionOutput} (hcalling : s.calling t = some output)
    (hidle : gate.calls t = .idle) : GateOk call.graph (k, gate) (.call t output) ∧
      ∃ f results todo, s.futures[t]? = some f ∧ f.stage = .calling results output todo ∧
        output.key ∈ outputsByNode call f.node ∧ output.key ∉ todo := by
  obtain ⟨f, results, todo, hf, hst⟩ := calling_eq_some.mp hcalling
  have hok := h.exec.data.stages f (List.mem_of_getElem? hf)
  simp only [StageOk, hst] at hok
  obtain ⟨-, done, hsplit, -⟩ := hok
  have hkey : output.key ∈ outputsByNode call f.node := by
    rw [hsplit]
    exact List.mem_append_right _ List.mem_cons_self
  have hnd : (outputsByNode call f.node).Nodup :=
    hw.outputs_nodup.sublist (List.filter_sublist.map _)
  -- a key is asked for once
  have htodo : output.key ∉ todo := by
    rw [hsplit] at hnd
    exact (List.nodup_cons.mp (List.nodup_append.mp hnd).2.1).1
  refine ⟨⟨?_, fun hin => ?_⟩, f, results, todo, hf, hst, hkey, htodo⟩
  · obtain ⟨ref, href, hrk⟩ := List.mem_map.mp hkey
    exact List.mem_map.mpr ⟨ref, (List.mem_filter.mp href).1, hrk⟩
  -- who handed it over before would be of the same node, that is the same future
  · obtain ⟨⟨key, t'⟩, hp, rfl⟩ := List.mem_map.mp hin
    obtain ⟨f', hf', hkey'⟩ := h.handed_by _ hp
    have hnode : f'.node = f.node :=
      (node_of_mem_outputsByNode hkey').symm.trans (node_of_mem_outputsByNode hkey)
    obtain rfl : t' = t := h.exec.sched.future_inj hf' hf hnode
    have howed := ((h.futures t' f hf (by rw [hst]; rfl)).2 _ hkey).mp hp
    simp [owed, hst, hidle, Handling.isIdle] at howed

/-- `on_output` is called. -/
theorem RunInv.handOver (h : RunInv host call job k gate s) (hw : call.Valid) {t : Nat}
    {output : ExecutionOutput} {gate' : GateState} (hcalling : s.calling t = some output)
    (hinv : GateInv call.graph job (k, gate')) (hidle : gate.calls t = .idle)
    (hhanded : gate'.handed = gate.handed ++ [(output.key, t)])
    (hbusy : (gate'.calls t).isIdle = false)
    (hcalls : ∀ t' ≠ t, gate'.calls t' = gate.calls t') : RunInv host call job k gate' s := by
  obtain ⟨-, f, results, todo, hf, hst, hkey, htodo⟩ := h.call_ok hw hcalling hidle
  refine ⟨h.exec, hinv, fun t' hb => ?_, fun p hp => ?_, h.nodes_nodup, h.nodes_by,
    fun t' g hg => ?_⟩
  -- the thread was idle, and is in its call now
  · by_cases htt : t' = t
    · exact ⟨output, htt ▸ hcalling⟩
    · exact h.calling t' (hcalls t' htt ▸ hb)
  · rw [hhanded] at hp
    rcases List.mem_append.mp hp with hp | hp
    · exact h.handed_by p hp
    · rw [List.mem_singleton.mp hp]
      exact ⟨f, hf, hkey⟩
  · intro hok
    obtain ⟨hgc, hgh⟩ := h.futures t' g hg hok
    refine ⟨hgc, fun key' hkey' => ?_⟩
    rw [hhanded, List.mem_append, List.mem_singleton]
    by_cases htt : t' = t
    · subst htt
      obtain rfl := Option.some.inj (hf.symm.trans hg)
      -- what it hands over it owed; it owes the rest
      have hold := hgh key' hkey'
      simp only [owed, hst, hidle, Handling.isIdle, if_true, List.mem_cons, not_or] at hold
      simp only [owed, hst, hbusy, Bool.false_eq_true, if_false, hold, Prod.mk.injEq, and_true]
      constructor
      · rintro (⟨-, hno⟩ | rfl)
        · exact hno
        · exact htodo
      · intro hno
        by_cases he : key' = output.key
        · exact Or.inr he
        · exact Or.inl ⟨he, hno⟩
    · rw [hcalls t' htt, ← hgh key' hkey']
      exact or_iff_left fun e => htt (Prod.mk.inj e).2

/-- Steps inside a call of `on_output`. -/
theorem RunInv.inside (h : RunInv host call job k gate s) {k' : SessionState} {gate' : GateState}
    (hinv : GateInv call.graph job (k', gate')) (hhanded : gate'.handed = gate.handed)
    (hidle : ∀ t, (gate'.calls t).isIdle = (gate.calls t).isIdle)
    (hnodes : completedNodes (k'.events.ofJob job) = completedNodes (k.events.ofJob job)) :
    RunInv host call job k' gate' s := by
  refine ⟨h.exec, hinv, fun t hbusy => h.calling t fun he => hbusy ?_,
    fun p hp => h.handed_by p (hhanded ▸ hp), hnodes ▸ h.nodes_nodup, hnodes ▸ h.nodes_by,
    fun t f hf hok => ?_⟩
  · exact Handling.isIdle_iff.mp ((hidle t).trans (Handling.isIdle_iff.mpr he))
  · obtain ⟨hgc, hgh⟩ := h.futures t f hf hok
    rw [hnodes, hhanded, owed_congr (hidle t)]
    exact ⟨hgc, hgh⟩

/-- What others do to the session. -/
theorem RunInv.interferes (h : RunInv host call job k gate s) {k' : SessionState}
    (hint : k.Interferes job k') : RunInv host call job k' gate s :=
  h.inside (h.inOrder.interferes rfl hint) rfl (fun _ => rfl) (by rw [hint.events])

/-- The steps of the calls of `on_output`. -/
theorem RunInv.step_gate (h : RunInv host call job k gate s) (hw : call.Valid)
    (hg : GroupsOk call.graph call.graph.outputs groups) {a : GateAct}
    {y : SessionState × GateState} (hcall : ∀ t output, a = .call t output → s.calling t = some output)
    (hnret : ∀ t, a ≠ .ret t) (hfresh : ∀ t id, a = .add t id → id ∉ k.session.payloads)
    (hs : gateStep groups job (k, gate) a = some y) : RunInv host call job y.1 y.2 s := by
  have hok : GateOk call.graph (k, gate) a := by
    cases a with
    | call t output =>
        refine (h.call_ok hw (hcall t output rfl) ?_).1
        cases gateStep_move groups job hs with
        | direct hidle | enter hidle => exact hidle
    | add t id => exact hfresh t id rfl
    | record | announce | flush | ret => trivial
  -- the gate keeps its own invariant
  have hinv := h.inOrder.step hw hg hok hs
  -- inside a call nobody becomes idle
  have hbusy : ∀ (g' : GateState) (t : Nat) (c : Handling), c.isIdle = false →
      (gate.calls t).isIdle = false → g'.calls = Function.update gate.calls t c →
      ∀ t', (g'.calls t').isIdle = (gate.calls t').isIdle := by
    intro g' t c hc hold hcalls t'
    rw [hcalls]
    by_cases htt : t' = t
    · rw [htt, Function.update_self, hc, hold]
    · rw [Function.update_of_ne htt]
  cases gateStep_move groups job hs with
  -- an output is handed over
  | direct hidle =>
      exact h.handOver hw (hcall _ _ rfl) hinv hidle rfl (by rw [calls_setCall_self]; rfl)
        fun t' htt => calls_setCall_ne htt _
  | enter hidle =>
      exact h.handOver hw (hcall _ _ rfl) hinv hidle rfl (by rw [calls_setCall_self]; rfl)
        fun t' htt => calls_setCall_ne htt _
  | add hc | record hc | next hc | leave hc =>
      exact h.inside hinv rfl (hbusy _ _ _ rfl (by rw [show gate.calls _ = _ from hc]; rfl) rfl) rfl
  | announceGated hc | announce hc =>
      refine h.inside hinv rfl (hbusy _ _ _ rfl (by rw [show gate.calls _ = _ from hc]; rfl) rfl) ?_
      simp [completedNodes, EventBody.node?]
  | ret => exact absurd rfl (hnret _)

/-! ### The end of `execute_graph` -/

/-- A finished future has done all it had to. -/
theorem RunInv.finished (h : RunInv host call job k gate s) {t : Nat} {f : Future}
    (hf : s.futures[t]? = some f) (hfin : f.stage = .finished) :
    f.node ∈ completedNodes (k.events.ofJob job) ∧ gate.calls t = .idle ∧
      ∀ key ∈ outputsByNode call f.node, (key, t) ∈ gate.handed := by
  obtain ⟨hcompleted, hhanded⟩ := h.futures t f hf (by rw [hfin]; rfl)
  refine ⟨hcompleted.mpr (by rw [hfin]; rfl), h.idle hf (by simp [hfin]), fun key hkey => ?_⟩
  exact (hhanded key hkey).mpr (by simp [owed, hfin])

/-- With every future done no call of `on_output` is open. -/
theorem RunInv.drained (h : RunInv host call job k gate s) (hd : s.Drained) :
    (∀ t, gate.calls t = .idle) ∧ gate.gate = none := by
  have hidle : ∀ t, gate.calls t = .idle := by
    intro t
    by_contra hbusy
    obtain ⟨output, hout⟩ := h.calling t hbusy
    obtain ⟨f, results, todo, hf, hst⟩ := calling_eq_some.mp hout
    have hfin := hd f (List.mem_of_getElem? hf)
    rw [hst] at hfin
    cases hfin
  refine ⟨hidle, ?_⟩
  cases hgate : gate.gate with
  | none => rfl
  | some t => exact absurd (by rw [hidle t]; rfl) (h.inOrder.lock t hgate)

/-- What has been recorded has been announced. -/
theorem RunInv.outputs_perm (h : RunInv host call job k gate s) (hd : s.Drained) :
    gate.outputs.Perm (outputsOf (k.events.ofJob job)) := by
  have hidle := (h.drained hd).1
  have hnd : gate.outputs.Nodup := h.inOrder.outputs_nodup.of_map _
  refine (List.perm_ext_iff_of_nodup hnd h.inOrder.announced_nodup).mpr fun r => ?_
  rw [h.inOrder.announced_iff r]
  refine (and_iff_left fun t => ?_).symm
  rintro ⟨o, group, gated, id, hc, -⟩
  rw [show gate.calls t = .idle from hidle t] at hc
  cases hc

/-- An output that was handed over is out once no call is open. -/
theorem RunInv.output_recorded (h : RunInv host call job k gate s) (hw : call.Valid)
    (hd : s.Drained) (harrived : ∀ o ∈ call.graph.outputs, o.key ∈ gate.arrived)
    {o : OutputRef} (ho : o ∈ call.graph.outputs) : o.key ∈ gate.outputs.map OutputRecord.key := by
  obtain ⟨hidle, hgate⟩ := h.drained hd
  by_cases hpin : ∃ group, o.group = some group ∧ Pinned call.graph group
  · obtain ⟨group, hgroup, hp⟩ := hpin
    have horder := h.inOrder.outputs_order group hp
    have htake := h.inOrder.take_eq hw hgate hp
    -- all of the group have arrived, so the longest run of them is the group
    have hall : (call.graph.members group).takeWhile (· ∈ gate.arrived) =
        call.graph.members group := by
      refine List.takeWhile_eq_self_iff.mpr fun key hkey => ?_
      obtain ⟨o', ho', rfl, -⟩ := mem_members.mp hkey
      simpa using harrived o' ho'
    have hkey : o.key ∈ keysOf group gate.outputs := by
      rw [show keysOf group gate.outputs = _ from horder, htake, hall]
      exact List.mem_append_left _ (mem_members.mpr ⟨o, ho, rfl, hgroup⟩)
    obtain ⟨r, hr, hrk⟩ := List.mem_map.mp hkey
    exact List.mem_map.mpr ⟨r, (List.mem_filter.mp hr).1, hrk⟩
  · have hdirect : Direct call.graph o.key := by
      intro ref href hkey group hgroup hp
      obtain rfl := ref_unique hw href ho hkey
      exact hpin ⟨group, hgroup, hp⟩
    obtain ⟨⟨key, t⟩, hmem, hkey⟩ := List.mem_map.mp (harrived o ho)
    obtain rfl : key = o.key := hkey
    -- otherwise it was recorded by its own call, which is over
    rcases h.inOrder.direct o.key t hmem hdirect with hout | ⟨_, _, _, hc, -⟩
    · exact hout
    · rw [show gate.calls t = .idle from hidle t] at hc
      cases hc

/-- **A returned call has announced everything**, and everything once. -/
theorem RunInv.returned (h : RunInv host call job k gate s) (hw : call.Valid)
    {r : ExecutionReport} (hr : s.phase = .returned r) :
    (completedNodes (k.events.ofJob job)).Perm call.graph.nodeIds ∧
      (gate.outputs.map OutputRecord.key).Perm (call.graph.outputs.map OutputRef.key) := by
  have hpo := h.exec.sched.phase
  simp only [PhaseOk, hr] at hpo
  -- when the loop is left every node is done
  have hall := h.exec.sched.all_processed hw hpo.2.1 hpo.2.2 (by rw [hr]; trivial)
  have hfinished : ∀ v ∈ call.graph.nodeIds, ∃ (t : Nat) (f : Future), s.futures[t]? = some f ∧
      f.node = v ∧ f.stage = .finished := by
    intro v hv
    obtain ⟨f, hf, hnode, hfin⟩ := h.exec.sched.processed v (hall v hv)
    obtain ⟨t, ht⟩ := List.mem_iff_getElem?.mp hf
    exact ⟨t, f, ht, hnode, hfin⟩
  constructor
  · refine (List.perm_ext_iff_of_nodup h.nodes_nodup hw.ids_nodup).mpr fun v => ⟨fun hv => ?_,
      fun hv => ?_⟩
    · exact ((h.exec.sched.mem_iff v).mp (List.mem_append_left _ (h.nodes_by v hv))).1
    · obtain ⟨t, f, hf, rfl, hfin⟩ := hfinished v hv
      exact (h.finished hf hfin).1
  -- so every output has been handed over
  · have harrived : ∀ o ∈ call.graph.outputs, o.key ∈ gate.arrived := by
      intro o ho
      obtain ⟨ty, hty⟩ := hw.output_known o ho
      obtain ⟨n, -, hn, -, -⟩ := nodeManifest_of_outputType hty
      obtain ⟨hmem, hid⟩ := mem_nodeIds_of_lookup hn
      obtain ⟨t, f, hf, hnode, hfin⟩ :=
        hfinished o.node (hid ▸ List.mem_map.mpr ⟨n, hmem, rfl⟩)
      have hreq : o.key ∈ outputsByNode call f.node :=
        List.mem_map.mpr ⟨o, List.mem_filter.mpr ⟨ho, by simp [hnode]⟩, rfl⟩
      exact List.mem_map.mpr ⟨_, (h.finished hf hfin).2.2 _ hreq, rfl⟩
    refine (List.perm_ext_iff_of_nodup h.inOrder.outputs_nodup hw.outputs_nodup).mpr fun key =>
      ⟨fun hk => ?_, fun hk => ?_⟩
    · obtain ⟨rec, hrec, rfl⟩ := List.mem_map.mp hk
      obtain ⟨ref, href, hkey, -⟩ := h.inOrder.outputs_ref rec hrec
      exact List.mem_map.mpr ⟨ref, href, hkey⟩
    · obtain ⟨o, ho, rfl⟩ := List.mem_map.mp hk
      exact h.output_recorded hw hpo.1 harrived ho

end Run

/-! ### The whole job -/

/-- `node.completed` and `job.output`. -/
def EventBody.isProgress : EventBody → Bool
  | .nodeCompleted _ _ | .jobOutput _ => true
  | _ => false

/-- The two events a job begins with. -/
def opening : List EventBody := [.jobStatus .pending, .jobStatus .running]

/-- The two events a job ends with. -/
def Outcome.ending (outcome : Outcome) : List EventBody :=
  [.jobStatus outcome.status, outcome.event]

/-- What is known of the events between opening and end. -/
structure Summary (g : Graph) (body : List EventBody) : Prop where
  progress : ∀ e ∈ body, e.isProgress = true
  nodes_nodup : (completedNodes body).Nodup
  nodes_known : ∀ v ∈ completedNodes body, v ∈ g.nodeIds
  outputs_nodup : ((outputsOf body).map OutputRecord.key).Nodup
  outputs_known : ∀ r ∈ outputsOf body, r.key ∈ g.outputs.map OutputRef.key

/-- Everything is there. -/
structure Full (g : Graph) (body : List EventBody) (outputs : List OutputRecord) : Prop where
  nodes : (completedNodes body).Perm g.nodeIds
  announced : ((outputsOf body).map OutputRecord.key).Perm (g.outputs.map OutputRef.key)
  outputs : outputs.Perm (outputsOf body)

section Job

variable (service : Service) (req : JobRequest)

/-- Before `execute_graph` is called. -/
def Before (k : Desk) (j : JobState) (bodies : List EventBody) (status : JobStatus) : Prop :=
  WellFormed req.graph service.registry k.2.session ∧ k.2.events.ofJob req.token = bodies ∧
    j.status = status ∧ j.gate = .init

/-- After `execute_graph` has ended, with `tail` of the ending appended. -/
def After (k : Desk) (j : JobState) (outcome : Outcome) (tail : List EventBody)
    (status : JobStatus) : Prop :=
  ∃ body, k.2.events.ofJob req.token = opening ++ body ++ tail ∧ j.status = status ∧
    Summary req.graph body ∧
    (outcome = .completed → Full req.graph body j.outputs)

/-- While `execute_graph` is called: `session` is the session it validated in. -/
structure During (k : Desk) (j : JobState) (groups : Groups) (s : ExecState) (session : Session) :
    Prop where
  valid : WellFormed req.graph service.registry session
  grown : ∀ id p, session.payloads.lookup id = some p →
    k.2.session.payloads.lookup id = some p
  status : j.status = .running
  groups : buildGroups req.graph = .ok groups
  cancel : s.cancel = j.cancel
  opened : ∃ body, k.2.events.ofJob req.token = opening ++ body ∧ ∀ e ∈ body, e.isProgress = true
  run : RunInv service.host (req.call service session) req.token k.2 j.gate s

/-- What holds of a job and its desk, by where the job stands. -/
def JobInv (k : Desk) (j : JobState) : Prop :=
  match j.stage with
  | .validating | .refused _ =>
      k.2.events.ofJob req.token = [] ∧ j.status = .pending ∧ j.gate = .init
  | .inserted => Before service req k j [] .pending
  | .spawned => Before service req k j [.jobStatus .pending] .pending
  | .marked => Before service req k j [.jobStatus .pending] .running
  | .grouping => Before service req k j opening .running
  | .entering groups =>
      Before service req k j opening .running ∧ buildGroups req.graph = .ok groups
  | .stuck _ => False
  | .executing groups s => ∃ session, During service req k j groups s session
  | .ended outcome => After req k j outcome [] .running
  | .closing outcome => After req k j outcome [] outcome.status
  | .announcing outcome => After req k j outcome [.jobStatus outcome.status] outcome.status
  | .done outcome => After req k j outcome outcome.ending outcome.status

variable {service req} {k k' : Desk} {j : JobState} {beh : Behaviour}

@[simp] theorem completedNodes_opening (body : List EventBody) :
    completedNodes (opening ++ body) = completedNodes body := rfl

@[simp] theorem outputsOf_opening (body : List EventBody) :
    outputsOf (opening ++ body) = outputsOf body := rfl

/-- What `RunInv` says of the events so far. -/
theorem During.summary {groups : Groups} {s : ExecState} {session : Session}
    (h : During service req k j groups s session) {body : List EventBody}
    (hbody : k.2.events.ofJob req.token = opening ++ body)
    (hprogress : ∀ e ∈ body, e.isProgress = true) : Summary req.graph body := by
  have hnodes : completedNodes (k.2.events.ofJob req.token) = completedNodes body := by rw [hbody]; rfl
  have houts : announced req.token (k.2, j.gate) = outputsOf body := by
    rw [announced, hbody]
    rfl
  refine ⟨hprogress, hnodes ▸ h.run.nodes_nodup, fun v hv => ?_, ?_, fun r hr => ?_⟩
  · have hsub := h.run.nodes_by v (hnodes ▸ hv)
    exact ((h.run.exec.sched.mem_iff v).mp (List.mem_append_left _ hsub)).1
  · rw [← houts]
    exact h.run.inOrder.announced_keys
  · rw [← houts] at hr
    obtain ⟨ref, href, hkey, -⟩ :=
      h.run.inOrder.outputs_ref r ((h.run.inOrder.announced_iff r).mp hr).1
    exact List.mem_map.mpr ⟨ref, href, hkey⟩

/-- The groups the job works with are those of its graph. -/
theorem During.groupsOk {groups : Groups} {s : ExecState} {session : Session}
    (h : During service req k j groups s session) : GroupsOk req.graph req.graph.outputs groups := by
  obtain ⟨groups', hbuild, hg⟩ := buildGroups_ok h.valid
  obtain rfl := Except.ok.inj (h.groups.symm.trans hbuild)
  exact hg

/-- A step of `execute_graph` in the session as it stands. -/
theorem During.exec_step {groups : Groups} {s s' : ExecState} {session : Session}
    (h : During service req k j groups s session) {a : Act} {cache' : ResultCache}
    (hs : step service.host (req.call service k.2.session) (k.1, s) a = some (cache', s')) :
    step service.host (req.call service session) (k.1, s) a = some (cache', s') ∧
      CallInv service.host (req.call service session) (fun _ _ => True) s' := by
  have hsame : step service.host (req.call service session) (k.1, s) a = some (cache', s') := by
    rw [← hs]
    exact (@step_session _ (req.call service session) _ h.valid h.grown (k.1, s) a).symm
  exact ⟨hsame, CallInv.step_plain (x := (k.1, s)) h.run.exec h.valid hsame⟩

theorem During.exec {groups : Groups} {s s' : ExecState} {session : Session}
    (h : During service req k j groups s session) {a : Act} {cache' : ResultCache}
    (hplain : a.isPlain = true)
    (hs : step service.host (req.call service k.2.session) (k.1, s) a = some (cache', s')) :
    During service req (cache', k.2) { j with stage := .executing groups s' } groups s' session := by
  obtain ⟨hsame, hexec⟩ := h.exec_step hs
  have hcancel := cancel_of_step hsame (by rintro rfl; cases hplain)
  refine ⟨h.valid, h.grown, h.status, h.groups, hcancel.trans h.cancel, h.opened, ?_⟩
  rcases step_move _ _ hsame with ⟨i, w, f, t, f', rfl, hf, hm, hs'⟩ | ⟨-, hm⟩
  · exact h.run.worker hexec hf hm hplain hs'
  · exact h.run.sched hexec hm

theorem During.notify {groups : Groups} {s s' : ExecState} {session : Session}
    (h : During service req k j groups s session) {i : Nat} {f : Future} {results : Results}
    {cached : Bool} {cache' : ResultCache}
    (hf : s.futures[i]? = some f) (hst : f.stage = .notifying results cached)
    (hs : step service.host (req.call service k.2.session) (k.1, s) (.worker i .notify) =
      some (cache', s')) :
    During service req (cache', k.2.log req.token (.nodeCompleted f.node cached))
      { j with stage := .executing groups s' } groups s' session := by
  obtain ⟨hsame, hexec⟩ := h.exec_step hs
  have hcancel := cancel_of_step hsame (by simp)
  obtain ⟨body, hbody, hprogress⟩ := h.opened
  have hopened : (k.2.log req.token (.nodeCompleted f.node cached)).events.ofJob req.token =
      opening ++ (body ++ [.nodeCompleted f.node cached]) := by
    simp [hbody]
  refine ⟨h.valid, h.grown, h.status, h.groups, hcancel.trans h.cancel, ⟨_, hopened, ?_⟩, ?_⟩
  · intro e he
    rcases List.mem_append.mp he with he | he
    · exact hprogress e he
    · rw [List.mem_singleton.mp he]
      rfl
  -- the step is the one the future takes
  · rcases step_move _ _ hsame with ⟨i', w, f', t, f'', heq, hf', hm, hs'⟩ | ⟨-, hm⟩
    · obtain ⟨rfl, rfl⟩ := Act.worker.inj heq
      obtain rfl := Option.some.inj (hf.symm.trans hf')
      cases hm with
      | notify hst' =>
          rw [hst] at hst'
          obtain ⟨rfl, rfl⟩ := Stage.notifying.inj hst'
          exact h.run.notify hf hst hs' hexec
    · cases hm

theorem During.emitted {groups : Groups} {s s' : ExecState} {session : Session}
    (h : During service req k j groups s session) {i : Nat} {cache' : ResultCache}
    {y : SessionState × GateState}
    (hs : step service.host (req.call service k.2.session) (k.1, s) (.worker i .emitted) =
      some (cache', s'))
    (hret : gateStep groups req.token (k.2, j.gate) (.ret i) = some y) :
    During service req (cache', y.1) { j with stage := .executing groups s', gate := y.2 } groups
      s' session := by
  obtain ⟨hsame, hexec⟩ := h.exec_step hs
  have hcancel := cancel_of_step hsame (by simp)
  cases gateStep_move groups _ hret with
  | ret hcall =>
      refine ⟨h.valid, h.grown, h.status, h.groups, hcancel.trans h.cancel, h.opened, ?_⟩
      rcases step_move _ _ hsame with ⟨i', w, f', t, f'', heq, hf', hm, hs'⟩ | ⟨-, hm⟩
      · obtain ⟨rfl, rfl⟩ := Act.worker.inj heq
        cases hm with
        | emitted hst => exact h.run.emitted hf' hst hcall hs' hexec
      · cases hm

/-- What a step of a call of `on_output` does to the session. -/
theorem gateStep_session {groups : Groups} {job : Str} {x y : SessionState × GateState}
    {a : GateAct} (hfresh : ∀ t id, a = .add t id → id ∉ x.1.session.payloads)
    (hs : gateStep groups job x a = some y) :
    (∀ id p, x.1.session.payloads.lookup id = some p → y.1.session.payloads.lookup id = some p) ∧
      ∃ more, y.1.events.ofJob job = x.1.events.ofJob job ++ more ∧
        ∀ e ∈ more, e.isProgress = true := by
  cases gateStep_move groups job hs with
  | add =>
      exact ⟨(@interferes_addPayload job _ _ (hfresh _ _ rfl) _ _).payloads, [], by simp⟩
  | announceGated | announce =>
      refine ⟨fun _ _ hp => hp, [_], EventLog.ofJob_append_self _ _ _, fun e he => ?_⟩
      rw [List.mem_singleton.mp he]
      rfl
  | direct | enter | record | next | leave | ret => exact ⟨fun _ _ hp => hp, [], by simp⟩

theorem During.gate {groups : Groups} {s : ExecState} {session : Session}
    (h : During service req k j groups s session) {a : GateAct} {y : SessionState × GateState}
    (hcall : ∀ t output, a = .call t output → s.calling t = some output)
    (hnret : ∀ t, a ≠ .ret t) (hfresh : ∀ t id, a = .add t id → id ∉ k.2.session.payloads)
    (hs : gateStep groups req.token (k.2, j.gate) a = some y) :
    During service req (k.1, y.1) { j with gate := y.2 } groups s session := by
  obtain ⟨hpayloads, more, hmore, hmprogress⟩ := gateStep_session hfresh hs
  obtain ⟨body, hbody, hprogress⟩ := h.opened
  refine ⟨h.valid, fun id p hp => hpayloads id p (h.grown id p hp), h.status, h.groups, h.cancel,
    ⟨body ++ more, ?_, fun e he => ?_⟩, ?_⟩
  · rw [← List.append_assoc, ← hbody]
    exact hmore
  · exact (List.mem_append.mp he).elim (hprogress e) (hmprogress e)
  · exact h.run.step_gate h.valid h.groupsOk hcall hnret hfresh hs

/-- `execute_graph` is called with a graph that is still valid. -/
theorem During.enter {groups : Groups} (h : Before service req k j opening .running)
    (hgroups : buildGroups req.graph = .ok groups) :
    During service req k { j with stage := .executing groups (entered service req k j) } groups
      (entered service req k j) k.2.session := by
  obtain ⟨hw, hbodies, hstatus, hgate⟩ := h
  have hcall : (req.call service k.2.session).Valid := hw
  obtain ⟨dependents, remaining, -, -, heq⟩ := enter_eq hcall
  -- nothing has been submitted and nobody is in a call
  have hfuts : (entered service req k j).futures = [] := by
    rw [entered, heq]
    rfl
  have hexec : CallInv service.host (req.call service k.2.session) (fun _ _ => True)
      (entered service req k j) := by
    have henter := @CallInv.enter service.host _ (fun _ _ => True) hcall
    unfold entered
    by_cases hcancel : j.cancel = true
    · -- the flag is set before the first step
      rw [hcancel]
      exact henter.cancel hcall
    · have hfalse : j.cancel = (Formshift.enter (req.call service k.2.session)).cancel := by
        rw [heq]
        simpa [blank] using hcancel
      rw [hfalse]
      exact henter
  refine ⟨hw, fun _ _ hp => hp, hstatus, hgroups, rfl, ⟨[], hbodies, by simp⟩, ?_⟩
  have hempty : completedNodes (k.2.events.ofJob req.token) = [] := by rw [hbodies]; rfl
  refine ⟨hexec, ?_, fun t hbusy => ?_, fun p hp => ?_, by rw [hempty]; exact List.nodup_nil,
    fun v hv => ?_, fun t f hf => ?_⟩
  · show GateInv _ _ (k.2, j.gate)
    rw [hgate]
    exact GateInv.init (by rw [hbodies]; rfl)
  · exact absurd (by rw [show ({ j with stage := _ } : JobState).gate = j.gate from rfl, hgate]; rfl)
      hbusy
  · rw [show ({ j with stage := _ } : JobState).gate = j.gate from rfl, hgate] at hp
    cases hp
  · rw [hempty] at hv
    cases hv
  · rw [hfuts] at hf
    cases hf

theorem Exn.outcome_ne_completed (repr : Str → String) (e : Exn) :
    e.outcome repr ≠ .completed := by
  cases e with
  | module e => cases e <;> simp [Exn.outcome]
  | invalid | contract | cancelled | fault => simp [Exn.outcome]

/-- A call that returns has announced its whole graph. -/
theorem During.returned {groups : Groups} {s : ExecState} {session : Session}
    {report : ExecutionReport} (hd : During service req k j groups s session)
    (hp : s.phase = .returned report) : After req k j .completed [] .running := by
  obtain ⟨body, hbody, hprogress⟩ := hd.opened
  refine ⟨body, by rw [List.append_nil]; exact hbody, hd.status, hd.summary hbody hprogress,
    fun _ => ?_⟩
  have hpo := hd.run.exec.sched.phase
  simp only [PhaseOk, hp] at hpo
  obtain ⟨hnodes, hkeys⟩ := hd.run.returned hd.valid hp
  have hperm := hd.run.outputs_perm hpo.1
  rw [hbody] at hnodes hperm
  exact ⟨hnodes, (hperm.map _).symm.trans hkeys, hperm⟩

/-- One that raises has announced no more than that. -/
theorem During.raised {groups : Groups} {s : ExecState} {session : Session} {outcome : Outcome}
    (hd : During service req k j groups s session) (hne : outcome ≠ .completed) :
    After req k j outcome [] .running := by
  obtain ⟨body, hbody, hprogress⟩ := hd.opened
  exact ⟨body, by rw [List.append_nil]; exact hbody, hd.status, hd.summary hbody hprogress,
    fun hc => absurd hc hne⟩

/-- The flag is all that a cancellation sets, in the job and in its call. -/
theorem JobInv.cancel (h : JobInv service req k j) (hjob : j.stage.isJob = true) :
    JobInv service req k { j with stage := j.stage.setCancel, cancel := true } := by
  unfold JobInv at h ⊢
  cases hst : j.stage with
  | validating | refused =>
      rw [hst] at hjob
      cases hjob
  | executing groups s =>
      rw [hst] at h
      obtain ⟨session, hd⟩ := h
      have hexec : CallInv service.host (req.call service session) (fun _ _ => True)
          { s with cancel := true } :=
        hd.run.exec.cancel hd.valid
      exact ⟨session, hd.valid, hd.grown, hd.status, hd.groups, rfl, hd.opened,
        hd.run.sched hexec .cancel⟩
  | inserted | spawned | marked | grouping | stuck | entering | ended | closing | announcing
  | done =>
      rw [hst] at h
      exact h

/-- **The step lemma of a job.** -/
theorem JobInv.step {x y : Desk × JobState} {a : JobAct} (h : JobInv service req x.1 x.2)
    (hok : JobOk service req beh x a) (hs : jobStep service req x a = some y) :
    JobInv service req y.1 y.2 := by
  obtain ⟨k, j⟩ := x
  have hjobInv := h
  unfold JobInv at h
  cases jobStep_move service req hs with
  | refuse hst =>
      rw [hst] at h
      exact h
  | accept hst hvalid =>
      rw [hst] at h
      exact ⟨validateGraph_nil_iff.mp hvalid, h⟩
  | announcePending hst =>
      rw [hst] at h
      obtain ⟨hw, hbodies, hrest⟩ := h
      exact ⟨hw, by simp [hbodies], hrest⟩
  | mark hst =>
      rw [hst] at h
      obtain ⟨hw, hbodies, -, hgate⟩ := h
      exact ⟨hw, hbodies, rfl, hgate⟩
  | announceRunning hst =>
      rw [hst] at h
      obtain ⟨hw, hbodies, hrest⟩ := h
      exact ⟨hw, by simp [hbodies, opening], hrest⟩
  | group hst hgroups =>
      rw [hst] at h
      exact ⟨h, hgroups⟩
  | stuck hst hfault =>
      -- the graph is valid, so its groups can be built
      rw [hst] at h
      obtain ⟨groups, hgroups, -⟩ := buildGroups_ok h.1
      rw [hgroups] at hfault
      cases hfault
  | enter hst =>
      rw [hst] at h
      exact ⟨k.2.session, During.enter h.1 h.2⟩
  | returned hst hp =>
      rw [hst] at h
      obtain ⟨session, hd⟩ := h
      exact hd.returned hp
  | raised hst hp =>
      rw [hst] at h
      obtain ⟨session, hd⟩ := h
      exact hd.raised (Exn.outcome_ne_completed _ _)
  | close hst =>
      rw [hst] at h
      obtain ⟨body, hbody, -, hrest⟩ := h
      exact ⟨body, hbody, rfl, hrest⟩
  | announceStatus hst =>
      rw [hst] at h
      obtain ⟨body, hbody, hrest⟩ := h
      exact ⟨body, by simp [hbody], hrest⟩
  | announceEnd hst =>
      rw [hst] at h
      obtain ⟨body, hbody, hrest⟩ := h
      exact ⟨body, by simp [hbody, Outcome.ending], hrest⟩
  | exec hst hplain hexec =>
      rw [hst] at h
      obtain ⟨session, hd⟩ := h
      exact ⟨session, hd.exec hplain hexec⟩
  | notify hst hf hnote hexec =>
      rw [hst] at h
      obtain ⟨session, hd⟩ := h
      exact ⟨session, hd.notify hf hnote hexec⟩
  | emitted hst hexec hret =>
      rw [hst] at h
      obtain ⟨session, hd⟩ := h
      exact ⟨session, hd.emitted hexec hret⟩
  | gate hst hcall hnret hgate =>
      rw [hst] at h
      obtain ⟨session, hd⟩ := h
      have hd' := hd.gate hcall hnret (by rintro t id rfl; exact hok) hgate
      unfold JobInv
      rw [show ({ j with gate := _ } : JobState).stage = j.stage from rfl, hst]
      exact ⟨session, hd'⟩
  | cancel hjob => exact hjobInv.cancel hjob

/-- What others do meanwhile. -/
theorem JobInv.elsewhere (h : JobInv service req k j) (hint : Elsewhere req.token k k') :
    JobInv service req k' j := by
  have hbodies : k'.2.events.ofJob req.token = k.2.events.ofJob req.token := hint.events
  have hbefore : ∀ bodies status, Before service req k j bodies status →
      Before service req k' j bodies status := fun bodies status ⟨hw, hb, hrest⟩ =>
    ⟨hw.keep ⟨fun _ _ hm => hm, hint.payloads⟩, hbodies.trans hb, hrest⟩
  have hafter : ∀ outcome tail status, After req k j outcome tail status →
      After req k' j outcome tail status := fun outcome tail status ⟨body, hb, hrest⟩ =>
    ⟨body, hbodies.trans hb, hrest⟩
  unfold JobInv at h ⊢
  cases hst : j.stage with
  | validating | refused =>
      rw [hst] at h
      exact ⟨hbodies.trans h.1, h.2⟩
  -- no event of the job, and payloads only come
  | inserted | spawned | marked | grouping =>
      rw [hst] at h
      exact hbefore _ _ h
  | entering groups =>
      rw [hst] at h
      exact ⟨hbefore _ _ h.1, h.2⟩
  | stuck fault =>
      rw [hst] at h
      exact h
  | executing groups s =>
      rw [hst] at h
      obtain ⟨session, hd⟩ := h
      exact ⟨session, hd.valid, fun id p hp => hint.payloads id p (hd.grown id p hp), hd.status,
        hd.groups, hd.cancel, hbodies ▸ hd.opened, hd.run.interferes hint⟩
  | ended | closing | announcing | done =>
      rw [hst] at h
      exact hafter _ _ _ h

/-- **The run lemma of a job**, whatever the rest of the world does. -/
theorem job_inv {x y : Desk × JobState} (h : JobInv service req x.1 x.2)
    (hrun : Reaches (JobSteps service req beh) x y) : JobInv service req y.1 y.2 := by
  refine Reaches.invariant (I := fun x => JobInv service req x.1 x.2) ?_ hrun h
  rintro x y (⟨a, hok, hs⟩ | ⟨hsame, hint⟩) hx
  · exact hx.step hok hs
  · rw [hsame]
    exact hx.elsewhere hint

/-- Every job of a server. -/
theorem server_job_inv {P : Server} {i : Nat}
    (hrun : ServerReaches service beh Server.empty P) (hdistinct : P.Distinct)
    (hi : P.members[i]? = some (.job req, .job j)) :
    JobInv service req (P.store.desk req.session) j :=
  job_inv (x := ((∅, ⟨⟨req.session, ∅⟩, []⟩), .init)) ⟨rfl, rfl, rfl⟩
    (job_view_empty hrun hdistinct hi)

end Job

/-! ### What every reader of the log sees -/

/-- The last event of a job. -/
def EventBody.isFinal : EventBody → Bool
  | .jobCompleted | .jobFailed _ | .jobCancelled => true
  | _ => false

/-- The events and the record of a job, at any moment. -/
structure Lifecycle (g : Graph) (bodies : List EventBody) (j : JobState) : Prop where
  /-- A prefix of: pending, running, progress, the last status, the last event. -/
  trace : ∃ body outcome, (∀ e ∈ body, e.isProgress = true) ∧
    bodies <+: opening ++ body ++ Outcome.ending outcome
  nodes_once : (completedNodes bodies).Nodup
  nodes_known : ∀ v ∈ completedNodes bodies, v ∈ g.nodeIds
  outputs_once : ((outputsOf bodies).map OutputRecord.key).Nodup
  outputs_known : ∀ r ∈ outputsOf bodies, r.key ∈ g.outputs.map OutputRef.key
  /-- Whoever sees the status `completed`, in the record or in the log, finds
  every node and every output, in the log and in `job.outputs`. -/
  completed : j.status = .completed ∨ .jobStatus .completed ∈ bodies → Full g bodies j.outputs

section Readers

variable {service : Service} {req : JobRequest} {k : Desk} {j : JobState} {beh : Behaviour}

theorem completedNodes_ending (outcome : Outcome) : completedNodes outcome.ending = [] := by
  cases outcome <;> rfl

theorem outputsOf_ending (outcome : Outcome) : outputsOf outcome.ending = [] := by
  cases outcome <;> rfl

theorem Outcome.completed_of_status {outcome : Outcome} (h : outcome.status = .completed) :
    outcome = .completed := by
  cases outcome <;> first | rfl | cases h

/-- The events of a job that has not called `execute_graph`. -/
theorem lifecycle_of_prefix {bodies : List EventBody} (hpre : bodies <+: opening)
    (hstatus : j.status ≠ .completed) : Lifecycle req.graph bodies j := by
  have hsub : ∀ e ∈ bodies, e ∈ opening := fun e he => hpre.subset he
  have hnodes : completedNodes bodies = [] :=
    List.filterMap_eq_nil_iff.mpr fun e he => by
      have := hsub e he
      simp only [opening, List.mem_cons, List.not_mem_nil, or_false] at this
      rcases this with rfl | rfl <;> rfl
  have houts : outputsOf bodies = [] :=
    List.filterMap_eq_nil_iff.mpr fun e he => by
      have := hsub e he
      simp only [opening, List.mem_cons, List.not_mem_nil, or_false] at this
      rcases this with rfl | rfl <;> rfl
  refine ⟨⟨[], .completed, by simp, hpre.trans (by simp [List.prefix_append])⟩, by simp [hnodes],
    by simp [hnodes], by simp [houts], by simp [houts], ?_⟩
  rintro (h | h)
  · exact absurd h hstatus
  · have := hsub _ h
    simp [opening] at this

/-- The events of a job that has called it. -/
theorem lifecycle_of_summary {bodies body tail : List EventBody} {outcome : Outcome}
    (hbodies : bodies = opening ++ body ++ tail) (htail : tail <+: outcome.ending)
    (hsum : Summary req.graph body) (hfull : outcome = .completed → Full req.graph body j.outputs)
    (hstatus : j.status = .completed → outcome = .completed) : Lifecycle req.graph bodies j := by
  have hsub : ∀ e ∈ tail, e ∈ outcome.ending := fun e he => htail.subset he
  -- neither the opening nor the ending names a node or an output
  have hnodes : completedNodes bodies = completedNodes body := by
    have htail' : completedNodes tail = [] := List.filterMap_eq_nil_iff.mpr fun e he =>
      List.filterMap_eq_nil_iff.mp (completedNodes_ending outcome) e (hsub e he)
    rw [hbodies, completedNodes_append, htail', List.append_nil]
    rfl
  have houts : outputsOf bodies = outputsOf body := by
    have htail' : outputsOf tail = [] := List.filterMap_eq_nil_iff.mpr fun e he =>
      List.filterMap_eq_nil_iff.mp (outputsOf_ending outcome) e (hsub e he)
    rw [hbodies, outputsOf_append, htail', List.append_nil]
    rfl
  refine ⟨⟨body, outcome, hsum.progress, ?_⟩, hnodes ▸ hsum.nodes_nodup, hnodes ▸ hsum.nodes_known,
    houts ▸ hsum.outputs_nodup, houts ▸ hsum.outputs_known, fun h => ?_⟩
  · rw [hbodies]
    exact (List.prefix_append_right_inj _).mpr htail
  -- where it is completed, by its status or by an event, so is the outcome
  · have hdone : outcome = .completed := by
      rcases h with h | h
      · exact hstatus h
      · rw [hbodies, List.mem_append, List.mem_append] at h
        rcases h with (h | h) | h
        · simp [opening] at h
        · cases hsum.progress _ h
        · have hmem := hsub _ h
          simp only [Outcome.ending, List.mem_cons, List.not_mem_nil, or_false] at hmem
          rcases hmem with hmem | hmem
          · exact Outcome.completed_of_status (EventBody.jobStatus.inj hmem).symm
          · cases outcome <;> cases hmem
    obtain ⟨hn, ha, ho⟩ := hfull hdone
    exact ⟨hnodes ▸ hn, houts ▸ ha, houts ▸ ho⟩

/-- What the invariant says of the log. -/
theorem JobInv.lifecycle (h : JobInv service req k j) :
    Lifecycle req.graph (k.2.events.ofJob req.token) j := by
  unfold JobInv at h
  cases hst : j.stage with
  -- until it is running the events are a part of the opening
  | validating | refused =>
      rw [hst] at h
      exact lifecycle_of_prefix (by simp [h.1]) (by simp [h.2.1])
  | inserted | spawned | marked | grouping =>
      rw [hst] at h
      obtain ⟨-, hbodies, hstatus, -⟩ := h
      exact lifecycle_of_prefix (by simp [hbodies, opening]) (by simp [hstatus])
  | entering groups =>
      rw [hst] at h
      obtain ⟨⟨-, hbodies, hstatus, -⟩, -⟩ := h
      exact lifecycle_of_prefix (by simp [hbodies]) (by simp [hstatus])
  | stuck fault =>
      rw [hst] at h
      exact h.elim
  -- no tail yet, and any outcome
  | executing groups s =>
      rw [hst] at h
      obtain ⟨session, hd⟩ := h
      obtain ⟨body, hbody, hprogress⟩ := hd.opened
      exact @lifecycle_of_summary _ _ _ _ [] .cancelled (by rw [hbody]; simp)
        (by simp) (hd.summary hbody hprogress) nofun (by simp [hd.status])
  | ended outcome =>
      rw [hst] at h
      obtain ⟨body, hbody, hstatus, hsum, hfull⟩ := h
      exact @lifecycle_of_summary _ _ _ _ _ outcome hbody (by simp) hsum hfull (by simp [hstatus])
  | closing outcome | announcing outcome | done outcome =>
      rw [hst] at h
      obtain ⟨body, hbody, hstatus, hsum, hfull⟩ := h
      exact lifecycle_of_summary hbody (by simp [Outcome.ending]) hsum hfull
        fun hc => Outcome.completed_of_status (hstatus.symm.trans hc)

/-- The last event is the job's last step. -/
theorem JobInv.done_of_final (h : JobInv service req k j) {e : EventBody}
    (he : e ∈ k.2.events.ofJob req.token) (hfinal : e.isFinal = true) :
    ∃ outcome, j.stage = .done outcome := by
  have hopening : ∀ e ∈ opening, e.isFinal = false := by simp [opening, EventBody.isFinal]
  -- neither the opening nor what comes in a run is final
  have hbody : ∀ {body : List EventBody}, (∀ e ∈ body, e.isProgress = true) → e ∉ opening ++ body := by
    intro body hprogress hmem
    rcases List.mem_append.mp hmem with hmem | hmem
    · rw [hopening e hmem] at hfinal
      cases hfinal
    · have hp := hprogress e hmem
      cases e with
      | jobStatus | nodeCompleted | jobOutput => cases hfinal
      | jobCompleted | jobFailed | jobCancelled => cases hp
  have hstatus : ∀ status, e ≠ .jobStatus status := by
    rintro status rfl
    cases hfinal
  unfold JobInv at h
  cases hst : j.stage with
  | done outcome => exact ⟨outcome, rfl⟩
  | validating | refused =>
      rw [hst] at h
      rw [h.1] at he
      cases he
  | inserted | spawned | marked | grouping =>
      rw [hst] at h
      rw [h.2.1] at he
      simp [opening, hstatus] at he
  | entering groups =>
      rw [hst] at h
      rw [h.1.2.1] at he
      simp [opening, hstatus] at he
  | stuck fault =>
      rw [hst] at h
      exact h.elim
  | executing groups s =>
      rw [hst] at h
      obtain ⟨session, hd⟩ := h
      obtain ⟨body, hb, hprogress⟩ := hd.opened
      rw [hb] at he
      exact absurd he (hbody hprogress)
  | ended outcome | closing outcome =>
      rw [hst] at h
      obtain ⟨body, hb, -, hsum, -⟩ := h
      rw [hb, List.append_nil] at he
      exact absurd he (hbody hsum.progress)
  -- the last status is out, the last event is not
  | announcing outcome =>
      rw [hst] at h
      obtain ⟨body, hb, -, hsum, -⟩ := h
      rw [hb] at he
      rcases List.mem_append.mp he with he | he
      · exact absurd he (hbody hsum.progress)
      · exact absurd (List.mem_singleton.mp he) (hstatus _)

/-- Nothing of the job moves after its last event. -/
theorem done_frozen {x y : Desk × JobState} (hrun : Reaches (JobSteps service req beh) x y)
    {outcome : Outcome} (hdone : x.2.stage = .done outcome) :
    y.1.2.events.ofJob req.token = x.1.2.events.ofJob req.token ∧ y.2.status = x.2.status ∧
      y.2.outputs = x.2.outputs := by
  have hinv : y.2.stage = .done outcome ∧
      y.1.2.events.ofJob req.token = x.1.2.events.ofJob req.token ∧ y.2.status = x.2.status ∧
      y.2.outputs = x.2.outputs := by
    induction hrun with
    | refl => exact ⟨hdone, rfl, rfl, rfl⟩
    | @tail y z _ hstep ih =>
        obtain ⟨hst, hevents, hstatus, houts⟩ := ih
        rcases hstep with ⟨a, -, hs⟩ | ⟨hsame, hint⟩
        · cases jobStep_move service req hs with
          -- the flag is all that can still be set
          | cancel =>
              refine ⟨?_, hevents, hstatus, houts⟩
              show y.2.stage.setCancel = _
              rw [hst]
              rfl
          | refuse h | accept h | announcePending h | mark h | announceRunning h | group h | stuck h
          | enter h | returned h | raised h | close h | announceStatus h | announceEnd h | exec h
          | notify h | emitted h | gate h =>
              rw [hst] at h
              cases h
        · rw [hsame]
          exact ⟨hst, hint.events.trans hevents, hstatus, houts⟩
  exact hinv.2

/-- **The life of a job in the log of its session**: in every state of every run
of a server, for every job whose graph was accepted, the events are a prefix of
the protocol's one shape, complete if the job is; and after the last event
neither they nor the job's record change. -/
theorem job_lifecycle {P : Server} {i : Nat} (hrun : ServerReaches service beh Server.empty P)
    (hdistinct : P.Distinct) (hi : P.members[i]? = some (.job req, .job j)) :
    Lifecycle req.graph ((P.store.sessions req.session).events.ofJob req.token) j ∧
      ∀ P' j', ServerReaches service beh P P' → P'.Distinct →
        P'.members[i]? = some (.job req, .job j') →
        (∃ e ∈ (P.store.sessions req.session).events.ofJob req.token, e.isFinal = true) →
        (P'.store.sessions req.session).events.ofJob req.token =
            (P.store.sessions req.session).events.ofJob req.token ∧
          j'.status = j.status ∧ j'.outputs = j.outputs := by
  have hinv := server_job_inv hrun hdistinct hi
  refine ⟨hinv.lifecycle, ?_⟩
  rintro P' j' hlater hdistinct' hi' ⟨e, he, hfinal⟩
  obtain ⟨outcome, hdone⟩ := hinv.done_of_final he hfinal
  have hview := (job_view hlater hdistinct' (by rw [List.getElem?_map, hi']; rfl)
    (fun m p hm => ⟨j, (Prod.mk.inj (Option.some.inj (hm.symm.trans hi))).2⟩)).2
  have hj : P.jobState i = j := by simp [Server.jobState, hi]
  have hj' : P'.jobState i = j' := by simp [Server.jobState, hi']
  rw [hj, hj'] at hview
  exact done_frozen hview hdone

/-! ### A job with a pinned group -/

instance (service : Service) (req : JobRequest) (x : Desk × JobState) (a : JobAct) :
    Decidable (JobOk service req anyBehaviour x a) :=
  match a with
  | .exec _ => isTrue fun _ _ _ => permits_any _ _ _
  | .gate (.add _ id) => inferInstanceAs (Decidable (id ∉ x.1.2.session.payloads))
  | .gate (.call _ _) | .gate (.record _) | .gate (.announce _) | .gate (.flush _) | .gate (.ret _)
  | .advance | .cancel => isTrue trivial

instance (service : Service) (m : Party) (x : ServerStore × PartyState) (a : PartyAct) :
    Decidable (PartyOk service anyBehaviour m x a) :=
  match m, x, a with
  | .job req, (k, .job j), .job a =>
    inferInstanceAs (Decidable (JobOk service req anyBehaviour (k.desk req.session, j) a))
  | .job _, (_, .job _), .store _ | .job _, (_, .uploading), .job _
  | .job _, (_, .uploading), .store _ | .job _, (_, .uploaded _), .job _
  | .job _, (_, .uploaded _), .store _ | .upload _ _ _, (_, _), .job _ => isTrue trivial
  | .upload session _ _, (k, _), .store id =>
    inferInstanceAs (Decidable (id ∉ (k.sessions session).session.payloads))

/-- One job alone in the server. -/
theorem serverReaches_of_job {y : ServerStore × PartyState}
    (hrun : Reaches (Fires (partyStep service (.job req)) (PartyOk service beh (.job req)))
      (Server.empty.store, .job .init) y) :
    ServerReaches service beh Server.empty ⟨y.1, [(.job req, y.2)]⟩ := by
  have hspawn : ServerReaches service beh Server.empty
      ⟨Server.empty.store, [(.job req, .job .init)]⟩ :=
    Relation.ReflTransGen.single ⟨.spawn (.job req), trivial, rfl⟩
  exact hspawn.trans (PoolReaches.of_member (i := 0) rfl hrun)

def sampleService : Service := ⟨sampleHost, sampleRegistry, some 1, fun _ => "", fun _ => true⟩

def pinnedRequest : JobRequest := ⟨"job", "session", pinnedGraph, false⟩

/-- From the call of `on_output` for a member whose turn it is to its return. -/
def emitJobActs (output : ExecutionOutput) (id : Str) : List JobAct :=
  [.exec (.worker 0 .emit), .gate (.call 0 output), .gate (.flush 0), .gate (.add 0 id),
    .gate (.record 0), .gate (.announce 0), .gate (.flush 0), .exec (.worker 0 .emitted)]

/-- The whole life of the job. -/
def pinnedJobActs : List JobAct :=
  List.replicate 6 .advance ++
    ([.loop, .submit, .submit, .worker 0 .start, .worker 0 .lookup,
      .worker 0 (.ret (.ok (emptyResults splitModule))), .worker 0 .check, .worker 0 .put,
      .worker 0 .record, .worker 0 .notify] : List Act).map .exec ++
    emitJobActs ⟨"s", "a", "text", []⟩ "p0" ++ emitJobActs ⟨"s", "b", "text", []⟩ "p1" ++
    ([.worker 0 .finish, .wait [0], .process [], .loop] : List Act).map .exec ++
    List.replicate 4 .advance

theorem job_lifecycle_pinned : ∃ (P : Server) (j : JobState),
    ServerReaches sampleService anyBehaviour Server.empty P ∧
      P.members[0]? = some (.job pinnedRequest, .job j) ∧ j.status = .completed ∧
      Full pinnedGraph ((P.store.sessions "session").events.ofJob "job") j.outputs ∧
      ∀ P' j', ServerReaches sampleService anyBehaviour P P' → P'.Distinct →
        P'.members[0]? = some (.job pinnedRequest, .job j') → j'.outputs = j.outputs := by
  -- the run, up to its last event
  have hcheck : (runActs (guarded (partyStep sampleService (.job pinnedRequest))
      (PartyOk sampleService anyBehaviour (.job pinnedRequest))) (pinnedJobActs.map .job)
      (Server.empty.store, .job .init)).bind (fun y =>
        y.2.asJob.map fun j =>
          (j.status, ((y.1.sessions "session").events.ofJob "job").getLast?)) =
            some (.completed, some .jobCompleted) := by
    decide +kernel
  obtain ⟨y, hy, hcheck⟩ := Option.bind_eq_some_iff.mp hcheck
  obtain ⟨k, p⟩ := y
  cases p with
  | job j =>
      obtain ⟨hstatus, hlast⟩ := Prod.mk.inj (Option.some.inj hcheck)
      have hrun := serverReaches_of_job (reaches_of_guarded hy)
      have hlife := job_lifecycle (i := 0) hrun (List.pairwise_singleton _ _) rfl
      refine ⟨_, j, hrun, rfl, hstatus, hlife.1.completed (Or.inl hstatus), ?_⟩
      intro P' j' hlater hdistinct hi'
      exact (hlife.2 P' j' hlater hdistinct hi' ⟨_, List.mem_of_getLast? hlast, rfl⟩).2.2
  | uploading | uploaded => cases hcheck

end Readers

end Formshift
