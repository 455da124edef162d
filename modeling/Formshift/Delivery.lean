/-
Formshift/Delivery.lean

From the worker to the record (`on_output` and `emit_output`, `jobs.py`).

An output goes from the results of a call through a call of `on_output`,
perhaps the buffer of a pinned group, and `add_payload` to a record that names
its payload.  Nothing on the way exchanges it for another (`Delivers`): what
every output is known to be when a worker hands it over, the payload of every
record is (`server_delivers`).  And what the log announces is recorded
(`server_listed`).
-/
import Formshift.Refinement

namespace Formshift

open Py Steps

/-! ### Calls of `on_output` -/

/-- A call of `on_output` hands over one of the results. -/
def CallsOk (s : ExecState) : Prop :=
  ∀ f ∈ s.futures, ∀ results output todo, f.stage = .calling results output todo →
    results.lookup output.port = some ⟨output.type, output.data⟩

section Calls

variable {host : Host} {call : Call} {cache cache' : ResultCache} {s s' : ExecState}

theorem CallsOk.step (h : CallsOk s) {a : Act}
    (hs : step host call (cache, s) a = some (cache', s')) : CallsOk s' := by
  rcases step_move host call hs with ⟨i, w, f, t, f', rfl, hf, hm, rfl⟩ | ⟨-, hm⟩
  · -- the futures but one are as they were
    have hset : t.futures = s.futures → (∀ results output todo,
        f'.stage = .calling results output todo →
          results.lookup output.port = some ⟨output.type, output.data⟩) →
        CallsOk (t.setFuture i f') := by
      intro hfutures hnew g hg
      have hg' : g ∈ s.futures.set i f' := by rw [← hfutures]; exact hg
      rcases List.mem_or_eq_of_mem_set hg' with hold | rfl
      · exact h g hold
      · exact hnew
    cases hm with
    -- the output is made of the result of its port
    | @emit results outNode outPort todo result hst hr =>
        refine hset rfl fun results' output todo' heq => ?_
        obtain ⟨rfl, rfl, -⟩ := Stage.calling.inj heq
        exact hr
    | start | startFault | hit | miss | raise | reject | accept | stop | pass | put | record
    | notify | emitFault | emitted | finish => exact hset rfl (by simp)
  · cases hm with
    | submit =>
        intro g hg
        rcases List.mem_append.mp hg with hold | hnew
        · exact h g hold
        · rw [List.mem_singleton.mp hnew]
          simp
    | exit | stop | dispatch | submitted | wait | failed | processFault | process | join
    | cancel => exact h

theorem CallsOk.enter : CallsOk (enter call) := by
  by_cases hw : call.Valid
  · obtain ⟨dependents, remaining, -, -, heq⟩ := enter_eq hw
    rw [heq]
    simp [CallsOk, blank]
  · simp [CallsOk, (refused_enter hw).1]

end Calls

/-- The calls of an engine hand over their results. -/
theorem engine_callsOk {host : Host} {S : Call → Prop} {beh : Behaviour} {E : Engine}
    (hrun : EngineReaches host S beh Engine.empty E) {call : Call} {s : ExecState}
    (hmem : (call, s) ∈ E.members) : CallsOk s := by
  have hinv : PoolInv S (fun _ => True) (fun _ _ _ s => CallsOk s) E := by
    refine PoolInv.reaches (G := fun _ _ => True) (fun _ _ _ _ _ => .enter)
      (fun _ _ _ _ _ _ _ hs _ h => ⟨trivial, h.step hs, trivial⟩) (fun _ _ _ _ _ _ _ => id) hrun
      ⟨trivial, fun _ _ _ h => by simp [Engine.empty] at h⟩
  obtain ⟨i, hi⟩ := List.mem_iff_getElem?.mp hmem
  exact (hinv.members i call s hi).2

/-- What a worker hands over is a result of its node, recorded and requested. -/
theorem calling_recorded {host : Host} {call : Call} {s : ExecState}
    {Q : Call → NodeCall → Results → Prop} (hw : call.Valid) (hI : EngineCallInv host Q call s)
    (hcalls : CallsOk s) {t : Nat} {output : ExecutionOutput} (hcall : s.calling t = some output) :
    output.key ∈ call.graph.outputs.map OutputRef.key ∧ ∃ results,
      s.nodeResults.lookup output.node = some results ∧
        results.lookup output.port = some ⟨output.type, output.data⟩ := by
  obtain ⟨f, results, todo, hf, hst⟩ := calling_eq_some.mp hcall
  have hfmem := List.mem_of_getElem? hf
  have hstage := (hI.1 hw).data.stages f hfmem
  simp only [StageOk, hst] at hstage
  obtain ⟨hres, done, hsplit, -⟩ := hstage
  have hmem : output.key ∈ outputsByNode call f.node := by
    rw [hsplit]
    exact List.mem_append_right _ List.mem_cons_self
  have hnode : output.node = f.node := node_of_mem_outputsByNode hmem
  refine ⟨?_, results, hnode ▸ hres, hcalls f hfmem results output todo hst⟩
  obtain ⟨ref, href, hrefkey⟩ := List.mem_map.mp hmem
  exact List.mem_map.mpr ⟨ref, (List.mem_filter.mp href).1, hrefkey⟩

/-! ### Outputs and their payloads -/

section Delivers

/-- What is known of an output in a session stays known when payloads are added. -/
def Lasting (Q : Session → ExecutionOutput → Prop) : Prop :=
  ∀ session session' : Session,
    (∀ id p, session.payloads.lookup id = some p → session'.payloads.lookup id = some p) →
      ∀ o, Q session o → Q session' o

variable (Q : Session → ExecutionOutput → Prop)

/-- The payload of the record is in the session, and is such an output. -/
def Redeemable (session : Session) (r : OutputRecord) : Prop :=
  ∃ data, session.payloads.lookup r.payload = some ⟨r.payload, r.type, data⟩ ∧
    Q session ⟨r.node, r.port, r.type, data⟩

/-- What is on its way through `on_output`, and what has come out. -/
structure Delivers (session : Session) (gate : GateState) : Prop where
  held : ∀ group key o, (gate.buffers group).held.lookup key = some o → Q session o
  calls : ∀ t o group gated e, gate.calls t = .emitting o group gated e → Q session o
  stored : ∀ t o group gated id, gate.calls t = .emitting o group gated (.record id) →
    session.payloads.lookup id = some ⟨id, o.type, o.data⟩
  outputs : ∀ r ∈ gate.outputs, Redeemable Q session r

variable {Q} {session session' : Session} {gate gate' : GateState}

theorem Redeemable.keep (hlast : Lasting Q) (h : ∀ id p, session.payloads.lookup id = some p →
    session'.payloads.lookup id = some p) {r : OutputRecord} (hr : Redeemable Q session r) :
    Redeemable Q session' r := by
  obtain ⟨data, hlook, hgood⟩ := hr
  exact ⟨data, h _ _ hlook, hlast session session' h _ hgood⟩

theorem Delivers.keep (hlast : Lasting Q) (h : Delivers Q session gate)
    (hkeep : ∀ id p, session.payloads.lookup id = some p → session'.payloads.lookup id = some p) :
    Delivers Q session' gate where
  held := fun group key o ho => hlast session session' hkeep o (h.held group key o ho)
  calls := fun t o group gated e hc => hlast session session' hkeep o (h.calls t o group gated e hc)
  stored := fun t o group gated id hc => hkeep _ _ (h.stored t o group gated id hc)
  outputs := fun r hr => (h.outputs r hr).keep hlast hkeep

theorem Delivers.init : Delivers Q session .init := by
  refine ⟨fun group key o ho => ?_, by simp [GateState.init], by simp [GateState.init],
    by simp [GateState.init]⟩
  simp [GateState.init, Sequencer.empty] at ho

/-- One thread's call moves on. -/
theorem Delivers.setCall (h : Delivers Q session gate) {t : Nat} {c : Handling}
    (hcalls : ∀ o group gated e, c = .emitting o group gated e → Q session o)
    (hstored : ∀ o group gated id, c = .emitting o group gated (.record id) →
      session.payloads.lookup id = some ⟨id, o.type, o.data⟩) :
    Delivers Q session (gate.setCall t c) := by
  refine ⟨h.held, fun u o group gated e hc => ?_, fun u o group gated id hc => ?_, h.outputs⟩
  · by_cases hut : u = t
    · subst hut
      rw [calls_setCall_self] at hc
      exact hcalls o group gated e hc
    · refine h.calls u o group gated e ?_
      rw [← hc]
      exact (Function.update_of_ne hut _ _).symm
  · by_cases hut : u = t
    · subst hut
      rw [calls_setCall_self] at hc
      exact hstored o group gated id hc
    · refine h.stored u o group gated id ?_
      rw [← hc]
      exact (Function.update_of_ne hut _ _).symm

/-- One group's buffer changes. -/
theorem Delivers.setBuffer (h : Delivers Q session gate) {group : Str}
    {b : Sequencer (Str × Str) ExecutionOutput}
    (hheld : ∀ key o, b.held.lookup key = some o → Q session o) :
    Delivers Q session (gate.setBuffer group b) := by
  refine ⟨fun other key o ho => ?_, h.calls, h.stored, h.outputs⟩
  by_cases hother : other = group
  · subst hother
    rw [show (gate.setBuffer other b).buffers other = b from Function.update_self _ _ _] at ho
    exact hheld key o ho
  · refine h.held other key o ?_
    rw [← ho]
    exact congrArg (fun x => x.held.lookup key) (Function.update_of_ne hother b gate.buffers).symm

/-- What is in hand stays so while a call emits it. -/
theorem Delivers.emits (h : Delivers Q session gate) {t : Nat} {output : ExecutionOutput}
    {group : Option Str} {gated : Bool} {e : EmitStep} (hgood : Q session output)
    (hstored : ∀ id, e = .record id →
      session.payloads.lookup id = some ⟨id, output.type, output.data⟩) :
    Delivers Q session (gate.setCall t (.emitting output group gated e)) := by
  apply h.setCall
  · rintro o group' gated' e' heq
    obtain ⟨rfl, -⟩ := Handling.emitting.inj heq
    exact hgood
  · rintro o group' gated' id heq
    obtain ⟨rfl, -, -, he⟩ := Handling.emitting.inj heq
    exact hstored id he

/-- A call that emits nothing has nothing in hand. -/
theorem Delivers.rests (h : Delivers Q session gate) {t : Nat} {c : Handling}
    (hc : ∀ o group gated e, c ≠ .emitting o group gated e) :
    Delivers Q session (gate.setCall t c) :=
  h.setCall (fun o group gated e heq => absurd heq (hc o group gated e))
    fun o group gated _ heq => absurd heq (hc o group gated _)

/-- An output is put into the buffer of its group. -/
theorem Delivers.offer (h : Delivers Q session gate) {group : Str} {output : ExecutionOutput}
    (hgood : Q session output) : Delivers Q session (gate.setBuffer group
      ((gate.buffers group).offer output.key output)) := by
  refine h.setBuffer fun key o ho => ?_
  rw [Sequencer.offer, Dict.lookup_insert_ite] at ho
  split at ho
  · rw [← Option.some.inj ho]
    exact hgood
  · exact h.held group key o ho

theorem Delivers.drop (h : Delivers Q session gate) {group : Str} (key : Str × Str) :
    Delivers Q session (gate.setBuffer group ((gate.buffers group).drop key)) := by
  refine h.setBuffer fun key' o ho => ?_
  by_cases hk : key' = key
  · rw [Sequencer.drop, hk, AList.lookup_erase] at ho
    cases ho
  · rw [Sequencer.drop, AList.lookup_erase_ne hk] at ho
    exact h.held group key' o ho

/-- A record of what has been stored goes into `job.outputs`. -/
theorem Delivers.record (h : Delivers Q session gate) {t : Nat} {output : ExecutionOutput}
    {group : Option Str} {gated : Bool} {id : Str}
    (hc : gate.calls t = .emitting output group gated (.record id)) :
    Delivers Q session { gate with outputs := gate.outputs ++ [output.record id group] } := by
  refine ⟨h.held, h.calls, h.stored, fun r hr => ?_⟩
  rcases List.mem_append.mp hr with hold | hnew
  · exact h.outputs r hold
  · rw [List.mem_singleton.mp hnew]
    exact ⟨output.data, h.stored t _ _ _ _ hc, h.calls t _ _ _ _ hc⟩

/-- **The step lemma of the calls**: nothing is exchanged on the way. -/
theorem Delivers.step {groups : Groups} {job : Str} {x y : SessionState × GateState}
    {a : GateAct} (hlast : Lasting Q) (h : Delivers Q x.1.session x.2)
    (hcall : ∀ t output, a = .call t output → Q x.1.session output)
    (hfresh : ∀ t id, a = .add t id → id ∉ x.1.session.payloads)
    (hs : gateStep groups job x a = some y) : Delivers Q y.1.session y.2 := by
  obtain ⟨k, gate⟩ := x
  cases gateStep_move groups job hs with
  | @direct t output group _ _ _ =>
      have hsame : Delivers Q k.session
          { gate with handed := gate.handed ++ [(output.key, t)] } :=
        ⟨h.held, h.calls, h.stored, h.outputs⟩
      exact hsame.emits (hcall t output rfl) (by simp)
  | @enter t output group _ _ _ =>
      have hsame : Delivers Q k.session
          { gate with handed := gate.handed ++ [(output.key, t)], gate := some t } :=
        ⟨h.held, h.calls, h.stored, h.outputs⟩
      exact (hsame.offer (hcall t output rfl)).rests (by simp)
  | @add t id output group gated hc =>
      have hgrow := (@interferes_addPayload job k id (hfresh t id rfl) output.type
        output.data).payloads
      apply (h.keep hlast hgrow).emits (hlast _ _ hgrow _ (h.calls t _ _ _ _ hc))
      rintro id' he
      obtain rfl := EmitStep.record.inj he
      show (k.session.payloads.insert id _).lookup id = _
      rw [Dict.lookup_insert_ite, if_pos rfl]
  | @record t id output group gated hc =>
      exact (h.record hc).emits (h.calls t _ _ _ _ hc) (by simp)
  | @announceGated t id output group hc =>
      exact (h.setBuffer (b := (gate.buffers group).advance) (h.held group)).rests (by simp)
  | announce | ret => exact h.rests (by simp)
  | @next t group key output hc hready =>
      -- what leaves the buffer was held in it
      obtain ⟨-, hheld⟩ := Sequencer.ready_eq_some_iff.mp hready
      exact (h.drop key).emits (h.held group key output hheld) (by simp)
  | leave =>
      have hsame : Delivers Q k.session { gate with gate := none } :=
        ⟨h.held, h.calls, h.stored, h.outputs⟩
      exact hsame.rests (by simp)

/-- The step of a job. -/
theorem Delivers.job {service : Service} {beh : Behaviour} {req : JobRequest}
    {x y : Desk × JobState} {a : JobAct} (hlast : Lasting Q)
    (h : Delivers Q x.1.2.session x.2.gate)
    (hcalling : ∀ groups s t output, x.2.stage = .executing groups s →
      s.calling t = some output → Q x.1.2.session output)
    (hok : JobOk service req beh x a) (hs : jobStep service req x a = some y) :
    Delivers Q y.1.2.session y.2.gate := by
  cases jobStep_move service req hs with
  | emitted _ _ hret => exact h.step hlast (by simp) (by simp) hret
  | gate hst hcall _ hgate =>
      refine h.step hlast (fun t output heq => ?_) ?_ hgate
      · exact hcalling _ _ t output hst (hcall t output heq)
      · rintro t id rfl
        exact hok
  | refuse | accept | announcePending | mark | announceRunning | group | stuck | enter | returned
  | raised | close | announceStatus | announceEnd | exec | notify | cancel => exact h

end Delivers

/-- **What comes out of the jobs of a server is what went in**: a property that
every output has when a worker hands it over is one of every record's payload. -/
theorem server_delivers {service : Service} {beh : Behaviour}
    {Q : JobRequest → Session → ExecutionOutput → Prop} (hlast : ∀ req, Lasting (Q req))
    {P : Server} (hrun : ServerReaches service beh Server.empty P)
    (hcalling : ∀ P', ServerReaches service beh Server.empty P' → ServerReaches service beh P' P →
      ∀ i req s t output, P'.Runs i req s → s.calling t = some output →
        Q req (P'.store.sessions req.session).session output) :
    ∀ i req j, P.jobAt i = some (req, j) →
      Delivers (Q req) (P.store.sessions req.session).session j.gate := by
  induction hrun with
  | refl =>
      intro i req j hi
      simp [Server.jobAt, Server.empty] at hi
  | @tail P P' hrun hfire ih =>
      -- up to this step by the induction, in it by what is known of the calls
      have hbefore := ih fun P₀ h₀ hlater => hcalling P₀ h₀ (hlater.tail hfire)
      have hnow := hcalling P hrun (Relation.ReflTransGen.single hfire)
      have hgrown := (server_later hfire).1
      obtain ⟨e, hok, hs⟩ := hfire
      intro i req j hi
      rcases Server.jobAt_next hs hi with ⟨-, hold | rfl⟩ | ⟨b, k, y, rfl, hk, hy, rfl, hstore⟩
      · exact (hbefore i req j hold).keep (hlast req) (hgrown _)
      · exact .init
      · have hjob := (hbefore i req k hk).job (x := (P.store.desk req.session, k)) (hlast req)
          (fun groups s t output hst hcall => hnow i req s t output ⟨k, groups, hk, hst⟩ hcall)
          (hok _ _ (Server.jobAt_eq_some.mp hk)) hy
        rw [hstore]
        show Delivers _ ((P.store.put req.session y.1).desk req.session).2.session _
        rw [ServerStore.desk_put_self]
        exact hjob

/-! ### What has been announced -/

section Announced

variable {service : Service} {beh : Behaviour} {req : JobRequest}

/-- What the log announces of the job is in `job.outputs`. -/
structure Listed (job : Str) (k : SessionState) (gate : GateState) : Prop where
  announced : ∀ r ∈ outputsOf (k.events.ofJob job), r ∈ gate.outputs
  calls : ∀ t o group gated id, gate.calls t = .emitting o group gated (.announce id) →
    o.record id group ∈ gate.outputs

/-- One thread's call moves on. -/
theorem Listed.setCall {job : Str} {k : SessionState} {gate gate' : GateState}
    (h : Listed job k gate) {t : Nat} {c : Handling} (houtputs : gate'.outputs = gate.outputs)
    (hcalls : gate'.calls = Function.update gate.calls t c)
    (hc : ∀ o group gated id, c = .emitting o group gated (.announce id) →
      o.record id group ∈ gate.outputs) : Listed job k gate' := by
  refine ⟨fun r hr => houtputs ▸ h.announced r hr, fun u o group gated id hu => ?_⟩
  rw [houtputs]
  rw [hcalls] at hu
  by_cases hut : u = t
  · subst hut
    rw [Function.update_self] at hu
    exact hc o group gated id hu
  · rw [Function.update_of_ne hut] at hu
    exact h.calls u o group gated id hu

/-- An event of the job's own is logged. -/
theorem Listed.log {job : Str} {k : SessionState} {gate : GateState} (h : Listed job k gate)
    {body : EventBody} (hbody : ∀ r, body.output? = some r → r ∈ gate.outputs) :
    Listed job (k.log job body) gate := by
  refine ⟨fun r hr => ?_, h.calls⟩
  rw [show (k.log job body).events.ofJob job = _ from EventLog.ofJob_append_self _ _ _,
    outputsOf_append] at hr
  rcases List.mem_append.mp hr with hold | hnew
  · exact h.announced r hold
  · obtain ⟨e, he, her⟩ := List.mem_filterMap.mp hnew
    rw [List.mem_singleton.mp he] at her
    exact hbody r her

theorem Listed.step {groups : Groups} {job : Str} {x y : SessionState × GateState} {a : GateAct}
    (h : Listed job x.1 x.2) (hs : gateStep groups job x a = some y) : Listed job y.1 y.2 := by
  obtain ⟨k, gate⟩ := x
  cases gateStep_move groups job hs with
  | direct | enter | next | leave | ret => exact h.setCall rfl rfl (by simp)
  | @add t id output group gated hc =>
      have hsame : Listed job (k.addPayload id output.type output.data) gate :=
        ⟨h.announced, h.calls⟩
      exact hsame.setCall rfl rfl (by simp)
  -- what is announced next is listed from here on
  | @record t id output group gated hc =>
      have hgrown : Listed job k
          { gate with outputs := gate.outputs ++ [output.record id group] } :=
        ⟨fun r hr => List.mem_append_left _ (h.announced r hr),
          fun u o g' gated' id' hu => List.mem_append_left _ (h.calls u o g' gated' id' hu)⟩
      refine hgrown.setCall rfl rfl ?_
      rintro o group' gated' id' heq
      obtain ⟨rfl, rfl, -, he⟩ := Handling.emitting.inj heq
      obtain rfl := EmitStep.announce.inj he
      exact List.mem_append_right _ (List.mem_singleton_self _)
  -- it was listed when it was recorded
  | @announceGated t id output group hc =>
      have hlogged : Listed job (k.log job (.jobOutput (output.record id (some group)))) gate :=
        h.log fun r hr => Option.some.inj hr ▸ h.calls t _ _ _ _ hc
      exact hlogged.setCall rfl rfl (by simp)
  | @announce t id output group gated hc =>
      have hlogged : Listed job (k.log job (.jobOutput (output.record id group))) gate :=
        h.log fun r hr => Option.some.inj hr ▸ h.calls t _ _ _ _ hc
      exact hlogged.setCall rfl rfl (by simp)

end Announced

end Formshift
