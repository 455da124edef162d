/-
Formshift/JobProgress.lean

A job comes to an end.

`JobState.work` counts what a job has left to do: its call of `execute_graph`,
the calls of `on_output`, and the steps before and after.  Every step of the
job but the setting of its event lowers it (`JobInv.work_lt`).  A job whose
thread has been started, and that has not ended, has a step to take
(`exists_job_step`): a thread that waits for the gate of the pinned groups
waits for one that can move.
-/
import Formshift.SessionRuns

namespace Formshift

open Py Steps

/-! ### The calls of `on_output` -/

/-- The steps of a call of `on_output` up to the next record, or to its end. -/
def Handling.rank : Handling → Nat
  | .idle => 4
  | .emitting _ _ _ .add => 2
  | .emitting _ _ _ (.record _) => 1
  | .emitting _ _ _ (.announce _) => 4
  | .flushing _ => 3
  | .returning => 0

namespace GateState

/-- The work of the calls of the first `N` futures. -/
def ranks (N : Nat) (gate : GateState) : Nat :=
  (Finset.range N).sum fun t => (gate.calls t).rank

/-- The work left when `L` outputs are to be recorded in all. -/
def work (L N : Nat) (gate : GateState) : Nat := 4 * (L - gate.outputs.length) + gate.ranks N

@[simp] theorem work_init (L N : Nat) : GateState.init.work L N = 4 * L + N * 4 := by
  simp [work, ranks, init, Handling.rank]

/-- One call moves on. -/
theorem ranks_update {gate gate' : GateState} {t N : Nat} {c : Handling} (ht : t < N)
    (hcalls : gate'.calls = Function.update gate.calls t c) :
    gate'.ranks N + (gate.calls t).rank = gate.ranks N + c.rank := by
  have hmem : t ∈ Finset.range N := Finset.mem_range.mpr ht
  have hnew := Finset.add_sum_erase (Finset.range N) (fun u => (gate'.calls u).rank) hmem
  have hold := Finset.add_sum_erase (Finset.range N) (fun u => (gate.calls u).rank) hmem
  have hrest : ((Finset.range N).erase t).sum (fun u => (gate'.calls u).rank) =
      ((Finset.range N).erase t).sum fun u => (gate.calls u).rank := by
    apply Finset.sum_congr rfl
    intro u hu
    rw [hcalls, Function.update_of_ne (Finset.ne_of_mem_erase hu)]
  have hself : (gate'.calls t).rank = c.rank := by rw [hcalls, Function.update_self]
  rw [hself, hrest] at hnew
  unfold ranks
  omega

end GateState

section Calls

variable {g : Graph} {job : Str} {groups : Groups} {x y : SessionState × GateState} {N : Nat}

/-- There is room for the next record. -/
theorem GateInv.outputs_lt (h : GateInv g job x) {t : Nat} {o : ExecutionOutput}
    {group : Option Str} {gated : Bool} {id : Str}
    (hc : x.2.calls t = .emitting o group gated (.record id)) :
    x.2.outputs.length < g.outputs.length := by
  have hok := h.threads t
  rw [hc] at hok
  obtain ⟨⟨ref, href, hkey, -⟩, -, hnew⟩ := hok
  have hnodup : (o.key :: x.2.outputs.map OutputRecord.key).Nodup :=
    List.nodup_cons.mpr ⟨hnew, h.outputs_nodup⟩
  have hsub : o.key :: x.2.outputs.map OutputRecord.key ⊆ g.outputs.map OutputRef.key := by
    intro key hk
    rcases List.mem_cons.mp hk with rfl | hk
    · exact List.mem_map.mpr ⟨ref, href, hkey⟩
    · obtain ⟨r, hr, rfl⟩ := List.mem_map.mp hk
      obtain ⟨ref', href', hkey', -⟩ := h.outputs_ref r hr
      exact List.mem_map.mpr ⟨ref', href', hkey'⟩
  have hle := (List.subperm_of_subset hnodup hsub).length_le
  simp only [List.length_cons, List.length_map] at hle
  omega

/-- The step lemma of the calls. -/
theorem GateInv.work_lt (h : GateInv g job x) {a : GateAct} (ht : a.thread < N)
    (hs : gateStep groups job x a = some y) (hret : ∀ t, a ≠ .ret t) :
    y.2.work g.outputs.length N < x.2.work g.outputs.length N := by
  have hfalls : ∀ {gate' : GateState} {t : Nat} {c : Handling}, t < N →
      gate'.calls = Function.update x.2.calls t c → gate'.outputs = x.2.outputs →
        c.rank < (x.2.calls t).rank →
          gate'.work g.outputs.length N < x.2.work g.outputs.length N := by
    intro gate' t c ht hcalls houtputs hlt
    have hranks := GateState.ranks_update ht hcalls
    unfold GateState.work
    rw [houtputs]
    omega
  cases gateStep_move groups job hs with
  | direct hcall | enter hcall | add hcall | announceGated hcall | announce hcall | next hcall
  | leave hcall =>
      refine hfalls ht rfl rfl ?_
      simp [hcall, GateAct.thread, Handling.rank]
  | @record t id output group gated hcall =>
      have hlt := h.outputs_lt hcall
      have hranks : GateState.ranks N (x.2.setCall t
          (.emitting output group gated (.announce id))) + (x.2.calls t).rank = _ :=
        GateState.ranks_update ht rfl
      rw [hcall] at hranks
      simp only [Handling.rank] at hranks
      -- the record pays for the way to the next one
      show 4 * (g.outputs.length - (x.2.outputs ++ [output.record id group]).length) +
        GateState.ranks N (x.2.setCall t (.emitting output group gated (.announce id))) < _
      unfold GateState.work
      rw [List.length_append, List.length_singleton]
      omega
  | ret => exact absurd rfl (hret _)

/-- A call that is under way has a step to take. -/
theorem exists_gate_step {t : Nat} (hidle : x.2.calls t ≠ .idle)
    (hret : x.2.calls t ≠ .returning) :
    ∃ a, (∀ t' output, a ≠ .call t' output) ∧ (∀ t', a ≠ .ret t') ∧
      (∀ t' id, a = .add t' id → id ∉ x.1.session.payloads) ∧
        (gateStep groups job x a).isSome = true := by
  cases hc : x.2.calls t with
  | idle => exact absurd hc hidle
  | returning => exact absurd hc hret
  | flushing group =>
      refine ⟨.flush t, by simp, by simp, by simp, ?_⟩
      simp only [gateStep, hc]
      split <;> rfl
  | emitting output group gated step =>
      cases step with
      | add =>
          -- some id is not taken
          obtain ⟨id, hid⟩ := Dict.exists_fresh x.1.session.payloads
          refine ⟨.add t id, by simp, by simp, ?_, by simp [gateStep, hc]⟩
          rintro t' id' heq
          obtain ⟨-, rfl⟩ := GateAct.add.inj heq
          exact hid
      | record id => exact ⟨.record t, by simp, by simp, by simp, by simp [gateStep, hc]⟩
      | announce id =>
          refine ⟨.announce t, by simp, by simp, by simp, ?_⟩
          simp only [gateStep, hc]
          split <;> rfl

end Calls

/-! ### The work of a job -/

section Run

variable {host : Host} {call : Call} {job : Str} {k : SessionState} {gate : GateState}
  {s : ExecState} {groups : Groups}

theorem SchedInv.futures_le (h : SchedInv call s) :
    s.futures.length ≤ call.graph.nodes.length := by
  have hsub : s.submitted.Subperm call.graph.nodeIds := by
    refine List.subperm_of_subset (List.nodup_append.mp h.nodup).1 fun v hv => ?_
    exact ((h.mem_iff v).mp (List.mem_append_left _ hv)).1
  have hle := hsub.length_le
  simpa only [ExecState.submitted, Graph.nodeIds, List.length_map] using hle

/-- The threads that call `on_output` are futures of the call. -/
theorem RunInv.thread_lt (h : RunInv host call job k gate s) {a : GateAct}
    {y : SessionState × GateState}
    (hcall : ∀ t output, a = .call t output → s.calling t = some output)
    (hs : gateStep groups job (k, gate) a = some y) : a.thread < call.graph.nodes.length := by
  have hlt : ∀ {t : Nat} {output : ExecutionOutput}, s.calling t = some output →
      t < call.graph.nodes.length := by
    intro t output hout
    obtain ⟨f, results, todo, hf, -⟩ := calling_eq_some.mp hout
    exact (List.getElem?_eq_some_iff.mp hf).1.trans_le h.exec.sched.futures_le
  have hbusy : ∀ {t : Nat} {c : Handling}, gate.calls t = c → c ≠ .idle →
      t < call.graph.nodes.length := by
    intro t c hc hidle
    obtain ⟨output, hout⟩ := h.calling t (hc ▸ hidle)
    exact hlt hout
  cases gateStep_move groups job hs with
  | direct | enter => exact hlt (hcall _ _ rfl)
  | add hc | record hc | announceGated hc | announce hc | next hc | leave hc | ret hc =>
      exact hbusy hc (by simp)

end Run

/-- More than a call of `execute_graph` and its callbacks can take. -/
def JobRequest.bound (req : JobRequest) : Nat :=
  10 * (req.graph.nodes.length * (15 + 2 * req.graph.outputs.length) + 3) +
    (4 * req.graph.outputs.length + req.graph.nodes.length * 4) + 4

section Work

variable (service : Service) (req : JobRequest)

/-- The work a job has left.  What a call has left does not depend on its session. -/
def JobState.work (j : JobState) : Nat :=
  match j.stage with
  | .validating => req.bound + 6
  | .inserted => req.bound + 5
  | .spawned => req.bound + 4
  | .marked => req.bound + 3
  | .grouping => req.bound + 2
  | .entering _ => req.bound + 1
  | .executing _ s =>
    10 * measure (req.call service ⟨req.session, ∅⟩) s +
      j.gate.work req.graph.outputs.length req.graph.nodes.length + 4
  | .ended _ => 3
  | .closing _ => 2
  | .announcing _ => 1
  | .refused _ | .stuck _ | .done _ => 0

/-- Setting the event is no work. -/
theorem JobState.work_cancel (j : JobState) :
    JobState.work service req { j with stage := j.stage.setCancel, cancel := true } =
      j.work service req := by
  unfold JobState.work
  cases hst : j.stage <;> rfl

variable {service req} {k k' : Desk} {j : JobState} {beh : Behaviour}

/-- `execute_graph` begins with no more than that. -/
theorem work_entered (h : Before service req k j opening .running) (groups : Groups) :
    JobState.work service req { j with stage := .executing groups (entered service req k j) } ≤
      req.bound := by
  obtain ⟨hw, -, -, hgate⟩ := h
  have hcall : (req.call service k.2.session).Valid := hw
  obtain ⟨dependents, remaining, -, -, heq⟩ := enter_eq hcall
  have hmeasure : measure (req.call service ⟨req.session, ∅⟩) (entered service req k j) =
      req.graph.nodes.length * (15 + 2 * req.graph.outputs.length) + 3 := by
    rw [entered, heq]
    simp [measure, futuresRank, blank, Phase.rank, JobRequest.call]
  show 10 * measure (req.call service ⟨req.session, ∅⟩) (entered service req k j) +
    j.gate.work req.graph.outputs.length req.graph.nodes.length + 4 ≤ req.bound
  rw [hmeasure, hgate, GateState.work_init]
  exact le_rfl

/-- **The step lemma of the work.** -/
theorem JobInv.work_lt {x y : Desk × JobState} {a : JobAct} (h : JobInv service req x.1 x.2)
    (hs : jobStep service req x a = some y) (ha : a.isCancel = false) :
    y.2.work service req < x.2.work service req := by
  -- a step of `execute_graph` pays for ten others
  have hscaled : ∀ {m m' w : Nat}, m' < m → 10 * m' + w + 4 < 10 * m + w + 4 := by
    intro m m' w hlt
    omega
  unfold JobInv at h
  cases jobStep_move service req hs with
  | refuse hst | accept hst | announcePending hst | mark hst | announceRunning hst | group hst
  | stuck hst | returned hst | raised hst | close hst | announceStatus hst | announceEnd hst =>
      simp only [JobState.work, hst]
      omega
  | @enter groups hst =>
      rw [hst] at h
      have hle := work_entered h.1 groups
      simp only [JobState.work, hst] at hle ⊢
      omega
  | exec hst hplain hstep =>
      rw [hst] at h
      obtain ⟨session, hd⟩ := h
      have hne : ∀ {b : Act}, b.isPlain = true → b ≠ .cancel := by
        rintro b hb rfl
        cases hb
      have hlt := measure_lt hd.run.exec.sched (hd.exec_step hstep).1 (hne hplain)
      simp only [JobState.work, hst]
      exact hscaled hlt
  | notify hst hf hnote hstep =>
      rw [hst] at h
      obtain ⟨session, hd⟩ := h
      have hlt := measure_lt hd.run.exec.sched (hd.exec_step hstep).1 (by simp)
      simp only [JobState.work, hst]
      exact hscaled hlt
  | @emitted groups s i cache s' z hst hstep hret =>
      rw [hst] at h
      obtain ⟨session, hd⟩ := h
      have hlt : measure (req.call service ⟨req.session, ∅⟩) s' <
          measure (req.call service ⟨req.session, ∅⟩) s :=
        measure_lt hd.run.exec.sched (hd.exec_step hstep).1 (by simp)
      have hthread : i < req.graph.nodes.length := hd.run.thread_lt (by simp) hret
      -- the call that has ended is idle again, for one step of `execute_graph`
      have hwork : z.2.work req.graph.outputs.length req.graph.nodes.length =
          x.2.gate.work req.graph.outputs.length req.graph.nodes.length + 4 := by
        cases gateStep_move groups _ hret with
        | ret hcall =>
            have hranks : GateState.ranks req.graph.nodes.length (x.2.gate.setCall i .idle) +
                (x.2.gate.calls i).rank = _ := GateState.ranks_update hthread rfl
            rw [hcall] at hranks
            simp only [Handling.rank] at hranks
            show 4 * (req.graph.outputs.length - x.2.gate.outputs.length) +
              GateState.ranks req.graph.nodes.length (x.2.gate.setCall i .idle) = _
            unfold GateState.work
            omega
      simp only [JobState.work, hst]
      omega
  | gate hst hcall hnret hgate =>
      rw [hst] at h
      obtain ⟨session, hd⟩ := h
      have hthread := hd.run.thread_lt hcall hgate
      have hlt := hd.run.inOrder.work_lt hthread hgate hnret
      simp only [JobState.work, hst]
      exact Nat.add_lt_add_right (Nat.add_lt_add_left hlt _) 4
  | cancel => cases ha

/-! ### A job that has not ended can move -/

/-- A step of `execute_graph` that calls neither callback is a step of the job. -/
theorem execStep_plain {groups : Groups} {s s' : ExecState} {a : Act} {cache : ResultCache}
    (hplain : a.isPlain = true)
    (hs : step service.host (req.call service k.2.session) (k.1, s) a = some (cache, s')) :
    (execStep service req k j groups s a).isSome = true := by
  unfold execStep
  rw [hs]
  cases a with
  | cancel => cases hplain
  | worker i w =>
      cases w with
      | notify | emitted => cases hplain
      | start | lookup | ret | check | put | record | emit | finish => rfl
  | loop | submit | wait | process | join => rfl

/-- Where a worker is calling `on_output`, one of the threads in there can move. -/
theorem During.exists_call_step {groups : Groups} {s : ExecState} {session : Session}
    (h : During service req k j groups s session) {t : Nat} {output : ExecutionOutput}
    (hcall : s.calling t = some output) (hret : j.gate.calls t ≠ .returning) :
    ∃ a, (∀ t' id, a = .add t' id → id ∉ k.2.session.payloads) ∧
      (outputStep req k j groups s a).isSome = true := by
  -- a step inside a call is one of the job
  have hinside : ∀ {u : Nat}, j.gate.calls u ≠ .idle → j.gate.calls u ≠ .returning →
      ∃ a, (∀ t' id, a = .add t' id → id ∉ k.2.session.payloads) ∧
        (outputStep req k j groups s a).isSome = true := by
    intro u hbusy hopen
    have hmove : ∃ a, (∀ t' output, a ≠ .call t' output) ∧ (∀ t', a ≠ .ret t') ∧
        (∀ t' id, a = .add t' id → id ∉ k.2.session.payloads) ∧
          (gateStep groups req.token (k.2, j.gate) a).isSome = true :=
      exists_gate_step (x := (k.2, j.gate)) hbusy hopen
    obtain ⟨a, hcalls, hrets, hfresh, hsome⟩ := hmove
    refine ⟨a, hfresh, ?_⟩
    cases a with
    | call t' output' => exact absurd rfl (hcalls t' output')
    | ret t' => exact absurd rfl (hrets t')
    | add | record | announce | flush => simpa [outputStep] using hsome
  by_cases hidle : j.gate.calls t = .idle
  · cases hgate : j.gate.gate with
    | some u =>
        -- whoever holds the gate is flushing
        have hlock := h.run.inOrder.lock u hgate
        apply hinside (u := u)
        · intro hu
          exact hlock (by rw [show (k.2, j.gate).2.calls u = _ from hu]; rfl)
        · intro hu
          exact hlock (by rw [show (k.2, j.gate).2.calls u = _ from hu]; rfl)
    | none =>
        refine ⟨.call t output, by simp, ?_⟩
        cases hpin : groups.pinnedGroup output.key <;>
          simp [outputStep, hcall, gateStep, hidle, hpin, hgate]
  · exact hinside hidle hret

/-- **A job under way has a step to take**, when modules return. -/
theorem exists_job_step
    (htotal : ∀ m inputs params draft, ∃ outcome, beh m inputs params draft outcome)
    (h : JobInv service req k j) (hstarted : j.stage.isStarted = true)
    (hdone : ∀ outcome, j.stage ≠ .done outcome) :
    ∃ a, a.isCancel = false ∧ JobOk service req beh (k, j) a ∧
      (jobStep service req (k, j) a).isSome = true := by
  unfold JobInv at h
  cases hst : j.stage with
  | validating | refused | inserted =>
      rw [hst] at hstarted
      cases hstarted
  | stuck =>
      rw [hst] at h
      exact h.elim
  | done outcome => exact absurd hst (hdone outcome)
  | spawned | marked | entering | ended | closing | announcing =>
      exact ⟨.advance, rfl, trivial, by simp [jobStep, advance, hst]⟩
  | grouping =>
      refine ⟨.advance, rfl, trivial, ?_⟩
      simp only [jobStep, advance, hst]
      split <;> rfl
  | executing groups s =>
      rw [hst] at h
      obtain ⟨session, hd⟩ := h
      by_cases hend : (∀ e, s.phase ≠ .raised e) ∧ ∀ r, s.phase ≠ .returned r
      -- the executor has a step, in the session as it was when the job entered
      · have hmove : ∃ a y, a ≠ .cancel ∧ Permits beh (req.call service session) (k.1, s) a ∧
            step service.host (req.call service session) (k.1, s) a = some y :=
          exists_step htotal hd.run.exec.sched hend
        obtain ⟨a, ⟨cache, s'⟩, hne, hpermits, hstep⟩ := hmove
        -- and so in the session as it is
        have hsame : step service.host (req.call service k.2.session) (k.1, s) a =
            some (cache, s') := by
          rw [← hstep]
          exact @step_session _ (req.call service session) _ hd.valid hd.grown (k.1, s) a
        have hok : JobOk service req beh (k, j) (.exec a) := by
          intro groups' s'' heq
          obtain ⟨-, rfl⟩ := JobStage.executing.inj (hst.symm.trans heq)
          exact hpermits
        have hexec : ∀ {b : Act}, (execStep service req k j groups s b).isSome = true →
            (jobStep service req (k, j) (.exec b)).isSome = true := by
          intro b hb
          simpa [jobStep, hst] using hb
        by_cases hplain : a.isPlain = true
        · exact ⟨.exec a, rfl, hok, hexec (execStep_plain hplain hsame)⟩
        · rcases step_move _ _ hstep with ⟨i, w, f, t, f', rfl, hf, hm, -⟩ | ⟨-, hm⟩
          · cases hm with
            | @notify results cached hnote =>
                refine ⟨.exec (.worker i .notify), rfl, hok, hexec ?_⟩
                obtain ⟨node, stage, ran⟩ := f
                obtain rfl : stage = .notifying results cached := hnote
                simp [execStep, hsame, hf]
            | @emitted results output todo hcalling =>
                -- the call has returned, or goes on inside the gate
                by_cases hret : j.gate.calls i = .returning
                · refine ⟨.exec (.worker i .emitted), rfl, hok, hexec ?_⟩
                  simp [execStep, hsame, gateStep, hret]
                · have hcall := calling_eq_some.mpr ⟨f, results, todo, hf, hcalling⟩
                  obtain ⟨b, hfresh, hsome⟩ := hd.exists_call_step hcall hret
                  refine ⟨.gate b, rfl, ?_, by simpa [jobStep, hst] using hsome⟩
                  cases b with
                  | add t' id => exact hfresh t' id rfl
                  | call | record | announce | flush | ret => trivial
            | start | startFault | hit | miss | raise | reject | accept | stop | pass | put | record
            | emitFault | emit | finish => exact absurd rfl hplain
          · cases hm with
            | cancel => exact absurd rfl hne
            | _ => exact absurd rfl hplain
      · refine ⟨.advance, rfl, trivial, ?_⟩
        -- the call is over
        cases hp : s.phase with
        | raised e => simp [jobStep, advance, hst, hp]
        | returned r => simp [jobStep, advance, hst, hp]
        | head | submitting | waiting | processing | draining => simp [hp] at hend

end Work

end Formshift
