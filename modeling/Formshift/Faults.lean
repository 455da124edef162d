/-
Formshift/Faults.lean

A valid call never faults.

Where results conform to their manifests, every lookup `run_node` and the
scheduler make is backed by an earlier write: a node starts only when its
sources are recorded (`SchedInv.sources_recorded`), and the loop ends only when
every requested output has been emitted (`collectOutputs_ok`).  The invariant is
`Raises P`: what leaves a worker is what `module.run` raised, a contract error
or the cancellation, each of which `P` must allow (`Raises.worker`,
`Raises.sched`).
-/
import Formshift.Dataflow

namespace Formshift

open Py

section Faults

variable {host : Host} {call : Call} {Q : NodeCall → Results → Prop} {s t : ExecState}

/-! ### What is there when it is looked up -/

/-- Whoever has been submitted has all its sources recorded. -/
theorem SchedInv.sources_recorded (hS : SchedInv call s) (hD : DataInv host call Q s) {v u : Str}
    (hv : v ∈ s.submitted) (hu : u ∈ call.deps v) : u ∈ s.nodeKeys := by
  have hsub := ((hS.mem_iff v).mp (List.mem_append_left _ hv)).2 hu
  obtain ⟨f, hf, rfl, hfin⟩ := hS.processed u (List.mem_toFinset.mp hsub)
  have hok := hD.stages f hf
  rw [StageOk, hfin] at hok
  exact hok.1

/-- A recorded node has a value on every port validation knows. -/
theorem DataInv.recorded_port (hD : DataInv host call Q s)
    (hQ : ∀ c results, Q c results → Conforms c.manifest results) {u q ty : Str}
    (hu : u ∈ s.nodeKeys) (hout : outputType call.graph call.registry u q = some ty) :
    ∃ key results result, s.nodeKeys.lookup u = some key ∧
      s.nodeResults.lookup u = some results ∧ results.lookup q = some result := by
  obtain ⟨key, hkey⟩ := Dict.exists_lookup_of_mem hu
  obtain ⟨c, results, hc, -, hres, hq⟩ := hD.recorded u key hkey
  obtain ⟨n, m, hn, hm, hport⟩ := nodeManifest_of_outputType hout
  obtain ⟨found, hn', hm', -⟩ := beginNode_ok_iff.mp hc
  obtain rfl := Option.some.inj (hn.symm.trans hn')
  obtain rfl := Option.some.inj (hm.symm.trans hm')
  obtain ⟨p, hp, -⟩ := Option.map_eq_some_iff.mp hport
  obtain ⟨result, hresult⟩ := (hQ c results hq).exists_lookup hp
  exact ⟨key, results, result, hkey, hres, hresult⟩

/-- `run_node` of a submitted node reaches the cache. -/
theorem beginNode_ok_of_submitted (hw : call.Valid) (hS : SchedInv call s)
    (hD : DataInv host call Q s) (hQ : ∀ c results, Q c results → Conforms c.manifest results)
    {v : Str} (hv : v ∈ s.submitted) : ∃ c, beginNode host call s v = .ok c := by
  have hid := ((hS.mem_iff v).mp (List.mem_append_left _ hv)).1
  exact beginNode_ok hw hid fun u hu q ty hout =>
    hD.recorded_port hQ (hS.sources_recorded hD hv hu) hout

/-- The contract check raises contract errors only: it looks up no port the
manifest does not have. -/
theorem contract_of_checkContract {m : ModuleManifest} {results : Results} {e : Exn}
    (h : checkContract m results = some e) : ∃ error, e = .contract error := by
  -- a declared output has a declared type, so only a mismatch is left
  have htypes : ∀ entries : List (Sigma fun _ : Str => ModuleResult),
      (∀ x ∈ entries, x.1 ∈ declaredOutputs m) → checkTypes m entries = some e →
        ∃ error, e = .contract error := by
    intro entries hall hcheck
    induction entries with
    | nil => simp [checkTypes] at hcheck
    | cons x xs ih =>
        obtain ⟨name, result⟩ := x
        obtain ⟨declared, hdecl⟩ := Dict.exists_lookup_of_mem (hall _ List.mem_cons_self)
        simp only [checkTypes, hdecl] at hcheck
        split at hcheck
        · exact ⟨_, (Option.some.inj hcheck).symm⟩
        · exact ih (fun y hy => hall y (List.mem_cons_of_mem _ hy)) hcheck
  simp only [checkContract] at h
  split at h
  · exact ⟨_, (Option.some.inj h).symm⟩
  · split at h
    · exact ⟨_, (Option.some.inj h).symm⟩
    · rename_i hundeclared
      refine htypes _ (fun x hx => ?_) h
      simp only [ne_eq, not_not, List.filter_eq_nil_iff, decide_eq_true_eq] at hundeclared
      exact hundeclared x.1 (AList.mem_keys.mp (List.mem_map.mpr ⟨x, hx, rfl⟩))

/-- A requested port of a future's own node. -/
theorem output_of_mem_outputsByNode (hw : call.Valid) {v : Str} {o : Str × Str}
    (h : o ∈ outputsByNode call v) : ∃ ty, outputType call.graph call.registry v o.2 = some ty := by
  obtain ⟨ref, href, rfl⟩ := List.mem_map.mp h
  obtain ⟨hmem, hnode⟩ := List.mem_filter.mp href
  obtain ⟨ty, hty⟩ := hw.output_known ref hmem
  exact ⟨ty, by simpa [OutputRef.key, of_decide_eq_true hnode] using hty⟩

/-- With every node processed, every requested output has been emitted. -/
theorem collectOutputs_ok (hw : call.Valid) (hS : SchedInv call s) (hD : DataInv host call Q s)
    (hall : ∀ v ∈ call.graph.nodeIds, v ∈ s.processed) :
    ∃ outputs, collectOutputs call s = .ok outputs := by
  refine exists_mapM_ok fun o ho => ?_
  obtain ⟨ty, hty⟩ := hw.output_known o ho
  obtain ⟨n, -, hn, -, -⟩ := nodeManifest_of_outputType hty
  obtain ⟨hmem, hid⟩ := mem_nodeIds_of_lookup hn
  obtain ⟨f, hf, hnode, hfin⟩ :=
    hS.processed o.node (hall o.node (hid ▸ List.mem_map.mpr ⟨n, hmem, rfl⟩))
  have hok := hD.stages f hf
  rw [StageOk, hfin] at hok
  have hreq : o.key ∈ outputsByNode call f.node :=
    List.mem_map.mpr ⟨o, List.mem_filter.mpr ⟨ho, by simp [hnode]⟩, rfl⟩
  obtain ⟨output, hout⟩ := Dict.exists_lookup_of_mem (hok.2 _ hreq)
  exact ⟨output, require_ok_iff.mpr hout⟩

/-! ### The invariant -/

/-- Every exception, in a future or on its way out, is one of `P`. -/
structure Raises (P : Exn → Prop) (s : ExecState) : Prop where
  futures : ∀ f ∈ s.futures, ∀ e, f.stage = .failed e → P e
  draining : ∀ e, s.phase = .draining e → P e
  raised : ∀ e, s.phase = .raised e → P e

variable {P : Exn → Prop}

theorem Raises.enter (hw : call.Valid) : Raises P (enter call) := by
  obtain ⟨dependents, remaining, -, -, heq⟩ := enter_eq hw
  rw [heq]
  constructor <;> simp [blank]

theorem Raises.setFuture (h : Raises P s) (ht : t = { s with
      nodeKeys := t.nodeKeys
      nodeResults := t.nodeResults
      executed := t.executed
      cached := t.cached
      emittedOutputs := t.emittedOutputs }) {i : Nat} {f' : Future}
    (hok : ∀ e, f'.stage = .failed e → P e) : Raises P (t.setFuture i f') := by
  rw [ht]
  refine ⟨fun g hg e => ?_, h.draining, h.raised⟩
  rcases List.mem_or_eq_of_mem_set hg with hg | rfl
  · exact h.futures g hg e
  · exact hok e

/-- A worker brings up what `module.run` raised, a contract error or the
cancellation, and nothing else. -/
theorem Raises.worker (h : Raises P s) (hw : call.Valid) (hS : SchedInv call s)
    (hD : DataInv host call Q s) (hQ : ∀ c results, Q c results → Conforms c.manifest results)
    {cache cache' : ResultCache} {i : Nat} {f f' : Future} {w : WorkerAct}
    (hf : s.futures[i]? = some f) (hm : Move host call cache s i f w cache' t f')
    (hmodule : ∀ e, w = .ret (.error e) → P (.module e))
    (hcontract : ∀ c results e, f.stage = .running c → w = .ret (.ok results) →
      checkContract c.manifest results = some (.contract e) → P (.contract e))
    (hcancel : s.cancel = true → P .cancelled) : Raises P (t.setFuture i f') := by
  have hmem := List.mem_of_getElem? hf
  have hsub : f.node ∈ s.submitted := List.mem_map.mpr ⟨f, hmem, rfl⟩
  have hok := hD.stages f hmem
  refine h.setFuture hm.frame.1 ?_
  cases hm with
  | startFault _ _ he =>
      -- the inputs of a submitted node are there
      obtain ⟨c, hc⟩ := beginNode_ok_of_submitted hw hS hD hQ hsub
      rw [hc] at he
      cases he
  | raise hst =>
      rintro e he
      obtain rfl := Stage.failed.inj he
      exact hmodule _ rfl
  | reject hst he =>
      rintro e' he'
      obtain rfl := Stage.failed.inj he'
      obtain ⟨error, rfl⟩ := contract_of_checkContract he
      exact hcontract _ _ error hst rfl he
  | stop hst hc =>
      rintro e he
      obtain rfl := Stage.failed.inj he
      exact hcancel hc
  | @emitFault results outNode outPort todo hst hr =>
      -- an output announced is one the node's results hold
      simp only [StageOk, hst] at hok
      obtain ⟨hres, done, hsplit, -⟩ := hok
      obtain ⟨ty, hty⟩ := output_of_mem_outputsByNode hw (v := f.node) (o := (outNode, outPort))
        (by rw [hsplit]; simp)
      have hkey := (hD.results_iff _).mp (Dict.mem_of_lookup hres)
      obtain ⟨-, results', result, -, hres', hresult⟩ := hD.recorded_port hQ hkey hty
      obtain rfl := Option.some.inj (hres.symm.trans hres')
      rw [hr] at hresult
      cases hresult
  | start | hit | miss | accept | pass | put | record | notify | emit | emitted | finish => simp

theorem Raises.sched (h : Raises P s) (hw : call.Valid) (hS : SchedInv call s)
    (hD : DataInv host call Q s) (hcancel : s.cancel = true → P .cancelled) {a : Act}
    {s' : ExecState} (hm : SchedMove call s a s') : Raises P s' := by
  cases hm with
  | exit hp hr hi hd =>
      -- an execution that leaves its loop has processed every node
      have hall := hS.all_processed hw hr hi (by rw [hp]; trivial)
      obtain ⟨outputs, hout⟩ := collectOutputs_ok hw hS hD hall
      exact ⟨h.futures, by simp [report, hout], by simp [report, hout]⟩
  | stop hp hn hc =>
      refine ⟨h.futures, fun e he => ?_, by simp⟩
      obtain rfl := Phase.draining.inj he
      exact hcancel hc
  | dispatch | submitted | wait => exact ⟨h.futures, by simp, by simp⟩
  | submit hp hr =>
      refine ⟨fun f hf e => ?_, h.draining, h.raised⟩
      rcases List.mem_append.mp hf with hf | hf
      · exact h.futures f hf e
      · simp [List.mem_singleton.mp hf]
  | failed hp hf he =>
      refine ⟨h.futures, fun e' hphase => ?_, by simp⟩
      obtain rfl := Phase.draining.inj hphase
      -- what it drains with is what a future failed with
      exact h.futures _ (List.mem_of_getElem? hf) _ he
  | processFault hp hf hfin hfault => exact (hS.no_processFault hw hf hfault).elim
  | @process i todo =>
      refine ⟨h.futures, ?_, ?_⟩ <;> cases todo <;> simp [afterFuture]
  | join hp hd =>
      refine ⟨h.futures, by simp, fun e hphase => ?_⟩
      obtain rfl := Phase.raised.inj hphase
      exact h.draining _ hp
  | cancel => exact ⟨h.futures, h.draining, h.raised⟩

end Faults

end Formshift
