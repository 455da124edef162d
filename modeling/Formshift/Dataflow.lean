/-
Formshift/Dataflow.lean

What the shared dicts of a call hold, under every interleaving.

`DataInv` says of every future how far its node has got and of every recorded
node how its key and results came about.  The property `Q` of results is a
parameter: a hit must have it because of what is in the cache, a run because
of what `module.run` returned; everything in between only carries it along
(`DataInv.worker`, `DataInv.sched`).  Later modules choose `Q`: results that
conform to the manifest, results a reference evaluator computes.
-/
import Formshift.Wiring

namespace Formshift

open Py

/-! ### The output contract -/

/-- The results have the manifest's output ports, each with its declared type. -/
def Conforms (m : ModuleManifest) (results : Results) : Prop :=
  (∀ p, p ∈ results ↔ p ∈ m.outputs.map PortSpec.name) ∧
    ∀ p result, results.lookup p = some result → (declaredOutputs m).lookup p = some result.type

theorem mem_declaredOutputs {m : ModuleManifest} {p : Str} :
    p ∈ declaredOutputs m ↔ p ∈ m.outputs.map PortSpec.name := by
  rw [declaredOutputs, Dict.mem_ofPairs, List.map_map]
  rfl

theorem checkTypes_none_iff {m : ModuleManifest}
    {entries : List (Sigma fun _ : Str => ModuleResult)} :
    checkTypes m entries = none ↔
      ∀ x ∈ entries, (declaredOutputs m).lookup x.1 = some x.2.type := by
  induction entries with
  | nil => simp [checkTypes]
  | cons x xs ih =>
      obtain ⟨name, result⟩ := x
      simp only [checkTypes, List.forall_mem_cons]
      cases (declaredOutputs m).lookup name with
      | none => simp
      | some declared =>
          by_cases h : result.type = declared
          · simp [h, ih]
          · have h' : ¬ declared = result.type := fun e => h e.symm
            simp [h, h']

/-- The check before the cache lets exactly the conforming results through. -/
theorem checkContract_none_iff {m : ModuleManifest} {results : Results} :
    checkContract m results = none ↔ Conforms m results := by
  -- every result has its declared type
  have hentries : (∀ x ∈ results.entries, (declaredOutputs m).lookup x.1 = some x.2.type) ↔
      ∀ p result, results.lookup p = some result →
        (declaredOutputs m).lookup p = some result.type := by
    constructor
    · exact fun h p result hp => h ⟨p, result⟩ (AList.mem_lookup_iff.mp hp)
    · rintro h ⟨p, result⟩ hx
      exact h p result (AList.mem_lookup_iff.mpr hx)
  -- none is missing, and none is undeclared
  have hports : (∀ p, p ∈ results ↔ p ∈ m.outputs.map PortSpec.name) ↔
      ((declaredOutputs m).keys.filter fun p => p ∉ results) = [] ∧
        (results.keys.filter fun p => p ∉ declaredOutputs m) = [] := by
    simp only [List.filter_eq_nil_iff, decide_eq_true_eq, not_not, ← mem_declaredOutputs,
      AList.mem_keys]
    exact ⟨fun h => ⟨fun p => (h p).mpr, fun p => (h p).mp⟩, fun h p => ⟨h.2 p, h.1 p⟩⟩
  rw [Conforms, hports, ← hentries, ← checkTypes_none_iff, checkContract]
  split
  · rename_i hmissing
    exact iff_of_false (Option.some_ne_none _) fun h => hmissing h.1.1
  · rename_i hmissing
    split
    · rename_i hundeclared
      exact iff_of_false (Option.some_ne_none _) fun h => hundeclared h.1.2
    · rename_i hundeclared
      exact ⟨fun h => ⟨⟨not_not.mp hmissing, not_not.mp hundeclared⟩, h⟩, fun h => h.2⟩

/-- A conforming result has a value for every port validation knows. -/
theorem Conforms.exists_lookup {m : ModuleManifest} {results : Results} (h : Conforms m results)
    {port : Str} {p : PortSpec} (hp : m.outputPort port = some p) :
    ∃ result, results.lookup port = some result := by
  refine Dict.exists_lookup_of_mem ((h.1 port).mpr ?_)
  have hname : p.name = port := by simpa using List.find?_some hp
  exact List.mem_map.mpr ⟨p, List.mem_of_find?_eq_some hp, hname⟩

/-! ### The invariant -/

section Invariant

variable (host : Host) (call : Call) (Q : NodeCall → Results → Prop)

/-- How far the node of a future has got. -/
def StageOk (s : ExecState) (f : Future) : Prop :=
  match f.stage with
  | .queued => f.node ∉ s.nodeKeys
  | .keyed c | .running c => f.node ∉ s.nodeKeys ∧ beginNode host call s f.node = .ok c
  | .returned c results | .storing c results | .recording c results _ =>
      f.node ∉ s.nodeKeys ∧ beginNode host call s f.node = .ok c ∧ Q c results
  | .notifying results _ => s.nodeResults.lookup f.node = some results
  | .emitting results todo => s.nodeResults.lookup f.node = some results ∧
      ∃ done, outputsByNode call f.node = done ++ todo ∧ ∀ o ∈ done, o ∈ s.emittedOutputs
  | .calling results output todo => s.nodeResults.lookup f.node = some results ∧
      ∃ done, outputsByNode call f.node = done ++ (output.node, output.port) :: todo ∧
        ∀ o ∈ done ++ [(output.node, output.port)], o ∈ s.emittedOutputs
  | .finished => f.node ∈ s.nodeKeys ∧ ∀ o ∈ outputsByNode call f.node, o ∈ s.emittedOutputs
  | .failed _ => True

/-- What `emitted_outputs` holds under a key: the recorded value of that port. -/
def OutputOk (s : ExecState) (key : Str × Str) (output : ExecutionOutput) : Prop :=
  ∃ results result, s.nodeResults.lookup key.1 = some results ∧
    results.lookup key.2 = some result ∧ output = ⟨key.1, key.2, result.type, result.data⟩

structure DataInv (s : ExecState) : Prop where
  keys_iff : ∀ v, v ∈ s.nodeKeys ↔ v ∈ s.executed ∪ s.cached
  results_iff : ∀ v, v ∈ s.nodeResults ↔ v ∈ s.nodeKeys
  disjoint : Disjoint s.executed s.cached
  submitted : ∀ v ∈ s.nodeKeys, v ∈ s.submitted
  recorded : ∀ v key, s.nodeKeys.lookup v = some key → ∃ c results,
    beginNode host call s v = .ok c ∧ c.key = key ∧ s.nodeResults.lookup v = some results ∧
      Q c results
  stages : ∀ f ∈ s.futures, StageOk host call Q s f
  emitted : ∀ key output, s.emittedOutputs.lookup key = some output → OutputOk s key output

variable {host call Q} {s t : ExecState}

theorem StageOk.mono (hext : Extends s t) (hemit : ∀ o ∈ s.emittedOutputs, o ∈ t.emittedOutputs)
    {f : Future} (hkey : f.node ∈ t.nodeKeys → f.node ∈ s.nodeKeys)
    (h : StageOk host call Q s f) : StageOk host call Q t f := by
  have hgrow : f.node ∈ s.nodeKeys → f.node ∈ t.nodeKeys := fun hmem =>
    have ⟨k, hk⟩ := Dict.exists_lookup_of_mem hmem
    Dict.mem_of_lookup (hext.keys _ k hk)
  unfold StageOk at h ⊢
  cases hstage : f.stage with
  | queued =>
      rw [hstage] at h
      exact fun hin => h (hkey hin)
  -- before the key is recorded, what was found stays found
  | keyed c | running c =>
      rw [hstage] at h
      exact ⟨fun hin => h.1 (hkey hin), beginNode_mono hext h.2⟩
  | returned c results | storing c results | recording c results _ =>
      rw [hstage] at h
      exact ⟨fun hin => h.1 (hkey hin), beginNode_mono hext h.2.1, h.2.2⟩
  -- after it, the results stay where they are
  | notifying results _ =>
      rw [hstage] at h
      exact hext.results _ _ h
  | emitting results todo | calling results output todo =>
      rw [hstage] at h
      obtain ⟨hres, done, hsplit, hdone⟩ := h
      exact ⟨hext.results _ _ hres, done, hsplit, fun o ho => hemit o (hdone o ho)⟩
  | finished =>
      rw [hstage] at h
      exact ⟨hgrow h.1, fun o ho => hemit o (h.2 o ho)⟩
  | failed e => trivial

theorem OutputOk.mono (hext : Extends s t) {key : Str × Str} {output : ExecutionOutput}
    (h : OutputOk s key output) : OutputOk t key output := by
  obtain ⟨results, result, hres, hport, hout⟩ := h
  exact ⟨results, result, hext.results _ _ hres, hport, hout⟩

/-! ### Preservation -/

/-- Replacing a future is invisible to the shared dicts. -/
theorem extends_setFuture (i : Nat) (f : Future) : Extends s (s.setFuture i f) :=
  ⟨fun _ _ => id, fun _ _ => id⟩

/-- A step that only moves one future on. -/
theorem DataInv.setFuture (h : DataInv host call Q s) {i : Nat} {f f' : Future}
    (hf : s.futures[i]? = some f) (hnode : f'.node = f.node) (hok : StageOk host call Q s f') :
    DataInv host call Q (s.setFuture i f') := by
  have hext := extends_setFuture (s := s) i f'
  constructor
  case keys_iff => exact h.keys_iff
  case results_iff => exact h.results_iff
  case disjoint => exact h.disjoint
  case submitted =>
    have hsub : (s.setFuture i f').submitted = s.submitted := map_node_set hf hnode
    exact hsub.symm ▸ h.submitted
  case recorded =>
    intro v key hkey
    obtain ⟨c, results, hc, hrest⟩ := h.recorded v key hkey
    exact ⟨c, results, beginNode_mono hext hc, hrest⟩
  case stages =>
    intro g hg
    obtain ⟨j, hj⟩ := List.mem_iff_getElem?.mp hg
    rcases (getElem?_set_iff hf).mp hj with ⟨-, rfl⟩ | ⟨-, hj⟩
    · exact hok.mono hext (fun _ => id) id
    · exact (h.stages g (List.mem_of_getElem? hj)).mono hext (fun _ => id) id
  case emitted => exact fun key output ho => (h.emitted key output ho).mono hext

/-- A node is recorded once. -/
theorem extends_record (h : DataInv host call Q s) {v : Str} (hfresh : v ∉ s.nodeKeys)
    {c : NodeCall} {results : Results} {cached : Bool} :
    Extends s (recordNode s v c results cached) := by
  have hfresh' : v ∉ s.nodeResults := fun hin => hfresh ((h.results_iff _).mp hin)
  constructor
  · intro u k hk
    have hne : u ≠ v := fun e => hfresh (e ▸ Dict.mem_of_lookup hk)
    simp only [recordNode, Dict.lookup_insert_ite, if_neg hne, hk]
  · intro u r hr
    have hne : u ≠ v := fun e => hfresh' (e ▸ Dict.mem_of_lookup hr)
    simp only [recordNode, Dict.lookup_insert_ite, if_neg hne, hr]

/-- The block under the state lock. -/
theorem DataInv.record (h : DataInv host call Q s) (hS : SchedInv call s) {i : Nat} {f : Future}
    (hf : s.futures[i]? = some f) {c : NodeCall} {results : Results} {cached : Bool}
    (hstage : f.stage = .recording c results cached) :
    DataInv host call Q ((recordNode s f.node c results cached).setFuture i
      { f with stage := .notifying results cached }) := by
  have hok := h.stages f (List.mem_of_getElem? hf)
  simp only [StageOk, hstage] at hok
  obtain ⟨hfresh, hc, hQ⟩ := hok
  -- the node is recorded once
  have hnew : f.node ∉ s.executed ∪ s.cached := fun hin => hfresh ((h.keys_iff _).mpr hin)
  have hext : Extends s (recordNode s f.node c results cached) := extends_record h hfresh
  have hext' := hext.trans (extends_setFuture i { f with stage := .notifying results cached })
  constructor
  case keys_iff =>
    intro v
    simp only [ExecState.setFuture, recordNode, AList.mem_insert, h.keys_iff v]
    cases cached <;> simp
  case results_iff =>
    intro v
    simp only [ExecState.setFuture, recordNode, AList.mem_insert, h.results_iff v]
  case disjoint =>
    have hnew' : f.node ∉ s.executed ∧ f.node ∉ s.cached := by simpa using hnew
    cases cached with
    | true => exact Finset.disjoint_insert_right.mpr ⟨hnew'.1, h.disjoint⟩
    | false => exact Finset.disjoint_insert_left.mpr ⟨hnew'.2, h.disjoint⟩
  case submitted =>
    intro v hv
    have hsub : ((recordNode s f.node c results cached).setFuture i
        { f with stage := .notifying results cached }).submitted = s.submitted :=
      map_node_set hf rfl
    rw [hsub]
    rcases AList.mem_insert s.nodeKeys |>.mp hv with rfl | hv
    · exact List.mem_map.mpr ⟨f, List.mem_of_getElem? hf, rfl⟩
    · exact h.submitted v hv
  -- the new key is that of the call, the old ones have not changed
  case recorded =>
    intro v key hkey
    simp only [ExecState.setFuture, recordNode, Dict.lookup_insert_ite] at hkey
    split at hkey
    · rename_i hv
      subst hv
      refine ⟨c, results, beginNode_mono hext' hc, Option.some.inj hkey, ?_, hQ⟩
      simp [ExecState.setFuture, recordNode]
    · obtain ⟨c', results', hc', hkey', hres', hQ'⟩ := h.recorded v key hkey
      exact ⟨c', results', beginNode_mono hext' hc', hkey', hext'.results _ _ hres', hQ'⟩
  -- the other futures are of other nodes
  case stages =>
    intro g hg
    obtain ⟨j, hj⟩ := List.mem_iff_getElem?.mp hg
    rcases (getElem?_set_iff hf).mp hj with ⟨-, rfl⟩ | ⟨hji, hj⟩
    · simp [StageOk, ExecState.setFuture, recordNode]
    · have hne : g.node ≠ f.node := fun e => hji (hS.future_inj hj hf e)
      refine (h.stages g (List.mem_of_getElem? hj)).mono hext' (fun _ => id) fun hin => ?_
      exact (AList.mem_insert s.nodeKeys |>.mp hin).resolve_left hne
  case emitted => exact fun key output ho => (h.emitted key output ho).mono hext'

/-- `outputs_by_node` lists a node's own ports. -/
theorem node_of_mem_outputsByNode {v : Str} {o : Str × Str}
    (h : o ∈ outputsByNode call v) : o.1 = v := by
  obtain ⟨ref, href, rfl⟩ := List.mem_map.mp h
  simpa [OutputRef.key] using (List.mem_filter.mp href).2

/-- One requested output is put among the emitted ones. -/
theorem DataInv.emit (h : DataInv host call Q s) {i : Nat} {f : Future}
    (hf : s.futures[i]? = some f) {results : Results} {outNode outPort : Str}
    {todo : List (Str × Str)} {result : ModuleResult}
    (hstage : f.stage = .emitting results ((outNode, outPort) :: todo))
    (hr : results.lookup outPort = some result) :
    DataInv host call Q ((emitOutput s ⟨outNode, outPort, result.type, result.data⟩).setFuture i
      { f with stage := .calling results ⟨outNode, outPort, result.type, result.data⟩ todo }) := by
  have hok := h.stages f (List.mem_of_getElem? hf)
  simp only [StageOk, hstage] at hok
  obtain ⟨hres, done, hsplit, hdone⟩ := hok
  have hmem : (outNode, outPort) ∈ outputsByNode call f.node := by
    rw [hsplit]
    simp
  -- a future emits outputs of its own node
  have hown : outNode = f.node := node_of_mem_outputsByNode hmem
  subst hown
  generalize hout : (⟨f.node, outPort, result.type, result.data⟩ : ExecutionOutput) = output
  have hkey : (f.node, outPort) = (output.node, output.port) := by rw [← hout]
  have hgrow : ∀ o ∈ s.emittedOutputs, o ∈ (emitOutput s output).emittedOutputs := fun o ho =>
    AList.mem_insert s.emittedOutputs |>.mpr (Or.inr ho)
  have hext : Extends s ((emitOutput s output).setFuture i
      { f with stage := .calling results output todo }) := ⟨fun _ _ => id, fun _ _ => id⟩
  constructor
  case keys_iff => exact h.keys_iff
  case results_iff => exact h.results_iff
  case disjoint => exact h.disjoint
  case submitted =>
    have hsub : ((emitOutput s output).setFuture i
        { f with stage := .calling results output todo }).submitted = s.submitted :=
      map_node_set hf rfl
    exact hsub.symm ▸ h.submitted
  case recorded =>
    intro v key hkey
    obtain ⟨c, r, hc, hrest⟩ := h.recorded v key hkey
    exact ⟨c, r, beginNode_mono hext hc, hrest⟩
  -- this one has emitted one more
  case stages =>
    intro g hg
    obtain ⟨j, hj⟩ := List.mem_iff_getElem?.mp hg
    rcases (getElem?_set_iff hf).mp hj with ⟨-, rfl⟩ | ⟨-, hj⟩
    · refine ⟨hres, done, hkey ▸ hsplit, fun o ho => ?_⟩
      rcases List.mem_append.mp ho with ho | ho
      · exact hgrow o (hdone o ho)
      · rw [List.mem_singleton.mp ho]
        exact AList.mem_insert s.emittedOutputs |>.mpr (Or.inl rfl)
    · exact (h.stages g (List.mem_of_getElem? hj)).mono hext hgrow id
  case emitted =>
    intro key o ho
    simp only [ExecState.setFuture, emitOutput, Dict.lookup_insert_ite] at ho
    split at ho
    · rename_i hkey'
      obtain rfl := hkey'.trans hkey.symm
      exact ⟨results, result, hres, hr, (Option.some.inj ho).symm.trans hout.symm⟩
    · exact (h.emitted key o ho).mono hext

/-- **A worker step keeps the dicts right**, if a hit and a run have `Q`. -/
theorem DataInv.worker (h : DataInv host call Q s) (hS : SchedInv call s)
    {cache cache' : ResultCache} {i : Nat} {f f' : Future} {w : WorkerAct}
    (hf : s.futures[i]? = some f) (hm : Move host call cache s i f w cache' t f')
    (hhit : ∀ c results, f.stage = .keyed c → beginNode host call s f.node = .ok c →
      cache.get c.key = some results → Q c results)
    (hret : ∀ c results, f.stage = .running c → beginNode host call s f.node = .ok c →
      w = .ret (.ok results) → checkContract c.manifest results = none → Q c results) :
    DataInv host call Q (t.setFuture i f') := by
  have hok := h.stages f (List.mem_of_getElem? hf)
  unfold StageOk at hok
  cases hm with
  | start hst _ hc =>
      rw [hst] at hok
      exact h.setFuture hf rfl ⟨hok, hc⟩
  -- what the cache returns, and what the module returned, is `Q`
  | hit hst hget =>
      rw [hst] at hok
      exact h.setFuture hf rfl ⟨hok.1, hok.2, hhit _ _ hst hok.2 hget⟩
  | miss hst _ =>
      rw [hst] at hok
      exact h.setFuture hf rfl hok
  | accept hst hcheck =>
      rw [hst] at hok
      exact h.setFuture hf rfl ⟨hok.1, hok.2, hret _ _ hst hok.2 rfl hcheck⟩
  | pass hst _ | put hst =>
      rw [hst] at hok
      exact h.setFuture hf rfl hok
  -- a failed future has nothing to keep
  | startFault | raise | reject | stop | emitFault => exact h.setFuture hf rfl trivial
  | record hst => exact h.record hS hf hst
  | notify hst =>
      rw [hst] at hok
      exact h.setFuture hf rfl ⟨hok, [], rfl, by simp⟩
  | emit hst hr => exact h.emit hf hst hr
  -- one output more is done, one less to do
  | emitted hst =>
      rw [hst] at hok
      obtain ⟨hres, done, hsplit, hdone⟩ := hok
      exact h.setFuture hf rfl ⟨hres, done ++ [_], by simp [hsplit], hdone⟩
  | finish hst =>
      rw [hst] at hok
      obtain ⟨hres, done, hsplit, hdone⟩ := hok
      refine h.setFuture hf rfl ⟨(h.results_iff _).mp (Dict.mem_of_lookup hres), fun o ho => ?_⟩
      rw [hsplit, List.append_nil] at ho
      exact hdone o ho

/-- The scheduler writes none of the shared dicts. -/
theorem SchedMove.frame {s' : ExecState} {a : Act} (hm : SchedMove call s a s') :
    s'.nodeKeys = s.nodeKeys ∧ s'.nodeResults = s.nodeResults ∧ s'.executed = s.executed ∧
      s'.cached = s.cached ∧ s'.emittedOutputs = s.emittedOutputs ∧
      (s'.futures = s.futures ∨ ∃ n rest, s.ready = n :: rest ∧ s.phase = .submitting ∧
        s'.futures = s.futures ++ [⟨n, .queued, false⟩]) := by
  cases hm with
  | submit hp hr => exact ⟨rfl, rfl, rfl, rfl, rfl, Or.inr ⟨_, _, hr, hp, rfl⟩⟩
  | exit | stop | dispatch | submitted | wait | failed | processFault | process | join | cancel =>
      exact ⟨rfl, rfl, rfl, rfl, rfl, Or.inl rfl⟩

theorem DataInv.sched (h : DataInv host call Q s) (hS : SchedInv call s) {s' : ExecState} {a : Act}
    (hm : SchedMove call s a s') : DataInv host call Q s' := by
  obtain ⟨hk, hr, he, hc, ho, hfut⟩ := hm.frame
  have hext : Extends s s' := ⟨fun v k hv => hk ▸ hv, fun v r hv => hr ▸ hv⟩
  have hstage : ∀ f, StageOk host call Q s f → StageOk host call Q s' f := fun f hf =>
    hf.mono hext (fun o => ho ▸ id) (fun hin => hk ▸ hin)
  constructor
  case keys_iff => rw [hk, he, hc]; exact h.keys_iff
  case results_iff => rw [hk, hr]; exact h.results_iff
  case disjoint => rw [he, hc]; exact h.disjoint
  case submitted =>
    intro v hv
    have hv' := h.submitted v (hk ▸ hv)
    rcases hfut with hfut | ⟨n, rest, -, -, hfut⟩
    · rwa [ExecState.submitted, hfut]
    · rw [ExecState.submitted, hfut, List.map_append]
      exact List.mem_append_left _ hv'
  case recorded =>
    intro v key hkey
    obtain ⟨c, results, hb, hck, hres, hQ⟩ := h.recorded v key (hk ▸ hkey)
    exact ⟨c, results, beginNode_mono hext hb, hck, hext.results _ _ hres, hQ⟩
  case stages =>
    intro f hf
    rcases hfut with hfut | ⟨n, rest, hready, -, hfut⟩
    · exact hstage f (h.stages f (hfut ▸ hf))
    · rw [hfut] at hf
      rcases List.mem_append.mp hf with hf | hf
      · exact hstage f (h.stages f hf)
      · rw [List.mem_singleton.mp hf]
        intro hin
        -- a recorded node was submitted before, and `n` is only ready
        exact (List.nodup_append.mp hS.nodup).2.2 n (h.submitted n (hk ▸ hin)) n
          (by simp [hready]) rfl
  case emitted =>
    intro key output hout
    exact (h.emitted key output (ho ▸ hout)).mono hext

end Invariant

end Formshift
