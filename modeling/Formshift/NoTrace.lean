/-
Formshift/NoTrace.lean

A node execution that fails leaves no trace.

It fails when `module.run` raises, when what it returns breaks the contract, or
when the cancel event is set by then.  A future that is not past `cache.put`
has changed nothing that is shared (`untouched`), and a failing one never gets
there (`Failing`).  So the log, the session and the cache never show its node,
nothing downstream of it starts and its job does not complete
(`failing_node_leaves_no_trace`).  What is in the cache of a server was returned
by the module its key names and conforms to its manifest (`server_cacheSound`).
-/
import Formshift.Lifecycle

namespace Formshift

open Py Steps

/-! ### Futures that have changed something -/

/-- Past `cache.put`, or past the hit. -/
def Stage.isKept : Stage → Bool
  | .recording _ _ _ | .notifying _ _ | .emitting _ _ | .calling _ _ _ | .finished
  | .failed (.fault _) => true
  | _ => false

/-- The future whose thread takes the step. -/
def JobAct.future : JobAct → Option Nat
  | .exec (.worker t _) => some t
  | .gate a => some a.thread
  | _ => none

/-- In the job, future `t` is past `cache.put`, or `execute_graph` has ended. -/
def KeptAt (t : Nat) : JobStage → Prop
  | .executing _ s => ∃ f, s.futures[t]? = some f ∧ f.stage.isKept = true
  | .ended _ | .closing _ | .announcing _ | .done _ => True
  | _ => False

section Kept

variable {host : Host} {call : Call} {service : Service} {req : JobRequest} {beh : Behaviour}

theorem Move.kept {cache cache' : ResultCache} {s t : ExecState} {i : Nat} {f f' : Future}
    {w : WorkerAct} (hm : Move host call cache s i f w cache' t f')
    (h : f.stage.isKept = true) : f'.stage.isKept = true := by
  cases hm with
  | record | notify | emit | emitted | finish | emitFault => rfl
  | start hf | startFault hf | hit hf | miss hf | raise hf | reject hf | accept hf | stop hf
  | pass hf | put hf =>
      rw [hf] at h
      cases h

theorem Move.untouched {cache cache' : ResultCache} {s t : ExecState} {i : Nat} {f f' : Future}
    {w : WorkerAct} (hm : Move host call cache s i f w cache' t f')
    (h : f'.stage.isKept = false) : cache' = cache := by
  cases hm with
  | put => cases h
  | start | startFault | hit | miss | raise | reject | accept | stop | pass | record | notify
  | emitFault | emit | emitted | finish => rfl

/-- The future keeps its place through a step of `execute_graph`. -/
theorem future_of_step {x y : ResultCache × ExecState} {a : Act}
    (hs : step host call x a = some y) {t : Nat} {f : Future} (hf : x.2.futures[t]? = some f) :
    y.2.futures[t]? = some f ∨ ∃ w u f', a = .worker t w ∧
      Move host call x.1 x.2 t f w y.1 u f' ∧ y.2.futures[t]? = some f' := by
  rcases @step_move host call x.1 y.1 x.2 y.2 _ hs with
    ⟨i, w, g, u, g', rfl, hg, hm, hy⟩ | ⟨-, hm⟩
  · have hfuts : y.2.futures = x.2.futures.set i g' := by
      rw [hy, hm.frame.1]
      rfl
    by_cases hti : t = i
    · subst hti
      obtain rfl := Option.some.inj (hf.symm.trans hg)
      refine Or.inr ⟨w, u, g', rfl, hm, ?_⟩
      rw [hfuts]
      exact (getElem?_set_iff hf).mpr (Or.inl ⟨rfl, rfl⟩)
    · refine Or.inl ?_
      rw [hfuts]
      exact (getElem?_set_iff hg).mpr (Or.inr ⟨hti, hf⟩)
  · obtain ⟨-, -, -, -, -, hfut⟩ := hm.frame
    refine Or.inl ?_
    rcases hfut with hfut | ⟨n, rest, -, -, hfut⟩
    · rw [hfut, hf]
    · rw [hfut, List.getElem?_append_left (List.getElem?_eq_some_iff.mp hf).1, hf]

theorem kept_of_step {x y : ResultCache × ExecState} {a : Act} (hs : step host call x a = some y)
    {t : Nat} (h : ∃ f, x.2.futures[t]? = some f ∧ f.stage.isKept = true) :
    ∃ f, y.2.futures[t]? = some f ∧ f.stage.isKept = true := by
  obtain ⟨f, hf, hkept⟩ := h
  rcases future_of_step hs hf with hy | ⟨w, u, f', -, hm, hy⟩
  · exact ⟨f, hy, hkept⟩
  · exact ⟨f', hy, hm.kept hkept⟩

/-- What has been kept stays kept. -/
theorem KeptAt.steps {x y : Desk × JobState} {t : Nat}
    (hrun : Reaches (JobSteps service req beh) x y) (h : KeptAt t x.2.stage) :
    KeptAt t y.2.stage := by
  refine Reaches.invariant (I := fun x => KeptAt t x.2.stage) ?_ hrun h
  rintro x y (⟨a, -, hs⟩ | ⟨hsame, -⟩) hx
  · unfold KeptAt at hx
    cases jobStep_move service req hs with
    | exec hst _ hexec | notify hst _ _ hexec | emitted hst hexec =>
        rw [hst] at hx
        exact kept_of_step hexec hx
    | gate hst =>
        show KeptAt t x.2.stage
        rw [hst] at hx ⊢
        exact hx
    | cancel =>
        show KeptAt t x.2.stage.setCancel
        cases hst : x.2.stage with
        | executing groups s =>
            rw [hst] at hx
            exact hx
        | validating | refused | inserted | spawned | marked | grouping | stuck | entering
        | ended | closing | announcing | done =>
            rw [hst] at hx
            exact hx
    -- outside `execute_graph` it is kept for good
    | returned | raised | close | announceStatus | announceEnd => trivial
    | refuse hst | accept hst | announcePending hst | mark hst | announceRunning hst | group hst
    | stuck hst | enter hst =>
        rw [hst] at hx
        exact hx.elim
  · rw [hsame]
    exact hx

/-- A step of a future that is not past `cache.put` after it changes nothing shared. -/
theorem untouched {x y : Desk × JobState} {a : JobAct} (h : JobInv service req x.1 x.2)
    (hs : jobStep service req x a = some y) {t : Nat} (ha : a.future = some t)
    (hkept : ¬ KeptAt t y.2.stage) : y.1 = x.1 := by
  cases jobStep_move service req hs with
  | @exec groups s a cache s' hst hplain hexec =>
      cases a with
      | worker i w =>
          obtain rfl := Option.some.inj ha
          rcases step_move service.host _ hexec with ⟨i', w', f, u, f', heq, hf, hm, hs'⟩ | ⟨-, hm⟩
          · obtain ⟨rfl, rfl⟩ := Act.worker.inj heq
            have hf' : s'.futures[i]? = some f' := by
              rw [hs', hm.frame.1]
              exact (getElem?_set_iff hf).mpr (Or.inl ⟨rfl, rfl⟩)
            have hcache := hm.untouched (by
              by_contra hk
              exact hkept ⟨f', hf', by simpa using hk⟩)
            rw [hcache]
          · cases hm
      | loop | submit | wait | process | join | cancel => cases ha
  | @notify groups s i f results cached cache s' hst hf hnote hexec =>
      obtain rfl := Option.some.inj ha
      refine absurd ?_ hkept
      exact kept_of_step hexec ⟨f, hf, by rw [hnote]; rfl⟩
  | @emitted groups s i cache s' y hst hexec hret =>
      obtain rfl := Option.some.inj ha
      refine absurd ?_ hkept
      rcases step_move service.host _ hexec with ⟨i', w', f, u, f', heq, hf, hm, hs'⟩ | ⟨-, hm⟩
      · obtain ⟨rfl, rfl⟩ := Act.worker.inj heq
        cases hm with
        | emitted hcalling => exact kept_of_step hexec ⟨f, hf, by rw [hcalling]; rfl⟩
      · cases hm
  | @gate groups s a y hst hcall hnret hgate =>
      obtain rfl := Option.some.inj ha
      refine absurd ?_ hkept
      unfold JobInv at h
      rw [hst] at h
      obtain ⟨session, hd⟩ := h
      -- the thread is inside its call of `on_output`
      have hcalling : ∃ output, s.calling a.thread = some output := by
        cases gateStep_move groups req.token hgate with
        | direct | enter => exact ⟨_, hcall _ _ rfl⟩
        | add hc | record hc | announceGated hc | announce hc | next hc | leave hc =>
            exact hd.run.calling _ fun he => by cases hc.symm.trans he
        | ret => exact absurd rfl (hnret _)
      obtain ⟨output, hout⟩ := hcalling
      obtain ⟨f, results, todo, hf, hcst⟩ := calling_eq_some.mp hout
      show KeptAt a.thread x.2.stage
      rw [hst]
      exact ⟨f, hf, by rw [hcst]; rfl⟩
  | cancel | refuse | accept | announcePending | mark | announceRunning | group | stuck | enter
  | returned | raised | close | announceStatus | announceEnd => cases ha

end Kept

/-! ### A failing future -/

/-- What shows of a node in the events of its job. -/
def Unseen (bodies : List EventBody) (v : Str) : Prop :=
  v ∉ completedNodes bodies ∧ ∀ r ∈ outputsOf bodies, r.node ≠ v

/-- The future has failed, or will: `cancel` is the flag it reads next. -/
def Stage.isDoomed (cancel : Bool) : Stage → Bool
  | .failed e => !Stage.isFaulted (.failed e)
  | .returned _ _ => cancel
  | _ => false

/-- Future `t` of the job, which runs `v`, has failed or will; and once
`execute_graph` has ended nothing has come of it. -/
def Failing (bodies : List EventBody) (t : Nat) (v : Str) : JobStage → Prop
  | .executing _ s => ∃ f, s.futures[t]? = some f ∧ f.node = v ∧
      f.stage.isDoomed s.cancel = true
  | .ended outcome | .closing outcome | .announcing outcome | .done outcome =>
      outcome ≠ .completed ∧ Unseen bodies v
  | _ => False

section Failing

variable {host : Host} {call : Call} {service : Service} {req : JobRequest} {beh : Behaviour}
  {t : Nat} {v : Str}

/-- What a future owes before it is past `on_node`. -/
theorem owed_of_not_past {c : Handling} {f : Future} (h : f.stage.isPast = false) :
    owed call c f = outputsByNode call f.node := by
  unfold owed
  cases hst : f.stage with
  | emitting | calling | finished =>
      rw [hst] at h
      cases h
  | queued | keyed | running | returned | storing | recording | notifying | failed => rfl

/-- The log says nothing of a node that is not past `on_node`. -/
theorem RunInv.unseen {job : Str} {k : SessionState} {gate : GateState} {s : ExecState}
    (h : RunInv host call job k gate s) {f : Future} (hf : s.futures[t]? = some f)
    (hpast : f.stage.isPast = false) (hfault : f.stage.isFaulted = false) :
    Unseen (k.events.ofJob job) f.node := by
  obtain ⟨hcompleted, hhanded⟩ := h.futures t f hf hfault
  refine ⟨fun hin => ?_, fun r hr hnode => ?_⟩
  · rw [hcompleted.mp hin] at hpast
    cases hpast
  · -- an announced output was handed over by the future of its node
    have hout := ((h.inOrder.announced_iff r).mp hr).1
    obtain ⟨⟨key, t'⟩, hp, hkey⟩ := List.mem_map.mp (h.inOrder.outputs_handed r hout)
    obtain rfl : key = r.key := hkey
    obtain ⟨f', hf', hreq⟩ := h.handed_by _ hp
    have hsame : f'.node = f.node := (node_of_mem_outputsByNode hreq).symm.trans hnode
    obtain rfl : t' = t := h.exec.sched.future_inj hf' hf hsame
    obtain rfl := Option.some.inj (hf.symm.trans hf')
    exact (hhanded _ hreq).mp hp (by rw [owed_of_not_past hpast]; exact hreq)

theorem Stage.doomed_facts {cancel : Bool} {st : Stage} (h : st.isDoomed cancel = true) :
    st.isPast = false ∧ st.isFaulted = false ∧ st.isKept = false ∧ st ≠ .finished := by
  cases st with
  | failed e => cases e <;> simp_all [isDoomed, isPast, isFaulted, isKept]
  | returned => exact ⟨rfl, rfl, rfl, by simp⟩
  | queued | keyed | running | storing | recording | notifying | emitting | calling | finished =>
      cases h

/-- A doomed future can only fail. -/
theorem Move.doomed {cache cache' : ResultCache} {s u : ExecState} {i : Nat} {f f' : Future}
    {w : WorkerAct} (hm : Move host call cache s i f w cache' u f')
    (h : f.stage.isDoomed s.cancel = true) (cancel : Bool) :
    f'.stage.isDoomed cancel = true := by
  cases hm with
  | stop => rfl
  | pass hf hc =>
      rw [hf, Stage.isDoomed, hc] at h
      cases h
  | start hf | startFault hf | hit hf | miss hf | raise hf | reject hf | accept hf | put hf
  | record hf | notify hf | emitFault hf | emit hf | emitted hf | finish hf =>
      rw [hf] at h
      cases h

theorem doomed_of_step {x y : ResultCache × ExecState} {a : Act} (hs : step host call x a = some y)
    (ha : a ≠ .cancel) (h : ∃ f, x.2.futures[t]? = some f ∧ f.node = v ∧
      f.stage.isDoomed x.2.cancel = true) :
    ∃ f, y.2.futures[t]? = some f ∧ f.node = v ∧ f.stage.isDoomed y.2.cancel = true := by
  obtain ⟨f, hf, hnode, hd⟩ := h
  have hcancel : y.2.cancel = x.2.cancel := @cancel_of_step _ _ x.1 y.1 _ _ _ hs ha
  rcases future_of_step hs hf with hy | ⟨w, u, f', -, hm, hy⟩
  · exact ⟨f, hy, hnode, hcancel ▸ hd⟩
  · exact ⟨f', hy, hm.frame.2.1.trans hnode, hm.doomed hd _⟩

theorem unseen_append {bodies more : List EventBody} (h : Unseen bodies v)
    (hnodes : completedNodes more = []) (houts : outputsOf more = []) :
    Unseen (bodies ++ more) v := by
  unfold Unseen
  rw [completedNodes_append, outputsOf_append, hnodes, houts, List.append_nil, List.append_nil]
  exact h

/-- A failing future goes on failing, and its job does not complete. -/
theorem Failing.step {x y : Desk × JobState} (hinv : JobInv service req x.1 x.2)
    (h : Failing (x.1.2.events.ofJob req.token) t v x.2.stage) {a : JobAct}
    (hs : jobStep service req x a = some y) :
    Failing (y.1.2.events.ofJob req.token) t v y.2.stage := by
  unfold Failing at h
  cases jobStep_move service req hs with
  | exec hst hplain hexec =>
      rw [hst] at h
      exact doomed_of_step hexec (by rintro rfl; cases hplain) h
  | notify hst _ _ hexec | emitted hst hexec =>
      rw [hst] at h
      exact doomed_of_step hexec (by simp) h
  | gate hst =>
      show Failing _ t v x.2.stage
      rw [hst] at h ⊢
      exact h
  | cancel =>
      show Failing _ t v x.2.stage.setCancel
      cases hst : x.2.stage with
      | executing groups s =>
          rw [hst] at h
          obtain ⟨f, hf, hnode, hd⟩ := h
          refine ⟨f, hf, hnode, ?_⟩
          cases hfs : f.stage with
          | failed e => rw [hfs] at hd; exact hd
          | returned => rfl
          | queued | keyed | running | storing | recording | notifying | emitting | calling
          | finished =>
              rw [hfs] at hd
              cases hd
      | validating | refused | inserted | spawned | marked | grouping | stuck | entering
      | ended | closing | announcing | done =>
          rw [hst] at h
          exact h
  | returned hst hp =>
      -- a returned call has every node finished
      rw [hst] at h
      unfold JobInv at hinv
      rw [hst] at hinv
      obtain ⟨session, hd⟩ := hinv
      obtain ⟨f, hf, hnode, hdoom⟩ := h
      have hpo := hd.run.exec.sched.phase
      simp only [PhaseOk, hp] at hpo
      have hall := hd.run.exec.sched.all_processed hd.valid hpo.2.1 hpo.2.2 (by rw [hp]; trivial)
      obtain ⟨g, hg, hgnode, hfin⟩ :=
        hd.run.exec.sched.processed f.node (hall _ (hd.run.exec.sched.node_mem hf))
      obtain ⟨t', hg'⟩ := List.mem_iff_getElem?.mp hg
      obtain rfl : t' = t := hd.run.exec.sched.future_inj hg' hf hgnode
      obtain rfl := Option.some.inj (hf.symm.trans hg')
      exact absurd hfin (Stage.doomed_facts hdoom).2.2.2
  | raised hst hp =>
      rw [hst] at h
      unfold JobInv at hinv
      rw [hst] at hinv
      obtain ⟨session, hd⟩ := hinv
      obtain ⟨f, hf, rfl, hdoom⟩ := h
      obtain ⟨hpast, hfault, -⟩ := Stage.doomed_facts hdoom
      exact ⟨Exn.outcome_ne_completed _ _, hd.run.unseen hf hpast hfault⟩
  | close hst =>
      rw [hst] at h
      exact h
  | @announceStatus outcome hst =>
      rw [hst] at h
      refine ⟨h.1, ?_⟩
      rw [show ((x.1.1, x.1.2.log req.token _) : Desk).2 = x.1.2.log req.token _ from rfl,
        SessionState.events_log, EventLog.ofJob_append_self]
      exact unseen_append h.2 rfl rfl
  | @announceEnd outcome hst =>
      rw [hst] at h
      refine ⟨h.1, ?_⟩
      rw [show ((x.1.1, x.1.2.log req.token _) : Desk).2 = x.1.2.log req.token _ from rfl,
        SessionState.events_log, EventLog.ofJob_append_self]
      exact unseen_append h.2 (by cases outcome <;> rfl) (by cases outcome <;> rfl)
  | refuse hst | accept hst | announcePending hst | mark hst | announceRunning hst | group hst
  | stuck hst | enter hst =>
      rw [hst] at h
      exact h.elim

theorem Failing.steps {x y : Desk × JobState} (hrun : Reaches (JobSteps service req beh) x y)
    (hinv : JobInv service req x.1 x.2)
    (h : Failing (x.1.2.events.ofJob req.token) t v x.2.stage) :
    Failing (y.1.2.events.ofJob req.token) t v y.2.stage := by
  refine Reaches.invariant_of (J := fun x => JobInv service req x.1 x.2)
    (I := fun x => Failing (x.1.2.events.ofJob req.token) t v x.2.stage)
    (fun x y hstep hJ => job_inv hJ (Relation.ReflTransGen.single hstep)) ?_ hrun hinv h
  rintro x y (⟨a, -, hs⟩ | ⟨hsame, hint⟩) hJ hx
  · exact hx.step hJ hs
  · rw [hsame, show y.1.2.events.ofJob req.token = _ from hint.events]
    exact hx

/-- What others see of a node whose execution fails. -/
structure LeavesNoTrace (g : Graph) (bodies : List EventBody) (j : JobState) (v : Str) :
    Prop where
  unseen : Unseen bodies v
  status : j.status ≠ .completed
  descendants : ∀ groups s, j.stage = .executing groups s →
    ∀ u, Relation.TransGen g.Feeds v u → u ∉ s.submitted

theorem Failing.leavesNoTrace {k : Desk} {j : JobState} (hinv : JobInv service req k j)
    (h : Failing (k.2.events.ofJob req.token) t v j.stage) :
    LeavesNoTrace req.graph (k.2.events.ofJob req.token) j v := by
  unfold Failing at h
  unfold JobInv at hinv
  cases hst : j.stage with
  | executing groups s =>
      rw [hst] at h hinv
      obtain ⟨session, hd⟩ := hinv
      obtain ⟨f, hf, rfl, hdoom⟩ := h
      obtain ⟨hpast, hfault, -, hfin⟩ := Stage.doomed_facts hdoom
      refine ⟨hd.run.unseen hf hpast hfault, by simp [hd.status], ?_⟩
      intro groups' s' hst' u hu hsub
      obtain ⟨rfl, rfl⟩ := JobStage.executing.inj (hst.symm.trans hst')
      -- a node that was submitted has its ancestors finished
      have hproc := hd.run.exec.sched.ancestor_processed hu (List.mem_append_left _ hsub)
      obtain ⟨g, hg, hgnode, hgfin⟩ := hd.run.exec.sched.processed f.node hproc
      obtain ⟨t', hg'⟩ := List.mem_iff_getElem?.mp hg
      obtain rfl : t' = t := hd.run.exec.sched.future_inj hg' hf hgnode
      obtain rfl := Option.some.inj (hf.symm.trans hg')
      exact hfin hgfin
  | ended outcome =>
      rw [hst] at h hinv
      obtain ⟨-, -, hstatus, -⟩ := hinv
      exact ⟨h.2, by simp [hstatus], by simp [hst]⟩
  | closing outcome | announcing outcome | done outcome =>
      rw [hst] at h hinv
      obtain ⟨-, -, hstatus, -⟩ := hinv
      refine ⟨h.2, fun hc => h.1 (Outcome.completed_of_status (hstatus.symm.trans hc)), ?_⟩
      simp [hst]
  | validating | refused | inserted | spawned | marked | grouping | stuck | entering =>
      rw [hst] at h
      exact h.elim

end Failing

/-! ### The cache of a server -/

section Sound

variable (service : Service) (beh : Behaviour)

/-- The results were returned by the module the key names, and are what its
manifest declares. -/
def Sound (key : String) (results : Results) : Prop :=
  ∃ m inputs params keys draft, service.registry.get m.name = some m ∧
    key = recipeKey service.host.blake2b m.name m.version params keys draft ∧
    beh m inputs params draft (.ok results) ∧ Conforms m results

def CacheSound (cache : ResultCache) : Prop :=
  ∀ key results, cache.get key = some results → Sound service beh key results

theorem sound_rule : CacheRule service.host (fun call => call.registry = service.registry) beh
    (fun _ c results => Sound service beh c.key results) (CacheSound service beh) where
  hit := fun _ _ _ _ _ _ _ _ _ hC _ hget => hC _ _ hget
  ret := by
    rintro call s v c results hreg - - hc hbeh hconf
    obtain ⟨keys, hkey⟩ := begun_key hc
    exact ⟨c.manifest, c.inputs, c.node.params, keys, call.draft, hreg ▸ begun_manifest hc, hkey,
      hbeh, hconf⟩
  put := by
    rintro cache call s v c results - - - hC - hsound key r hget
    rw [ResultCache.get_put] at hget
    split at hget
    · rename_i hkey
      obtain rfl := Option.some.inj hget
      exact hkey ▸ hsound
    · exact hC key r hget

/-- The call of a job, wherever it stands, in the session it began in. -/
def Executes (req : JobRequest) (k : SessionState) (j : JobState) : Prop :=
  ∀ groups s, j.stage = .executing groups s → ∃ session : Session,
    (∀ id p, session.payloads.lookup id = some p → k.session.payloads.lookup id = some p) ∧
    EngineCallInv service.host (fun _ c results => Sound service beh c.key results)
      (req.call service session) s

variable {service beh} {req : JobRequest}

theorem Executes.exec {k : Desk} {j : JobState} (h : Executes service beh req k.2 j)
    (hC : CacheSound service beh k.1) {groups : Groups} {s s' : ExecState} {a : Act}
    {cache' : ResultCache} (hst : j.stage = .executing groups s)
    (hok : Permits beh (req.call service k.2.session) (k.1, s) a)
    (hs : step service.host (req.call service k.2.session) (k.1, s) a = some (cache', s')) :
    CacheSound service beh cache' ∧ ∃ session : Session,
      (∀ id p, session.payloads.lookup id = some p → k.2.session.payloads.lookup id = some p) ∧
      EngineCallInv service.host (fun _ c results => Sound service beh c.key results)
        (req.call service session) s' := by
  obtain ⟨session, hgrown, hI⟩ := h groups s hst
  by_cases hw : (req.call service session).Valid
  -- the step is that of the call in the session it entered with
  · have hsame : step service.host (req.call service session) (k.1, s) a = some (cache', s') := by
      rw [← hs]
      exact (@step_session _ (req.call service session) _ hw hgrown (k.1, s) a).symm
    have hok' : Permits beh (req.call service session) (k.1, s) a := by
      cases a with
      | worker i w =>
          cases w with
          | ret outcome => exact hok
          | start | lookup | check | put | record | notify | emit | emitted | finish => trivial
      | loop | submit | wait | process | join | cancel => trivial
    obtain ⟨hC', hI'⟩ := EngineCallInv.step (sound_rule service beh)
      (x := (k.1, s)) (y := (cache', s')) rfl hok' hsame hC hI
    exact ⟨hC', session, hgrown, hI'⟩
  -- a call of an invalid graph leaves the cache alone
  · obtain ⟨hcache, hR⟩ := (hI.2 hw).step hs
    obtain rfl : cache' = k.1 := hcache
    exact ⟨hC, session, hgrown, fun hv => absurd hv hw, fun _ => hR⟩

/-- A step of a job keeps the cache sound. -/
theorem Executes.step {x y : Desk × JobState} {a : JobAct} (h : Executes service beh req x.1.2 x.2)
    (hC : CacheSound service beh x.1.1) (hok : JobOk service req beh x a)
    (hs : jobStep service req x a = some y) :
    CacheSound service beh y.1.1 ∧ Executes service beh req y.1.2 y.2 ∧
      ∀ id p, x.1.2.session.payloads.lookup id = some p →
        y.1.2.session.payloads.lookup id = some p := by
  -- there is nothing to show of a job outside `execute_graph`
  have hnone : ∀ stage : JobStage, (∀ groups s, stage ≠ .executing groups s) →
      ∀ (k : SessionState) (j : JobState), j.stage = stage → Executes service beh req k j := by
    intro stage hne k j hj groups s hst
    exact absurd (hj.symm.trans hst) (hne groups s)
  cases jobStep_move service req hs with
  | exec hst hplain hexec =>
      obtain ⟨hC', hI⟩ := h.exec hC hst (hok _ _ hst) hexec
      refine ⟨hC', fun groups s heq => ?_, fun _ _ hp => hp⟩
      obtain ⟨-, rfl⟩ := JobStage.executing.inj heq
      exact hI
  | notify hst hf hnote hexec =>
      obtain ⟨hC', hI⟩ := h.exec hC hst (hok _ _ hst) hexec
      refine ⟨hC', fun groups s heq => ?_, fun _ _ hp => hp⟩
      obtain ⟨-, rfl⟩ := JobStage.executing.inj heq
      exact hI
  | emitted hst hexec hret =>
      obtain ⟨hC', hI⟩ := h.exec hC hst (hok _ _ hst) hexec
      have hgrow := (gateStep_session (by simp) hret).1
      refine ⟨hC', fun groups s heq => ?_, hgrow⟩
      obtain ⟨-, rfl⟩ := JobStage.executing.inj heq
      obtain ⟨session, hgrown, hI⟩ := hI
      exact ⟨session, fun id p hp => hgrow id p (hgrown id p hp), hI⟩
  -- the gate adds payloads and leaves the call as it is
  | gate hst hcall hnret hgate =>
      have hgrow := (gateStep_session (by rintro t id rfl; exact hok) hgate).1
      refine ⟨hC, fun groups s heq => ?_, hgrow⟩
      obtain ⟨session, hgrown, hI⟩ := h groups s heq
      exact ⟨session, fun id p hp => hgrow id p (hgrown id p hp), hI⟩
  | enter hst =>
      refine ⟨hC, fun groups s heq => ?_, fun _ _ hp => hp⟩
      obtain ⟨-, rfl⟩ := JobStage.executing.inj heq
      refine ⟨x.1.2.session, fun _ _ hp => hp, ?_⟩
      have henter := @EngineCallInv.enter service.host
        (fun _ c results => Sound service beh c.key results) (req.call service x.1.2.session)
      unfold entered
      -- the flag may be set before the call enters
      by_cases hcancel : x.2.cancel = (Formshift.enter (req.call service x.1.2.session)).cancel
      · rw [hcancel]
        exact henter
      · have htrue : x.2.cancel = true := by
          by_contra hfalse
          have hblank : (Formshift.enter (req.call service x.1.2.session)).cancel = false := by
            simp only [Formshift.enter]
            split_ifs <;> first | rfl | (split <;> rfl)
          exact hcancel (by rw [hblank]; simpa using hfalse)
        rw [htrue]
        exact EngineCallInv.cancel (sound_rule service beh) rfl hC henter
  | cancel =>
      refine ⟨hC, fun groups s heq => ?_, fun _ _ hp => hp⟩
      cases hst : x.2.stage with
      | executing groups' s' =>
          rw [show ({ x.2 with stage := x.2.stage.setCancel, cancel := true } : JobState).stage =
            x.2.stage.setCancel from rfl, hst] at heq
          obtain ⟨-, rfl⟩ := JobStage.executing.inj heq
          obtain ⟨session, hgrown, hI⟩ := h groups' s' hst
          exact ⟨session, hgrown, EngineCallInv.cancel (sound_rule service beh) rfl hC hI⟩
      | validating | refused | inserted | spawned | marked | grouping | stuck | entering
      | ended | closing | announcing | done =>
          rw [show ({ x.2 with stage := x.2.stage.setCancel, cancel := true } : JobState).stage =
            x.2.stage.setCancel from rfl, hst] at heq
          cases heq
  | refuse | accept | announcePending | mark | announceRunning | group | stuck | returned | raised
  | close | announceStatus | announceEnd =>
      exact ⟨hC, hnone _ (by simp) _ _ rfl, fun _ _ hp => hp⟩

/-- No session has lost a payload. -/
def Grown (k k' : ServerStore) : Prop :=
  ∀ sid id p, (k.sessions sid).session.payloads.lookup id = some p →
    (k'.sessions sid).session.payloads.lookup id = some p

theorem grown_put {k : ServerStore} {session : Str} {d : Desk}
    (h : ∀ id p, (k.sessions session).session.payloads.lookup id = some p →
      d.2.session.payloads.lookup id = some p) : Grown k (k.put session d) := by
  intro sid id p hp
  show (Function.update k.sessions session d.2 sid).session.payloads.lookup id = some p
  by_cases hsid : sid = session
  · subst hsid
    rw [Function.update_self]
    exact h id p hp
  · rw [Function.update_of_ne hsid]
    exact hp

/-- The call of a party, if it is a job. -/
def PartyExecutes (service : Service) (beh : Behaviour) (m : Party) (k : ServerStore)
    (p : PartyState) : Prop :=
  ∀ req j, m = .job req → p = .job j → Executes service beh req (k.sessions req.session) j

/-- A step of a party keeps the cache sound. -/
theorem PartyExecutes.step {m : Party} {x y : ServerStore × PartyState} {a : PartyAct}
    (h : PartyExecutes service beh m x.1 x.2) (hC : CacheSound service beh x.1.cache)
    (hok : PartyOk service beh m x a) (hs : partyStep service m x a = some y) :
    CacheSound service beh y.1.cache ∧ PartyExecutes service beh m y.1 y.2 ∧ Grown x.1 y.1 := by
  obtain ⟨k, p⟩ := x
  cases m with
  | job req =>
      cases p with
      | job j =>
          cases a with
          | job a =>
              -- a step of the job on its own desk
              obtain ⟨z, hz, rfl⟩ := Option.map_eq_some_iff.mp hs
              obtain ⟨hC', hE, hgrow⟩ :=
                (h req j rfl rfl).step (x := (k.desk req.session, j)) hC hok hz
              refine ⟨hC', ?_, grown_put hgrow⟩
              intro req' j' hreq hj
              obtain rfl := Party.job.inj hreq
              obtain rfl := PartyState.job.inj hj
              show Executes service beh req ((k.put req.session z.1).desk req.session).2 z.2
              rw [ServerStore.desk_put_self]
              exact hE
          | store id => cases hs
      | uploading | uploaded => cases hs
  | upload session type data =>
      cases p with
      | uploading =>
          cases a with
          | job a => cases hs
          | store id =>
              obtain rfl := Option.some.inj hs
              refine ⟨hC, (fun req j hm => absurd hm (by simp)), grown_put ?_⟩
              -- an upload adds a payload to its session
              exact (@interferes_addPayload session _ _ hok type data).payloads
      | job j | uploaded id => cases hs

/-- **Every entry of a server's cache was returned by the module its key
names and conforms to its manifest.** -/
theorem server_cacheSound {P : Server} (hrun : ServerReaches service beh Server.empty P) :
    CacheSound service beh P.store.cache := by
  have hempty : CacheSound service beh ∅ := by
    intro key results h
    simp at h
  have hinv : PoolInv (fun _ => True) (fun k : ServerStore => CacheSound service beh k.cache)
      (fun _ m k p => PartyExecutes service beh m k p) P := by
    refine PoolInv.reaches (G := Grown) ?_ (fun _ _ _ _ _ _ hok hs hC hI => hI.step hC hok hs)
      ?_ hrun ⟨hempty, fun _ _ _ h => by simp [Server.empty] at h⟩
    · rintro - m k - - req j rfl hj groups s hst
      obtain rfl := PartyState.job.inj hj
      cases hst
    · intro _ m k k' p _ hG hI req j hm hp groups s hst
      obtain ⟨session, hgrown, hE⟩ := hI req j hm hp groups s hst
      exact ⟨session, fun id pl hpl => hG _ id pl (hgrown id pl hpl), hE⟩
  exact hinv.store

end Sound

/-! ### In a server -/

section Server

variable {service : Service} {beh : Behaviour} {P P' P'' : Server} {i t : Nat} {req : JobRequest}
  {j : JobState}

/-- A permitted step of job `i`. -/
def JobFires (service : Service) (beh : Behaviour) (i : Nat) (a : JobAct) (P P' : Server) : Prop :=
  PoolOk (fun _ => True) (PartyOk service beh) P (.act i (.job a)) ∧
    poolStep Party.start (partyStep service) P (.act i (.job a)) = some P'

theorem JobFires.reaches {a : JobAct} (h : JobFires service beh i a P P') :
    ServerReaches service beh P P' :=
  Relation.ReflTransGen.single ⟨_, h.1, h.2⟩

theorem Server.Distinct.before (h : P'.Distinct) (hrun : ServerReaches service beh P P') :
    P.Distinct :=
  List.Pairwise.sublist (members_grow hrun).sublist h

@[simp] theorem ServerStore.put_desk (k : ServerStore) (session : Str) :
    k.put session (k.desk session) = k := by
  simp [put, desk]

/-- A step of a job in the server is a step of the job. -/
theorem JobFires.job {a : JobAct} (h : JobFires service beh i a P P') : ∃ req j y,
    P.members[i]? = some (.job req, .job j) ∧ JobOk service req beh (P.store.desk req.session, j) a ∧
      jobStep service req (P.store.desk req.session, j) a = some y ∧
      P'.members[i]? = some (.job req, .job y.2) ∧ P'.store = P.store.put req.session y.1 := by
  obtain ⟨hok, hs⟩ := h
  rcases poolStep_cases hs with ⟨m, heq, -⟩ | ⟨i', b, m, p, x, heq, hm, hx, rfl⟩
  · cases heq
  · obtain ⟨rfl, rfl⟩ := PoolAct.act.inj heq
    have hok' := hok m p hm
    have hlt : i < P.members.length := (List.getElem?_eq_some_iff.mp hm).1
    cases m with
    | job req =>
        cases p with
        | job j =>
            obtain ⟨y, hy, rfl⟩ := Option.map_eq_some_iff.mp hx
            exact ⟨req, j, y, hm, hok', hy, List.getElem?_set_self hlt, rfl⟩
        | uploading | uploaded => cases hx
    | upload => cases p <;> cases hx

/-- Which job it is does not change. -/
theorem job_same (hrun : ServerReaches service beh P P') {req' : JobRequest} {p p' : PartyState}
    (hi : P.members[i]? = some (.job req, p)) (hi' : P'.members[i]? = some (.job req', p')) :
    req = req' := by
  have hpre := members_grow hrun
  have hlt : i < (P.members.map Prod.fst).length := by
    rw [List.length_map]
    exact (List.getElem?_eq_some_iff.mp hi).1
  have hget := List.prefix_iff_getElem?.mp hpre i hlt
  have hone : (P.members.map Prod.fst)[i]? = some (.job req) := by rw [List.getElem?_map, hi]; rfl
  have htwo : (P'.members.map Prod.fst)[i]? = some (.job req') := by
    rw [List.getElem?_map, hi']
    rfl
  rw [List.getElem?_eq_getElem hlt] at hone
  rw [Option.some.inj hone, htwo] at hget
  exact (Party.job.inj (Option.some.inj hget)).symm

/-- A job's view of a stretch of the run. -/
theorem job_between (hrun : ServerReaches service beh P P') (hdistinct : P'.Distinct)
    (hi : P.members[i]? = some (.job req, .job j)) : ∃ j',
    P'.members[i]? = some (.job req, .job j') ∧
      Reaches (JobSteps service req beh) (P.store.desk req.session, j)
        (P'.store.desk req.session, j') := by
  have hlt : i < (P.members.map Prod.fst).length := by
    rw [List.length_map]
    exact (List.getElem?_eq_some_iff.mp hi).1
  -- the job is still in its place
  have hprog : (P'.members.map Prod.fst)[i]? = some (.job req) := by
    have hget := List.prefix_iff_getElem?.mp (members_grow hrun) i hlt
    have hone : (P.members.map Prod.fst)[i]? = some (.job req) := by
      rw [List.getElem?_map, hi]
      rfl
    rw [List.getElem?_eq_getElem hlt] at hone
    rw [hget, Option.some.inj hone]
  obtain ⟨hshape, hview⟩ := job_view hrun hdistinct hprog
    (fun m p hm => ⟨j, (Prod.mk.inj (Option.some.inj (hm.symm.trans hi))).2⟩)
  rw [List.getElem?_map] at hprog
  obtain ⟨⟨m, p⟩, hm, hmreq⟩ := Option.map_eq_some_iff.mp hprog
  obtain ⟨j', rfl⟩ := hshape m p hm
  obtain rfl : m = .job req := hmreq
  have hj : P.jobState i = j := by simp [Server.jobState, hi]
  have hj' : P'.jobState i = j' := by simp [Server.jobState, hm]
  rw [hj, hj'] at hview
  exact ⟨j', hm, hview⟩

/-- The execution of a node fails with what `module.run` gives: it raises, its
result breaks the contract, or the cancel event is set by then. -/
def Fails (c : NodeCall) (cancel : Bool) : Except ModuleExn Results → Prop
  | .error _ => True
  | .ok results => ¬ Conforms c.manifest results ∨ cancel = true

/-- The future is doomed from there on. -/
theorem failing_of_fails {x y : Desk × JobState} (hinv : JobInv service req x.1 x.2)
    {groups : Groups} {s : ExecState} {f : Future} {c : NodeCall}
    {outcome : Except ModuleExn Results} (hst : x.2.stage = .executing groups s)
    (hf : s.futures[t]? = some f) (hrunning : f.stage = .running c)
    (hfails : Fails c x.2.cancel outcome)
    (hs : jobStep service req x (.exec (.worker t (.ret outcome))) = some y) :
    Failing (y.1.2.events.ofJob req.token) t f.node y.2.stage := by
  unfold JobInv at hinv
  rw [hst] at hinv
  obtain ⟨session, hd⟩ := hinv
  cases jobStep_move service req hs with
  | @exec groups' s₀ _ cache s' hst' hplain hexec =>
      obtain ⟨-, rfl⟩ := JobStage.executing.inj (hst.symm.trans hst')
      have hcancel : s'.cancel = s.cancel := cancel_of_step hexec (by simp)
      rcases step_move service.host _ hexec with ⟨i', w', f₀, u, f', heq, hf₀, hm, hs'⟩ | ⟨-, hm⟩
      · obtain ⟨rfl, rfl⟩ := Act.worker.inj heq
        obtain rfl := Option.some.inj (hf.symm.trans hf₀)
        have hf' : s'.futures[t]? = some f' := by
          rw [hs', hm.frame.1]
          exact (getElem?_set_iff hf).mpr (Or.inl ⟨rfl, rfl⟩)
        refine ⟨f', hf', hm.frame.2.1, ?_⟩
        rw [hcancel]
        cases hm with
        -- it raises, or breaks its contract, or the flag is set
        | raise => rfl
        | reject hst₀ he =>
            obtain ⟨error, rfl⟩ := contract_of_checkContract he
            rfl
        | @accept c' results hst₀ hok =>
            obtain rfl := Stage.running.inj (hrunning.symm.trans hst₀)
            rcases hfails with hbad | hflag
            · exact absurd (checkContract_none_iff.mp hok) hbad
            · exact hd.cancel.trans hflag
      · cases hm

/-- A step of a future leaves its job inside `execute_graph`. -/
theorem executing_of_future {x y : Desk × JobState} {a : JobAct}
    (hs : jobStep service req x a = some y) (ha : a.future = some t) :
    ∃ groups s, y.2.stage = .executing groups s := by
  cases jobStep_move service req hs with
  | exec | notify | emitted => exact ⟨_, _, rfl⟩
  | gate hst => exact ⟨_, _, hst⟩
  | cancel | refuse | accept | announcePending | mark | announceRunning | group | stuck | enter
  | returned | raised | close | announceStatus | announceEnd => cases ha

theorem not_kept_of_failing {x y : Desk × JobState} {bodies : List EventBody} {v : Str}
    {a : JobAct} (hs : jobStep service req x a = some y) (ha : a.future = some t)
    (h : Failing bodies t v y.2.stage) : ¬ KeptAt t y.2.stage := by
  obtain ⟨groups, s, hst⟩ := executing_of_future hs ha
  unfold Failing at h
  rw [hst] at h ⊢
  obtain ⟨f, hf, -, hdoom⟩ := h
  rintro ⟨g, hg, hkept⟩
  obtain rfl := Option.some.inj (hf.symm.trans hg)
  rw [(Stage.doomed_facts hdoom).2.2.1] at hkept
  cases hkept

/-- **A node execution that fails leaves no trace**: in every state after it
the log shows neither its node's completion nor an output of its node, no
descendant has been submitted and the job has not completed; and no step its
future took in the whole run, before or after, changed the cache, a session or
a log.  So all a cache ever holds was returned by the module its key names in
the registry, which is fixed over the run, and conforms. -/
theorem failing_node_leaves_no_trace {groups : Groups} {s : ExecState} {f : Future} {c : NodeCall}
    {outcome : Except ModuleExn Results} (hrun : ServerReaches service beh Server.empty P)
    (hi : P.members[i]? = some (.job req, .job j)) (hst : j.stage = .executing groups s)
    (hf : s.futures[t]? = some f) (hrunning : f.stage = .running c)
    (hfails : Fails c j.cancel outcome)
    (hfires : JobFires service beh i (.exec (.worker t (.ret outcome))) P P')
    (hlater : ServerReaches service beh P' P'') (hdistinct : P''.Distinct) :
    (∃ j'', P''.members[i]? = some (.job req, .job j'') ∧ LeavesNoTrace req.graph
      ((P''.store.sessions req.session).events.ofJob req.token) j'' f.node) ∧
    P'.store = P.store ∧
    (∀ Q Q' a, a.future = some t → JobFires service beh i a Q Q' →
      ServerReaches service beh Server.empty Q ∧ ServerReaches service beh Q' P ∨
        ServerReaches service beh P' Q ∧ ServerReaches service beh Q' P'' →
      Q'.store = Q.store) ∧
    ∀ Q, ServerReaches service beh Server.empty Q → CacheSound service beh Q.store.cache := by
  have hdist' := hdistinct.before hlater
  have hdist := hdist'.before hfires.reaches
  have hinv := server_job_inv hrun hdist hi
  obtain ⟨req₀, j₀, y, hi₀, hok, hy, hi', hstore⟩ := hfires.job
  obtain ⟨hreq, hj⟩ := Prod.mk.inj (Option.some.inj (hi.symm.trans hi₀))
  obtain rfl := Party.job.inj hreq
  obtain rfl := PartyState.job.inj hj
  -- after the step the future is failing
  have hfailing := failing_of_fails hinv hst hf hrunning hfails hy
  have hdesk : P'.store.desk req.session = y.1 := by rw [hstore, ServerStore.desk_put_self]
  have hinv' : JobInv service req y.1 y.2 := hinv.step hok hy
  -- what does not keep anything leaves the store alone
  have hsame : ∀ {Q Q' : Server} {a : JobAct} {k : JobState} {z : Desk × JobState},
      a.future = some t → JobInv service req (Q.store.desk req.session) k →
      jobStep service req (Q.store.desk req.session, k) a = some z → ¬ KeptAt t z.2.stage →
      Q'.store = Q.store.put req.session z.1 → Q'.store = Q.store := by
    intro Q Q' a k z ha hQ hz hkept hput
    rw [hput, untouched (x := (Q.store.desk req.session, k)) hQ hz ha hkept,
      ServerStore.put_desk]
  refine ⟨?_, ?_, ?_, fun Q hQ => server_cacheSound hQ⟩
  · obtain ⟨j'', hi'', hview⟩ := job_between hlater hdistinct hi'
    rw [hdesk] at hview
    refine ⟨j'', hi'', ?_⟩
    exact (hfailing.steps (x := (y.1, y.2)) hview hinv').leavesNoTrace
      (job_inv (x := (y.1, y.2)) hinv' hview)
  · exact hsame rfl hinv hy (not_kept_of_failing hy rfl hfailing) hstore
  · rintro Q Q' a ha hQQ (⟨hQ, hQ'⟩ | ⟨hQ, hQ'⟩)
    · -- before: who had kept something would have kept it
      obtain ⟨reqQ, k, z, hiQ, hokQ, hz, hiQ', hput⟩ := hQQ.job
      obtain rfl := job_same (hQQ.reaches.trans hQ') hiQ hi
      have hinvQ := server_job_inv hQ (hdist.before (hQQ.reaches.trans hQ')) hiQ
      refine hsame ha hinvQ hz ?_ hput
      intro hkept
      obtain ⟨j₁, hi₁, hview⟩ := job_between hQ' hdist hiQ'
      obtain rfl := PartyState.job.inj (Prod.mk.inj (Option.some.inj (hi.symm.trans hi₁))).2
      have hlast := KeptAt.steps hview hkept
      rw [show ((P.store.desk reqQ.session, j) : Desk × JobState).2.stage = j.stage from rfl, hst]
        at hlast
      obtain ⟨g, hg, hgkept⟩ := hlast
      obtain rfl := Option.some.inj (hf.symm.trans hg)
      rw [hrunning] at hgkept
      cases hgkept
    · obtain ⟨reqQ, k, z, hiQ, hokQ, hz, hiQ', hput⟩ := hQQ.job
      -- after: a failing future keeps nothing
      obtain rfl := job_same hQ hi' hiQ
      have hdistQ := hdistinct.before (hQQ.reaches.trans hQ')
      have hinvQ := server_job_inv (hrun.trans (hfires.reaches.trans hQ)) hdistQ hiQ
      obtain ⟨k', hk', hview⟩ := job_between hQ hdistQ hi'
      obtain rfl := PartyState.job.inj (Prod.mk.inj (Option.some.inj (hk'.symm.trans hiQ))).2
      rw [hdesk] at hview
      have hQfailing := hfailing.steps (x := (y.1, y.2)) hview hinv'
      refine hsame ha hinvQ hz ?_ hput
      exact not_kept_of_failing hz ha
        (hQfailing.step (x := (Q.store.desk req.session, k')) hinvQ hz)

end Server

/-! ### A job whose first module raises -/

/-- The job is inside `module.run` of its only future. -/
def JobState.atRun (j : JobState) : Option (Groups × ExecState × Future × NodeCall) :=
  match j.stage with
  | .executing groups s =>
    match s.futures[0]? with
    | some f =>
      match f.stage with
      | .running c => some (groups, s, f, c)
      | _ => none
    | none => none
  | _ => none

theorem JobState.of_atRun {j : JobState} {groups : Groups} {s : ExecState} {f : Future}
    {c : NodeCall} (h : j.atRun = some (groups, s, f, c)) :
    j.stage = .executing groups s ∧ s.futures[0]? = some f ∧ f.stage = .running c := by
  unfold atRun at h
  split at h
  · rename_i groups' s' hst
    split at h
    · rename_i f' hf
      split at h
      · rename_i c' hrunning
        obtain ⟨rfl, rfl, rfl, rfl⟩ : groups' = groups ∧ s' = s ∧ f' = f ∧ c' = c := by
          simpa using h
        exact ⟨hst, hf, hrunning⟩
      · cases h
    · cases h
  · cases h

def boom : JobAct := .exec (.worker 0 (.ret (.error (.exception "boom"))))

/-- Up to the call of `module.run`. -/
def runningJobActs : List JobAct :=
  List.replicate 6 .advance ++
    ([.loop, .submit, .submit, .worker 0 .start, .worker 0 .lookup] : List Act).map .exec

theorem failing_node_leaves_no_trace_raising : ∃ (P P' : Server) (j' : JobState),
    ServerReaches sampleService anyBehaviour Server.empty P ∧
      JobFires sampleService anyBehaviour 0 boom P P' ∧
      P'.members[0]? = some (.job pinnedRequest, .job j') ∧
      LeavesNoTrace pinnedGraph ((P'.store.sessions "session").events.ofJob "job") j' "s" ∧
      P'.store = P.store := by
  -- the run up to the call of the module, which then raises
  have hcheck : (runActs (guarded (partyStep sampleService (.job pinnedRequest))
      (PartyOk sampleService anyBehaviour (.job pinnedRequest))) (runningJobActs.map .job)
      (Server.empty.store, .job .init)).bind (fun x =>
        x.2.asJob.bind fun j => j.atRun.bind fun y =>
          if y.2.2.1.node = "s" then
            (jobStep sampleService pinnedRequest (x.1.desk "session", j) boom).map fun _ => ()
          else none) = some () := by
    decide +kernel
  obtain ⟨⟨k, p⟩, hx, hcheck⟩ := Option.bind_eq_some_iff.mp hcheck
  cases p with
  | job j =>
      simp only [PartyState.asJob, Option.bind_some] at hcheck
      obtain ⟨⟨groups, s, f, c⟩, hat, hcheck⟩ := Option.bind_eq_some_iff.mp hcheck
      obtain ⟨hst, hf, hrunning⟩ := JobState.of_atRun hat
      split at hcheck
      · rename_i hnode
        obtain ⟨y, hy, -⟩ := Option.map_eq_some_iff.mp hcheck
        have hrun := serverReaches_of_job (reaches_of_guarded hx)
        have hfires : JobFires sampleService anyBehaviour 0 boom ⟨k, [(.job pinnedRequest, .job j)]⟩
            ⟨k.put "session" y.1, [(.job pinnedRequest, .job y.2)]⟩ := by
          refine ⟨?_, ?_⟩
          · intro m p hm
            obtain ⟨rfl, rfl⟩ := Prod.mk.inj (Option.some.inj hm)
            exact fun _ _ _ => permits_any _ _ _
          · show ((Option.map _ (jobStep sampleService pinnedRequest _ boom)).map _) = _
            rw [show pinnedRequest.session = "session" from rfl, hy]
            rfl
        obtain ⟨⟨j', hj', hno⟩, hstore, -, -⟩ := failing_node_leaves_no_trace hrun rfl hst hf
          hrunning (show Fails c j.cancel (.error (.exception "boom")) from trivial) hfires .refl
          (List.pairwise_singleton _ _)
        obtain rfl : y.2 = j' := PartyState.job.inj (Prod.mk.inj (Option.some.inj hj')).2
        rw [show f.node = "s" from hnode] at hno
        exact ⟨_, _, y.2, hrun, hfires, rfl, hno, hstore⟩
      · cases hcheck
  | uploading | uploaded => cases hcheck

end Formshift
