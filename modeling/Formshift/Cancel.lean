/-
Formshift/Cancel.lean

What is still run after the cancel event is set.

The flag is read at the head of the scheduler's loop and by a worker after
`module.run`, so a node that is queued in the pool at that moment, or left of
the batch being submitted, is begun all the same.  `Stopped` is the invariant
of what follows where each of these is served by the cache: then `module.run`
is called for no node that had not been begun (`cancel_stops_pending`).
-/
import Formshift.Reuse

namespace Formshift

open Py Steps

/-! ### What is pending -/

/-- The nodes no worker has begun and the scheduler is past the flag with:
queued in the pool, or left of the batch it is submitting. -/
def ExecState.pending (s : ExecState) : List Str :=
  (s.futures.filter fun f => f.stage.isQueued).map Future.node ++
    match s.phase with
    | .submitting => s.ready
    | _ => []

/-- `run_node` would find the node's results in the cache. -/
def Served (host : Host) (call : Call) (cache : ResultCache) (s : ExecState) (v : Str) : Prop :=
  ∃ c, beginNode host call s v = .ok c ∧ (cache.get c.key).isSome = true

/-- Whoever calls `module.run` for a future now had begun it by then. -/
def NoNewRun (s s' : ExecState) : Prop :=
  ∀ (j : Nat) (f : Future), s'.futures[j]? = some f → f.ran = true →
    ∃ f₀, s.futures[j]? = some f₀ ∧ f₀.stage.isQueued = false

section Stopped

variable {host : Host} {call : Call} {Q : NodeCall → Results → Prop} {cache cache' : ResultCache}
  {s s' : ExecState}

theorem Served.mono (hext : Extends s s') (hg : Grows cache cache') {v : Str}
    (h : Served host call cache s v) : Served host call cache' s' v := by
  obtain ⟨c, hc, hkey⟩ := h
  exact ⟨c, beginNode_mono hext hc, hg c.key hkey⟩

/-- A queued future has called nothing yet. -/
def QueuedFresh (s : ExecState) : Prop := ∀ f ∈ s.futures, f.stage.isQueued = true → f.ran = false

theorem QueuedFresh.enter : QueuedFresh (enter call) := by
  have hnone : (Formshift.enter call).futures = [] := by
    by_cases hw : call.Valid
    · obtain ⟨dependents, remaining, -, -, heq⟩ := enter_eq hw
      rw [heq]
      rfl
    · exact (refused_enter hw).1
  intro f hf
  rw [hnone] at hf
  cases hf

theorem QueuedFresh.step (h : QueuedFresh s) {a : Act}
    (hs : Formshift.step host call (cache, s) a = some (cache', s')) : QueuedFresh s' := by
  rcases step_move host call hs with ⟨i, w, f, t, f', -, hf, hm, rfl⟩ | ⟨-, hm⟩
  · have hfuts : (t.setFuture i f').futures = s.futures.set i f' := by
      rw [hm.frame.1]
      rfl
    intro g hg hq
    rw [hfuts] at hg
    rcases List.mem_or_eq_of_mem_set hg with hg | rfl
    · exact h g hg hq
    · -- no transition leads back to the queue
      cases hm <;> cases hq
  · obtain ⟨-, -, -, -, -, hfut⟩ := hm.frame
    intro g hg hq
    rcases hfut with hfut | ⟨n, rest, -, -, hfut⟩
    · exact h g (hfut ▸ hg) hq
    · rw [hfut] at hg
      rcases List.mem_append.mp hg with hg | hg
      · exact h g hg hq
      · rw [List.mem_singleton.mp hg]

/-- How far a future nobody had begun may get. -/
def Spared (host : Host) (call : Call) (cache : ResultCache) (s : ExecState) (f : Future) : Prop :=
  match f.stage with
  | .queued => Served host call cache s f.node
  | .keyed c => (cache.get c.key).isSome = true
  | .running _ | .returned _ _ | .storing _ _ => False
  | _ => True

theorem Spared.mono (hext : Extends s s') (hg : Grows cache cache') {f : Future}
    (h : Spared host call cache s f) : Spared host call cache' s' f := by
  unfold Spared at h ⊢
  cases hst : f.stage with
  | queued =>
      rw [hst] at h
      exact Served.mono hext hg h
  | keyed c =>
      rw [hst] at h
      exact hg c.key h
  | running c | returned c results | storing c results =>
      rw [hst] at h
      exact h
  | recording | notifying | emitting | calling | finished | failed => trivial

/-- After the flag: the futures that had not been begun are served from the cache. -/
structure Stopped (host : Host) (call : Call) (begun : Nat → Prop) (cache : ResultCache)
    (s : ExecState) : Prop where
  cancel : s.cancel = true
  submitting : s.phase = .submitting → ∀ v ∈ s.ready, Served host call cache s v
  futures : ∀ (j : Nat) (f : Future), s.futures[j]? = some f → ¬ begun j →
    f.ran = false ∧ Spared host call cache s f

variable {begun : Nat → Prop}

theorem Stopped.grow (h : Stopped host call begun cache s) (hg : Grows cache cache') :
    Stopped host call begun cache' s :=
  ⟨h.cancel, fun hp v hv => (h.submitting hp v hv).mono (Extends.refl s) hg,
    fun j f hf hb => ⟨(h.futures j f hf hb).1, (h.futures j f hf hb).2.mono (Extends.refl s) hg⟩⟩

/-- A future that is served goes on without its module. -/
theorem Spared.move {t : ExecState} {i : Nat} {f f' : Future} {w : WorkerAct}
    (h : Spared host call cache s f) (hran : f.ran = false)
    (hg : Grows cache cache') (hm : Move host call cache s i f w cache' t f') :
    f'.ran = false ∧ Spared host call cache' s' f' := by
  unfold Spared at h
  cases hm with
  | @start c hst _ hc =>
      rw [hst] at h
      obtain ⟨c', hc', hkey⟩ := h
      obtain rfl := Except.ok.inj (hc.symm.trans hc')
      exact ⟨hran, hg _ hkey⟩
  | @miss c hst hmiss =>
      simp only [hst, hmiss] at h
      cases h
  | accept hst | pass hst | put hst =>
      rw [hst] at h
      exact h.elim
  | startFault | hit | raise | reject | stop | record | notify | emitFault | emit | emitted
  | finish => exact ⟨hran, trivial⟩

/-- The step lemma. -/
theorem Stopped.step (h : Stopped host call begun cache s) (hD : DataInv host call Q s) {a : Act}
    (hs : Formshift.step host call (cache, s) a = some (cache', s')) :
    Stopped host call begun cache' s' := by
  have hext := extends_of_step hD hs
  have hg := grows_of_step hs
  have hold : ∀ (j : Nat) (f : Future), s.futures[j]? = some f → ¬ begun j →
      f.ran = false ∧ Spared host call cache' s' f := fun j f hf hb =>
    ⟨(h.futures j f hf hb).1, (h.futures j f hf hb).2.mono hext hg⟩
  rcases step_move host call hs with ⟨i, w, f, t, f', -, hf, hm, rfl⟩ | ⟨rfl, hm⟩
  · have ht := hm.frame.1
    have hfuts : (t.setFuture i f').futures = s.futures.set i f' := by rw [ht]; rfl
    constructor
    case cancel => rw [ht]; exact h.cancel
    case submitting =>
      intro hp v hv
      rw [ht] at hp hv
      exact (h.submitting hp v hv).mono hext hg
    case futures =>
      intro j g hj hb
      rw [hfuts] at hj
      rcases (getElem?_set_iff hf).mp hj with ⟨rfl, rfl⟩ | ⟨-, hj⟩
      · obtain ⟨hran, hsp⟩ := h.futures j f hf hb
        exact hsp.move hran hg hm
      · exact hold j g hj hb
  · cases hm with
    | dispatch _ _ hc =>
        -- the loop does not go on once the flag is set
        rw [h.cancel] at hc
        cases hc
    | @submit n rest hp hr =>
        have hready := h.submitting hp
        rw [hr] at hready
        refine ⟨h.cancel, fun _ v hv => ?_, fun j f hj hb => ?_⟩
        · exact (hready v (List.mem_cons_of_mem _ hv)).mono hext hg
        · rcases Nat.lt_or_ge j s.futures.length with hlt | hge
          · rw [List.getElem?_append_left hlt] at hj
            exact hold j f hj hb
          · rw [List.getElem?_append_right hge, List.getElem?_singleton] at hj
            split at hj
            · rw [← Option.some.inj hj]
              exact ⟨rfl, (hready n List.mem_cons_self).mono hext hg⟩
            · cases hj
    | @process i todo => exact ⟨h.cancel, fun hp => (by cases todo <;> cases hp), hold⟩
    | exit =>
        refine ⟨h.cancel, fun hp => ?_, hold⟩
        simp only [report] at hp
        split at hp <;> cases hp
    | stop | submitted | wait | failed | processFault | join =>
        exact ⟨h.cancel, fun hp => (by cases hp), hold⟩
    | cancel => exact ⟨rfl, fun hp v hv => (h.submitting hp v hv).mono hext hg, hold⟩

/-- The moment the flag is set. -/
theorem Stopped.start (hfresh : QueuedFresh s)
    (hserved : ∀ v ∈ s.pending, Served host call cache s v) :
    Stopped host call (fun j => ∃ f₀, s.futures[j]? = some f₀ ∧ f₀.stage.isQueued = false) cache
      { s with cancel := true } := by
  have hmono : ∀ v, Served host call cache s v → Served host call cache { s with cancel := true } v :=
    fun v => Served.mono ⟨fun _ _ => id, fun _ _ => id⟩ fun _ => id
  refine ⟨rfl, fun hp v hv => hmono v (hserved v ?_), fun j f hf hb => ?_⟩
  · -- the nodes that are about to be submitted
    have hp' : s.phase = .submitting := hp
    simp only [ExecState.pending, hp']
    exact List.mem_append_right _ hv
  · -- the futures that are queued are pending
    have hq : f.stage.isQueued = true := by
      by_contra hq
      exact hb ⟨f, hf, by simpa using hq⟩
    have hmem : f ∈ s.futures := List.mem_of_getElem? hf
    have hnode : f.node ∈ s.pending :=
      List.mem_append_left _ (List.mem_map.mpr ⟨f, List.mem_filter.mpr ⟨hmem, hq⟩, rfl⟩)
    refine ⟨hfresh f hmem hq, ?_⟩
    have hserve := hmono _ (hserved _ hnode)
    unfold Spared
    cases hst : f.stage with
    | queued => exact hserve
    | keyed | running | returned | storing | recording | notifying | emitting | calling | finished
    | failed =>
        rw [hst] at hq
        cases hq

end Stopped

/-! ### Runs -/

section Runs

variable {host : Host} {S : Call → Prop} {beh : Behaviour} {E E' E'' : Engine}

theorem engine_queuedFresh (hrun : EngineReaches host S beh Engine.empty E) :
    ∀ call s, (call, s) ∈ E.members → QueuedFresh s := by
  have hinv : PoolInv S (fun _ => True) (fun _ _ _ s => QueuedFresh s) E := by
    refine PoolInv.reaches (G := fun _ _ => True) (fun _ _ _ _ _ => QueuedFresh.enter) ?_
      (fun _ _ _ _ _ _ _ => id) hrun ⟨trivial, fun _ _ _ h => by simp [Engine.empty] at h⟩
    rintro - call ⟨cache, s⟩ a ⟨cache', s'⟩ - - hs - hq
    exact ⟨trivial, QueuedFresh.step hq hs, trivial⟩
  intro call s hmem
  obtain ⟨i, hi⟩ := List.mem_iff_getElem?.mp hmem
  exact (hinv.members i call s hi).2

/-- **After the flag no module is called for a node nobody had begun**, if each
node pending at that moment is served by the cache. -/
theorem cancel_stops_pending {call : Call} {i : Nat} {s s'' : ExecState}
    (hrun : EngineReaches host S beh Engine.empty E) (hi : E.members[i]? = some (call, s))
    (hvalid : validateGraph call.graph call.registry call.session = [])
    (hcancel : poolStep enter (step host) E (.act i .cancel) = some E')
    (hserved : ∀ v ∈ s.pending, Served host call E.store s v)
    (hlater : EngineReaches host S beh E' E'') (hi'' : E''.members[i]? = some (call, s'')) :
    NoNewRun s s'' := by
  have hw : call.Valid := validateGraph_nil_iff.mp hvalid
  have hlt : i < E.members.length := (List.getElem?_eq_some_iff.mp hi).1
  obtain rfl : E' = ⟨E.store, E.members.set i (call, { s with cancel := true })⟩ := by
    simp only [poolStep, hi] at hcancel
    exact (Option.some.inj hcancel).symm
  have hI : CallInv host call (fun _ _ => True) s := by
    have hinv := engine_inv (trivial_rule host S beh) trivial hrun
    exact (hinv.members i call s hi).2.1 hw
  have hI' : CallInv host call (fun _ _ => True) { s with cancel := true } :=
    hI.cancel hw
  -- what the call sees of the run: its own steps, and a cache that grows
  have hview := PoolReaches.member_view (R := Grows) (i := i) (m := call) hlater
    (by rw [List.getElem?_map, hi'']; rfl)
    (fun _ _ x _ y _ _ _ hs => @grows_of_step _ _ x.2 _ _ _ y.2 hs)
  rw [Pool.stateOf, Pool.stateOf, hi'', List.getElem?_set_self hlt] at hview
  have hstop := Stopped.start (engine_queuedFresh hrun call s (List.mem_of_getElem? hi)) hserved
  have hend := Reaches.invariant
    (I := fun x => CallInv host call (fun _ _ => True) x.2 ∧ Stopped host call
      (fun j => ∃ f₀, s.futures[j]? = some f₀ ∧ f₀.stage.isQueued = false) x.1 x.2) ?_ hview
    ⟨hI', hstop⟩
  · -- a future that was queued has not run
    intro j f hf hran
    by_contra hb
    have hfalse := (hend.2.futures j f hf hb).1
    rw [hran] at hfalse
    cases hfalse
  · rintro ⟨cache, t⟩ ⟨cache', t'⟩ (⟨a, hok, hs⟩ | ⟨rfl, hg⟩) ⟨hC, hst⟩
    · exact ⟨(hC.step (trivial_rule host (fun _ => True) beh) trivial hw trivial hok hs).2,
        hst.step hC.data hs⟩
    · exact ⟨hC, hst.grow hg⟩

/-! ### One worker, two sources -/

/-- Two sources that are ready at once. -/
def twoSourcesCall : Call where
  graph := {
    nodes := [{ id := "a", module := "split" }, { id := "b", module := "split" }]
    edges := []
    bindings := []
    outputs := [{ node := "a", port := "a" }, { node := "b", port := "a" }] }
  registry := sampleRegistry
  session := ⟨"session", ∅⟩
  draft := false
  workers := some 1

/-- `a` is being run and `b` is queued. -/
def untilCancel : List Act :=
  [.loop, .submit, .submit, .worker 0 .start, .worker 0 .lookup]

/-- `a` ends and is discarded, and the thread goes on to `b`. -/
def afterCancel : List Act :=
  [.worker 0 (.ret (.ok (emptyResults splitModule))), .worker 0 .check, .worker 1 .start,
    .worker 1 .lookup]

/-- Whether future 1 is queued, and whether it has called its module. -/
def ExecState.second (s : ExecState) : Option (Bool × Bool) :=
  (s.futures[1]?).map fun f => (f.stage.isQueued, f.ran)

theorem ExecState.second_eq_some {s : ExecState} {queued ran : Bool}
    (h : s.second = some (queued, ran)) :
    ∃ f, s.futures[1]? = some f ∧ f.stage.isQueued = queued ∧ f.ran = ran := by
  obtain ⟨f, hf, heq⟩ := Option.map_eq_some_iff.mp h
  obtain ⟨hq, hr⟩ := Prod.mk.inj heq
  exact ⟨f, hf, hq, hr⟩

/-- One call alone, the flag set in between. -/
theorem engineReaches_cancel {call : Call} {x y : ResultCache × ExecState}
    (hx : CallReaches host anyBehaviour call (∅, enter call) x)
    (hy : CallReaches host anyBehaviour call (x.1, { x.2 with cancel := true }) y) :
    EngineReaches host (fun _ => True) anyBehaviour Engine.empty ⟨x.1, [(call, x.2)]⟩ ∧
      poolStep enter (step host) ⟨x.1, [(call, x.2)]⟩ (.act 0 .cancel) =
        some ⟨x.1, [(call, { x.2 with cancel := true })]⟩ ∧
      EngineReaches host (fun _ => True) anyBehaviour
        ⟨x.1, [(call, { x.2 with cancel := true })]⟩ ⟨y.1, [(call, y.2)]⟩ :=
  ⟨engineReaches_of_call trivial hx, rfl, PoolReaches.of_member (i := 0) rfl hy⟩

/-- The thread that is done with `a` runs `b` after the flag is set. -/
theorem cancel_stops_pending_fails : ¬ ∀ (host : Host) (S : Call → Prop) (beh : Behaviour)
    (E E' E'' : Engine) (call : Call) (i : Nat) (s s'' : ExecState),
    EngineReaches host S beh Engine.empty E → E.members[i]? = some (call, s) →
    validateGraph call.graph call.registry call.session = [] →
    poolStep enter (step host) E (.act i .cancel) = some E' →
    EngineReaches host S beh E' E'' → E''.members[i]? = some (call, s'') → NoNewRun s s'' := by
  intro h
  have hcheck : (runActs (step sampleHost twoSourcesCall) untilCancel
      (∅, enter twoSourcesCall)).bind (fun x => x.2.second.bind fun before =>
        (runActs (step sampleHost twoSourcesCall) afterCancel
          (x.1, { x.2 with cancel := true })).map fun y => (before, y.2.second)) =
      some ((true, false), some (false, true)) := by
    decide +kernel
  obtain ⟨x, hx, hcheck⟩ := Option.bind_eq_some_iff.mp hcheck
  obtain ⟨before, hbefore, hcheck⟩ := Option.bind_eq_some_iff.mp hcheck
  obtain ⟨y, hy, heq⟩ := Option.map_eq_some_iff.mp hcheck
  obtain ⟨rfl, hafter⟩ := Prod.mk.inj heq
  obtain ⟨hrun, hcancel, hlater⟩ := engineReaches_cancel
    (reaches_of_runActs (permits_any _) hx) (reaches_of_runActs (permits_any _) hy)
  -- the second source was queued when the first ran, and runs nevertheless
  have hnone := h sampleHost _ _ _ _ _ twoSourcesCall 0 x.2 y.2 hrun rfl (by decide +kernel)
    hcancel hlater rfl
  obtain ⟨f, hf, -, hran⟩ := ExecState.second_eq_some hafter
  obtain ⟨f₀, hf₀, hbegun⟩ := hnone 1 f hf hran
  obtain ⟨g, hg, hqueued, -⟩ := ExecState.second_eq_some hbefore
  obtain rfl := Option.some.inj (hf₀.symm.trans hg)
  rw [hbegun] at hqueued
  cases hqueued

/-- `a` is in the cache before the flag is set, and `b` has its key. -/
def untilPut : List Act :=
  untilCancel ++ [.worker 0 (.ret (.ok (emptyResults splitModule))), .worker 0 .check, .worker 0 .put]

theorem cancel_stops_pending_served : ∃ (E E'' : Engine) (s s'' : ExecState),
    EngineReaches sampleHost (fun _ => True) anyBehaviour Engine.empty E ∧
      E.members[0]? = some (twoSourcesCall, s) ∧ s.pending = ["b"] ∧
      E''.members[0]? = some (twoSourcesCall, s'') ∧ s''.cancel = true ∧ NoNewRun s s'' := by
  have hcheck : (runActs (step sampleHost twoSourcesCall) untilPut
      (∅, enter twoSourcesCall)).bind (fun x => (beginNode sampleHost twoSourcesCall x.2
        "b").toOption.bind fun c => (runActs (step sampleHost twoSourcesCall)
          [.worker 0 .record, .worker 0 .notify, .worker 0 .emit, .worker 0 .emitted,
            .worker 0 .finish, .worker 1 .start, .worker 1 .lookup]
          (x.1, { x.2 with cancel := true })).map fun y =>
            (x.2.pending, (x.1.get c.key).isSome, y.2.cancel)) =
              some ([.text "b"], true, true) := by
    decide +kernel
  obtain ⟨x, hx, hcheck⟩ := Option.bind_eq_some_iff.mp hcheck
  obtain ⟨c, hc, hcheck⟩ := Option.bind_eq_some_iff.mp hcheck
  obtain ⟨y, hy, heq⟩ := Option.map_eq_some_iff.mp hcheck
  obtain ⟨hpending, heq⟩ := Prod.mk.inj heq
  obtain ⟨hkey, hflag⟩ := Prod.mk.inj heq
  -- the cancellation comes when the second source is queued and its key cached
  obtain ⟨hrun, hcancel, hlater⟩ := engineReaches_cancel
    (reaches_of_runActs (permits_any _) hx) (reaches_of_runActs (permits_any _) hy)
  refine ⟨⟨x.1, [(twoSourcesCall, x.2)]⟩, ⟨y.1, [(twoSourcesCall, y.2)]⟩, x.2, y.2, hrun, rfl,
    hpending, rfl, hflag, ?_⟩
  refine cancel_stops_pending hrun (i := 0) rfl (by decide +kernel) hcancel ?_ hlater rfl
  intro v hv
  rw [hpending] at hv
  obtain rfl := List.mem_singleton.mp hv
  cases hbegin : beginNode sampleHost twoSourcesCall x.2 "b" with
  | error e =>
      rw [hbegin] at hc
      cases hc
  | ok c' =>
      rw [hbegin] at hc
      obtain rfl := Option.some.inj hc
      exact ⟨c', hbegin, hkey⟩

end Runs

end Formshift
