/-
Formshift/LastLook.lean

Which jobs can still be stopped.

A job looks at its cancel event at the head of the scheduler's loop and after
each `module.run`.  As long as some node of its graph has not got through the
check, a look is still ahead (`looksAgain`): with the flag set the job does not
complete (`JobInv.not_completed`), and no step takes the look away but one, the
cache hit of the last such node (`losesLook`, `JobInv.stoppable_step`).
-/
import Formshift.Lifecycle

namespace Formshift

open Py Steps

/-! ### The check after the run -/

/-- Past the cancel check after `module.run`, or spared it by the cache. -/
def Stage.isThrough : Stage → Bool
  | .storing _ _ | .recording _ _ _ | .notifying _ _ | .emitting _ _ | .calling _ _ _
  | .finished => true
  | .queued | .keyed _ | .running _ | .returned _ _ | .failed _ => false

/-- An exception is on its way out of `execute_graph`. -/
def Phase.isLost : Phase → Bool
  | .draining _ | .raised _ => true
  | .head | .submitting | .waiting | .processing _ | .returned _ => false

/-- The call fails already, or a node has not got through the check. -/
def looksAgain (g : Graph) (s : ExecState) : Bool :=
  s.phase.isLost || g.nodeIds.any fun v => s.futures.all fun f => f.node ≠ v || !f.stage.isThrough

theorem looksAgain_iff {g : Graph} {s : ExecState} :
    looksAgain g s = true ↔ s.phase.isLost = true ∨
      ∃ v ∈ g.nodeIds, ∀ f ∈ s.futures, f.node = v → f.stage.isThrough = false := by
  simp only [looksAgain, Bool.or_eq_true, List.any_eq_true, List.all_eq_true, decide_eq_true_eq,
    Bool.not_eq_true', ← imp_iff_not_or]

section Call

variable {host : Host} {call : Call} {s s' : ExecState} {cache cache' : ResultCache}

/-- Once the flag is set only the cache gets a node through. -/
theorem Move.through_of_cancel {t : ExecState} {i : Nat} {f f' : Future} {w : WorkerAct}
    (hm : Move host call cache s i f w cache' t f') (hcancel : s.cancel = true)
    (hf : f.stage.isThrough = false) (hf' : f'.stage.isThrough = true) : w = .lookup := by
  cases hm with
  | hit => rfl
  | pass _ hc =>
      rw [hcancel] at hc
      cases hc
  | start | startFault | miss | raise | reject | accept | stop | emitFault => cases hf'
  | put hst | record hst | notify hst | emit hst | emitted hst | finish hst =>
      rw [hst] at hf
      cases hf

/-- The loop cannot be left by its end while a look is ahead. -/
theorem SchedInv.looksAgain_eq_false (h : SchedInv call s) (hw : call.Valid) (hr : s.ready = [])
    (hi : s.inFlight = []) (hl : s.phase.Looping) : looksAgain call.graph s = false := by
  have hall := h.all_processed hw hr hi hl
  by_contra hlook
  rcases looksAgain_iff.mp (Bool.not_eq_false _ ▸ hlook) with hlost | ⟨v, hv, hnone⟩
  · cases hp : s.phase with
    | draining | raised =>
        rw [hp] at hl
        exact hl
    | head | submitting | waiting | processing | returned =>
        rw [hp] at hlost
        cases hlost
  · obtain ⟨f, hf, hnode, hfin⟩ := h.processed v (hall v hv)
    have hthrough := hnone f hf hnode
    rw [hfin] at hthrough
    cases hthrough

/-- **The step lemma**: with the flag set a look stays ahead, whatever is done
but a cache lookup. -/
theorem looksAgain_step (h : looksAgain call.graph s = true) (hS : SchedInv call s)
    (hw : call.Valid) (hcancel : s.cancel = true) {a : Act}
    (hs : step host call (cache, s) a = some (cache', s')) (ha : ∀ i, a ≠ .worker i .lookup) :
    looksAgain call.graph s' = true := by
  have hlook := looksAgain_iff.mp h
  rw [looksAgain_iff]
  rcases step_move host call hs with ⟨i, w, f, t, f', rfl, hf, hm, rfl⟩ | ⟨-, hm⟩
  · obtain ⟨ht, hnode, -⟩ := hm.frame
    have hphase : (t.setFuture i f').phase = s.phase := by rw [ht]; rfl
    have hfuts : (t.setFuture i f').futures = s.futures.set i f' := by rw [ht]; rfl
    rw [hphase, hfuts]
    refine hlook.imp_right ?_
    rintro ⟨v, hv, hnone⟩
    refine ⟨v, hv, fun g hg hgv => ?_⟩
    rcases List.mem_or_eq_of_mem_set hg with hg | rfl
    · exact hnone g hg hgv
    · by_contra hthrough
      have hw' := hm.through_of_cancel hcancel
        (hnone f (List.mem_of_getElem? hf) (hnode.symm.trans hgv)) (by simpa using hthrough)
      exact ha i (by rw [hw'])
  · cases hm with
    | exit hp hr hi =>
        have hnone := hS.looksAgain_eq_false hw hr hi (by rw [hp]; trivial)
        rw [h] at hnone
        cases hnone
    | dispatch _ _ hc =>
        rw [hcancel] at hc
        cases hc
    | stop | failed | processFault | join => exact Or.inl rfl
    | submit hp =>
        -- the new future is queued
        refine Or.inr ?_
        rcases hlook with hlost | ⟨v, hv, hnone⟩
        · rw [hp] at hlost
          cases hlost
        · refine ⟨v, hv, fun g hg hgv => ?_⟩
          rcases List.mem_append.mp hg with hg | hg
          · exact hnone g hg hgv
          · rw [List.mem_singleton.mp hg]
            rfl
    | submitted hp | wait hp | process hp =>
        refine Or.inr (hlook.resolve_left fun hlost => ?_)
        rw [hp] at hlost
        cases hlost
    | cancel => exact hlook

end Call

/-! ### Jobs -/

/-- The job has not completed, and if it is in `execute_graph` a look at the
flag is ahead. -/
def stoppable (req : JobRequest) (j : JobState) : Bool :=
  match j.stage with
  | .executing _ s => looksAgain req.graph s
  | .ended outcome | .closing outcome | .announcing outcome | .done outcome =>
    outcome ≠ .completed
  | .validating | .refused _ | .inserted | .spawned | .marked | .grouping | .stuck _
  | .entering _ => true

/-- The step serves from the cache the last node that was not through. -/
def losesLook (req : JobRequest) (k : Desk) (j : JobState) : JobAct → Bool
  | .exec (.worker i .lookup) =>
    match j.stage with
    | .executing _ s =>
      match s.futures[i]? with
      | some f =>
        match f.stage with
        | .keyed c =>
          match k.1.get c.key with
          | some hit => !looksAgain req.graph
              (s.setFuture i { f with stage := .recording c hit true })
          | none => false
        | _ => false
      | none => false
    | _ => false
  | _ => false

section Job

variable {service : Service} {req : JobRequest} {k : Desk} {j : JobState}

/-- A lookup that is no such hit leaves a look ahead. -/
theorem looksAgain_lookup {call : Call} {groups : Groups} {s s' : ExecState}
    {cache' : ResultCache} {i : Nat} (hst : j.stage = .executing groups s)
    (h : looksAgain req.graph s = true)
    (hs : step service.host call (k.1, s) (.worker i .lookup) = some (cache', s'))
    (hkeep : losesLook req k j (.exec (.worker i .lookup)) = false) :
    looksAgain req.graph s' = true := by
  rcases step_move _ _ hs with ⟨i', w, f, t, f', heq, hf, hm, rfl⟩ | ⟨-, hm⟩
  · obtain ⟨rfl, rfl⟩ := Act.worker.inj heq
    cases hm with
    | hit hfst hhit =>
        simpa [losesLook, hst, hf, hfst, hhit] using hkeep
    | @miss c hfst hmiss =>
        rw [looksAgain_iff] at h ⊢
        refine h.imp_right ?_
        rintro ⟨v, hv, hnone⟩
        refine ⟨v, hv, fun g hg hgv => ?_⟩
        rcases List.mem_or_eq_of_mem_set hg with hg | rfl
        · exact hnone g hg hgv
        · rfl
  · cases hm

/-- A step inside `execute_graph`, in the session as it stands. -/
theorem During.looksAgain_step {groups : Groups} {s s' : ExecState} {session : Session}
    (h : During service req k j groups s session) (hst : j.stage = .executing groups s)
    (hlook : looksAgain req.graph s = true) (hcancel : j.cancel = true) {a : Act}
    {cache' : ResultCache}
    (hs : step service.host (req.call service k.2.session) (k.1, s) a = some (cache', s'))
    (hkeep : losesLook req k j (.exec a) = false) : looksAgain req.graph s' = true := by
  by_cases ha : ∃ i, a = .worker i .lookup
  · obtain ⟨i, rfl⟩ := ha
    exact looksAgain_lookup hst hlook hs hkeep
  · obtain ⟨hsame, -⟩ := h.exec_step hs
    exact @Formshift.looksAgain_step _ (req.call service session) _ _ _ _ hlook h.run.exec.sched
      h.valid (h.cancel.trans hcancel) _ hsame fun i hi => ha ⟨i, hi⟩

theorem stoppable_executing {groups : Groups} {s : ExecState}
    (hst : j.stage = .executing groups s) : stoppable req j = looksAgain req.graph s := by
  unfold stoppable
  rw [hst]

/-- Setting the flag changes nothing about it. -/
theorem stoppable_setCancel (h : stoppable req j = true) :
    stoppable req { j with stage := j.stage.setCancel, cancel := true } = true := by
  unfold stoppable at h ⊢
  cases hst : j.stage <;> (rw [hst] at h; exact h)

/-- **A job that can be stopped still can** after any step, once its flag is
set, unless the step is the cache hit of its last node. -/
theorem JobInv.stoppable_step {x y : Desk × JobState} {a : JobAct}
    (h : JobInv service req x.1 x.2) (hstop : stoppable req x.2 = true)
    (hcancel : x.2.cancel = true) (hkeep : losesLook req x.1 x.2 a = false)
    (hs : jobStep service req x a = some y) : stoppable req y.2 = true ∧ y.2.cancel = true := by
  unfold JobInv at h
  cases jobStep_move service req hs with
  | refuse | accept | announcePending | mark | announceRunning | group | stuck =>
      exact ⟨rfl, hcancel⟩
  | @enter groups hst =>
      refine ⟨?_, hcancel⟩
      rw [hst] at h
      have hd := During.enter h.1 h.2
      -- nothing has been submitted, and a valid graph has a node
      have hnone : (entered service req x.1 x.2).futures = [] := by
        have hvalid : (req.call service x.1.2.session).Valid := hd.valid
        obtain ⟨dependents, remaining, -, -, heq⟩ := enter_eq hvalid
        rw [entered, heq]
        rfl
      obtain ⟨n, hn⟩ := List.exists_mem_of_ne_nil _ hd.valid.nodes_ne
      apply looksAgain_iff.mpr
      refine Or.inr ⟨n.id, List.mem_map.mpr ⟨n, hn, rfl⟩, fun f hf => ?_⟩
      rw [hnone] at hf
      cases hf
  | returned hst hp =>
      rw [hst] at h
      obtain ⟨session, hd⟩ := h
      have hpo := hd.run.exec.sched.phase
      simp only [PhaseOk, hp] at hpo
      have hnone := hd.run.exec.sched.looksAgain_eq_false hd.valid hpo.2.1 hpo.2.2
        (by rw [hp]; trivial)
      have hlook := (stoppable_executing hst).symm.trans hstop
      exact absurd (hlook.symm.trans hnone) (by decide)
  | raised => exact ⟨by simp [stoppable, Exn.outcome_ne_completed], hcancel⟩
  | close hst | announceStatus hst | announceEnd hst =>
      refine ⟨?_, hcancel⟩
      unfold stoppable at hstop
      rw [hst] at hstop
      exact hstop
  | exec hst hplain hexec | notify hst hf hnote hexec | emitted hst hexec hret =>
      rw [hst] at h
      obtain ⟨session, hd⟩ := h
      have hlook := (stoppable_executing hst).symm.trans hstop
      exact ⟨hd.looksAgain_step hst hlook hcancel hexec hkeep, hcancel⟩
  | gate hst =>
      refine ⟨?_, hcancel⟩
      show stoppable req { x.2 with gate := _ } = true
      unfold stoppable at hstop ⊢
      exact hstop
  | cancel => exact ⟨stoppable_setCancel hstop, rfl⟩

/-- **A job that can be stopped has not completed.** -/
theorem JobInv.not_completed (h : JobInv service req k j) (hstop : stoppable req j = true) :
    j.status ≠ .completed := by
  unfold JobInv at h
  unfold stoppable at hstop
  cases hst : j.stage with
  | validating | refused =>
      rw [hst] at h
      simp [h.2.1]
  | inserted | spawned | marked | grouping =>
      rw [hst] at h
      simp [h.2.2.1]
  | entering =>
      rw [hst] at h
      simp [h.1.2.2.1]
  | stuck =>
      rw [hst] at h
      exact h.elim
  | executing groups s =>
      rw [hst] at h
      obtain ⟨session, hd⟩ := h
      simp [hd.status]
  | ended outcome =>
      rw [hst] at h
      obtain ⟨body, -, hstatus, -⟩ := h
      simp [hstatus]
  | closing outcome | announcing outcome | done outcome =>
      rw [hst] at h hstop
      obtain ⟨body, -, hstatus, -⟩ := h
      have hne : outcome ≠ .completed := by simpa using hstop
      rw [hstatus]
      exact fun hc => hne (Outcome.completed_of_status hc)

end Job

end Formshift
