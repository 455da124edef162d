/-
Formshift/Scheduler.lean

The scheduler's bookkeeping, under every interleaving.

`SchedInv` ties `ready`, `futures`, `inFlight`, `remainingDeps` and the nodes
processed so far together.  It holds from `enter` on (`SchedInv.enter`,
`SchedInv.step`) for every valid call, whatever the cache holds and the
modules do: a node is submitted once, when the last of its dependencies has
been processed, and no future is lost.
-/
import Formshift.Transitions

namespace Formshift

open Py

/-! ### Releasing the dependents -/

/-- Each dependent loses the finished node; those left with nothing are ready. -/
theorem release_ok {ids : List Str} (finished : Str) (ready : List Str)
    (order : List Str) (hnd : order.Nodup) (hids : ∀ v ∈ order, v ∈ ids)
    {remaining : Dict Str (Finset Str)} {D : Str → Finset Str} (h : Holds ids remaining D) :
    ∃ remaining', release finished order (remaining, ready) =
        .ok (remaining', ready ++ order.filter fun v => (D v).erase finished = ∅) ∧
      Holds ids remaining' (fun v => if v ∈ order then (D v).erase finished else D v) := by
  induction order generalizing remaining ready D with
  | nil => exact ⟨remaining, by simp [release], by simpa using h⟩
  | cons v vs ih =>
      obtain ⟨hv, hvs⟩ := List.nodup_cons.mp hnd
      have hlook := h v (hids v List.mem_cons_self)
      -- erasing at `v` leaves the other sets alone
      have hrem : Holds ids (remaining.insert v ((D v).erase finished))
          (fun u => if u = v then (D u).erase finished else D u) := by
        intro u hu
        simp only [Dict.lookup_insert_ite]
        split
        · rename_i huv
          rw [huv]
        · exact h u hu
      -- the rest of the order, after the step for `v`
      obtain ⟨remaining', hrel, hD⟩ := ih (if (D v).erase finished = ∅ then ready ++ [v] else ready)
        hvs (fun u hu => hids u (List.mem_cons_of_mem _ hu)) hrem
      refine ⟨remaining', ?_, fun u hu => (hD u hu).trans ?_⟩
      · -- the tail's filter sees the old sets: `v` is not in the tail
        have htail : (vs.filter fun u => (if u = v then (D u).erase finished else D u).erase
            finished = ∅) = vs.filter fun u => (D u).erase finished = ∅ := by
          refine List.filter_congr fun u hu => ?_
          have huv : u ≠ v := fun e => hv (e ▸ hu)
          simp [huv]
        simp only [release, hlook, require, bind, Except.bind, hrel, htail]
        split <;> rename_i he <;> simp [he]
      · have hmem : u = v → u ∉ vs := fun e => e ▸ hv
        by_cases huv : u = v
        · simp [huv, hv]
        · simp [huv]

/-! ### The invariant -/

/-- The scheduler is in its loop, or left it through the front door. -/
def Phase.Looping : Phase → Prop
  | .head | .submitting | .waiting | .processing _ | .returned _ => True
  | .draining _ | .raised _ => False

/-- Future `i` is done. -/
def ExecState.Done (s : ExecState) (i : Nat) : Prop :=
  ∃ f, s.futures[i]? = some f ∧ f.stage.isFinal = true

/-- What each place of the scheduler thread takes for granted. -/
def PhaseOk (s : ExecState) : Prop :=
  match s.phase with
  | .head | .draining _ => True
  | .submitting => s.ready ≠ [] ∨ s.inFlight ≠ []
  | .waiting => s.ready = [] ∧ s.inFlight ≠ []
  | .processing todo => todo ≠ [] ∧ todo.Nodup ∧ ∀ i ∈ todo, i ∈ s.inFlight ∧ s.Done i
  | .raised _ => s.Drained
  | .returned _ => s.Drained ∧ s.ready = [] ∧ s.inFlight = []

/-- The bookkeeping of `ready`, `in_flight` and `remaining_deps`. -/
structure SchedInv (call : Call) (s : ExecState) : Prop where
  nodup : (s.submitted ++ s.ready).Nodup
  mem_iff : ∀ v, v ∈ s.submitted ++ s.ready ↔
    v ∈ call.graph.nodeIds ∧ call.deps v ⊆ s.processed.toFinset
  dependents : Holds call.graph.nodeIds s.dependents call.succs
  remaining : Holds call.graph.nodeIds s.remainingDeps fun v => call.deps v \ s.processed.toFinset
  processed : ∀ v ∈ s.processed, ∃ f ∈ s.futures, f.node = v ∧ f.stage = .finished
  flight_nodup : s.inFlight.Nodup
  flight : ∀ i ∈ s.inFlight, ∃ f, s.futures[i]? = some f ∧ f.node ∉ s.processed
  covered : s.phase.Looping → ∀ i f, s.futures[i]? = some f → i ∈ s.inFlight ∨ f.node ∈ s.processed
  phase : PhaseOk s

/-- A valid call starts with the invariant. -/
theorem SchedInv.enter {call : Call} (hw : call.Valid) : SchedInv call (enter call) := by
  obtain ⟨dependents, remaining, hS, hD, heq⟩ := enter_eq hw
  rw [heq]
  refine ⟨?_, fun v => ?_, hS, ?_, by simp [blank], List.nodup_nil, by simp [blank],
    by simp [blank], trivial⟩
  · simpa [ExecState.submitted, blank] using hw.ids_nodup.filter _
  · simp only [ExecState.submitted, blank, List.map_nil, List.nil_append, List.mem_filter,
      decide_eq_true_eq, List.toFinset_nil, Finset.subset_empty]
    refine and_congr_right fun hv => ?_
    rw [hD v hv, Option.some.injEq]
  · simpa [blank] using hD

/-! ### Preservation -/

section Step

variable {host : Host} {call : Call} {s : ExecState}

/-- Two futures of one node are one future. -/
theorem SchedInv.future_inj (h : SchedInv call s) {i j : Nat} {f g : Future}
    (hf : s.futures[i]? = some f) (hg : s.futures[j]? = some g) (hnode : f.node = g.node) :
    i = j := by
  have hnd : s.submitted.Nodup := (List.nodup_append.mp h.nodup).1
  have hi : s.submitted[i]? = some f.node := by simp [ExecState.submitted, hf]
  have hj : s.submitted[j]? = some f.node := by simp [ExecState.submitted, hg, hnode]
  have hlt : i < s.submitted.length := (List.getElem?_eq_some_iff.mp hi).1
  exact (List.getElem?_inj hlt hnd).mp (hi.trans hj.symm)

theorem SchedInv.node_mem (h : SchedInv call s) {i : Nat} {f : Future}
    (hf : s.futures[i]? = some f) : f.node ∈ call.graph.nodeIds := by
  refine ((h.mem_iff f.node).mp (List.mem_append_left _ ?_)).1
  exact List.mem_map.mpr ⟨f, List.mem_of_getElem? hf, rfl⟩

/-- Whoever has been released has had all its ancestors processed. -/
theorem SchedInv.ancestor_processed (h : SchedInv call s) {u v : Str}
    (huv : Relation.TransGen call.graph.Feeds u v) (hv : v ∈ s.submitted ++ s.ready) :
    u ∈ s.processed := by
  induction huv with
  | single hfeed =>
      exact List.mem_toFinset.mp (((h.mem_iff _).mp hv).2 (Call.mem_deps.mpr hfeed))
  | tail _ hfeed ih =>
      -- the last node on the way is processed, so it was submitted before
      have hmid := List.mem_toFinset.mp (((h.mem_iff _).mp hv).2 (Call.mem_deps.mpr hfeed))
      obtain ⟨f, hf, hnode, -⟩ := h.processed _ hmid
      exact ih (List.mem_append_left _ (List.mem_map.mpr ⟨f, hf, hnode⟩))

/-- A worker step concerns one unfinished future: the bookkeeping does not see it. -/
theorem SchedInv.worker (h : SchedInv call s) {cache cache' : ResultCache} {t : ExecState}
    {i : Nat} {f f' : Future} {w : WorkerAct} (hf : s.futures[i]? = some f)
    (hm : Move host call cache s i f w cache' t f') : SchedInv call (t.setFuture i f') := by
  obtain ⟨ht, hnode, hfin⟩ := hm.frame
  -- a future that is done is not the one that moves
  have hkeep : ∀ (j : Nat) (g : Future), s.futures[j]? = some g → g.stage.isFinal = true →
      (s.futures.set i f')[j]? = some g := by
    intro j g hg hgfin
    refine (getElem?_set_iff hf).mpr (Or.inr ⟨?_, hg⟩)
    rintro rfl
    rw [hf] at hg
    rw [← Option.some.inj hg, hfin] at hgfin
    cases hgfin
  -- the one that moves keeps its node
  have hget : ∀ (j : Nat) (g : Future), (s.futures.set i f')[j]? = some g →
      ∃ g₀, s.futures[j]? = some g₀ ∧ g₀.node = g.node := by
    intro j g hg
    rcases (getElem?_set_iff hf).mp hg with ⟨rfl, rfl⟩ | ⟨-, hg⟩
    · exact ⟨f, hf, hnode.symm⟩
    · exact ⟨g, hg, rfl⟩
  have hdone : ∀ j, s.Done j → (s.setFuture i f').Done j := fun j ⟨g, hg, hgfin⟩ =>
    ⟨g, hkeep j g hg hgfin, hgfin⟩
  have hsub : (s.setFuture i f').submitted = s.submitted := map_node_set hf hnode
  -- it was not done, so the pool had not been joined
  have hdrain : ¬ s.Drained := fun hd => by
    rw [hd f (List.mem_of_getElem? hf)] at hfin
    cases hfin
  rw [ht]
  constructor
  case nodup => exact hsub.symm ▸ h.nodup
  case mem_iff => exact hsub.symm ▸ h.mem_iff
  case dependents => exact h.dependents
  case remaining => exact h.remaining
  case processed =>
    intro v hv
    obtain ⟨g, hg, hgv, hgfin⟩ := h.processed v hv
    obtain ⟨j, hj⟩ := List.mem_iff_getElem?.mp hg
    exact ⟨g, List.mem_of_getElem? (hkeep j g hj (by rw [hgfin]; rfl)), hgv, hgfin⟩
  case flight_nodup => exact h.flight_nodup
  case flight =>
    intro j hj
    obtain ⟨g, hg, hgp⟩ := h.flight j hj
    by_cases hji : j = i
    · subst hji
      rw [hf] at hg
      obtain rfl := Option.some.inj hg
      exact ⟨f', (getElem?_set_iff hf).mpr (Or.inl ⟨rfl, rfl⟩), hnode ▸ hgp⟩
    · exact ⟨g, (getElem?_set_iff hf).mpr (Or.inr ⟨hji, hg⟩), hgp⟩
  case covered =>
    intro hl j g hg
    obtain ⟨g₀, hg₀, hnode₀⟩ := hget j g hg
    exact hnode₀ ▸ h.covered hl j g₀ hg₀
  case phase =>
    have hp := h.phase
    simp only [PhaseOk, ExecState.setFuture] at hp ⊢
    cases hphase : s.phase with
    | head | draining e => trivial
    | submitting | waiting => simpa only [hphase] using hp
    | processing todo =>
        simp only [hphase] at hp
        exact ⟨hp.1, hp.2.1, fun j hj => ⟨(hp.2.2 j hj).1, hdone j (hp.2.2 j hj).2⟩⟩
    | raised e =>
        simp only [hphase] at hp
        exact absurd hp hdrain
    | returned r =>
        simp only [hphase] at hp
        exact absurd hp.1 hdrain

/-- Moving on without touching the bookkeeping. -/
theorem SchedInv.setPhase (h : SchedInv call s) {p : Phase} (hl : p.Looping → s.phase.Looping)
    (hok : PhaseOk { s with phase := p }) : SchedInv call { s with phase := p } :=
  ⟨h.nodup, h.mem_iff, h.dependents, h.remaining, h.processed, h.flight_nodup, h.flight,
    fun hp => h.covered (hl hp), hok⟩

/-- A completed future brings an exception: the loop is left. -/
theorem SchedInv.drain (h : SchedInv call s) (i : Nat) (e : Exn) :
    SchedInv call { s with inFlight := s.inFlight.erase i, phase := .draining e } :=
  ⟨h.nodup, h.mem_iff, h.dependents, h.remaining, h.processed, h.flight_nodup.erase i,
    fun j hj => h.flight j (List.mem_of_mem_erase hj), fun hp => hp.elim, trivial⟩

/-- The next ready node becomes the last future. -/
theorem SchedInv.submit (h : SchedInv call s) {n : Str} {rest : List Str}
    (hr : s.ready = n :: rest) (hp : s.phase = .submitting) :
    SchedInv call { s with
      futures := s.futures ++ [{ node := n, stage := .queued }]
      inFlight := s.inFlight ++ [s.futures.length]
      ready := rest } := by
  have hlist : (s.futures ++ [(⟨n, .queued, false⟩ : Future)]).map Future.node ++ rest
      = s.submitted ++ s.ready := by
    simp [ExecState.submitted, hr]
  have hold : ∀ j ∈ s.inFlight, j < s.futures.length := by
    intro j hj
    obtain ⟨f, hf, -⟩ := h.flight j hj
    exact (List.getElem?_eq_some_iff.mp hf).1
  constructor
  case nodup => exact hlist ▸ h.nodup
  case mem_iff =>
    intro v
    rw [← h.mem_iff v, ← hlist]
    rfl
  case dependents => exact h.dependents
  case remaining => exact h.remaining
  case processed =>
    intro v hv
    obtain ⟨f, hf, hrest⟩ := h.processed v hv
    exact ⟨f, List.mem_append_left _ hf, hrest⟩
  case flight_nodup =>
    refine List.nodup_append.mpr ⟨h.flight_nodup, List.nodup_singleton _, ?_⟩
    rintro j hj k hk rfl
    exact absurd (hold j hj) (by simp [List.mem_singleton.mp hk])
  case flight =>
    intro j hj
    rcases List.mem_append.mp hj with hj | hj
    · obtain ⟨f, hf, hfp⟩ := h.flight j hj
      exact ⟨f, by rw [List.getElem?_append_left (hold j hj), hf], hfp⟩
    · obtain rfl := List.mem_singleton.mp hj
      refine ⟨_, List.getElem?_concat_length, fun hn => ?_⟩
      -- a processed node is a submitted one, and `n` was still to be submitted
      obtain ⟨f, hf, hfn, -⟩ := h.processed n hn
      have hsub : n ∈ s.submitted := List.mem_map.mpr ⟨f, hf, hfn⟩
      exact (List.nodup_append.mp h.nodup).2.2 n hsub n (by simp [hr]) rfl
  case covered =>
    intro _ j f hf
    rcases Nat.lt_or_ge j s.futures.length with hj | hj
    · rw [List.getElem?_append_left hj] at hf
      refine (h.covered ?_ j f hf).imp_left (List.mem_append_left _)
      rw [hp]
      trivial
    · have hlen := (List.getElem?_eq_some_iff.mp hf).1
      have hj' : j = s.futures.length := by simp at hlen; omega
      exact Or.inl (List.mem_append_right _ (List.mem_singleton.mpr hj'))
  case phase =>
    simp only [PhaseOk, hp]
    exact Or.inr (List.append_ne_nil_of_right_ne_nil _ (List.cons_ne_nil _ _))

/-- The last dependency that was missing. -/
theorem erase_sdiff_eq_empty {v : Str} {processed : List Str} {node : Str} :
    (call.deps v \ processed.toFinset).erase node = ∅ ↔
      call.deps v ⊆ (processed ++ [node]).toFinset := by
  rw [List.toFinset_append, Finset.union_comm]
  simp only [List.toFinset_cons, List.toFinset_nil, insert_empty_eq, Finset.ext_iff,
    Finset.mem_erase, Finset.mem_sdiff, Finset.notMem_empty, Finset.subset_iff,
    Finset.mem_union, Finset.mem_singleton]
  grind

section Release

variable (h : SchedInv call s) {node : Str} {order : List Str}
  (hmem : ∀ v, v ∈ order ↔ node ∈ call.deps v)
include h hmem

/-- What waits for a node that has not been processed is neither ready nor submitted. -/
theorem SchedInv.released_new (hfresh : node ∉ s.processed) {v : Str} (hv : v ∈ order) :
    v ∉ s.submitted ++ s.ready := fun hin =>
  hfresh (List.mem_toFinset.mp (((h.mem_iff v).mp hin).2 ((hmem v).mp hv)))

/-- The nodes that lose their last dependency become ready, and no others. -/
theorem SchedInv.released_mem_iff (hids : ∀ v ∈ order, v ∈ call.graph.nodeIds) (v : Str) :
    v ∈ s.submitted ++ (s.ready ++ order.filter fun v =>
        (call.deps v \ s.processed.toFinset).erase node = ∅) ↔
      v ∈ call.graph.nodeIds ∧ call.deps v ⊆ (s.processed ++ [node]).toFinset := by
  rw [← List.append_assoc, List.mem_append]
  constructor
  · rintro (hv | hv)
    · obtain ⟨hid, hsub⟩ := (h.mem_iff v).mp hv
      exact ⟨hid, hsub.trans (by simp)⟩
    · obtain ⟨hv, hrest⟩ := List.mem_filter.mp hv
      exact ⟨hids v hv, erase_sdiff_eq_empty.mp (by simpa using hrest)⟩
  · rintro ⟨hid, hsub⟩
    by_cases hv : node ∈ call.deps v
    · refine Or.inr (List.mem_filter.mpr ⟨(hmem v).mpr hv, ?_⟩)
      simpa using erase_sdiff_eq_empty.mpr hsub
    · refine Or.inl ((h.mem_iff v).mpr ⟨hid, fun u hu => ?_⟩)
      have hne : u ≠ node := fun e => hv (e ▸ hu)
      simpa [hne] using hsub hu

end Release

/-- A completed future releases its dependents. -/
theorem SchedInv.process (h : SchedInv call s) {i : Nat} {todo : List Nat} {f : Future}
    {order : List Str} {ds : Finset Str} {remaining : Dict Str (Finset Str)}
    {ready : List Str} (hw : call.Valid) (hp : s.phase = .processing (i :: todo))
    (hf : s.futures[i]? = some f) (hfin : f.stage = .finished)
    (hds : s.dependents.lookup f.node = some ds) (hnd : order.Nodup) (hord : order.toFinset = ds)
    (hrel : release f.node order (s.remainingDeps, s.ready) = .ok (remaining, ready)) :
    SchedInv call { s with
      inFlight := s.inFlight.erase i
      remainingDeps := remaining
      ready := ready
      processed := s.processed ++ [f.node]
      phase := afterFuture todo } := by
  have hpo := h.phase
  simp only [PhaseOk, hp] at hpo
  obtain ⟨-, htodo, hdone⟩ := hpo
  obtain ⟨g, hg, hfresh⟩ := h.flight i (hdone i List.mem_cons_self).1
  obtain rfl : f = g := Option.some.inj (hf.symm.trans hg)
  have hmem : ∀ v, v ∈ order ↔ f.node ∈ call.deps v := by
    intro v
    rw [h.dependents _ (h.node_mem hf), Option.some.injEq] at hds
    rw [← List.mem_toFinset, hord, ← hds, Call.mem_succs, Call.mem_deps]
  have hids : ∀ v ∈ order, v ∈ call.graph.nodeIds := fun v hv =>
    (hw.deps_subset ((hmem v).mp hv)).2
  obtain ⟨remaining', hrel', hD⟩ := release_ok f.node s.ready order hnd hids h.remaining
  obtain ⟨rfl, rfl⟩ : remaining = remaining' ∧ ready = _ := by
    rw [hrel'] at hrel
    exact ⟨(Prod.mk.inj (Except.ok.inj hrel)).1.symm, (Prod.mk.inj (Except.ok.inj hrel)).2.symm⟩
  constructor
  case nodup =>
    rw [← List.append_assoc]
    refine List.nodup_append.mpr ⟨h.nodup, hnd.filter _, ?_⟩
    rintro v hv u hu rfl
    exact h.released_new hmem hfresh (List.mem_of_mem_filter hu) hv
  case mem_iff => exact h.released_mem_iff hmem hids
  case dependents => exact h.dependents
  case remaining =>
    intro v hv
    refine (hD v hv).trans ?_
    congr 1
    ext u
    simp only [hmem v]
    split <;> simp <;> grind
  case processed =>
    intro v hv
    rcases List.mem_append.mp hv with hv | hv
    · exact h.processed v hv
    · exact ⟨f, List.mem_of_getElem? hf, (List.mem_singleton.mp hv).symm, hfin⟩
  case flight_nodup => exact h.flight_nodup.erase i
  case flight =>
    -- a node has one future, so no other one in flight has been processed by this
    intro j hj
    obtain ⟨hji, hj⟩ := h.flight_nodup.mem_erase_iff.mp hj
    obtain ⟨g, hg, hgp⟩ := h.flight j hj
    refine ⟨g, hg, fun hin => ?_⟩
    rcases List.mem_append.mp hin with hin | hin
    · exact hgp hin
    · exact hji (h.future_inj hg hf (List.mem_singleton.mp hin))
  case covered =>
    intro _ j g hg
    by_cases hji : j = i
    · subst hji
      obtain rfl : f = g := Option.some.inj (hf.symm.trans hg)
      exact Or.inr (by simp)
    · have hl : s.phase.Looping := by rw [hp]; trivial
      exact (h.covered hl j g hg).imp (fun hin => h.flight_nodup.mem_erase_iff.mpr ⟨hji, hin⟩)
        (List.mem_append_left _)
  case phase =>
    obtain ⟨hi, hnd'⟩ := List.nodup_cons.mp htodo
    cases todo with
    | nil => trivial
    | cons k ks =>
        refine ⟨List.cons_ne_nil _ _, hnd', fun j hj => ?_⟩
        obtain ⟨hflight, hjdone⟩ := hdone j (List.mem_cons_of_mem _ hj)
        have hji : j ≠ i := fun e => hi (e ▸ hj)
        exact ⟨h.flight_nodup.mem_erase_iff.mpr ⟨hji, hflight⟩, hjdone⟩

/-- The scheduler's own steps. -/
theorem SchedInv.sched (h : SchedInv call s) (hw : call.Valid) {a : Act} {s' : ExecState}
    (hm : SchedMove call s a s') : SchedInv call s' := by
  have hpo := h.phase
  cases hm with
  -- the report is made, or raises
  | exit hp hr hi hd =>
      refine h.setPhase (fun _ => by rw [hp]; trivial) ?_
      unfold report
      cases collectOutputs call s with
      | error e => exact hd
      | ok outputs => exact ⟨hd, hr, hi⟩
  | stop hp hn hc => exact h.setPhase (fun hl => hl.elim) trivial
  | dispatch hp hn hc => exact h.setPhase (fun _ => by rw [hp]; trivial) hn
  | submit hp hr => exact h.submit hr hp
  | submitted hp hr =>
      simp only [PhaseOk, hp, hr, ne_eq, not_true_eq_false, false_or] at hpo
      exact h.setPhase (fun _ => by rw [hp]; trivial) ⟨hr, hpo⟩
  | wait hp hne hnd hdone =>
      exact h.setPhase (fun _ => by rw [hp]; trivial) ⟨hne, hnd, hdone⟩
  -- an exception drains the pool
  | failed hp hf he => exact h.drain _ _
  | processFault hp hf hfin hfault => exact h.drain _ _
  | process hp hf hfin hds hnd hord hrel => exact h.process hw hp hf hfin hds hnd hord hrel
  | join hp hd => exact h.setPhase (fun hl => hl.elim) hd
  | cancel =>
      exact ⟨h.nodup, h.mem_iff, h.dependents, h.remaining, h.processed, h.flight_nodup,
        h.flight, h.covered, h.phase⟩

/-- **The bookkeeping survives every step of a valid call.** -/
theorem SchedInv.step (h : SchedInv call s) (hw : call.Valid) {cache cache' : ResultCache}
    {a : Act} {s' : ExecState} (hs : step host call (cache, s) a = some (cache', s')) :
    SchedInv call s' := by
  rcases step_move host call hs with ⟨i, w, f, t, f', -, hf, hm, rfl⟩ | ⟨-, hm⟩
  · exact h.worker hf hm
  · exact h.sched hw hm

/-- The scheduler's dict lookups never fail. -/
theorem SchedInv.no_processFault (h : SchedInv call s) (hw : call.Valid) {i : Nat} {f : Future}
    {order : List Str} {fault : Fault} (hf : s.futures[i]? = some f)
    (hfault : s.dependents.lookup f.node = none ∨ ∃ ds, s.dependents.lookup f.node = some ds ∧
      order.Nodup ∧ order.toFinset = ds ∧
        release f.node order (s.remainingDeps, s.ready) = .error fault) : False := by
  have hlook := h.dependents _ (h.node_mem hf)
  rcases hfault with hnone | ⟨ds, hds, hnd, hord, hrel⟩
  · rw [hlook] at hnone
    cases hnone
  · have hids : ∀ v ∈ order, v ∈ call.graph.nodeIds := by
      intro v hv
      rw [← List.mem_toFinset, hord] at hv
      rw [hlook, Option.some.injEq] at hds
      exact (hw.deps_subset (Call.mem_deps.mpr (Call.mem_succs.mp (hds ▸ hv)))).2
    obtain ⟨_, hok, -⟩ := release_ok f.node s.ready order hnd hids h.remaining
    rw [hok] at hrel
    cases hrel

/-- The scheduler can be left only with every node processed. -/
theorem SchedInv.all_processed (h : SchedInv call s) (hw : call.Valid)
    (hr : s.ready = []) (hi : s.inFlight = []) (hl : s.phase.Looping) :
    ∀ v ∈ call.graph.nodeIds, v ∈ s.processed := by
  intro v
  induction v using (feeds_wellFounded hw.acyclic).induction with
  | _ v ih =>
      intro hv
      have hdeps : call.deps v ⊆ s.processed.toFinset := by
        intro u hu
        exact List.mem_toFinset.mpr
          (ih u (Call.mem_deps.mp hu) (hw.deps_subset hu).1)
      have hmem := (h.mem_iff v).mpr ⟨hv, hdeps⟩
      rw [hr, List.append_nil] at hmem
      obtain ⟨f, hf, rfl⟩ := List.mem_map.mp hmem
      obtain ⟨i, hi'⟩ := List.mem_iff_getElem?.mp hf
      rcases h.covered hl i f hi' with hflight | hdone
      · rw [hi] at hflight
        cases hflight
      · exact hdone

end Step

/-! ### The report -/

section Report

variable {host : Host} {call : Call} {s : ExecState}

/-- What was returned is what the end of `execute_graph` computes from the dicts. -/
def ReportOk (call : Call) (s : ExecState) : Prop :=
  ∀ r, s.phase = .returned r → report call s = .returned r

theorem ReportOk.enter (hw : call.Valid) : ReportOk call (enter call) := by
  obtain ⟨dependents, remaining, -, -, heq⟩ := enter_eq hw
  rw [heq]
  intro r hr
  cases hr

/-- The two node sets of a report. -/
theorem ReportOk.sets (h : ReportOk call s) {r : ExecutionReport} (hr : s.phase = .returned r) :
    r.executedNodes = s.executed ∧ r.cachedNodes = s.cached := by
  have hrep := h r hr
  unfold report at hrep
  split at hrep
  · cases hrep
  · obtain rfl := Phase.returned.inj hrep
    exact ⟨rfl, rfl⟩

theorem ReportOk.step (h : ReportOk call s) (hS : SchedInv call s) {cache cache' : ResultCache}
    {a : Act} {s' : ExecState} (hs : step host call (cache, s) a = some (cache', s')) :
    ReportOk call s' := by
  have hpo := hS.phase
  rcases step_move host call hs with ⟨i, w, f, t, f', -, hf, hm, rfl⟩ | ⟨-, hm⟩
  · -- with a report out, no future is unfinished
    intro r hr
    have hphase : s.phase = .returned r := by rwa [hm.frame.1] at hr
    simp only [PhaseOk, hphase] at hpo
    have hfin := hpo.1 f (List.mem_of_getElem? hf)
    rw [hm.frame.2.2] at hfin
    cases hfin
  · cases hm with
    -- the report is taken from this state
    | exit =>
        intro r hr
        exact hr
    | cancel =>
        intro r hr
        exact h r hr
    | stop | dispatch | submitted | wait | failed | processFault | join =>
        intro r hr
        cases hr
    -- the loop goes on: there is no report
    | submit hp =>
        intro r hr
        cases hp.symm.trans hr
    | @process i todo =>
        intro r hr
        cases todo <;> cases hr

end Report

end Formshift
