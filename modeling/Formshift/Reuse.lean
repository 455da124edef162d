/-
Formshift/Reuse.lean

The cache is complete for recipes.

A completed call leaves the key of every node's recipe in the cache
(`Kept.returned`), nothing ever leaves the cache (`Grows`), and a node whose
key is there is not run (`RanInv`).  So whatever has the recipe of a node of a
completed call is served (`completed_recipe_served`), and after an edit only
what is downstream of the edited node is run again
(`edits_rerun_downstream`).
-/
import Formshift.Recipe

namespace Formshift

open Py Steps

/-! ### Which nodes ran -/

/-- The module has been called for the future, and its result is not yet recorded. -/
def Stage.tookRun : Stage → Bool
  | .running _ | .returned _ _ | .storing _ _ | .recording _ _ false => true
  | _ => false

/-- Whoever ran had a key with `P`, and whoever counts as executed ran. -/
structure RanInv (host : Host) (call : Call) (P : String → Prop) (s : ExecState) : Prop where
  ran : ∀ f ∈ s.futures, f.ran = true → ∃ c, beginNode host call s f.node = .ok c ∧ P c.key
  running : ∀ f ∈ s.futures, f.stage.tookRun = true → f.ran = true
  executed : ∀ v ∈ s.executed, ∃ f ∈ s.futures, f.node = v ∧ f.ran = true

section Ran

variable {host : Host} {call : Call} {Q : NodeCall → Results → Prop} {P : String → Prop}
  {s t : ExecState}

/-- `module.run` is called on a miss only, and then counts for the rest of the future. -/
theorem Move.ran {cache cache' : ResultCache} {i : Nat} {f f' : Future} {w : WorkerAct}
    (hm : Move host call cache s i f w cache' t f') :
    (f.ran = true → f'.ran = true) ∧
    (f'.ran = true → f.ran = true ∨ ∃ c, f.stage = .keyed c ∧ cache.get c.key = none) ∧
    (f'.stage.tookRun = true → f.stage.tookRun = true ∨ f'.ran = true) ∧
    ∀ v ∈ t.executed, v ∈ s.executed ∨ v = f.node ∧ f.stage.tookRun = true := by
  cases hm with
  | miss hf hmiss =>
      exact ⟨fun _ => rfl, fun _ => Or.inr ⟨_, hf, hmiss⟩, fun _ => Or.inr rfl, fun _ => Or.inl⟩
  | @record c results cached hf =>
      refine ⟨id, Or.inl, fun h => (Bool.false_ne_true h).elim, fun v hv => ?_⟩
      cases cached with
      | true => exact Or.inl hv
      | false =>
          rcases Finset.mem_insert.mp hv with rfl | hv
          · exact Or.inr ⟨rfl, by rw [hf]; rfl⟩
          · exact Or.inl hv
  | accept hf | pass hf | put hf =>
      exact ⟨id, Or.inl, fun _ => Or.inl (by rw [hf]; rfl), fun _ => Or.inl⟩
  | start | startFault | hit | raise | reject | stop | notify | emitFault | emit | emitted
  | finish => exact ⟨id, Or.inl, fun h => (Bool.false_ne_true h).elim, fun _ => Or.inl⟩

/-- Recorded nodes stay recorded. -/
theorem extends_of_step (hD : DataInv host call Q s) {cache cache' : ResultCache} {a : Act} {s' : ExecState}
    (hs : step host call (cache, s) a = some (cache', s')) : Extends s s' := by
  rcases step_move host call hs with ⟨i, w, f, t, f', -, hf, hm, rfl⟩ | ⟨-, hm⟩
  · cases hm with
    | @record c results cached hst =>
        have hok := hD.stages f (List.mem_of_getElem? hf)
        simp only [StageOk, hst] at hok
        exact (extends_record hD hok.1).trans (extends_setFuture i _)
    | start | startFault | hit | miss | raise | reject | accept | stop | pass | put | notify
    | emitFault | emit | emitted | finish => exact ⟨fun _ _ => id, fun _ _ => id⟩
  · obtain ⟨hk, hr, -⟩ := hm.frame
    exact ⟨fun v k hv => hk ▸ hv, fun v r hv => hr ▸ hv⟩

theorem RanInv.enter (hw : call.Valid) : RanInv host call P (enter call) := by
  obtain ⟨dependents, remaining, -, -, heq⟩ := enter_eq hw
  rw [heq]
  constructor <;> simp [blank]

/-- The step lemma: a miss must have `P`. -/
theorem RanInv.step (h : RanInv host call P s) (hI : CallInv host call Q s)
    {cache cache' : ResultCache} {a : Act} {s' : ExecState}
    (hs : Formshift.step host call (cache, s) a = some (cache', s'))
    (hmiss : ∀ v c, beginNode host call s v = .ok c → cache.get c.key = none → P c.key) :
    RanInv host call P s' := by
  have hext := extends_of_step hI.data hs
  have hkeep : ∀ f, (∃ c, beginNode host call s f = .ok c ∧ P c.key) →
      ∃ c, beginNode host call s' f = .ok c ∧ P c.key := fun f ⟨c, hc, hP⟩ =>
    ⟨c, beginNode_mono hext hc, hP⟩
  rcases step_move host call hs with ⟨i, w, f, t, f', -, hf, hm, rfl⟩ | ⟨-, hm⟩
  · obtain ⟨hgrow, hran, htook, hexec⟩ := hm.ran
    obtain ⟨ht, hnode, -⟩ := hm.frame
    have hmem := List.mem_of_getElem? hf
    have hfuts : (t.setFuture i f').futures = s.futures.set i f' := by rw [ht]; rfl
    have hnew : f' ∈ (t.setFuture i f').futures := by
      rw [hfuts]
      exact List.mem_of_getElem? ((getElem?_set_iff hf).mpr (Or.inl ⟨rfl, rfl⟩))
    -- the futures that have run are still there
    have hold : ∀ g ∈ s.futures, g.ran = true →
        ∃ g' ∈ (t.setFuture i f').futures, g'.node = g.node ∧ g'.ran = true := by
      intro g hg hgran
      obtain ⟨j, hj⟩ := List.mem_iff_getElem?.mp hg
      by_cases hji : j = i
      · subst hji
        obtain rfl := Option.some.inj (hf.symm.trans hj)
        exact ⟨f', hnew, hnode, hgrow hgran⟩
      · refine ⟨g, ?_, rfl, hgran⟩
        rw [hfuts]
        exact List.mem_of_getElem? ((getElem?_set_iff hf).mpr (Or.inr ⟨hji, hj⟩))
    constructor
    -- a future runs its module because the cache has no answer
    case ran =>
      intro g hg hgran
      rw [hfuts] at hg
      rcases List.mem_or_eq_of_mem_set hg with hg | rfl
      · exact hkeep _ (h.ran g hg hgran)
      · rw [hnode]
        refine hkeep _ ?_
        rcases hran hgran with hfran | ⟨c, hst, hget⟩
        · exact h.ran f hmem hfran
        · have hok := hI.data.stages f hmem
          simp only [StageOk, hst] at hok
          exact ⟨c, hok.2, hmiss _ _ hok.2 hget⟩
    case running =>
      intro g hg hgtook
      rw [hfuts] at hg
      rcases List.mem_or_eq_of_mem_set hg with hg | rfl
      · exact h.running g hg hgtook
      · rcases htook hgtook with hft | hg'
        · exact hgrow (h.running f hmem hft)
        · exact hg'
    -- only what has run is recorded as executed
    case executed =>
      intro v hv
      rcases hexec v hv with hv | ⟨rfl, hft⟩
      · obtain ⟨g, hg, rfl, hgran⟩ := h.executed v hv
        exact hold g hg hgran
      · exact hold f hmem (h.running f hmem hft)
  · obtain ⟨-, -, hexec, -, -, hfut⟩ := hm.frame
    have hsub : ∀ g ∈ s.futures, g ∈ s'.futures := by
      intro g hg
      rcases hfut with hfut | ⟨n, rest, -, -, hfut⟩
      · exact hfut ▸ hg
      · exact hfut ▸ List.mem_append_left _ hg
    -- a future that is submitted has not run
    have hback : ∀ g ∈ s'.futures, g.ran = true ∨ g.stage.tookRun = true → g ∈ s.futures := by
      intro g hg hor
      rcases hfut with hfut | ⟨n, rest, -, -, hfut⟩
      · exact hfut ▸ hg
      · rw [hfut] at hg
        rcases List.mem_append.mp hg with hg | hg
        · exact hg
        · rw [List.mem_singleton.mp hg] at hor
          rcases hor with hor | hor <;> exact absurd hor Bool.false_ne_true
    refine ⟨fun g hg hr => hkeep _ (h.ran g (hback g hg (Or.inl hr)) hr),
      fun g hg ht => h.running g (hback g hg (Or.inr ht)) ht, fun v hv => ?_⟩
    obtain ⟨g, hg, hgv⟩ := h.executed v (hexec ▸ hv)
    exact ⟨g, hsub g hg, hgv⟩

end Ran

/-! ### What stays in the cache -/

/-- Nothing leaves the cache. -/
def Grows (cache cache' : ResultCache) : Prop :=
  ∀ key, (cache.get key).isSome = true → (cache'.get key).isSome = true

/-- The keys of a call's recorded nodes are in the cache. -/
structure Kept (cache : ResultCache) (s : ExecState) : Prop where
  recorded : ∀ v key, s.nodeKeys.lookup v = some key → (cache.get key).isSome = true
  recording : ∀ f ∈ s.futures, ∀ c results cached, f.stage = .recording c results cached →
    (cache.get c.key).isSome = true

section Kept

variable {host : Host} {call : Call} {s : ExecState} {cache cache' : ResultCache}

theorem Kept.mono (h : Kept cache s) (hg : Grows cache cache') : Kept cache' s :=
  ⟨fun v key hk => hg key (h.recorded v key hk),
    fun f hf c results cached hst => hg c.key (h.recording f hf c results cached hst)⟩

theorem grows_of_step {a : Act} {s' : ExecState}
    (hs : step host call (cache, s) a = some (cache', s')) : Grows cache cache' := by
  rcases step_move host call hs with ⟨i, w, f, t, f', -, -, hm, -⟩ | ⟨rfl, -⟩
  · cases hm with
    | put hst =>
        intro key hkey
        rw [ResultCache.get_put]
        split
        · rfl
        · exact hkey
    | start | startFault | hit | miss | raise | reject | accept | stop | pass | record | notify
    | emitFault | emit | emitted | finish => exact fun _ => id
  · exact fun _ => id

theorem Kept.enter (hw : call.Valid) : Kept cache (enter call) := by
  obtain ⟨dependents, remaining, -, -, heq⟩ := enter_eq hw
  rw [heq]
  constructor <;> simp [blank]

theorem Kept.step (h : Kept cache s) {a : Act} {s' : ExecState}
    (hs : Formshift.step host call (cache, s) a = some (cache', s')) : Kept cache' s' := by
  have hmono := h.mono (grows_of_step hs)
  rcases step_move host call hs with ⟨i, w, f, t, f', -, hf, hm, rfl⟩ | ⟨-, hm⟩
  · have hfuts : (t.setFuture i f').futures = s.futures.set i f' := by rw [hm.frame.1]; rfl
    have hmem := List.mem_of_getElem? hf
    -- a key is recorded when its results are in the cache
    have hkeys : ∀ v key, t.nodeKeys.lookup v = some key → (cache'.get key).isSome = true := by
      intro v key hk
      cases hm with
      | record hst =>
          simp only [recordNode, Dict.lookup_insert_ite] at hk
          split at hk
          · obtain rfl := Option.some.inj hk
            exact h.recording f hmem _ _ _ hst
          · exact h.recorded v key hk
      | start | startFault | hit | miss | raise | reject | accept | stop | pass | put | notify
      | emitFault | emit | emitted | finish => exact hmono.recorded v key hk
    refine ⟨hkeys, fun g hg c results cached hst => ?_⟩
    rw [hfuts] at hg
    rcases List.mem_or_eq_of_mem_set hg with hg | rfl
    · exact hmono.recording g hg c results cached hst
    · -- only a hit and a put lead to the recording stage
      cases hm with
      | hit _ hget =>
          obtain ⟨rfl, -, -⟩ := Stage.recording.inj hst
          rw [hget]
          rfl
      | put _ =>
          obtain ⟨rfl, -, -⟩ := Stage.recording.inj hst
          rw [ResultCache.get_put, if_pos rfl]
          rfl
      | start | startFault | miss | raise | reject | accept | stop | pass | record | notify
      | emitFault | emit | emitted | finish => cases hst
  -- the scheduler records nothing
  · obtain ⟨hk, -, -, -, -, hfut⟩ := hm.frame
    refine ⟨fun v key hv => hmono.recorded v key (hk ▸ hv), fun g hg c results cached hst => ?_⟩
    rcases hfut with hfut | ⟨n, rest, -, -, hfut⟩
    · exact hmono.recording g (hfut ▸ hg) c results cached hst
    · rw [hfut] at hg
      rcases List.mem_append.mp hg with hg | hg
      · exact hmono.recording g hg c results cached hst
      · rw [List.mem_singleton.mp hg] at hst
        cases hst

end Kept

/-! ### Recipes of completed calls are served -/

section Served

variable {host : Host} {beh : Behaviour}

/-- What holds of a call at place `i` once the key of a completed call's node is
in the cache: from place `n` on, nobody with that key has run. -/
structure ReuseInv (host : Host) (key : String) (n i : Nat) (call : Call) (cache : ResultCache)
    (s : ExecState) : Prop where
  inv : EngineCallInv host (fun _ _ _ => True) call s
  kept : call.Valid → Kept cache s
  ran : n ≤ i → call.Valid → RanInv host call (· ≠ key) s

theorem ReuseInv.enter {key : String} {n i : Nat} (call : Call) (cache : ResultCache) :
    ReuseInv host key n i call cache (enter call) :=
  ⟨EngineCallInv.enter call, fun hw => Kept.enter hw, fun _ hw => RanInv.enter hw⟩

theorem ReuseInv.step {key : String} {n i : Nat} {call : Call} {x y : ResultCache × ExecState}
    {a : Act} (h : ReuseInv host key n i call x.1 x.2) (hok : Permits beh call x a)
    (hs : Formshift.step host call x a = some y)
    (hC : n ≤ i → (x.1.get key).isSome = true) : ReuseInv host key n i call y.1 y.2 := by
  obtain ⟨-, hI⟩ := h.inv.step (trivial_rule host (fun _ => True) beh) trivial hok hs trivial
  refine ⟨hI, fun hw => (h.kept hw).step hs, fun hn hw => ?_⟩
  refine (h.ran hn hw).step (h.inv.1 hw) hs fun v c _ hget hkey => ?_
  have hsome := hC hn
  rw [← hkey, hget] at hsome
  cases hsome

/-- With a report out, the key of every node's recipe is in the cache. -/
theorem Kept.returned {call : Call} {cache : ResultCache} {s : ExecState} (h : Kept cache s)
    (hw : call.Valid) (hI : CallInv host call (fun _ _ => True) s) {r : ExecutionReport}
    (hr : s.phase = .returned r) {v : Str} {rec : Recipe} (hrec : HasRecipe call v rec) :
    (cache.get (rec.key host.blake2b)).isSome = true := by
  have hrec' := hrec
  obtain ⟨n, m, hn, -⟩ := hrec'
  obtain ⟨hmem, rfl⟩ := mem_nodeIds_of_lookup hn
  obtain ⟨key, hkey⟩ := Dict.exists_lookup_of_mem (((hI.sched.returned hw hI.data hr).2 n.id).mpr
    (List.mem_map.mpr ⟨n, hmem, rfl⟩))
  obtain ⟨c, -, hc, rfl, -⟩ := hI.data.recorded n.id key hkey
  rw [← begun_key_eq hI.data hc hrec]
  exact h.recorded n.id c.key hkey

/-- **A recipe of a completed call is served from the cache** in every call
started later: the module is not run for it. -/
theorem completed_recipe_served {E₀ E : Engine}
    (h₀ : EngineReaches host (fun _ => True) beh Engine.empty E₀)
    (h : EngineReaches host (fun _ => True) beh E₀ E) {call₀ call : Call} {s₀ s : ExecState}
    (hmem₀ : (call₀, s₀) ∈ E₀.members) {r₀ : ExecutionReport} (hr₀ : s₀.phase = .returned r₀)
    {j : Nat} (hj : E₀.members.length ≤ j) (hmem : E.members[j]? = some (call, s))
    (hw : call.Valid) {u v : Str} {rec : Recipe} (hu : HasRecipe call₀ u rec)
    (hv : HasRecipe call v rec) :
    (∀ f ∈ s.futures, f.node = v → f.ran = false) ∧ v ∉ s.executed ∧
      ∀ r, s.phase = .returned r → v ∉ r.executedNodes ∧ v ∈ r.cachedNodes := by
  have hinv₀ : PoolInv (fun _ => True) (fun _ => True) (ReuseInv host (rec.key host.blake2b)
      E₀.members.length) E₀ := by
    -- first run: nobody is at a place that counts yet
    have hearly : PoolInv (fun _ => True) (fun _ => True) (fun i call cache s =>
        ∀ n, i < n → ReuseInv host (rec.key host.blake2b) n i call cache s) E₀ := by
      refine PoolInv.reaches (G := Grows) (fun i call cache _ _ n _ => ReuseInv.enter call cache)
        ?_ ?_ h₀ ⟨trivial, fun _ _ _ h => by simp [Engine.empty] at h⟩
      · rintro i call ⟨cache, s⟩ a ⟨cache', s'⟩ - hok hs - hI
        exact ⟨trivial, fun n hn => (hI n hn).step hok hs fun hle => absurd hle (by omega),
          grows_of_step hs⟩
      · intro i call cache cache' s _ hG hI n hn
        have hIn := hI n hn
        exact ⟨hIn.inv, fun hw => (hIn.kept hw).mono hG, hIn.ran⟩
    refine ⟨trivial, fun i call s hi => ⟨trivial, (hearly.members i call s hi).2 _ ?_⟩⟩
    exact (List.getElem?_eq_some_iff.mp hi).1
  obtain ⟨i₀, hi₀⟩ := List.mem_iff_getElem?.mp hmem₀
  have hI₀ := (hinv₀.members i₀ call₀ s₀ hi₀).2
  have hw₀ := hI₀.inv.valid_of_returned hr₀
  have hkey : (E₀.store.get (rec.key host.blake2b)).isSome = true :=
    (hI₀.kept hw₀).returned hw₀ (hI₀.inv.1 hw₀) hr₀ hu
  -- second run: the key is in the cache throughout
  have hinv : PoolInv (fun _ => True) (fun cache => (cache.get (rec.key host.blake2b)).isSome = true)
      (ReuseInv host (rec.key host.blake2b) E₀.members.length) E := by
    refine PoolInv.reaches (G := Grows) (fun i call cache _ _ => ReuseInv.enter call cache) ?_ ?_ h
      ⟨hkey, hinv₀.members⟩
    · rintro i call ⟨cache, s⟩ a ⟨cache', s'⟩ - hok hs hC hI
      have hG := grows_of_step hs
      exact ⟨hG _ hC, hI.step hok hs fun _ => hC, hG⟩
    · intro i call cache cache' s _ hG hI
      exact ⟨hI.inv, fun hw => (hI.kept hw).mono hG, hI.ran⟩
  have hI := (hinv.members j call s hmem).2
  have hD := (hI.inv.1 hw).data
  have hR := hI.ran hj hw
  have hran : ∀ f ∈ s.futures, f.node = v → f.ran = false := by
    rintro f hf rfl
    by_contra hne
    obtain ⟨c, hc, hck⟩ := hR.ran f hf (by simpa using hne)
    exact hck (begun_key_eq hD hc hv)
  have hexec : v ∉ s.executed := by
    intro hin
    obtain ⟨f, hf, hnode, hfran⟩ := hR.executed v hin
    rw [hran f hf hnode] at hfran
    cases hfran
  refine ⟨hran, hexec, fun r hr => ?_⟩
  obtain ⟨he, hc⟩ := (hI.inv.1 hw).report.sets hr
  rw [he, hc]
  refine ⟨hexec, ?_⟩
  obtain ⟨n, m, hn, -⟩ := hv
  obtain ⟨hmemn, hid⟩ := mem_nodeIds_of_lookup hn
  have hrec := (((hI.inv.1 hw).sched.returned hw hD hr).2 v).mpr
    (hid ▸ List.mem_map.mpr ⟨n, hmemn, rfl⟩)
  exact (Finset.mem_union.mp ((hD.keys_iff v).mp hrec)).resolve_left hexec

end Served

/-! ### Edits -/

/-- `call'` is `call` with node `edited` changed, ids renamed by `ρ`, lists
permuted, parameter keys reordered and payloads uploaded again, under the ids
`π` gives them. -/
structure Edit (call call' : Call) (edited : Str) (ρ π : Str → Str) : Prop where
  registry : call'.registry = call.registry
  draft : call'.draft = call.draft
  ids : call'.graph.nodeIds.Perm (call.graph.nodeIds.map ρ)
  nodes : ∀ n ∈ call.graph.nodes, n.id ≠ edited → ∃ n' ∈ call'.graph.nodes,
    n'.id = ρ n.id ∧ n'.module = n.module ∧ n.params.toJson.Same n'.params.toJson
  edges : call'.graph.edges.Perm (call.graph.edges.map fun e =>
    ⟨ρ e.fromNode, e.fromPort, ρ e.toNode, e.toPort⟩)
  bindings : call'.graph.bindings.Perm (call.graph.bindings.map fun b =>
    ⟨π b.payload, ρ b.node, b.port⟩)
  payloads : ∀ b ∈ call.graph.bindings, ∀ p, call.session.payloads.lookup b.payload = some p →
    ∃ p', call'.session.payloads.lookup (π b.payload) = some p' ∧ p'.data = p.data

section Edit

variable {call call' : Call} {edited : Str} {ρ π : Str → Str}

/-- The node an unedited node has become, with the head it had. -/
theorem Edit.node (h : Edit call call' edited ρ π) (hw' : call'.Valid) {v : Str}
    (hv : v ≠ edited) {n : Node} {m : ModuleManifest}
    (hn : call.graph.nodesById.lookup v = some n) (hm : call.registry.get n.module = some m) :
    ∃ n', call'.graph.nodesById.lookup (ρ v) = some n' ∧
      call'.registry.get n'.module = some m ∧ headOf call' n' m = headOf call n m := by
  obtain ⟨hmem, rfl⟩ := mem_nodeIds_of_lookup hn
  obtain ⟨n', hmem', hid, hmod, hparams⟩ := h.nodes n hmem hv
  obtain ⟨n'', m', hn'', hm'⟩ := hw'.lookup_node (List.mem_map.mpr ⟨n', hmem', hid⟩)
  obtain ⟨hmem'', hid''⟩ := mem_nodeIds_of_lookup hn''
  obtain rfl : n' = n'' := List.inj_on_of_nodup_map hw'.ids_nodup hmem' hmem''
    (hid.trans hid''.symm)
  refine ⟨n', hn'', by rw [hmod, h.registry, hm], ?_⟩
  have hcanon := Json.canon_eq_of_same _ _ n.params.distinct n'.params.distinct hparams
  simp only [headOf, h.draft]
  rw [show n'.params.toJson.canon = n.params.toJson.canon from hcanon.symm]

/-- What is not downstream of the edited node keeps its recipe. -/
theorem Edit.hasInputs (h : Edit call call' edited ρ π) (hw' : call'.Valid) {v : Str}
    {ports : List PortSpec} {inputs : Inputs} (hin : HasInputs call v ports inputs)
    (hv : ¬ Relation.ReflTransGen call.graph.Feeds edited v) {n' : Node} {m : ModuleManifest}
    (hn' : call'.graph.nodesById.lookup (ρ v) = some n')
    (hm' : call'.registry.get n'.module = some m) (hports : ∀ port ∈ ports, port ∈ m.inputs) :
    HasInputs call' (ρ v) ports inputs := by
  induction hin generalizing n' m with
  | nil => exact .nil
  | payload hfeed hp _ ih =>
      obtain ⟨b, hb, htarget, rfl⟩ := binding_of_feedOf hfeed
      obtain ⟨rfl, hport⟩ := Prod.mk.inj htarget
      obtain ⟨p', hp', hdata⟩ := h.payloads b hb _ hp
      have hb' : (⟨π b.payload, ρ b.node, b.port⟩ : Binding) ∈ call'.graph.bindings :=
        h.bindings.mem_iff.mpr (List.mem_map.mpr ⟨b, hb, rfl⟩)
      have hfeed' := feedOf_of_binding hw' hn' hm' (hports _ List.mem_cons_self) hb'
        (by rw [← hport]; rfl)
      rw [← hdata]
      exact .payload hfeed' hp' (ih hv hn' hm' fun p hp => hports p (List.mem_cons_of_mem _ hp))
  | @port v port ports u q n m₁ inputs rest hfeed hn hm _ _ ihsrc ihrest =>
      obtain ⟨e, he, htarget, rfl, rfl⟩ := edge_of_feedOf hfeed
      obtain ⟨rfl, hport⟩ := Prod.mk.inj htarget
      have he' : (⟨ρ e.fromNode, e.fromPort, ρ e.toNode, e.toPort⟩ : Edge) ∈ call'.graph.edges :=
        h.edges.mem_iff.mpr (List.mem_map.mpr ⟨e, he, rfl⟩)
      have hfeed' := feedOf_of_edge hw' hn' hm' (hports _ List.mem_cons_self) he'
        (by rw [← hport]; rfl)
      -- a source of an unaffected node is unaffected
      have hu : ¬ Relation.ReflTransGen call.graph.Feeds edited e.fromNode := fun hr =>
        hv (hr.tail ⟨e, he, rfl, rfl⟩)
      have hne : e.fromNode ≠ edited := fun heq => hu (heq ▸ Relation.ReflTransGen.refl)
      obtain ⟨n₁', hn₁', hm₁', hhead⟩ := h.node hw' hne hn hm
      rw [← hhead]
      exact .port hfeed' hn₁' hm₁' (ihsrc hu hn₁' hm₁' fun _ => id)
        (ihrest hv hn' hm' fun p hp => hports p (List.mem_cons_of_mem _ hp))

theorem Edit.hasRecipe (h : Edit call call' edited ρ π) (hw' : call'.Valid) {v : Str}
    (hv : ¬ Relation.ReflTransGen call.graph.Feeds edited v) {rec : Recipe}
    (hrec : HasRecipe call v rec) : HasRecipe call' (ρ v) rec := by
  obtain ⟨n, m, hn, hm, hhead, hin⟩ := hrec
  have hne : v ≠ edited := fun heq => hv (heq ▸ Relation.ReflTransGen.refl)
  obtain ⟨n', hn', hm', hhead'⟩ := h.node hw' hne hn hm
  exact ⟨n', m, hn', hm', hhead.trans hhead'.symm, h.hasInputs hw' hin hv hn' hm' fun _ => id⟩

end Edit

/-- **Edits rerun only what is downstream.**  In a call started after `call₀`
has completed, on the same cache, a node with the recipe of a node of `call₀`
is served from the cache; and if the call is an edit of `call₀`, the executed
nodes are the edited one and those it reaches. -/
theorem edits_rerun_downstream (host : Host) (beh : Behaviour) {E₀ E : Engine}
    (h₀ : EngineReaches host (fun _ => True) beh Engine.empty E₀)
    (h : EngineReaches host (fun _ => True) beh E₀ E) {call₀ call : Call} {s₀ s : ExecState}
    (hmem₀ : (call₀, s₀) ∈ E₀.members) {r₀ : ExecutionReport} (hr₀ : s₀.phase = .returned r₀)
    {j : Nat} (hj : E₀.members.length ≤ j) (hmem : E.members[j]? = some (call, s))
    (hvalid : validateGraph call.graph call.registry call.session = []) :
    (∀ u v rec, HasRecipe call₀ u rec → HasRecipe call v rec →
      (∀ f ∈ s.futures, f.node = v → f.ran = false) ∧ v ∉ s.executed ∧
        ∀ r, s.phase = .returned r → v ∉ r.executedNodes ∧ v ∈ r.cachedNodes) ∧
    ∀ edited ρ π, Edit call₀ call edited ρ π →
      (∀ v ∈ s.executed, ∃ v₀, v = ρ v₀ ∧ Relation.ReflTransGen call₀.graph.Feeds edited v₀) ∧
      ∀ r, s.phase = .returned r → ∀ v ∈ r.executedNodes,
        ∃ v₀, v = ρ v₀ ∧ Relation.ReflTransGen call₀.graph.Feeds edited v₀ := by
  have hw : call.Valid := validateGraph_nil_iff.mp hvalid
  have hserved : ∀ u v rec, HasRecipe call₀ u rec → HasRecipe call v rec →
      (∀ f ∈ s.futures, f.node = v → f.ran = false) ∧ v ∉ s.executed ∧
        ∀ r, s.phase = .returned r → v ∉ r.executedNodes ∧ v ∈ r.cachedNodes :=
    fun u v rec hu hv => completed_recipe_served h₀ h hmem₀ hr₀ hj hmem hw hu hv
  refine ⟨hserved, fun edited ρ π hedit => ?_⟩
  have hw₀ : call₀.Valid := by
    have hinv := engine_inv (trivial_rule host (fun _ => True) beh) trivial h₀
    obtain ⟨i, hi⟩ := List.mem_iff_getElem?.mp hmem₀
    exact (hinv.members i call₀ s₀ hi).2.valid_of_returned hr₀
  -- away from the edit the recipes are the old ones
  have hold : ∀ v, v ∈ call.graph.nodeIds →
      ¬ (∃ v₀, v = ρ v₀ ∧ Relation.ReflTransGen call₀.graph.Feeds edited v₀) →
      ∃ u rec, HasRecipe call₀ u rec ∧ HasRecipe call v rec := by
    intro v hv hnone
    obtain ⟨v₀, hv₀, rfl⟩ := List.mem_map.mp (hedit.ids.mem_iff.mp hv)
    have haway : ¬ Relation.ReflTransGen call₀.graph.Feeds edited v₀ := fun hr =>
      hnone ⟨v₀, rfl, hr⟩
    obtain ⟨rec, hrec⟩ := exists_hasRecipe hw₀ hv₀
    exact ⟨v₀, rec, hrec, hedit.hasRecipe hw haway hrec⟩
  have hinv := engine_inv (trivial_rule host (fun _ => True) beh) trivial (h₀.trans h)
  have hI := (hinv.members j call s hmem).2.1 hw
  have hexec : ∀ v ∈ s.executed, v ∈ call.graph.nodeIds := fun v hv => by
    have hkey := (hI.data.keys_iff v).mpr (Finset.mem_union_left _ hv)
    exact ((hI.sched.mem_iff v).mp (List.mem_append_left _ (hI.data.submitted v hkey))).1
  -- so what runs is downstream of it
  have hdown : ∀ v ∈ s.executed,
      ∃ v₀, v = ρ v₀ ∧ Relation.ReflTransGen call₀.graph.Feeds edited v₀ := by
    intro v hv
    by_contra hnone
    obtain ⟨u, rec, hu, hrec⟩ := hold v (hexec v hv) hnone
    exact (hserved u v rec hu hrec).2.1 hv
  exact ⟨hdown, fun r hr v hv => hdown v ((hI.report.sets hr).1 ▸ hv)⟩

/-! ### An edited chain -/

/-- The chain with its second node's parameters changed, under new ids. -/
def editedChainCall : Call where
  graph := {
    nodes := [{ id := "y", module := "copy", params := ⟨[("n", .int 1)], by decide⟩ },
      { id := "x", module := "split" }]
    edges := [⟨"x", "a", "y", "in"⟩]
    bindings := []
    outputs := [{ node := "y", port := "out" }] }
  registry := sampleRegistry
  session := ⟨"session", ∅⟩
  draft := false
  workers := some 1

def chainRename (id : Str) : Str := if id = "s" then "x" else "y"

theorem chain_edit : Edit chainCall editedChainCall "c" chainRename id where
  registry := rfl
  draft := rfl
  ids := by decide
  nodes := by
    intro n hn hne
    have hn' : n = { id := "s", module := "split" } ∨ n = { id := "c", module := "copy" } := by
      simpa [chainCall] using hn
    rcases hn' with rfl | rfl
    · exact ⟨{ id := "x", module := "split" }, by simp [editedChainCall], rfl, rfl,
        Json.same_of_canon_eq _ _ rfl⟩
    · exact absurd rfl hne
  edges := by decide
  bindings := by decide
  payloads := by simp [chainCall]

theorem edits_rerun_downstream_chain : ∃ (E : Engine) (s : ExecState) (r : ExecutionReport),
    E.members[1]? = some (editedChainCall, s) ∧ s.phase = .returned r ∧
      .text "x" ∈ r.cachedNodes ∧ ∀ v ∈ r.executedNodes, v = "y" := by
  have hfirst : ((runActs (step sampleHost chainCall)
      (chainActs (ranActs 0 (emptyResults splitModule)) "c" (emptyResults copyModule))
      (∅, enter chainCall)).bind fun x =>
        (runActs (step sampleHost editedChainCall) (chainActs (servedActs 0) "y" (emptyResults copyModule))
          (x.1, enter editedChainCall)).map fun y =>
            (x.2.phase.isReturned, y.2.phase.isReturned)) = some (true, true) := by
    decide +kernel
  obtain ⟨x, hx, hrest⟩ := Option.bind_eq_some_iff.mp hfirst
  obtain ⟨y, hy, hdone⟩ := Option.map_eq_some_iff.mp hrest
  obtain ⟨hxdone, hydone⟩ := Prod.mk.inj hdone
  obtain ⟨r₀, hr₀⟩ := Phase.returned_of_isReturned hxdone
  obtain ⟨r, hr⟩ := Phase.returned_of_isReturned hydone
  have h₀ : EngineReaches sampleHost (fun _ => True) anyBehaviour Engine.empty
      ⟨x.1, [(chainCall, x.2)]⟩ :=
    engineReaches_of_call trivial (reaches_of_runActs (permits_any _) hx)
  have hspawn : EngineReaches sampleHost (fun _ => True) anyBehaviour ⟨x.1, [(chainCall, x.2)]⟩
      ⟨x.1, [(chainCall, x.2), (editedChainCall, enter editedChainCall)]⟩ :=
    Relation.ReflTransGen.single ⟨.spawn editedChainCall, trivial, rfl⟩
  have h : EngineReaches sampleHost (fun _ => True) anyBehaviour ⟨x.1, [(chainCall, x.2)]⟩
      ⟨y.1, [(chainCall, x.2), (editedChainCall, y.2)]⟩ :=
    hspawn.trans (PoolReaches.of_member (i := 1) rfl (reaches_of_runActs (permits_any _) hy))
  obtain ⟨hserved, hedit⟩ := edits_rerun_downstream sampleHost anyBehaviour h₀ h
    List.mem_cons_self hr₀ (j := 1) (le_refl 1) rfl (by decide)
  have hsource : ∀ call : Call, call.registry = sampleRegistry → ∀ v n,
      call.graph.nodesById.lookup v = some n → n.module = "split" →
        HasRecipe call v ⟨headOf call n splitModule, .nil⟩ := by
    intro call hreg v n hn hmod
    exact ⟨n, splitModule, hn, by rw [hreg, hmod]; rfl, rfl, .nil⟩
  have hx₀ := hsource chainCall rfl "s" { id := "s", module := "split" } rfl rfl
  have hx₁ := hsource editedChainCall rfl "x" { id := "x", module := "split" } rfl rfl
  refine ⟨⟨y.1, [(chainCall, x.2), (editedChainCall, y.2)]⟩, y.2, r, rfl, hr,
    ((hserved "s" "x" _ hx₀ hx₁).2.2 r hr).2, fun v hv => ?_⟩
  obtain ⟨v₀, rfl, hreach⟩ := (hedit "c" chainRename id chain_edit).2 r hr v hv
  -- nothing is fed by the second node
  rcases Relation.ReflTransGen.cases_head hreach with rfl | ⟨u, ⟨e, he, hfrom, -⟩, -⟩
  · rfl
  · have he' : e = ⟨"s", "a", "c", "in"⟩ := by simpa [chainCall] using he
    rw [he'] at hfrom
    exact absurd hfrom (by decide)

end Formshift
