/-
Formshift/Contract.lean

Every result that goes round conforms to its manifest.

The contract check sees only what `module.run` returns; that a hit conforms
too rests on the key, which names module and version.  From this comes the
list of what `execute_graph` can raise on a valid graph (`engine_raises`).
-/
import Formshift.Engine

namespace Formshift

open Py Steps

/-! ### The cache conforms -/

/-- An entry conforms to every module of the registry whose key it may be. -/
def CacheConforms (host : Host) (reg : ModuleRegistry) (cache : ResultCache) : Prop :=
  ∀ key results, cache.get key = some results → ∀ m params keys draft,
    reg.get m.name = some m →
    key = recipeKey host.blake2b m.name m.version params keys draft → Conforms m results

theorem cacheConforms_empty (host : Host) (reg : ModuleRegistry) : CacheConforms host reg ∅ := by
  intro key results h
  simp at h

/-- The manifest `run_node` works with is the registry's. -/
theorem begun_manifest {host : Host} {call : Call} {s : ExecState} {v : Str} {c : NodeCall}
    (h : beginNode host call s v = .ok c) :
    call.registry.get c.manifest.name = some c.manifest := by
  obtain ⟨_, -, hm, -⟩ := beginNode_ok_iff.mp h
  rwa [ModuleRegistry.name_of_get hm]

/-- The key `run_node` computes is a recipe key of its module. -/
theorem begun_key {host : Host} {call : Call} {s : ExecState} {v : Str} {c : NodeCall}
    (h : beginNode host call s v = .ok c) : ∃ keys,
      c.key = recipeKey host.blake2b c.manifest.name c.manifest.version c.node.params keys
        call.draft := by
  obtain ⟨_, -, -, -, -, hk⟩ := beginNode_ok_iff.mp h
  exact ⟨_, hk⟩

/-- Conformity as a property of results. -/
def Conforming (_ : Call) (c : NodeCall) (results : Results) : Prop := Conforms c.manifest results

theorem conforming_rule {host : Host} (hinj : Function.Injective host.blake2b)
    (reg : ModuleRegistry) (beh : Behaviour) :
    CacheRule host (fun call => call.registry = reg) beh Conforming (CacheConforms host reg) where
  hit := by
    rintro cache call s v c results rfl - - hC hc hget
    obtain ⟨keys, hkey⟩ := begun_key hc
    exact hC c.key results hget c.manifest c.node.params keys call.draft (begun_manifest hc) hkey
  ret := by
    rintro call s v c results - - - - - hconf
    exact hconf
  put := by
    rintro cache call s v c results rfl - - hC hc hconf key r hget m params keys draft hm hkey
    rw [ResultCache.get_put] at hget
    split at hget
    · rename_i hck
      obtain rfl := Option.some.inj hget
      obtain ⟨keys', hkey'⟩ := begun_key hc
      -- equal keys name one module, and the registry has one manifest for it
      obtain ⟨hname, -⟩ := (recipeKey_eq_iff hinj).mp (hkey'.symm.trans (hck.symm.trans hkey))
      have hmc := begun_manifest hc
      rw [hname, hm] at hmc
      obtain rfl := Option.some.inj hmc
      exact hconf
    · exact hC key r hget m params keys draft hm hkey

/-! ### What a valid call raises -/

/-- What `execute_graph` may raise on a valid graph: what a module raised, a
broken output contract, or the cancellation. -/
def Exn.Expected (beh : Behaviour) : Exn → Prop
  | .module e => ∃ m inputs params draft, beh m inputs params draft (.error e)
  | .contract e => ∃ m inputs params draft results, beh m inputs params draft (.ok results) ∧
      checkContract m results = some (.contract e)
  | .cancelled => True
  | .invalid _ | .fault _ => False

/-- The step lemma for exceptions. -/
theorem Raises.step {host : Host} {call : Call} {beh : Behaviour} {P : Exn → Prop}
    {x y : ResultCache × ExecState} {a : Act} (h : Raises P x.2) (hw : call.Valid)
    (hI : CallInv host call (Conforming call) x.2) (hok : Permits beh call x a)
    (hs : Formshift.step host call x a = some y)
    (hmodule : ∀ m inputs params draft e, beh m inputs params draft (.error e) → P (.module e))
    (hcontract : ∀ m inputs params draft results e, beh m inputs params draft (.ok results) →
      checkContract m results = some (.contract e) → P (.contract e))
    (hcancel : x.2.cancel = true → P .cancelled) : Raises P y.2 := by
  obtain ⟨cache, s⟩ := x
  obtain ⟨cache', s'⟩ := y
  rcases step_move host call hs with ⟨i, w, f, t, f', rfl, hf, hm, rfl⟩ | ⟨-, hm⟩
  · refine h.worker hw hI.sched hI.data (fun _ _ hq => hq) hf hm ?_ ?_ hcancel
    · rintro e rfl
      cases hm with
      | raise hst => exact hmodule _ _ _ _ e (hok f _ hf hst)
    · rintro c results e hst rfl hcheck
      exact hcontract _ _ _ _ results e (hok f c hf hst) hcheck
  · exact h.sched hw hI.sched hI.data hcancel hm

/-- No call of the engine raises anything unexpected. -/
theorem engine_raises {host : Host} (hinj : Function.Injective host.blake2b)
    (reg : ModuleRegistry) (beh : Behaviour) {E : Engine}
    (hrun : EngineReaches host (fun call => call.registry = reg) beh Engine.empty E) :
    ∀ call s, (call, s) ∈ E.members → call.Valid → Raises (Exn.Expected beh) s := by
  have hrule := conforming_rule hinj reg beh
  have hinv : PoolInv (fun call => call.registry = reg) (CacheConforms host reg)
      (fun _ call _ s => EngineCallInv host Conforming call s ∧
        (call.Valid → Raises (Exn.Expected beh) s)) E := by
    refine PoolInv.reaches (G := fun _ _ => True)
      (fun _ call _ _ _ => ⟨EngineCallInv.enter call, fun hw => Raises.enter hw⟩) ?_
      (fun _ _ _ _ _ _ _ => id) hrun
      ⟨cacheConforms_empty host reg, fun _ _ _ h => by simp [Engine.empty] at h⟩
    rintro - call x a y hS hok hs hC ⟨hI, hR⟩
    obtain ⟨hC', hI'⟩ := hI.step hrule hS hok hs hC
    refine ⟨hC', ⟨hI', fun hw => ?_⟩, trivial⟩
    exact (hR hw).step hw (hI.1 hw) hok hs (fun m inputs params draft _ h => ⟨m, inputs, params, draft, h⟩)
      (fun m inputs params draft results _ h hcheck => ⟨m, inputs, params, draft, results, h, hcheck⟩)
      (fun _ => trivial)
  intro call s hmem hw
  obtain ⟨i, hi⟩ := List.mem_iff_getElem?.mp hmem
  exact (hinv.members i call s hi).2.2 hw

end Formshift
