/-
Formshift/Engine.lean

Calls at work on one result cache.

What modules do is a `Behaviour`; a run is one of calls that are started at
any time, interleaved in any way and put their results into the shared cache
(`EngineReaches`).  `CacheRule` is what a property `Q` of results and one `C`
of caches must satisfy for `Q` to hold of all results and `C` of the cache
throughout: hits have `Q` by `C`, runs by the behaviour, and putting a result
with `Q` keeps `C` (`engine_inv`, and `call_inv` for a single call).
-/
import Formshift.Lib.Pool
import Formshift.Faults

namespace Formshift

open Py Steps

/-! ### One call -/

/-- What `module.run` may do on given inputs, parameters and draft flag. -/
abbrev Behaviour :=
  ModuleManifest → Dict Str Bytes → JsonObject → Bool → Except ModuleExn Results → Prop

/-- The modules of a run behave as `beh` says. -/
def Permits (beh : Behaviour) (call : Call) (x : ResultCache × ExecState) : Act → Prop
  | .worker i (.ret outcome) => ∀ f c, x.2.futures[i]? = some f → f.stage = .running c →
      beh c.manifest c.inputs c.node.params call.draft outcome
  | _ => True

/-- Modules may do anything. -/
def anyBehaviour : Behaviour := fun _ _ _ _ _ => True

theorem permits_any (call : Call) (x : ResultCache × ExecState) (a : Act) :
    Permits anyBehaviour call x a := by
  cases a with
  | worker i w =>
      cases w with
      | ret outcome => exact fun _ _ _ _ => trivial
      | start | lookup | check | put | record | notify | emit | emitted | finish => trivial
  | loop | submit | wait | process | join | cancel => trivial

/-- What holds in every state of a call. -/
structure CallInv (host : Host) (call : Call) (Q : NodeCall → Results → Prop) (s : ExecState) :
    Prop where
  sched : SchedInv call s
  data : DataInv host call Q s
  report : ReportOk call s

theorem CallInv.enter {host : Host} {call : Call} {Q : NodeCall → Results → Prop}
    (hw : call.Valid) : CallInv host call Q (enter call) := by
  refine ⟨SchedInv.enter hw, ?_, ReportOk.enter hw⟩
  obtain ⟨dependents, remaining, -, -, heq⟩ := enter_eq hw
  rw [heq]
  constructor <;> simp [blank, ExecState.submitted]

/-- A property of results and one of caches that keep each other up. -/
structure CacheRule (host : Host) (S : Call → Prop) (beh : Behaviour)
    (Q : Call → NodeCall → Results → Prop) (C : ResultCache → Prop) : Prop where
  hit : ∀ cache call s v c results, S call → call.Valid → CallInv host call (Q call) s →
    C cache → beginNode host call s v = .ok c → cache.get c.key = some results → Q call c results
  ret : ∀ call s v c results, S call → call.Valid → CallInv host call (Q call) s →
    beginNode host call s v = .ok c →
    beh c.manifest c.inputs c.node.params call.draft (.ok results) → Conforms c.manifest results →
    Q call c results
  put : ∀ cache call s v c results, S call → call.Valid → CallInv host call (Q call) s →
    C cache → beginNode host call s v = .ok c → Q call c results → C (cache.put c.key results)

/-- The invariant that asks nothing of results and caches. -/
theorem trivial_rule (host : Host) (S : Call → Prop) (beh : Behaviour) :
    CacheRule host S beh (fun _ _ _ => True) fun _ => True :=
  ⟨fun _ _ _ _ _ _ _ _ _ _ _ _ => trivial, fun _ _ _ _ _ _ _ _ _ _ _ => trivial,
    fun _ _ _ _ _ _ _ _ _ _ _ _ => trivial⟩

section Rule

variable {host : Host} {call : Call} {S : Call → Prop} {beh : Behaviour}
  {Q : Call → NodeCall → Results → Prop} {C : ResultCache → Prop}

/-- The step lemma of a valid call. -/
theorem CallInv.step {x y : ResultCache × ExecState} {a : Act} (h : CallInv host call (Q call) x.2)
    (hrule : CacheRule host S beh Q C) (hS : S call) (hw : call.Valid) (hC : C x.1)
    (hok : Permits beh call x a) (hs : step host call x a = some y) :
    C y.1 ∧ CallInv host call (Q call) y.2 := by
  obtain ⟨cache, s⟩ := x
  obtain ⟨cache', s'⟩ := y
  have hsched := h.sched.step hw hs
  have hreport := h.report.step h.sched hs
  rcases step_move host call hs with ⟨i, w, f, t, f', rfl, hf, hm, rfl⟩ | ⟨rfl, hm⟩
  -- what is recorded comes from the cache or from the module
  · have hdata := h.data.worker h.sched hf hm
      (fun c results _ hc hget => hrule.hit cache call s f.node c results hS hw h hC hc hget)
      (fun c results hst hc hact hcheck => by
        subst hact
        exact hrule.ret call s f.node c results hS hw h hc (hok f c hf hst)
          (checkContract_none_iff.mp hcheck))
    refine ⟨?_, hsched, hdata, hreport⟩
    cases hm with
    -- and what is put has been returned
    | put hst =>
        have hst' := h.data.stages f (List.mem_of_getElem? hf)
        simp only [StageOk, hst] at hst'
        exact hrule.put cache call s f.node _ _ hS hw h hC hst'.2.1 hst'.2.2
    | start | startFault | hit | miss | raise | reject | accept | stop | pass | record | notify
    | emitFault | emit | emitted | finish => exact hC
  · exact ⟨hC, hsched, h.data.sched h.sched hm, hreport⟩

/-- A step under the invariant that asks nothing of results and caches. -/
theorem CallInv.step_plain {x y : ResultCache × ExecState} {a : Act}
    (h : CallInv host call (fun _ _ => True) x.2) (hw : call.Valid)
    (hs : Formshift.step host call x a = some y) : CallInv host call (fun _ _ => True) y.2 := by
  have hrule := trivial_rule host (fun _ => True) anyBehaviour
  exact (@CallInv.step host call _ _ _ _ x y a h hrule trivial hw trivial (permits_any _ _ _) hs).2

/-- The flag is set. -/
theorem CallInv.cancel {s : ExecState} (h : CallInv host call (fun _ _ => True) s)
    (hw : call.Valid) : CallInv host call (fun _ _ => True) { s with cancel := true } :=
  CallInv.step_plain (x := (∅, s)) (y := (∅, { s with cancel := true })) (a := .cancel) h hw rfl

/-- The runs of one call from a given cache. -/
abbrev CallReaches (host : Host) (beh : Behaviour) (call : Call) :
    ResultCache × ExecState → ResultCache × ExecState → Prop :=
  Reaches (Fires (Formshift.step host call) (Permits beh call))

end Rule

/-! ### Invalid calls -/

/-- A call that was refused: it has raised and nothing of it runs. -/
def Refused (s : ExecState) : Prop := s.futures = [] ∧ ∃ errors, s.phase = .raised (.invalid errors)

theorem refused_enter {call : Call} (hw : ¬ call.Valid) : Refused (enter call) := by
  have hval : validateGraph call.graph call.registry call.session ≠ [] := fun h =>
    hw (validateGraph_nil_iff.mp h)
  simp [enter, hval, Refused, blank]

/-- Nothing but the cancel event of a refused call can still change. -/
theorem Refused.step {host : Host} {call : Call} {x y : ResultCache × ExecState} {a : Act}
    (h : Refused x.2) (hs : step host call x a = some y) : y.1 = x.1 ∧ Refused y.2 := by
  obtain ⟨cache, s⟩ := x
  obtain ⟨cache', s'⟩ := y
  obtain ⟨hf, errors, hp⟩ := h
  simp only at hf hp
  rcases step_move host call hs with ⟨i, w, f, t, f', -, hget, -⟩ | ⟨hcache, hm⟩
  · rw [hf] at hget
    cases hget
  · refine ⟨hcache, ?_⟩
    cases hm with
    | cancel => exact ⟨hf, errors, hp⟩
    | exit hp' | stop hp' | dispatch hp' | submit hp' | submitted hp' | wait hp' | failed hp'
    | processFault hp' | process hp' | join hp' =>
        rw [hp] at hp'
        cases hp'

/-! ### The engine -/

/-- The cache and the calls at work on it. -/
abbrev Engine := Pool Call ResultCache ExecState

/-- The runs of the engine: calls of `S`, modules that behave as `beh` says. -/
abbrev EngineReaches (host : Host) (S : Call → Prop) (beh : Behaviour) : Engine → Engine → Prop :=
  PoolReaches enter (step host) S (Permits beh)

/-- No call, and nothing in the cache. -/
def Engine.empty : Engine := ⟨∅, []⟩

section Engine

variable {host : Host} {S : Call → Prop} {beh : Behaviour}
  {Q : Call → NodeCall → Results → Prop} {C : ResultCache → Prop}

/-- What holds of every call of the engine, valid or not. -/
def EngineCallInv (host : Host) (Q : Call → NodeCall → Results → Prop) (call : Call)
    (s : ExecState) : Prop :=
  (call.Valid → CallInv host call (Q call) s) ∧ (¬ call.Valid → Refused s)

/-- Every call of the engine, at any place, keeps `C` and its own invariant. -/
theorem EngineCallInv.step (hrule : CacheRule host S beh Q C) {call : Call}
    {x y : ResultCache × ExecState} {a : Act} (hS : S call) (hok : Permits beh call x a)
    (hs : Formshift.step host call x a = some y) (hC : C x.1)
    (h : EngineCallInv host Q call x.2) : C y.1 ∧ EngineCallInv host Q call y.2 := by
  by_cases hw : call.Valid
  · obtain ⟨hC', hI⟩ := (h.1 hw).step hrule hS hw hC hok hs
    exact ⟨hC', fun _ => hI, fun hn => absurd hw hn⟩
  · obtain ⟨hcache, hR⟩ := (h.2 hw).step hs
    exact ⟨hcache ▸ hC, fun hv => absurd hv hw, fun _ => hR⟩

/-- The flag is set. -/
theorem EngineCallInv.cancel (hrule : CacheRule host S beh Q C) {call : Call} {cache : ResultCache}
    {s : ExecState} (hS : S call) (hC : C cache) (h : EngineCallInv host Q call s) :
    EngineCallInv host Q call { s with cancel := true } :=
  (EngineCallInv.step hrule (x := (cache, s)) (a := .cancel) hS trivial rfl hC h).2

theorem EngineCallInv.enter (call : Call) : EngineCallInv host Q call (enter call) :=
  ⟨fun hw => CallInv.enter hw, fun hw => refused_enter hw⟩

/-- A returned call was valid. -/
theorem EngineCallInv.valid_of_returned {call : Call} {s : ExecState}
    (h : EngineCallInv host Q call s) {r : ExecutionReport} (hr : s.phase = .returned r) : call.Valid := by
  by_contra hw
  obtain ⟨-, errors, hp⟩ := h.2 hw
  cases hp.symm.trans hr

/-- **The rule for the engine**: `C` holds of the cache and `Q` of all results,
in every state of every run that starts with an empty cache. -/
theorem engine_inv (hrule : CacheRule host S beh Q C) (hempty : C ∅) {E : Engine}
    (hrun : EngineReaches host S beh Engine.empty E) :
    PoolInv S C (fun _ call _ => EngineCallInv host Q call) E :=
  PoolInv.reaches (G := fun _ _ => True) (fun _ call _ _ _ => EngineCallInv.enter call)
    (fun _ _ _ _ _ hS hok hs hC hI =>
      have hnext := hI.step hrule hS hok hs hC
      ⟨hnext.1, hnext.2, trivial⟩)
    (fun _ _ _ _ _ _ _ => id) hrun ⟨hempty, fun _ _ _ h => by simp [Engine.empty] at h⟩

/-- A run of one call is a run of the engine. -/
theorem engineReaches_of_call {call : Call} (hS : S call) {x : ResultCache × ExecState}
    (hrun : CallReaches host beh call (∅, Formshift.enter call) x) :
    EngineReaches host S beh Engine.empty ⟨x.1, [(call, x.2)]⟩ := by
  have hspawn : EngineReaches host S beh Engine.empty ⟨∅, [(call, Formshift.enter call)]⟩ :=
    Relation.ReflTransGen.single ⟨.spawn call, hS, rfl⟩
  exact hspawn.trans (PoolReaches.of_member (i := 0) rfl hrun)

end Engine

end Formshift
