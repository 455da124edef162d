/-
Formshift/Accepted.lean

A graph accepted at submission is still valid when it runs.

`submit_job` and `execute_graph` validate one graph at two times, against the
registry and the payloads as they stand.  In a world where installs, uploads
and jobs interleave, nothing takes a module or a payload away: the preflight,
made under the lock, has found every module name free, so no registration is
ever taken back, and a payload keeps its id.  An accepted graph therefore stays
valid, and no job ends for `GraphValidationError`
(`accepted_graphs_stay_valid`).
-/
import Formshift.NoTrace
import Formshift.InstallOrder

namespace Formshift

open Py Steps

/-! ### Installs next to jobs -/

/-- The extension manager of a server, and its jobs and uploads. -/
structure World where
  installs : Installs
  server : Server

inductive WorldAct where
  | install (a : InstallsAct)
  | server (a : PoolAct Party PartyAct)

/-- The jobs of a server see the registry as it stands. -/
def Service.at (service : Service) (mgr : Manager) : Service :=
  { service with registry := mgr.registry }

def World.start (mgr : Manager) : World := ⟨.start mgr, Server.empty⟩

def Progress.isRegistering : Progress → Bool
  | .registering _ _ _ => true
  | _ => false

/-- No registration fails but by `register_isolated` or `_add`. -/
def Unforced (P : Installs) : InstallsAct → Prop
  | .step (.fail _) => ∀ h ∈ P.holder, h.progress.isRegistering = false
  | .step .go | .step (.copyPart _) | .step .writePart | .call _ | .enter _ | .leave => True

section World

variable (site : Site) (service : Service) (beh : Behaviour)

def worldStep (W : World) : WorldAct → Option World
  | .install a => (installsStep site W.installs a).map fun P => { W with installs := P }
  | .server a =>
    (poolStep Party.start (partyStep (service.at W.installs.manager)) W.server a).map
      fun S => { W with server := S }

def WorldOk (W : World) : WorldAct → Prop
  | .install a => InstallsOk a ∧ Unforced W.installs a
  | .server a => PoolOk (fun _ => True) (PartyOk (service.at W.installs.manager) beh) W.server a

abbrev WorldReaches : World → World → Prop :=
  Reaches (Fires (worldStep site service) (WorldOk service beh))

end World

/-! ### The registry grows -/

section Registry

variable {site : Site} {source : Source} {P P' : Installs}

/-- No registration is being taken back. -/
def Forward (P : Installs) : Prop :=
  ∀ h, P.holder = some h → ∀ m names e, h.progress ≠ .unregistering m names e

theorem get_set_of_free {reg : ModuleRegistry} {m : ModuleManifest} (hfree : reg.get m.name = none)
    {name : Str} {m' : ModuleManifest} (h : reg.get name = some m') :
    (reg.set m).get name = some m' := by
  rw [ModuleRegistry.get_set, if_neg, h]
  rintro rfl
  rw [hfree] at h
  cases h

/-- The name of the next module is free. -/
theorem Entered.free {before mgr : Manager} {m : ExtensionManifest}
    {specs todo : List ExtensionModuleSpec} {spec : ExtensionModuleSpec}
    (h : Entered site source before m specs mgr) (hmodules : m.modules = specs ++ spec :: todo) :
    mgr.registry.get spec.name = none := by
  have hpassed := preflight_ok h.passed
  have hnodup := hpassed.ok.modules_nodup
  rw [hmodules, List.map_append, List.map_cons] at hnodup
  have hnew : spec.name ∉ specs.map ExtensionModuleSpec.name := fun hin =>
    (List.nodup_append.mp hnodup).2.2 _ hin _ List.mem_cons_self rfl
  rw [h.registry, get_setAll_of_notMem hnew]
  apply hpassed.free
  rw [hmodules]
  simp

/-- An install that does not take anything back only adds to the registry. -/
theorem installStep_grows {before : Manager} {x y : Manager × Progress} {a : InstallAct}
    (hinv : InstallInv site source before x)
    (hforward : ∀ m names e, x.2 ≠ .unregistering m names e)
    (hunforced : ∀ e, a = .fail e → x.2.isRegistering = false)
    (hs : installStep site source x a = some y) :
    (∀ name m, x.1.registry.get name = some m → y.1.registry.get name = some m) ∧
      ∀ m names e, y.2 ≠ .unregistering m names e := by
  obtain ⟨mgr, progress⟩ := x
  cases a with
  | go =>
      cases progress with
      | checking =>
          simp only [installStep] at hs
          split at hs
          · obtain rfl := Option.some.inj hs
            exact ⟨fun _ _ hm => hm, by simp⟩
          · obtain rfl := Option.some.inj hs
            exact ⟨fun _ _ hm => hm, by simp⟩
      | registering m registered todo =>
          obtain ⟨specs, hentered, -, hmodules⟩ := hinv
          cases todo with
          -- a name that is registered was free
          | cons spec todo =>
              simp only [installStep, hentered.register hmodules] at hs
              obtain rfl := Option.some.inj hs
              exact ⟨fun _ _ hm => get_set_of_free (hentered.free hmodules) hm, by simp⟩
          | nil =>
              obtain rfl := Option.some.inj hs
              exact ⟨fun _ _ hm => hm, by simp⟩
      | unregistering m names e => exact absurd rfl (hforward m names e)
      | making | copying | venv | pip | writing | rollback =>
          obtain rfl := Option.some.inj hs
          exact ⟨fun _ _ hm => hm, by simp⟩
      | returning result => cases hs
  -- nothing is taken back, for it has not failed while it registered
  | fail e =>
      cases progress with
      | registering m registered todo => exact absurd (hunforced e rfl) (by simp [Progress.isRegistering])
      | making | copying | venv | pip | writing =>
          obtain rfl := Option.some.inj hs
          exact ⟨fun _ _ hm => hm, by simp⟩
      | checking | unregistering | rollback | returning => cases hs
  | copyPart part =>
      cases progress with
      | copying m =>
          obtain rfl := Option.some.inj hs
          exact ⟨fun _ _ hm => hm, by simp⟩
      | checking | making | venv | pip | writing | registering | unregistering | rollback
      | returning => cases hs
  | writePart =>
      cases progress with
      | writing m =>
          obtain rfl := Option.some.inj hs
          exact ⟨fun _ _ hm => hm, by simp⟩
      | checking | making | copying | venv | pip | registering | unregistering | rollback
      | returning => cases hs

/-- **A step among the installs only adds to the registry.** -/
theorem installsStep_grows {a : InstallsAct} (hholder : HolderInv site P) (hforward : Forward P)
    (hunforced : Unforced P a) (hs : installsStep site P a = some P') :
    (∀ name m, P.manager.registry.get name = some m → P'.manager.registry.get name = some m) ∧
      Forward P' := by
  obtain ⟨manager, holder, calls⟩ := P
  cases a with
  | call source =>
      obtain rfl := Option.some.inj hs
      exact ⟨fun _ _ hm => hm, hforward⟩
  | enter i =>
      simp only [installsStep] at hs
      split at hs
      · obtain rfl := Option.some.inj hs
        refine ⟨fun _ _ hm => hm, fun h hh => ?_⟩
        obtain rfl := Option.some.inj hh
        simp
      · cases hs
  -- the one that holds the lock goes on
  | step a =>
      cases holder with
      | none => cases hs
      | some g =>
          obtain ⟨y, hy, rfl⟩ := Option.map_eq_some_iff.mp hs
          obtain ⟨-, hrun⟩ := hholder g rfl
          obtain ⟨hgrows, hahead⟩ := installStep_grows (install_inv hrun) (hforward g rfl)
            (fun e he => by subst he; exact hunforced g rfl) hy
          refine ⟨hgrows, fun h hh => ?_⟩
          obtain rfl := Option.some.inj hh
          exact hahead
  | leave =>
      simp only [installsStep] at hs
      split at hs
      · obtain rfl := Option.some.inj hs
        exact ⟨fun _ _ hm => hm, fun h hh => by cases hh⟩
      · cases hs

end Registry

/-! ### What `execute_graph` raises past its validation -/

/-- Not a `GraphValidationError`. -/
def Exn.PastValidation (e : Exn) : Prop := ∀ errors, e ≠ .invalid errors

theorem checkContract_pastValidation {m : ModuleManifest} {results : Results} {e : Exn}
    (h : checkContract m results = some e) : e.PastValidation := by
  -- a wrong type, or a type of an undeclared port
  have htypes : ∀ entries : List (Sigma fun _ : Str => ModuleResult),
      checkTypes m entries = some e → e.PastValidation := by
    intro entries hcheck
    induction entries with
    | nil => cases hcheck
    | cons x xs ih =>
        simp only [checkTypes] at hcheck
        split at hcheck
        · obtain rfl := Option.some.inj hcheck
          simp [Exn.PastValidation]
        · split at hcheck
          · obtain rfl := Option.some.inj hcheck
            simp [Exn.PastValidation]
          · exact ih hcheck
  -- a missing port, or an undeclared one
  simp only [checkContract] at h
  split at h
  · obtain rfl := Option.some.inj h
    simp [Exn.PastValidation]
  · split at h
    · obtain rfl := Option.some.inj h
      simp [Exn.PastValidation]
    · exact htypes _ h

/-- Once `execute_graph` is past its validation nothing validates again. -/
theorem Raises.pastValidation {host : Host} {call : Call} {cache cache' : ResultCache}
    {s s' : ExecState} {a : Act} (h : Raises Exn.PastValidation s)
    (hs : Formshift.step host call (cache, s) a = some (cache', s')) :
    Raises Exn.PastValidation s' := by
  rcases step_move host call hs with ⟨i, w, f, t, f', rfl, hf, hm, rfl⟩ | ⟨-, hm⟩
  · refine h.setFuture hm.frame.1 fun e he => ?_
    cases hm with
    -- what a future fails with comes from its module or from the contract
    | reject hst hcheck =>
        obtain rfl := Stage.failed.inj he
        exact checkContract_pastValidation hcheck
    | startFault | raise | stop | emitFault =>
        obtain rfl := Stage.failed.inj he
        simp [Exn.PastValidation]
    | start | hit | miss | accept | pass | put | record | notify | emit | emitted | finish =>
        cases he
  · cases hm with
    -- the report raises where an output is missing
    | exit =>
        refine ⟨h.futures, fun e he => ?_, fun e he => ?_⟩
        · revert he
          simp only [report]
          split <;> simp
        · revert he
          simp only [report]
          split
          · simp only [Phase.raised.injEq]
            rintro rfl
            simp [Exn.PastValidation]
          · simp
    | stop =>
        refine ⟨h.futures, fun e he => ?_, by simp⟩
        obtain rfl := Phase.draining.inj he
        simp [Exn.PastValidation]
    | processFault =>
        refine ⟨h.futures, fun e he => ?_, by simp⟩
        obtain rfl := Phase.draining.inj he
        simp [Exn.PastValidation]
    -- the exception is that of the future
    | failed hp hf he =>
        refine ⟨h.futures, fun e' he' => ?_, by simp⟩
        obtain rfl := Phase.draining.inj he'
        exact h.futures _ (List.mem_of_getElem? hf) _ he
    | join hp hd =>
        refine ⟨h.futures, by simp, fun e he => ?_⟩
        obtain rfl := Phase.raised.inj he
        exact h.draining _ hp
    | submit hp hr =>
        refine ⟨fun f hf e he => ?_, h.draining, h.raised⟩
        rcases List.mem_append.mp hf with hf | hf
        · exact h.futures f hf e he
        · rw [List.mem_singleton.mp hf] at he
          cases he
    | @process i todo =>
        refine ⟨h.futures, ?_, ?_⟩ <;> cases todo <;> simp [afterFuture]
    | dispatch | submitted | wait => exact ⟨h.futures, by simp, by simp⟩
    | cancel => exact ⟨h.futures, h.draining, h.raised⟩

/-! ### The jobs -/

/-- The outcome of a job whose `execute_graph` has ended. -/
def JobStage.outcome? : JobStage → Option Outcome
  | .ended outcome | .closing outcome | .announcing outcome | .done outcome => some outcome
  | _ => none

/-- A job that was accepted: its graph is valid as things stand, and what its
`execute_graph` raises, or has raised, is no `GraphValidationError`. -/
structure AcceptedOk (service : Service) (req : JobRequest) (k : SessionState) (j : JobState) :
    Prop where
  valid : j.stage.isJob = true → WellFormed req.graph service.registry k.session
  raises : ∀ groups s, j.stage = .executing groups s → Raises Exn.PastValidation s
  outcome : ∀ outcome, j.stage.outcome? = some outcome →
    outcome = .completed ∨ ∃ e, Exn.PastValidation e ∧ outcome = e.outcome service.repr

section Jobs

variable {service : Service} {beh : Behaviour} {req : JobRequest}

/-- Payloads and modules may be added. -/
theorem AcceptedOk.keep {service' : Service} {k k' : SessionState} {j : JobState}
    (h : AcceptedOk service req k j) (hrepr : service'.repr = service.repr)
    (hk : Keeps service.registry service'.registry k.session k'.session) :
    AcceptedOk service' req k' j :=
  ⟨fun hj => (h.valid hj).keep hk, h.raises, fun outcome ho => hrepr ▸ h.outcome outcome ho⟩

/-- A step of a job takes no payload away. -/
theorem jobStep_payloads {x y : Desk × JobState} {a : JobAct} (hok : JobOk service req beh x a)
    (hs : jobStep service req x a = some y) (id : Str) (p : Payload)
    (hp : x.1.2.session.payloads.lookup id = some p) :
    y.1.2.session.payloads.lookup id = some p := by
  cases jobStep_move service req hs with
  | emitted hst hexec hret => exact (gateStep_session (by simp) hret).1 id p hp
  | gate hst hcall hnret hgate =>
      exact (gateStep_session (by rintro t id rfl; exact hok) hgate).1 id p hp
  | refuse | accept | announcePending | mark | announceRunning | group | stuck | enter | returned
  | raised | close | announceStatus | announceEnd | exec | notify | cancel => exact hp

theorem entered_raises {k : Desk} {j : JobState}
    (hw : WellFormed req.graph service.registry k.2.session) :
    Raises Exn.PastValidation (entered service req k j) := by
  have hcall : (req.call service k.2.session).Valid := hw
  have henter : Raises Exn.PastValidation (enter (req.call service k.2.session)) :=
    Raises.enter hcall
  exact ⟨henter.futures, henter.draining, henter.raised⟩

/-- **The step lemma of a job.** -/
theorem AcceptedOk.step {x y : Desk × JobState} {a : JobAct} (h : AcceptedOk service req x.1.2 x.2)
    (hok : JobOk service req beh x a) (hs : jobStep service req x a = some y) :
    AcceptedOk service req y.1.2 y.2 := by
  have hkeeps : Keeps service.registry service.registry x.1.2.session y.1.2.session :=
    ⟨fun _ _ hm => hm, fun id p hp => jobStep_payloads hok hs id p hp⟩
  -- what was valid stays so
  have hlater : x.2.stage.isJob = true → WellFormed req.graph service.registry y.1.2.session :=
    fun hj => (h.valid hj).keep hkeeps
  cases jobStep_move service req hs with
  | refuse => exact ⟨by simp [JobStage.isJob], by simp, by simp [JobStage.outcome?]⟩
  | accept hst hvalid =>
      exact ⟨fun _ => validateGraph_nil_iff.mp hvalid, by simp, by simp [JobStage.outcome?]⟩
  | announcePending hst | mark hst | announceRunning hst | group hst | stuck hst =>
      refine ⟨fun _ => hlater ?_, by simp, by simp [JobStage.outcome?]⟩
      rw [hst]
      rfl
  | enter hst =>
      have hw := hlater (by rw [hst]; rfl)
      refine ⟨fun _ => hw, fun groups s heq => ?_, by simp [JobStage.outcome?]⟩
      obtain ⟨-, rfl⟩ := JobStage.executing.inj heq
      exact entered_raises hw
  -- the call has returned, or raised what its futures have
  | returned hst =>
      refine ⟨fun _ => hlater (by rw [hst]; rfl), by simp, fun outcome ho => Or.inl ?_⟩
      exact (Option.some.inj ho).symm
  | @raised groups s e hst hp =>
      refine ⟨fun _ => hlater (by rw [hst]; rfl), by simp, fun outcome ho => Or.inr ⟨e, ?_, ?_⟩⟩
      · exact (h.raises groups s hst).raised e hp
      · exact (Option.some.inj ho).symm
  | close hst | announceStatus hst | announceEnd hst =>
      refine ⟨fun _ => hlater (by rw [hst]; rfl), by simp, fun outcome ho => ?_⟩
      apply h.outcome
      rw [hst]
      exact ho
  | exec hst _ hexec | notify hst _ _ hexec | emitted hst hexec =>
      refine ⟨fun _ => hlater (by rw [hst]; rfl), fun groups s heq => ?_,
        by simp [JobStage.outcome?]⟩
      obtain ⟨-, rfl⟩ := JobStage.executing.inj heq
      exact (h.raises _ _ hst).pastValidation hexec
  | gate hst =>
      refine ⟨fun _ => hlater (by rw [hst]; rfl), h.raises, ?_⟩
      show ∀ outcome, x.2.stage.outcome? = some outcome → _
      exact h.outcome
  | cancel hjob =>
      obtain ⟨k, stage, status, error, cancel, gate⟩ := x
      cases stage with
      | executing groups s =>
          refine ⟨fun _ => hlater rfl, fun groups' s' heq => ?_, by simp [JobStage.outcome?,
            JobStage.setCancel]⟩
          obtain ⟨-, rfl⟩ := JobStage.executing.inj heq
          have hraises := h.raises groups s rfl
          exact ⟨hraises.futures, hraises.draining, hraises.raised⟩
      | validating | refused | inserted | spawned | marked | grouping | stuck | entering | ended
      | closing | announcing | done => exact ⟨h.valid, h.raises, h.outcome⟩

/-- A party that is a job. -/
def PartyAccepted (service : Service) (m : Party) (k : ServerStore) (p : PartyState) : Prop :=
  ∀ req j, m = .job req → p = .job j → AcceptedOk service req (k.sessions req.session) j

theorem PartyAccepted.keep {service' : Service} {m : Party} {k k' : ServerStore} {p : PartyState}
    (h : PartyAccepted service m k p) (hrepr : service'.repr = service.repr)
    (hreg : ∀ name m, service.registry.get name = some m → service'.registry.get name = some m)
    (hgrown : Grown k k') : PartyAccepted service' m k' p :=
  fun req j hm hp => (h req j hm hp).keep hrepr ⟨hreg, hgrown req.session⟩

theorem PartyAccepted.step {m : Party} {x y : ServerStore × PartyState} {a : PartyAct}
    (h : PartyAccepted service m x.1 x.2) (hok : PartyOk service beh m x a)
    (hs : partyStep service m x a = some y) : PartyAccepted service m y.1 y.2 ∧ Grown x.1 y.1 := by
  obtain ⟨k, p⟩ := x
  cases m with
  | job req =>
      cases p with
      | job j =>
          cases a with
          | job a =>
              -- the job takes its step on its own desk
              obtain ⟨z, hz, rfl⟩ := Option.map_eq_some_iff.mp hs
              refine ⟨?_, grown_put fun id p hp => jobStep_payloads hok hz id p hp⟩
              intro req' j' hreq hj
              obtain rfl := Party.job.inj hreq
              obtain rfl := PartyState.job.inj hj
              show AcceptedOk service req ((k.put req.session z.1).desk req.session).2 z.2
              rw [ServerStore.desk_put_self]
              have hjob := h req j rfl rfl
              exact hjob.step (x := (k.desk req.session, j)) hok hz
          | store id => cases hs
      | uploading | uploaded => cases hs
  | upload session type data =>
      cases p with
      | uploading =>
          cases a with
          | job a => cases hs
          | store id =>
              obtain rfl := Option.some.inj hs
              refine ⟨fun req j hm => absurd hm (by simp), grown_put ?_⟩
              exact (@interferes_addPayload session _ _ hok type data).payloads
      | job j | uploaded id => cases hs

end Jobs

/-! ### The world -/

section World

variable {site : Site} {service : Service} {beh : Behaviour} {mgr : Manager} {W W' : World}

/-- What holds whatever is installed, uploaded and run. -/
structure WorldInv (site : Site) (service : Service) (W : World) : Prop where
  holder : HolderInv site W.installs
  forward : Forward W.installs
  jobs : PoolInv (fun _ => True) (fun _ => True)
    (fun _ m k p => PartyAccepted (service.at W.installs.manager) m k p) W.server

theorem WorldInv.step {a : WorldAct} (h : WorldInv site service W) (hok : WorldOk service beh W a)
    (hs : worldStep site service W a = some W') : WorldInv site service W' := by
  cases a with
  | install a =>
      obtain ⟨P, hP, rfl⟩ := Option.map_eq_some_iff.mp hs
      obtain ⟨hgrows, hforward⟩ := installsStep_grows h.holder h.forward hok.2 hP
      refine ⟨HolderInv.step h.holder hok.1 hP, hforward, trivial, fun i m p hi => ⟨trivial, ?_⟩⟩
      exact PartyAccepted.keep (h.jobs.members i m p hi).2 rfl hgrows fun _ _ _ hp => hp
  | server a =>
      obtain ⟨S, hS, rfl⟩ := Option.map_eq_some_iff.mp hs
      refine ⟨h.holder, h.forward, PoolInv.fires (G := Grown) ?_ ?_ ?_ ⟨a, hok, hS⟩ h.jobs⟩
      · rintro - m k - - req j rfl hj
        obtain rfl := PartyState.job.inj hj
        exact ⟨by simp [JobState.init, JobStage.isJob], by simp [JobState.init],
          by simp [JobState.init, JobStage.outcome?]⟩
      · intro _ m x b y _ hokb hsb _ hI
        exact ⟨trivial, hI.step hokb hsb⟩
      · intro _ m k k' p _ hgrown hI
        exact hI.keep rfl (fun _ _ hm => hm) hgrown

theorem world_inv (hrun : WorldReaches site service beh (.start mgr) W) :
    WorldInv site service W := by
  refine Reaches.invariant (I := WorldInv site service) ?_ hrun ⟨?_, ?_, trivial, ?_⟩
  case refine_2 =>
    intro h hh
    cases hh
  case refine_3 =>
    intro h hh
    cases hh
  case refine_4 =>
    intro i m p hi
    simp [World.start, Server.empty] at hi
  rintro W W' ⟨a, hok, hs⟩ h
  exact h.step hok hs

/-- **A graph accepted at submission is still valid when it runs**, whatever
has been uploaded, stored and installed in between, and a job that was
answered with its id ends for no `GraphValidationError`. -/
theorem accepted_graphs_stay_valid (hrun : WorldReaches site service beh (.start mgr) W) {i : Nat}
    {req : JobRequest} {j : JobState} (hi : W.server.members[i]? = some (.job req, .job j))
    (haccepted : j.stage.isJob = true) :
    validateGraph req.graph W.installs.manager.registry
      (W.server.store.sessions req.session).session = [] ∧
    (∀ groups s errors, j.stage = .executing groups s → s.phase ≠ .raised (.invalid errors)) ∧
    ∀ outcome, j.stage.outcome? = some outcome → outcome = .completed ∨
      ∃ e : Exn, (∀ errors, e ≠ .invalid errors) ∧ outcome = e.outcome service.repr := by
  obtain ⟨hvalid, hraises, houtcome⟩ := ((world_inv hrun).jobs.members i _ _ hi).2 req j rfl rfl
  refine ⟨validateGraph_nil_iff.mpr (hvalid haccepted), fun groups s errors hst hp => ?_, houtcome⟩
  exact (hraises groups s hst).raised _ hp errors rfl

/-! ### A job during an install -/

instance (P : Installs) (a : InstallsAct) : Decidable (Unforced P a) :=
  match a with
  | .step (.fail _) =>
    inferInstanceAs (Decidable (∀ h ∈ P.holder, h.progress.isRegistering = false))
  | .step .go | .step (.copyPart _) | .step .writePart | .call _ | .enter _ | .leave => isTrue trivial

instance (service : Service) (S : Server) (a : PoolAct Party PartyAct) :
    Decidable (PoolOk (fun _ => True) (PartyOk service anyBehaviour) S a) :=
  match a with
  | .spawn _ => isTrue trivial
  | .act i a =>
    decidable_of_iff (∀ x ∈ S.members[i]?, PartyOk service anyBehaviour x.1 (S.store, x.2) a)
      ⟨fun h m s hm => h (m, s) hm, fun h x hx => h x.1 x.2 hx⟩

instance (service : Service) (W : World) (a : WorldAct) :
    Decidable (WorldOk service anyBehaviour W a) :=
  match a with
  | .install a => inferInstanceAs (Decidable (InstallsOk a ∧ Unforced W.installs a))
  | .server a => inferInstanceAs (Decidable
      (PoolOk (fun _ => True) (PartyOk (service.at W.installs.manager) anyBehaviour) W.server a))

/-- The job is accepted, an extension is installed, the job runs. -/
def jobDuringInstall : List WorldAct :=
  [.server (.spawn (.job pinnedRequest)), .server (.act 0 (.job .advance))] ++
    ([.call (sampleSource "a" "blur"), .enter 0] ++ List.replicate 8 (.step .go) ++ [.leave] :
      List InstallsAct).map .install ++
    (pinnedJobActs.drop 1).map fun a => .server (.act 0 (.job a))

/-- The job and the calls of `install`. -/
def World.summary (W : World) : Option (JobStatus × Option Outcome × List (Option String)) :=
  match (W.server.members[0]? : Option (Party × PartyState)) with
  | some (.job _, .job j) => some (j.status, j.stage.outcome?, W.installs.outcomes)
  | _ => none

theorem accepted_graphs_stay_valid_installed : ∃ (W : World) (req : JobRequest) (j : JobState),
    WorldReaches sampleSite sampleService anyBehaviour (.start ⟨sampleRegistry, ∅, ∅⟩) W ∧
      W.server.members[0]? = some (.job req, .job j) ∧ j.status = .completed ∧
      W.installs.outcomes = [some "a"] ∧
      validateGraph req.graph W.installs.manager.registry
        (W.server.store.sessions req.session).session = [] := by
  -- a job that runs while an extension is installed
  have hcheck : (runActs (guarded (worldStep sampleSite sampleService)
      (WorldOk sampleService anyBehaviour)) jobDuringInstall
      (.start ⟨sampleRegistry, ∅, ∅⟩)).bind World.summary =
        some (.completed, some .completed, [some "a"]) := by
    decide +kernel
  obtain ⟨W, hW, hcheck⟩ := Option.bind_eq_some_iff.mp hcheck
  unfold World.summary at hcheck
  split at hcheck
  · rename_i req j hmember
    simp only [Option.some.injEq, Prod.mk.injEq] at hcheck
    obtain ⟨hstatus, houtcome, houtcomes⟩ := hcheck
    have hjob : j.stage.isJob = true := by
      revert houtcome
      cases j.stage <;> simp [JobStage.outcome?, JobStage.isJob]
    have hrun := reaches_of_guarded hW
    exact ⟨W, req, j, hrun, hmember, hstatus, houtcomes,
      (accepted_graphs_stay_valid hrun hmember hjob).1⟩
  · cases hcheck

end World

end Formshift
