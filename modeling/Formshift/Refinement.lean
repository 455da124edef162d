/-
Formshift/Refinement.lean

A server refines the engine.

To the result cache a server is nothing but its calls of `execute_graph`: the
uploads, the handlers, the log and the gates of pinned groups come and go
around them.  `ServerMove` is a step of a server as the engine sees it, and
`server_refines_engine` is the simulation: every run of a server is a run of
the engine on the same cache, with a call for each job that executes.  What
holds of every run of the engine holds of every server.
-/
import Formshift.SessionRuns

namespace Formshift

open Py Steps

/-! ### Jobs that execute -/

/-- The job in this place executes, and its call stands here. -/
def Server.Runs (P : Server) (i : Nat) (req : JobRequest) (s : ExecState) : Prop :=
  ∃ j groups, P.jobAt i = some (req, j) ∧ j.stage = .executing groups s

/-- The session has kept these payloads. -/
def Server.Keeps (P : Server) (req : JobRequest) (session : Session) : Prop :=
  ∀ id p, session.payloads.lookup id = some p →
    (P.store.sessions req.session).session.payloads.lookup id = some p

/-- A valid call of one of the jobs, in its session as it was. -/
def Server.Calls (service : Service) (P : Server) (call : Call) : Prop :=
  call.Valid ∧ ∃ i req j session, P.jobAt i = some (req, j) ∧ P.Keeps req session ∧
    call = req.call service session

section Accepted

variable {service : Service} {beh : Behaviour} {P P' : Server} {i : Nat} {req : JobRequest}
  {j : JobState}

/-- The graph of every job of a server is valid as its session stands. -/
theorem server_accepted (hrun : ServerReaches service beh Server.empty P)
    (hi : P.jobAt i = some (req, j)) :
    AcceptedOk service req (P.store.sessions req.session) j := by
  have hinv : PoolInv (fun _ => True) (fun _ => True)
      (fun _ m k p => PartyAccepted service m k p) P := by
    refine PoolInv.reaches (G := Grown) ?_ ?_ ?_ hrun
      ⟨trivial, fun _ _ _ h => by simp [Server.empty] at h⟩
    · rintro - m k - - req j rfl hj
      obtain rfl := PartyState.job.inj hj
      exact ⟨by simp [JobState.init, JobStage.isJob], by simp [JobState.init],
        by simp [JobState.init, JobStage.outcome?]⟩
    · rintro - m x a y - hok hs - hI
      obtain ⟨hI', hG⟩ := hI.step hok hs
      exact ⟨trivial, hI', hG⟩
    · rintro - m k k' p - hG hI
      exact hI.keep rfl (fun _ _ h => h) hG
  exact (hinv.members i _ _ (Server.jobAt_eq_some.mp hi)).2 req j rfl rfl

/-- A job that executes has a valid call. -/
theorem server_runs_valid (hrun : ServerReaches service beh Server.empty P) {s : ExecState}
    (hruns : P.Runs i req s) :
    (req.call service (P.store.sessions req.session).session).Valid := by
  obtain ⟨j, groups, hi, hst⟩ := hruns
  apply (server_accepted hrun hi).valid
  rw [hst]
  rfl

/-- Where the jobs of the next state come from. -/
theorem Server.jobAt_next {e : PoolAct Party PartyAct}
    (hs : poolStep Party.start (partyStep service) P e = some P')
    (hi : P'.jobAt i = some (req, j)) :
    (∀ b, e ≠ .act i b) ∧ (P.jobAt i = some (req, j) ∨ j = .init) ∨
      ∃ b k y, e = .act i (.job b) ∧ P.jobAt i = some (req, k) ∧
        jobStep service req (P.store.desk req.session, k) b = some y ∧ j = y.2 ∧
          P'.store = P.store.put req.session y.1 := by
  have hm := Server.jobAt_eq_some.mp hi
  rcases poolStep_cases hs with ⟨m, rfl, rfl⟩ | ⟨n, b, m, p, x, rfl, hn, hx, rfl⟩
  · refine Or.inl ⟨by simp, ?_⟩
    -- it was there, or is the new one
    rcases Nat.lt_or_ge i P.members.length with hlt | hge
    · left
      rw [List.getElem?_append_left hlt] at hm
      exact Server.jobAt_eq_some.mpr hm
    · right
      rw [List.getElem?_append_right hge, List.getElem?_singleton] at hm
      split at hm
      · obtain ⟨rfl, hj⟩ := Prod.mk.inj (Option.some.inj hm)
        exact (PartyState.job.inj hj).symm
      · cases hm
  · rcases getElem?_set_some hm with ⟨rfl, heq⟩ | ⟨hni, hold⟩
    · obtain ⟨rfl, hj⟩ := Prod.mk.inj heq
      cases p with
      | job k =>
          cases b with
          | job b =>
              obtain ⟨y, hy, rfl⟩ := Option.map_eq_some_iff.mp hx
              exact Or.inr ⟨b, k, y, rfl, Server.jobAt_eq_some.mpr hn, hy,
                PartyState.job.inj hj, rfl⟩
          | store id => cases hx
      | uploading | uploaded => cases hx
    · refine Or.inl ⟨fun b' heq => hni (PoolAct.act.inj heq).1.symm, Or.inl ?_⟩
      exact Server.jobAt_eq_some.mpr hold

end Accepted

/-! ### A step, as the engine sees it -/

section Moves

variable (service : Service) (beh : Behaviour)

/-- What a step of a server is to the engine. -/
inductive ServerMove (P P' : Server) : Prop
  /-- It does not notice. -/
  | quiet (hcache : P'.store.cache = P.store.cache)
      (hruns : ∀ i req s, P'.Runs i req s → P.Runs i req s)
  /-- A job calls `execute_graph`; it may have been cancelled before. -/
  | enter {i req cancel} (hcache : P'.store.cache = P.store.cache)
      (hvalid : (req.call service (P.store.sessions req.session).session).Valid)
      (hjob : ∃ j, P.jobAt i = some (req, j))
      (hruns : ∀ i' req' s, P'.Runs i' req' s → i' ≠ i ∧ P.Runs i' req' s ∨
        i' = i ∧ req' = req ∧
          s = { enter (req.call service (P.store.sessions req.session).session) with
            cancel := cancel })
  /-- A call takes a step. -/
  | act {i req s a s'} (hat : P.Runs i req s)
      (hok : Permits beh (req.call service (P.store.sessions req.session).session)
        (P.store.cache, s) a)
      (hs : step service.host (req.call service (P.store.sessions req.session).session)
        (P.store.cache, s) a = some (P'.store.cache, s'))
      (hruns : ∀ i' req' t, P'.Runs i' req' t → i' ≠ i ∧ P.Runs i' req' t ∨
        i' = i ∧ req' = req ∧ t = s')

variable {service beh} {P P' : Server} {n : Nat} {req : JobRequest} {j : JobState}

/-- A job of the next state that executes is one that did, or the one that has
moved. -/
theorem Server.runs_of_act {b : JobAct} (hn : P.jobAt n = some (req, j)) {y : Desk × JobState}
    (hy : jobStep service req (P.store.desk req.session, j) b = some y)
    (hs : poolStep Party.start (partyStep service) P (.act n (.job b)) = some P')
    {i : Nat} {req' : JobRequest} {s : ExecState} (hruns : P'.Runs i req' s) :
    i ≠ n ∧ P.Runs i req' s ∨
      i = n ∧ req' = req ∧ ∃ groups, y.2.stage = .executing groups s := by
  obtain ⟨j', groups, hi, hst⟩ := hruns
  rcases Server.jobAt_next hs hi with ⟨hother, hold⟩ | ⟨b', k, y', heq, hk, hy', rfl, -⟩
  · refine Or.inl ⟨fun hin => hother (.job b) (by rw [hin]), j', groups, ?_, hst⟩
    rcases hold with hold | rfl
    · exact hold
    · cases hst
  · obtain ⟨rfl, hb⟩ := PoolAct.act.inj heq
    obtain rfl := PartyAct.job.inj hb
    obtain ⟨rfl, rfl⟩ := Prod.mk.inj (Option.some.inj (hn.symm.trans hk))
    obtain rfl := Option.some.inj (hy.symm.trans hy')
    exact Or.inr ⟨rfl, rfl, groups, hst⟩

/-- The step of a job. -/
theorem serverMove_of_job {b : JobAct} (hn : P.jobAt n = some (req, j)) {y : Desk × JobState}
    (hvalid : j.stage.isJob = true →
      (req.call service (P.store.sessions req.session).session).Valid)
    (hok : JobOk service req beh (P.store.desk req.session, j) b)
    (hy : jobStep service req (P.store.desk req.session, j) b = some y)
    (hs : poolStep Party.start (partyStep service) P (.act n (.job b)) = some P')
    (hstore : P'.store = P.store.put req.session y.1) : ServerMove service beh P P' := by
  have hcache : P'.store.cache = y.1.1 := by
    rw [hstore]
    rfl
  have hnext := @Server.runs_of_act service P P' n req j b hn y hy hs
  -- the call is where it was
  have hquiet : y.1.1 = P.store.cache →
      (∀ groups s, y.2.stage = .executing groups s → P.Runs n req s) →
        ServerMove service beh P P' := by
    refine fun hsame hkeep => .quiet (hcache.trans hsame) fun i req' s hruns => ?_
    rcases hnext hruns with ⟨-, hold⟩ | ⟨rfl, rfl, groups, hst⟩
    · exact hold
    · exact hkeep groups s hst
  have hact : ∀ groups s a s', j.stage = .executing groups s →
      (∀ groups' t, y.2.stage = .executing groups' t → t = s') →
      Permits beh (req.call service (P.store.sessions req.session).session) (P.store.cache, s) a →
      step service.host (req.call service (P.store.sessions req.session).session)
        (P.store.cache, s) a = some (y.1.1, s') → ServerMove service beh P P' := by
    intro groups s a s' hst hst' hpermits hstep
    refine .act (i := n) ⟨j, groups, hn, hst⟩ hpermits (hcache ▸ hstep) fun i req' t hruns => ?_
    rcases hnext hruns with hold | ⟨rfl, rfl, groups', ht⟩
    · exact Or.inl hold
    · exact Or.inr ⟨rfl, rfl, hst' groups' t ht⟩
  cases jobStep_move service req hy with
  | refuse | accept | announcePending | mark | announceRunning | group | stuck | returned | raised
  | close | announceStatus | announceEnd =>
      exact hquiet rfl (by simp)
  | @enter groups hst =>
      have hjob : j.stage = .entering groups := hst
      refine @ServerMove.enter service beh P P' n req j.cancel hcache (hvalid (by rw [hjob]; rfl))
        ⟨j, hn⟩ fun i req' s hruns => ?_
      rcases hnext hruns with hold | ⟨rfl, rfl, groups', ht⟩
      · exact Or.inl hold
      · obtain ⟨-, rfl⟩ := JobStage.executing.inj ht
        exact Or.inr ⟨rfl, rfl, rfl⟩
  | exec hst _ hstep | notify hst _ _ hstep =>
      exact hact _ _ _ _ hst (fun _ _ ht => (JobStage.executing.inj ht).2.symm) (hok _ _ hst) hstep
  | emitted hst hstep _ =>
      exact hact _ _ _ _ hst (fun _ _ ht => (JobStage.executing.inj ht).2.symm) (hok _ _ hst) hstep
  | gate hst =>
      refine hquiet rfl fun groups s hst' => ⟨j, groups, hn, ?_⟩
      exact hst'
  | cancel hjob =>
      cases hst : j.stage with
      | executing groups s =>
          refine hact groups s .cancel { s with cancel := true } hst ?_ trivial rfl
          intro groups' t ht
          rw [show ({ j with stage := j.stage.setCancel, cancel := true } : JobState).stage =
            j.stage.setCancel from rfl, hst] at ht
          exact (JobStage.executing.inj ht).2.symm
      | validating | refused | inserted | spawned | marked | grouping | stuck | entering
      | ended | closing | announcing | done =>
          apply hquiet rfl
          intro groups s ht
          rw [show ({ j with stage := j.stage.setCancel, cancel := true } : JobState).stage =
            j.stage.setCancel from rfl, hst] at ht
          cases ht

/-- **A step of a server is one of these.** -/
theorem server_move (hrun : ServerReaches service beh Server.empty P)
    (hfire : Fires (poolStep Party.start (partyStep service))
      (PoolOk (fun _ => True) (PartyOk service beh)) P P') : ServerMove service beh P P' := by
  obtain ⟨e, hok, hs⟩ := hfire
  -- the engine sees nothing of what is no step of a job
  have hplain : P'.store.cache = P.store.cache → (∀ i b, e ≠ .act i (.job b)) →
      ServerMove service beh P P' := by
    intro hcache hnot
    refine .quiet hcache ?_
    rintro i req s ⟨j, groups, hi, hst⟩
    rcases Server.jobAt_next hs hi with ⟨-, hold | rfl⟩ | ⟨b, k, y, heq, -⟩
    · exact ⟨j, groups, hold, hst⟩
    · cases hst
    · exact absurd heq (hnot i b)
  rcases poolStep_cases hs with ⟨m, rfl, rfl⟩ | ⟨n, a, m, p, x, rfl, hn, hx, hP'⟩
  · exact hplain rfl (by simp)
  · cases a with
    -- an upload leaves the cache alone
    | store id =>
        apply hplain
        · subst hP'
          cases m with
          | job req => cases p <;> cases hx
          | upload session type data =>
              cases p with
              | uploading =>
                  obtain rfl := Option.some.inj hx
                  rfl
              | job | uploaded => cases hx
        · simp
    | job b =>
        cases m with
        | upload session type data => cases p <;> cases hx
        | job req =>
            cases p with
            | uploading | uploaded => cases hx
            | job j =>
                obtain ⟨y, hy, rfl⟩ := Option.map_eq_some_iff.mp hx
                have hjob := Server.jobAt_eq_some.mpr hn
                refine serverMove_of_job hjob (server_accepted hrun hjob).valid ?_ hy hs ?_
                · exact hok (.job req) (.job j) hn
                · rw [hP']

end Moves

/-! ### The simulation -/

section Simulation

variable (service : Service)

/-- The engine has the server's cache and, at `place i`, the call of each job
`i` that executes; every call it has is one of the server's jobs. -/
structure Mirrors (P : Server) (E : Engine) (place : Nat → Nat) : Prop where
  cache : E.store = P.store.cache
  runs : ∀ i req s, P.Runs i req s → ∃ session, P.Keeps req session ∧
    (req.call service session).Valid ∧
      E.members[place i]? = some (req.call service session, s)
  apart : ∀ i i' req req' s s', P.Runs i req s → P.Runs i' req' s' → place i = place i' → i = i'
  calls : ∀ x ∈ E.members, P.Calls service x.1

variable {service} {beh : Behaviour} {P P' : Server} {E E' : Engine} {place : Nat → Nat}

theorem Server.Keeps.later {req : JobRequest} {session : Session} (h : P.Keeps req session)
    (hgrown : Grown P.store P'.store) : P'.Keeps req session :=
  fun id p hp => hgrown _ id p (h id p hp)

theorem Server.Calls.later {call : Call} (h : P.Calls service call)
    (hgrown : Grown P.store P'.store)
    (hjobs : ∀ i req j, P.jobAt i = some (req, j) → ∃ j', P'.jobAt i = some (req, j')) :
    P'.Calls service call := by
  obtain ⟨hvalid, i, req, j, session, hi, hkeeps, heq⟩ := h
  obtain ⟨j', hi'⟩ := hjobs i req j hi
  exact ⟨hvalid, i, req, j', session, hi', hkeeps.later hgrown, heq⟩

/-- The jobs of a server keep their places, and its sessions their payloads. -/
theorem server_later (hfire : Fires (poolStep Party.start (partyStep service))
    (PoolOk (fun _ => True) (PartyOk service beh)) P P') : Grown P.store P'.store ∧
      ∀ i req j, P.jobAt i = some (req, j) → ∃ j', P'.jobAt i = some (req, j') := by
  obtain ⟨e, hok, hs⟩ := hfire
  refine ⟨?_, fun i req j hi => ?_⟩
  · cases e with
    | spawn m =>
        obtain rfl := Option.some.inj hs
        exact fun _ _ _ hp => hp
    | act n a => exact grown_of_acts hok hs
  · rcases Server.jobAt_step hs hi with ⟨-, hsame⟩ | ⟨b, y, -, -, hnext⟩
    · exact ⟨j, hsame⟩
    · exact ⟨y.2, hnext⟩

/-- A call of the engine takes a step. -/
theorem engine_acts {n : Nat} {call : Call} {s : ExecState} (hat : E.members[n]? = some (call, s))
    {a : Act} (hok : Permits beh call (E.store, s) a) {x : ResultCache × ExecState}
    (hs : step service.host call (E.store, s) a = some x) :
    EngineReaches service.host (fun call => call.registry = service.registry) beh E
      ⟨x.1, E.members.set n (call, x.2)⟩ := by
  refine Relation.ReflTransGen.single ⟨.act n a, fun m t hm => ?_, ?_⟩
  · obtain ⟨rfl, rfl⟩ := Prod.mk.inj (Option.some.inj (hat.symm.trans hm))
    exact hok
  · simp only [poolStep, hat, hs, Option.map_some]

theorem enter_cancel (call : Call) : (enter call).cancel = false := by
  simp only [enter]
  split_ifs <;> first | rfl | (split <;> rfl)

/-- A call starts, its event set already or not. -/
theorem engine_enters {call : Call} (hcall : call.registry = service.registry) (cancel : Bool) :
    EngineReaches service.host (fun call => call.registry = service.registry) beh E
      { E with members := E.members ++ [(call, { enter call with cancel := cancel })] } := by
  have hspawn : EngineReaches service.host (fun call => call.registry = service.registry) beh E
      { E with members := E.members ++ [(call, enter call)] } :=
    Relation.ReflTransGen.single ⟨.spawn call, hcall, rfl⟩
  cases cancel with
  | false =>
      have hsame : { enter call with cancel := false } = enter call := by
        rw [← enter_cancel call]
      rw [hsame]
      exact hspawn
  | true =>
      have hset : (E.members ++ [(call, enter call)]).set E.members.length
          (call, { enter call with cancel := true }) =
            E.members ++ [(call, { enter call with cancel := true })] := by
        rw [List.set_append_right _ _ le_rfl, Nat.sub_self]
        rfl
      rw [← hset]
      refine hspawn.trans (engine_acts (a := .cancel)
        (x := (E.store, { enter call with cancel := true })) ?_ trivial rfl)
      exact List.getElem?_concat_length

/-- The engine can follow a step it does not notice. -/
theorem Mirrors.quiet (h : Mirrors service P E place) (hcache : P'.store.cache = P.store.cache)
    (hruns : ∀ i req s, P'.Runs i req s → P.Runs i req s) (hgrown : Grown P.store P'.store)
    (hjobs : ∀ i req j, P.jobAt i = some (req, j) → ∃ j', P'.jobAt i = some (req, j')) :
    Mirrors service P' E place where
  cache := h.cache.trans hcache.symm
  runs := by
    intro i req s hi
    obtain ⟨session, hkeeps, hvalid, hat⟩ := h.runs i req s (hruns i req s hi)
    exact ⟨session, hkeeps.later hgrown, hvalid, hat⟩
  apart := fun i i' req req' s s' hi hi' =>
    h.apart i i' req req' s s' (hruns i req s hi) (hruns i' req' s' hi')
  calls := fun x hx => (h.calls x hx).later hgrown hjobs

section Follow

variable (h : Mirrors service P E place) (hgrown : Grown P.store P'.store)
  (hjobs : ∀ i req j, P.jobAt i = some (req, j) → ∃ j', P'.jobAt i = some (req, j'))
  {i : Nat} {req : JobRequest}
include h hgrown hjobs

/-- A job that calls `execute_graph` gets the place behind all others. -/
theorem Mirrors.enter {cancel : Bool} (hcache : P'.store.cache = P.store.cache)
    (hvalid : (req.call service (P.store.sessions req.session).session).Valid)
    (hjob : ∃ j, P.jobAt i = some (req, j))
    (hruns : ∀ i' req' s, P'.Runs i' req' s → i' ≠ i ∧ P.Runs i' req' s ∨ i' = i ∧ req' = req ∧
      s = { enter (req.call service (P.store.sessions req.session).session) with
        cancel := cancel }) :
    ∃ E' place', EngineReaches service.host (fun call => call.registry = service.registry) beh
      E E' ∧ Mirrors service P' E' place' := by
  generalize hcall : req.call service (P.store.sessions req.session).session = call at *
  have hreg : call.registry = service.registry := by rw [← hcall]; rfl
  have hkeeps : P'.Keeps req (P.store.sessions req.session).session := hgrown _
  -- the calls so far have their places
  have hfar : ∀ i' req' s, P.Runs i' req' s → place i' < E.members.length := by
    intro i' req' s hi'
    obtain ⟨session, -, -, hat⟩ := h.runs i' req' s hi'
    exact (List.getElem?_eq_some_iff.mp hat).1
  refine ⟨_, Function.update place i E.members.length, engine_enters hreg cancel,
    h.cache.trans hcache.symm, ?_, ?_, ?_⟩
  · intro i' req' s hi'
    rcases hruns i' req' s hi' with ⟨hne, hold⟩ | ⟨rfl, rfl, rfl⟩
    · obtain ⟨session, hkeeps', hvalid', hat⟩ := h.runs i' req' s hold
      refine ⟨session, hkeeps'.later hgrown, hvalid', ?_⟩
      rw [Function.update_of_ne hne, List.getElem?_append_left (hfar i' req' s hold)]
      exact hat
    · refine ⟨_, hkeeps, hcall ▸ hvalid, ?_⟩
      rw [Function.update_self, hcall]
      exact List.getElem?_concat_length
  · -- the new place is behind the old ones, which are apart
    intro i₁ i₂ req₁ req₂ s₁ s₂ h₁ h₂ heq
    rcases hruns i₁ req₁ s₁ h₁ with ⟨hne₁, hold₁⟩ | ⟨rfl, -, -⟩
    · rw [Function.update_of_ne hne₁] at heq
      rcases hruns i₂ req₂ s₂ h₂ with ⟨hne₂, hold₂⟩ | ⟨rfl, -, -⟩
      · rw [Function.update_of_ne hne₂] at heq
        exact h.apart i₁ i₂ req₁ req₂ s₁ s₂ hold₁ hold₂ heq
      · rw [Function.update_self] at heq
        exact absurd heq (hfar i₁ req₁ s₁ hold₁).ne
    · rcases hruns i₂ req₂ s₂ h₂ with ⟨hne₂, hold₂⟩ | ⟨rfl, -, -⟩
      · rw [Function.update_self, Function.update_of_ne hne₂] at heq
        exact absurd heq.symm (hfar i₂ req₂ s₂ hold₂).ne
      · rfl
  · intro x hx
    rcases List.mem_append.mp hx with hold | hnew
    · exact (h.calls x hold).later hgrown hjobs
    · obtain ⟨j, hi⟩ := hjob
      obtain ⟨j', hi'⟩ := hjobs i req j hi
      rw [List.mem_singleton.mp hnew]
      exact ⟨hvalid, i, req, j', _, hi', hkeeps, hcall.symm⟩

/-- A step of a call is the step of the call at its place. -/
theorem Mirrors.act {s s' : ExecState} {a : Act} (hat : P.Runs i req s)
    (hok : Permits beh (req.call service (P.store.sessions req.session).session)
      (P.store.cache, s) a)
    (hs : Formshift.step service.host (req.call service (P.store.sessions req.session).session)
      (P.store.cache, s) a = some (P'.store.cache, s'))
    (hruns : ∀ i' req' t, P'.Runs i' req' t → i' ≠ i ∧ P.Runs i' req' t ∨
      i' = i ∧ req' = req ∧ t = s') :
    ∃ E' place', EngineReaches service.host (fun call => call.registry = service.registry) beh
      E E' ∧ Mirrors service P' E' place' := by
  obtain ⟨session, hkeeps, hvalid, hmem⟩ := h.runs i req s hat
  -- a valid call does not see what has been stored since it began
  have hsame : Formshift.step service.host (req.call service session) (E.store, s) a =
      some (P'.store.cache, s') := by
    rw [h.cache, ← hs]
    exact (@step_session service.host (req.call service session) _ hvalid hkeeps
      (P.store.cache, s) a).symm
  have hok' : Permits beh (req.call service session) (E.store, s) a := by
    rw [h.cache]
    cases a with
    | worker i w =>
        cases w with
        | ret outcome => exact hok
        | start | lookup | check | put | record | notify | emit | emitted | finish => trivial
    | loop | submit | wait | process | join | cancel => trivial
  have hback : ∀ i' req' t, P'.Runs i' req' t → ∃ u, P.Runs i' req' u := by
    intro i' req' t hi'
    rcases hruns i' req' t hi' with ⟨-, hold⟩ | ⟨rfl, rfl, -⟩
    · exact ⟨t, hold⟩
    · exact ⟨s, hat⟩
  refine ⟨_, place, engine_acts hmem hok' hsame, rfl, ?_, ?_, ?_⟩
  · intro i' req' t hi'
    rcases hruns i' req' t hi' with ⟨hne, hold⟩ | ⟨rfl, rfl, rfl⟩
    · obtain ⟨session', hkeeps', hvalid', hat'⟩ := h.runs i' req' t hold
      refine ⟨session', hkeeps'.later hgrown, hvalid', ?_⟩
      have hplaces : place i ≠ place i' := fun heq =>
        hne (h.apart i i' _ _ _ _ hat hold heq).symm
      exact (List.getElem?_set_ne hplaces).trans hat'
    · exact ⟨session, hkeeps.later hgrown, hvalid,
        List.getElem?_set_self (List.getElem?_eq_some_iff.mp hmem).1⟩
  · intro i₁ i₂ req₁ req₂ s₁ s₂ h₁ h₂ heq
    obtain ⟨u₁, hu₁⟩ := hback i₁ req₁ s₁ h₁
    obtain ⟨u₂, hu₂⟩ := hback i₂ req₂ s₂ h₂
    exact h.apart i₁ i₂ req₁ req₂ u₁ u₂ hu₁ hu₂ heq
  · intro x hx
    rcases List.mem_or_eq_of_mem_set hx with hold | rfl
    · exact (h.calls x hold).later hgrown hjobs
    · exact (h.calls _ (List.mem_of_getElem? hmem)).later hgrown hjobs

end Follow

/-- **The step of the simulation.** -/
theorem Mirrors.step (h : Mirrors service P E place)
    (hrun : ServerReaches service beh Server.empty P)
    (hfire : Fires (poolStep Party.start (partyStep service))
      (PoolOk (fun _ => True) (PartyOk service beh)) P P') :
    ∃ E' place', EngineReaches service.host (fun call => call.registry = service.registry) beh
      E E' ∧ Mirrors service P' E' place' := by
  obtain ⟨hgrown, hjobs⟩ := server_later hfire
  cases server_move hrun hfire with
  | quiet hcache hruns =>
      exact ⟨E, place, Relation.ReflTransGen.refl, h.quiet hcache hruns hgrown hjobs⟩
  | enter hcache hvalid hjob hruns => exact h.enter hgrown hjobs hcache hvalid hjob hruns
  | act hat hok hs hruns => exact h.act hgrown hjobs hat hok hs hruns

/-- **A server refines the engine**: whatever is going on around them, the jobs
of a server are calls of the engine on the same cache. -/
theorem server_refines_engine (hrun : ServerReaches service beh Server.empty P) :
    ∃ E place, EngineReaches service.host (fun call => call.registry = service.registry) beh
      Engine.empty E ∧ Mirrors service P E place := by
  have hstart : Mirrors service Server.empty Engine.empty id := by
    refine ⟨rfl, ?_, ?_, by simp [Engine.empty]⟩
    · rintro i req s ⟨j, groups, hi, -⟩
      simp [Server.jobAt, Server.empty] at hi
    · rintro i i' req req' s s' ⟨j, groups, hi, -⟩
      simp [Server.jobAt, Server.empty] at hi
  let M := fun P E => ServerReaches service beh Server.empty P ∧ ∃ place, Mirrors service P E place
  have hsim : ∀ P P' E, Fires (poolStep Party.start (partyStep service))
      (PoolOk (fun _ => True) (PartyOk service beh)) P P' → M P E → ∃ E', EngineReaches service.host
        (fun call => call.registry = service.registry) beh E E' ∧ M P' E' := by
    rintro P P' E hfire ⟨hreach, place, hmirrors⟩
    obtain ⟨E', place', hE', hmirrors'⟩ := hmirrors.step hreach hfire
    exact ⟨E', hE', hreach.tail hfire, place', hmirrors'⟩
  obtain ⟨E, hE, -, place, hmirrors⟩ :=
    Reaches.simulates hsim hrun ⟨Relation.ReflTransGen.refl, id, hstart⟩
  exact ⟨E, place, hE, hmirrors⟩

end Simulation

theorem server_refines_engine_running : ∃ (P : Server) (s : ExecState) (E : Engine)
    (place : Nat → Nat), P.Runs 0 pinnedRequest s ∧
      EngineReaches sampleService.host (fun call => call.registry = sampleService.registry)
        anyBehaviour Engine.empty E ∧ Mirrors sampleService P E place := by
  have hcheck : ((runActs (guarded (partyStep sampleService (.job pinnedRequest))
      (PartyOk sampleService anyBehaviour (.job pinnedRequest))) (runningJobActs.map .job)
      (Server.empty.store, .job .init)).bind fun x =>
        x.2.asJob.bind fun j => j.atRun.map fun _ => ()) = some () := by
    decide +kernel
  obtain ⟨⟨k, p⟩, hx, hcheck⟩ := Option.bind_eq_some_iff.mp hcheck
  cases p with
  | job j =>
      obtain ⟨j', hj', hat⟩ := Option.bind_eq_some_iff.mp hcheck
      obtain rfl : j = j' := Option.some.inj hj'
      obtain ⟨⟨groups, s, f, c⟩, hat, -⟩ := Option.map_eq_some_iff.mp hat
      obtain ⟨hst, -, -⟩ := JobState.of_atRun hat
      have hrun := serverReaches_of_job (reaches_of_guarded hx)
      obtain ⟨E, place, hE, hmirrors⟩ := server_refines_engine hrun
      exact ⟨_, s, E, place, ⟨j, groups, rfl, hst⟩, hE, hmirrors⟩
  | uploading | uploaded => cases hcheck

end Formshift
