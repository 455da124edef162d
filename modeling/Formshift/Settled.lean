/-
Formshift/Settled.lean

Every request is answered, and every job ends.

A party of the server that has not begun waits for its handler, and is in the
hands of exactly one (`App.Attended`).  So every handler that has not answered
has a step to take (`exists_handler_step`), and so has every job in a table.  A
handler's own steps are counted by its rank, and what it leaves to a job by the
job's work (`App.left_lt`).  Main result: without new requests every run of the
service ends, and where it ends every request has its reply and every job its
end (`service_settles`).
-/
import Formshift.JobProgress
import Formshift.Deletion
import Formshift.Lib.Owners

namespace Formshift

open Py Steps

/-! ### Parties in their handlers' hands -/

/-- What a party waits for its handler to do. -/
inductive Awaited where
  | validation
  | start
  | payload

def JobStage.awaits : JobStage → Option Awaited
  | .validating => some .validation
  | .inserted => some .start
  | _ => none

def PartyState.awaits : PartyState → Option Awaited
  | .job j => j.stage.awaits
  | .uploading => some .payload
  | .uploaded _ => none

/-- What the party in this place waits for. -/
def Server.awaits (P : Server) (i : Nat) : Option Awaited :=
  (P.members[i]?).bind fun x => x.2.awaits

/-- The party a handler has in hand, and what that waits for. -/
def inHand : SessionRequest × HandlerStage → Option (Nat × Awaited)
  | (.submitJob _, .working i) => some (i, .validation)
  | (.submitJob _, .inserted i) => some (i, .start)
  | (.uploadPayload _ _, .working i) => some (i, .payload)
  | _ => none

/-- Every party that waits is in the hands of one handler. -/
def App.Attended (A : App) : Prop := Owned A.server.awaits (A.handlers.map inHand)

/-- The stages a request of this kind goes through. -/
def SessionRequest.PassesThrough : SessionRequest → HandlerStage → Prop
  | _, .arrived | _, .answered _
  | .createSession, .stored _
  | .deleteSession _, .dropped | .deleteSession _, .popped | .deleteSession _, .stopping _
  | .deleteSession _, .marking _ _
  | .uploadPayload _ _, .found | .uploadPayload _ _, .working _
  | .downloadPayload _ _, .found
  | .submitJob _, .found | .submitJob _, .held | .submitJob _, .working _
  | .submitJob _, .inserted _ | .submitJob _, .started _
  | .getJob _ _, .held
  | .cancelJob _ _, .held | .cancelJob _ _, .cancelling _ => True
  | _, _ => False

section Moves

variable {service : Service} {beh : Behaviour} {A A' B : App} {n i : Nat} {r : SessionRequest}
  {st st' : HandlerStage} {req : JobRequest} {j : JobState}

theorem JobStage.isStarted_step {x y : Desk × JobState} {a : JobAct}
    (h : x.2.stage.isStarted = true) (hs : jobStep service req x a = some y) :
    y.2.stage.isStarted = true := by
  cases jobStep_move service req hs with
  | refuse hst | accept hst | announcePending hst =>
      rw [hst] at h
      cases h
  | gate => exact h
  | cancel =>
      show x.2.stage.setCancel.isStarted = true
      cases hst : x.2.stage <;> (rw [hst] at h; first | rfl | cases h)
  | mark | announceRunning | group | stuck | enter | returned | raised | close | announceStatus
  | announceEnd | exec | notify | emitted => rfl

theorem JobStage.awaits_of_isStarted {stage : JobStage} (h : stage.isStarted = true) :
    stage.awaits = none := by
  cases stage <;> first | rfl | cases h

theorem JobStage.awaits_setCancel (stage : JobStage) : stage.setCancel.awaits = stage.awaits := by
  cases stage <;> rfl

theorem Server.awaits_eq {P : Server} {m : Party} {p : PartyState}
    (hm : P.members[i]? = some (m, p)) : P.awaits i = p.awaits := by
  unfold Server.awaits
  rw [hm]
  rfl

theorem Server.awaits_jobAt {P : Server} (hi : P.jobAt i = some (req, j)) :
    P.awaits i = j.stage.awaits :=
  Server.awaits_eq (Server.jobAt_eq_some.mp hi)

/-- A new party. -/
theorem App.awaits_spawn (A : App) (m : Party) : (A.spawn m).server.awaits =
    Function.update A.server.awaits A.server.members.length m.start.awaits := by
  funext k
  show ((A.server.members ++ [(m, m.start)])[k]?).bind _ = _
  rcases Nat.lt_trichotomy k A.server.members.length with hlt | rfl | hgt
  · rw [List.getElem?_append_left hlt, Function.update_of_ne hlt.ne]
    rfl
  · rw [List.getElem?_concat_length, Function.update_self]
    rfl
  · rw [Function.update_of_ne hgt.ne']
    unfold Server.awaits
    rw [List.getElem?_eq_none (by simp; omega), List.getElem?_eq_none (by omega)]

theorem App.awaits_length (A : App) : A.server.awaits A.server.members.length = none := by
  unfold Server.awaits
  rw [List.getElem?_eq_none le_rfl]
  rfl

/-- The step of a party. -/
theorem App.awaits_acts {a : PartyAct} {P : Server} (hacts : A.Acts service i a P) :
    ∃ m p x, A.server.members[i]? = some (m, p) ∧ P.members[i]? = some (m, x.2) ∧
      partyStep service m (A.server.store, p) a = some x ∧
        P.awaits = Function.update A.server.awaits i x.2.awaits := by
  rcases poolStep_cases hacts with ⟨m, heq, -⟩ | ⟨k, b, m, p, x, heq, hk, hx, rfl⟩
  · cases heq
  · obtain ⟨rfl, rfl⟩ := PoolAct.act.inj heq
    have hlt : i < A.server.members.length := (List.getElem?_eq_some_iff.mp hk).1
    refine ⟨m, p, x, hk, List.getElem?_set_self hlt, hx, ?_⟩
    funext l
    show ((A.server.members.set i (m, x.2))[l]?).bind _ = _
    by_cases hl : l = i
    · subst hl
      rw [List.getElem?_set_self hlt, Function.update_self]
      rfl
    · rw [List.getElem?_set_ne (Ne.symm hl), Function.update_of_ne hl]
      rfl

/-- The step of a job. -/
theorem App.awaits_job {a : JobAct} {P : Server} (hacts : A.Acts service i (.job a) P) :
    ∃ req j y, A.server.jobAt i = some (req, j) ∧ P.jobAt i = some (req, y.2) ∧
      jobStep service req (A.server.store.desk req.session, j) a = some y ∧
        P.awaits = Function.update A.server.awaits i y.2.stage.awaits := by
  obtain ⟨m, p, x, hm, hm', hx, hawaits⟩ := App.awaits_acts hacts
  cases m with
  | upload => cases p <;> cases hx
  | job req =>
      cases p with
      | uploading | uploaded => cases hx
      | job j =>
          obtain ⟨y, hy, rfl⟩ := Option.map_eq_some_iff.mp hx
          exact ⟨req, j, y, Server.jobAt_eq_some.mpr hm, Server.jobAt_eq_some.mpr hm', hy, hawaits⟩

/-- Setting a job's event is nothing it waits for. -/
theorem App.awaits_cancel {P : Server} (hacts : A.Acts service i (.job .cancel) P) :
    P.awaits = A.server.awaits := by
  obtain ⟨req, j, y, hj, -, hy, hawaits⟩ := App.awaits_job hacts
  rw [hawaits]
  have hsame : y.2.stage.awaits = A.server.awaits i := by
    rw [Server.awaits_jobAt hj]
    cases jobStep_move service req hy with
    | cancel => exact j.stage.awaits_setCancel
  rw [hsame, Function.update_eq_self]

/-- A step of a job's own threads. -/
theorem appStep_thread {a : JobAct} (hs : appStep service A (.thread i a) = some A') :
    ∃ P req j, A' = { A with server := P } ∧ A.Acts service i (.job a) P ∧
      A.server.jobAt i = some (req, j) ∧ j.stage.isStarted = true ∧ a.isCancel = false := by
  obtain ⟨⟨req, j⟩, hj, hs⟩ := Option.bind_eq_some_iff.mp hs
  split at hs
  · rename_i hstarted
    obtain ⟨P, hP, rfl⟩ := A.act_eq_some service hs
    exact ⟨P, req, j, rfl, hP, hj, hstarted⟩
  · cases hs

/-- Every move leads to a stage of the request. -/
theorem HandlerMove.passesThrough {a : HandlerAct} (hm : HandlerMove service A r st a B st') :
    r.PassesThrough st' := by
  cases hm with
  | found hr => cases hr <;> trivial
  | seek hr => rcases hr with rfl | rfl <;> trivial
  | _ => trivial

/-- **The step lemma of the handlers' parties.** -/
theorem App.Attended.handler (h : A.Attended) {a : HandlerAct}
    (hx : A.handlers[n]? = some (r, st)) (hm : HandlerMove service A r st a B st') :
    App.Attended { B with handlers := A.handlers.set n (r, st') } := by
  have hhand : (A.handlers.map inHand)[n]? = some (inHand (r, st)) := by
    rw [List.getElem?_map, hx]
    rfl
  show Owned B.server.awaits ((A.handlers.set n (r, st')).map inHand)
  rw [List.map_set]
  -- nothing in hand before or after, and nothing new to wait for
  have hidle : inHand (r, st) = none → inHand (r, st') = none →
      B.server.awaits = A.server.awaits →
        Owned B.server.awaits ((A.handlers.map inHand).set n (inHand (r, st'))) := by
    intro hold hnew hawaits
    obtain ⟨hlt, hget⟩ := List.getElem?_eq_some_iff.mp hhand
    rw [hawaits, hnew, ← hold, ← hget, List.set_getElem_self]
    exact h
  cases hm with
  | miss _ hst =>
      rcases hst with rfl | rfl <;> exact hidle (by cases r <;> rfl) (by cases r <;> rfl) rfl
  | found => exact hidle (by cases r <;> rfl) (by cases r <;> rfl) rfl
  | seek hr | noJob hr => rcases hr with rfl | rfl <;> exact hidle rfl rfl rfl
  | hold | stream | rejectData | rejectBody | download | unsent | noPayload | document | unencoded
  | aim | submitted | create | manage | drop | pop | unmanaged | snapshot | stopped | skip | see =>
      exact hidle rfl rfl rfl
  | mark hacts | cancel hacts => exact hidle rfl rfl (App.awaits_cancel hacts)
  | upload | submit =>
      rw [App.awaits_spawn]
      exact h.pass hhand (by simp [inHand]) (fun _ => A.awaits_length) (some _)
  | @store session type i id P hacts =>
      obtain ⟨m, p, x, -, -, hstep, hawaits⟩ := App.awaits_acts hacts
      have hnone : x.2.awaits = none := by
        cases m <;> cases p <;> cases hstep
        rfl
      rw [hawaits, hnone]
      exact h.pass hhand (by simp [inHand]) (by simp [inHand]) none
  | @refuse session i P req' j' errors status detail hacts hjob hst =>
      obtain ⟨req, j, y, -, hj', -, hawaits⟩ := App.awaits_job hacts
      obtain ⟨-, rfl⟩ := Prod.mk.inj (Option.some.inj (hjob.symm.trans hj'))
      have hnone : y.2.stage.awaits = none := by
        rw [hst]
        rfl
      rw [hawaits, hnone]
      exact h.pass hhand (by simp [inHand]) (by simp [inHand]) none
  | @insert session i P req' j' hacts hjob hst =>
      obtain ⟨req, j, y, -, hj', -, hawaits⟩ := App.awaits_job hacts
      obtain ⟨-, rfl⟩ := Prod.mk.inj (Option.some.inj (hjob.symm.trans hj'))
      have hstart : y.2.stage.awaits = some .start := by
        rw [hst]
        rfl
      show Owned P.awaits _
      rw [hawaits, hstart]
      exact h.pass hhand (by simp [inHand]) (by simp [inHand]) (some _)
  | @start session i P hacts =>
      obtain ⟨req, j, y, hj, -, hy, hawaits⟩ := App.awaits_job hacts
      -- the job that is started was inserted
      have hwaits : j.stage.awaits = some .start := by
        rw [← Server.awaits_jobAt hj]
        exact h.sound n i .start hhand
      have hnone : y.2.stage.awaits = none := by
        apply JobStage.awaits_of_isStarted
        cases hst : j.stage with
        | inserted =>
            simp only [jobStep, advance, hst] at hy
            obtain rfl := Option.some.inj hy
            rfl
        | _ => simp [JobStage.awaits, hst] at hwaits
      rw [hawaits, hnone]
      exact h.pass hhand (by simp [inHand]) (by simp [inHand]) none

theorem App.Attended.step (h : A.Attended) {a : AppAct} (hs : appStep service A a = some A') :
    A'.Attended := by
  rcases appStep_cases hs with ⟨r, rfl, rfl⟩ | ⟨n, b, r, st, B, st', rfl, hx, hm, rfl⟩ |
    ⟨i, b, P, rfl, -, -⟩
  · show Owned A.server.awaits ((A.handlers ++ [(r, HandlerStage.arrived)]).map inHand)
    have hnone : inHand (r, HandlerStage.arrived) = none := by cases r <;> rfl
    rw [List.map_append, List.map_singleton, hnone]
    exact h.arrive
  · exact h.handler hx hm
  · obtain ⟨P, req, j, rfl, hacts, hj, hstarted, -⟩ := appStep_thread hs
    obtain ⟨req', j', y, hj', -, hy, hawaits⟩ := App.awaits_job hacts
    obtain ⟨rfl, rfl⟩ := Prod.mk.inj (Option.some.inj (hj.symm.trans hj'))
    show Owned P.awaits _
    -- a job at work waits for nobody
    rw [hawaits, JobStage.awaits_of_isStarted (JobStage.isStarted_step (x := (_, j)) hstarted hy),
      ← JobStage.awaits_of_isStarted hstarted, ← Server.awaits_jobAt hj, Function.update_eq_self]
    exact h

end Moves

/-! ### The work left -/

namespace HandlerStage

/-- The steps a handler has left; `shutdown` counts once here. -/
def rank : HandlerStage → Nat
  | arrived => 6
  | found => 5
  | held => 4
  | working _ | dropped => 3
  | inserted _ | popped => 2
  | stored _ | started _ | cancelling _ | stopping _ | marking _ _ => 1
  | answered _ => 0

/-- The steps of `shutdown`. -/
def toLookAt : HandlerStage → Nat
  | stopping todo => 2 * todo.length
  | marking _ todo => 2 * todo.length + 1
  | _ => 0

end HandlerStage

section Left

variable (service : Service)

/-- The work a party has left. -/
def partyWork : Party × PartyState → Nat
  | (.job req, .job j) => j.work service req
  | _ => 0

/-- What the service has left to do.  A body that comes in brings any amount of
work, and is one step less for its handler. -/
def App.left (A : App) : ℕ ×ₗ ℕ :=
  toLex ((A.handlers.map fun x => x.2.rank).sum,
    (A.handlers.map fun x => x.2.toLookAt).sum + (A.server.members.map (partyWork service)).sum)

def AppAct.isRequest : AppAct → Bool
  | .request _ => true
  | .handler _ _ | .thread _ _ => false

/-- The steps of the service on the requests it has. -/
def App.Serves (beh : Behaviour) : App → App → Prop :=
  Fires (appStep service) fun A a => AppOk service beh A a ∧ a.isRequest = false

variable {service} {beh : Behaviour} {A A' B : App} {n i : Nat} {r : SessionRequest}
  {st st' : HandlerStage} {req : JobRequest} {j : JobState}

theorem App.Serves.reaches (h : Reaches (App.Serves service beh) A B) :
    AppReaches service beh A B := by
  refine h.lift id ?_
  rintro C D ⟨a, ⟨hok, -⟩, hs⟩
  exact ⟨a, hok, hs⟩

/-- A move leaves the handler fewer steps, or `shutdown` fewer jobs to look at. -/
theorem HandlerMove.rank_lt {a : HandlerAct} (hm : HandlerMove service A r st a B st') :
    st'.rank < st.rank ∨ st'.rank = st.rank ∧ st'.toLookAt < st.toLookAt ∧
      (B.server = A.server ∨ ∃ i, A.Acts service i (.job .cancel) B.server) := by
  cases hm with
  | miss _ hst => rcases hst with rfl | rfl <;> exact Or.inl (by decide)
  | skip =>
      refine Or.inr ⟨rfl, ?_, Or.inl rfl⟩
      simp only [HandlerStage.toLookAt, List.length_cons]
      omega
  | see =>
      refine Or.inr ⟨rfl, ?_, Or.inl rfl⟩
      simp only [HandlerStage.toLookAt, List.length_cons]
      omega
  | mark hacts =>
      refine Or.inr ⟨rfl, ?_, Or.inr ⟨_, hacts⟩⟩
      simp only [HandlerStage.toLookAt]
      omega
  | _ => exact Or.inl (by simp [HandlerStage.rank])

/-- The work of the parties, where a job has taken a step. -/
theorem App.work_acts {a : JobAct} {P : Server} {y : Desk × JobState}
    (hacts : A.Acts service i (.job a) P) (hj : A.server.jobAt i = some (req, j))
    (hj' : P.jobAt i = some (req, y.2)) :
    (P.members.map (partyWork service)).sum + j.work service req =
      (A.server.members.map (partyWork service)).sum + y.2.work service req := by
  rcases poolStep_cases hacts with ⟨m, heq, -⟩ | ⟨k, b, m, p, x, heq, hk, -, rfl⟩
  · cases heq
  · obtain ⟨rfl, rfl⟩ := PoolAct.act.inj heq
    have hold := Server.jobAt_eq_some.mp hj
    obtain ⟨rfl, rfl⟩ := Prod.mk.inj (Option.some.inj (hold.symm.trans hk))
    have hnew := Server.jobAt_eq_some.mp hj'
    rw [List.getElem?_set_self (List.getElem?_eq_some_iff.mp hk).1] at hnew
    obtain ⟨-, hx⟩ := Prod.mk.inj (Option.some.inj hnew)
    show ((A.server.members.set i (.job req, x.2)).map (partyWork service)).sum + _ = _
    rw [hx]
    exact sum_map_set (f := partyWork service) hk

/-- **Every step of the service leaves less to do.** -/
theorem App.left_lt (h : AppInv service beh A) (hs : App.Serves service beh A A') :
    A'.left service < A.left service := by
  obtain ⟨a, ⟨hok, hserves⟩, hs⟩ := hs
  rcases appStep_cases hs with ⟨r, rfl, -⟩ | ⟨n, b, r, st, B, st', rfl, hx, hm, rfl⟩ |
    ⟨i, b, P, rfl, -, -⟩
  · cases hserves
  -- what one handler adds to the sums
  · have hrank : ((A.handlers.set n (r, st')).map fun x => x.2.rank).sum + st.rank =
        (A.handlers.map fun x => x.2.rank).sum + st'.rank :=
      sum_map_set (f := fun x => x.2.rank) hx
    have hlook : ((A.handlers.set n (r, st')).map fun x => x.2.toLookAt).sum + st.toLookAt =
        (A.handlers.map fun x => x.2.toLookAt).sum + st'.toLookAt :=
      sum_map_set (f := fun x => x.2.toLookAt) hx
    apply Prod.Lex.toLex_lt_toLex.mpr
    -- the handler gets on, or looks at a job less
    rcases hm.rank_lt with hlt | ⟨hsame, hlt, hserver⟩
    · left
      show ((A.handlers.set n (r, st')).map fun x => x.2.rank).sum <
        (A.handlers.map fun x => x.2.rank).sum
      omega
    · right
      have hwork : (B.server.members.map (partyWork service)).sum =
          (A.server.members.map (partyWork service)).sum := by
        rcases hserver with heq | ⟨i, hacts⟩
        · rw [heq]
        · obtain ⟨req, j, y, hj, hj', hy, -⟩ := App.awaits_job hacts
          have hparts := App.work_acts hacts hj hj'
          -- setting a flag is no work
          have hcancel : y.2.work service req = j.work service req := by
            cases jobStep_move service req hy with
            | cancel => exact j.work_cancel service req
          omega
      constructor
      · show ((A.handlers.set n (r, st')).map fun x => x.2.rank).sum =
          (A.handlers.map fun x => x.2.rank).sum
        omega
      · show ((A.handlers.set n (r, st')).map fun x => x.2.toLookAt).sum +
            (B.server.members.map (partyWork service)).sum <
          (A.handlers.map fun x => x.2.toLookAt).sum +
            (A.server.members.map (partyWork service)).sum
        omega
  -- a thread works off a part of its job
  · obtain ⟨P, req, j, rfl, hacts, hj, -, hcancel⟩ := appStep_thread hs
    obtain ⟨req', j', y, hj', hnew, hy, -⟩ := App.awaits_job hacts
    obtain ⟨rfl, rfl⟩ := Prod.mk.inj (Option.some.inj (hj.symm.trans hj'))
    have hparts := App.work_acts hacts hj hnew
    have hlt : y.2.work service req < j.work service req :=
      (h.jobInv hj).work_lt (x := (_, j)) hy hcancel
    apply Prod.Lex.toLex_lt_toLex.mpr
    right
    refine ⟨rfl, Nat.add_lt_add_left ?_ _⟩
    show (P.members.map (partyWork service)).sum <
      (A.server.members.map (partyWork service)).sum
    omega

end Left

/-! ### Nobody waits for ever -/

/-- The invariants of the service and of its handlers' parties. -/
structure AppLive (service : Service) (beh : Behaviour) (A : App) : Prop where
  inv : AppInv service beh A
  attended : A.Attended
  passes : ∀ x ∈ A.handlers, x.1.PassesThrough x.2

section Live

variable {service : Service} {beh : Behaviour} {A A' B : App} {n i : Nat} {r : SessionRequest}
  {st : HandlerStage} {req : JobRequest} {j : JobState}

theorem app_live (hrun : AppReaches service beh App.empty A) : AppLive service beh A := by
  refine Reaches.invariant (I := AppLive service beh) ?_ hrun
    ⟨app_inv Relation.ReflTransGen.refl, Owned.nil, by simp [App.empty]⟩
  rintro B C ⟨a, hok, hs⟩ ⟨hinv, hattended, hpasses⟩
  refine ⟨(hinv.step hok hs).2, hattended.step hs, ?_⟩
  rcases appStep_cases hs with ⟨r, rfl, rfl⟩ | ⟨n, b, r, st, D, st', rfl, hx, hm, rfl⟩ |
    ⟨i, b, P, rfl, -, rfl⟩
  · intro x hx
    rcases List.mem_append.mp hx with hx | hx
    · exact hpasses x hx
    · rw [List.mem_singleton.mp hx]
      cases r <;> trivial
  · intro x hmem
    rcases List.mem_or_eq_of_mem_set hmem with hold | rfl
    · exact hpasses x hold
    · exact hm.passesThrough
  · exact hpasses

/-- A job that can take this step can take it in its place. -/
theorem App.act_isSome {a : JobAct} (hj : A.server.jobAt i = some (req, j))
    (h : (jobStep service req (A.server.store.desk req.session, j) a).isSome = true) :
    (A.act service i (.job a)).isSome = true := by
  obtain ⟨y, hy⟩ := Option.isSome_iff_exists.mp h
  unfold App.act poolStep
  simp only [Server.jobAt_eq_some.mp hj, partyStep, hy, Option.map_some, Option.isSome_some]

/-- A job of a table can be cancelled. -/
theorem AppInv.cancel_isSome (h : AppInv service beh A) {session : Str}
    (hi : i ∈ A.jobs session) : (A.act service i (.job .cancel)).isSome = true := by
  obtain ⟨req, j, hj, -, hisJob⟩ := h.jobs session i hi
  apply App.act_isSome hj
  simp only [jobStep, hisJob, if_true, Option.isSome_some]

/-- The stages at which a job waits for its handler. -/
theorem JobStage.awaits_eq_some {stage : JobStage} {w : Awaited} (h : stage.awaits = some w) :
    w = .validation ∧ stage = .validating ∨ w = .start ∧ stage = .inserted := by
  cases stage with
  | validating => exact Or.inl ⟨(Option.some.inj h).symm, rfl⟩
  | inserted => exact Or.inr ⟨(Option.some.inj h).symm, rfl⟩
  | _ => cases h

/-- The validation of a submitted graph, and the job's insertion. -/
theorem App.submit_isSome (hj : A.server.jobAt i = some (req, j)) (hst : j.stage = .validating)
    (session : Str) : (A.submitJob service session (.working i) .go).isSome = true := by
  have hstep :
      (jobStep service req (A.server.store.desk req.session, j) .advance).isSome = true := by
    simp only [jobStep, advance, hst]
    split <;> rfl
  obtain ⟨B, hB⟩ := Option.isSome_iff_exists.mp (App.act_isSome hj hstep)
  obtain ⟨P, hacts, rfl⟩ := A.act_eq_some service hB
  obtain ⟨req', j', y, hold, hnew, hy, -⟩ := App.awaits_job hacts
  obtain ⟨rfl, rfl⟩ := Prod.mk.inj (Option.some.inj (hj.symm.trans hold))
  simp only [App.submitJob, hB, Option.bind_some, hnew]
  cases jobStep_move service req hy with
  | refuse | accept => rfl
  | announcePending h' | mark h' | announceRunning h' | group h' | stuck h' | enter h'
  | returned h' | raised h' | close h' | announceStatus h' | announceEnd h' =>
      rw [show j.stage = _ from h'] at hst
      cases hst

/-- Handler `n` has a step to take. -/
def App.HandlerCan (service : Service) (beh : Behaviour) (A : App) (n : Nat) : Prop :=
  ∃ a, AppOk service beh A (.handler n a) ∧ (appStep service A (.handler n a)).isSome = true

theorem App.handlerCan_of (hx : A.handlers[n]? = some (r, st)) {a : HandlerAct}
    (hok : AppOk service beh A (.handler n a))
    (hsome : (A.handlerStep service r st a).isSome = true) : A.HandlerCan service beh n := by
  obtain ⟨y, hy⟩ := Option.isSome_iff_exists.mp hsome
  refine ⟨a, hok, ?_⟩
  simp only [appStep, hx, Option.bind_some, hy, Option.map_some, Option.isSome_some]

/-- What a handler has in hand waits for it. -/
theorem AppLive.awaits_inHand (h : AppLive service beh A) (hx : A.handlers[n]? = some (r, st))
    {w : Awaited} (hw : inHand (r, st) = some (i, w)) : A.server.awaits i = some w := by
  refine h.attended.sound n i w ?_
  rw [List.getElem?_map, hx, Option.map_some, hw]

/-- A request that has come in: only `create_session` has to draw something, an id
that no handler has drawn. -/
theorem App.arrived_can (hx : A.handlers[n]? = some (r, .arrived)) :
    A.HandlerCan service beh n := by
  cases r with
  | createSession =>
      obtain ⟨id, hid⟩ := Infinite.exists_notMem_finset
        (A.handlers.filterMap fun x => x.2.drawn).toFinset
      refine App.handlerCan_of hx (a := .create id) (fun x hxm hdrawn => hid ?_) rfl
      exact List.mem_toFinset.mpr (List.mem_filterMap.mpr ⟨x, hxm, hdrawn⟩)
  | deleteSession session =>
      refine App.handlerCan_of hx (a := .go) trivial ?_
      simp only [App.handlerStep, App.deleteSession]
      split <;> rfl
  | uploadPayload | downloadPayload | submitJob | getJob | cancelJob | events =>
      exact App.handlerCan_of hx (a := .go) trivial rfl

/-- A handler with its manager; a submission needs a token no job has. -/
theorem App.held_can (hx : A.handlers[n]? = some (r, .held)) (hpasses : r.PassesThrough .held) :
    A.HandlerCan service beh n := by
  cases r with
  | submitJob session =>
      obtain ⟨job, hjob⟩ := Infinite.exists_notMem_finset
        (A.server.members.filterMap fun x => x.1.token).toFinset
      refine App.handlerCan_of hx (a := .body none job) (fun x hxm htoken => hjob ?_) rfl
      exact List.mem_toFinset.mpr (List.mem_filterMap.mpr ⟨x, hxm, htoken⟩)
  | getJob session job =>
      refine App.handlerCan_of hx (a := .go) trivial ?_
      simp only [App.handlerStep, App.getJob]
      split <;> rfl
  | cancelJob session job =>
      refine App.handlerCan_of hx (a := .go) trivial ?_
      simp only [App.handlerStep, App.cancelJob]
      split <;> rfl
  | _ => exact hpasses.elim

/-- The upload a handler works at stores under an id that is new in its session. -/
theorem AppLive.upload_can (h : AppLive service beh A) {session : Str} {type : String}
    (hx : A.handlers[n]? = some (.uploadPayload session type, .working i)) :
    A.HandlerCan service beh n := by
  obtain ⟨data, p, hp⟩ := h.inv.handlers _ (List.mem_of_getElem? hx)
  have hwaits := h.awaits_inHand hx (i := i) rfl
  rw [Server.awaits_eq hp] at hwaits
  obtain ⟨id, hid⟩ := Dict.exists_fresh (A.server.store.sessions session).session.payloads
  have huploading : p = .uploading := by
    cases p with
    | uploading => rfl
    | job j => rcases JobStage.awaits_eq_some hwaits with ⟨heq, -⟩ | ⟨heq, -⟩ <;> cases heq
    | uploaded => cases hwaits
  subst huploading
  refine App.handlerCan_of hx (a := .store id) ?_ ?_
  · intro x hxm k hk y hy
    obtain rfl : x = (.uploadPayload session type, .working i) :=
      (Option.some.inj (hx.symm.trans hxm)).symm
    obtain rfl : i = k := Option.some.inj hk
    obtain rfl : y = (.upload session type data, .uploading) :=
      (Option.some.inj (hp.symm.trans hy)).symm
    exact hid
  · simp [App.handlerStep, App.uploadPayload, App.act, poolStep, hp, partyStep]

/-- A handler that works at a job or an upload: the job waits to be validated. -/
theorem AppLive.working_can (h : AppLive service beh A)
    (hx : A.handlers[n]? = some (r, .working i)) : A.HandlerCan service beh n := by
  have hpasses := h.passes _ (List.mem_of_getElem? hx)
  have hrefers := h.inv.handlers _ (List.mem_of_getElem? hx)
  cases r with
  | submitJob session =>
      obtain ⟨req, j, hj, -⟩ := hrefers
      have hwaits := h.awaits_inHand hx (i := i) rfl
      rw [Server.awaits_jobAt hj] at hwaits
      rcases JobStage.awaits_eq_some hwaits with ⟨-, hst⟩ | ⟨heq, -⟩
      · exact App.handlerCan_of hx (a := .go) trivial (App.submit_isSome hj hst session)
      · cases heq
  | uploadPayload session type => exact h.upload_can hx
  | _ => exact hpasses.elim

/-- The inserted job waits to be started. -/
theorem AppLive.inserted_can (h : AppLive service beh A)
    (hx : A.handlers[n]? = some (r, .inserted i)) : A.HandlerCan service beh n := by
  have hpasses := h.passes _ (List.mem_of_getElem? hx)
  have hrefers := h.inv.handlers _ (List.mem_of_getElem? hx)
  cases r with
  | submitJob session =>
      obtain ⟨req, j, hj, -⟩ := h.inv.jobs session i hrefers
      have hwaits := h.awaits_inHand hx (i := i) rfl
      rw [Server.awaits_jobAt hj] at hwaits
      rcases JobStage.awaits_eq_some hwaits with ⟨heq, -⟩ | ⟨-, hst⟩
      · cases heq
      · have hsome : (A.act service i (.job .advance)).isSome = true :=
          App.act_isSome hj (by simp [jobStep, advance, hst])
        refine App.handlerCan_of hx (a := .go) trivial ?_
        simpa [App.handlerStep, App.submitJob] using hsome
  | _ => exact hpasses.elim

/-- `shutdown` goes through its copy of the table: the jobs in it are there. -/
theorem AppLive.stopping_can (h : AppLive service beh A) {todo : List Nat}
    (hx : A.handlers[n]? = some (r, .stopping todo)) : A.HandlerCan service beh n := by
  have hpasses := h.passes _ (List.mem_of_getElem? hx)
  have hrefers := h.inv.handlers _ (List.mem_of_getElem? hx)
  cases r with
  | deleteSession session =>
      cases todo with
      | nil => exact App.handlerCan_of hx (a := .go) trivial rfl
      | cons i todo =>
          obtain ⟨req, j, hj, -⟩ := h.inv.jobs session i (hrefers i List.mem_cons_self)
          refine App.handlerCan_of hx (a := .go) trivial ?_
          simp [App.handlerStep, App.deleteSession, hj]
  | _ => exact hpasses.elim

/-- **A handler that has not answered has a step to take.** -/
theorem exists_handler_step (h : AppLive service beh A) (hx : A.handlers[n]? = some (r, st))
    (hopen : ∀ reply, st ≠ .answered reply) :
    ∃ a, AppOk service beh A (.handler n a) ∧
      (appStep service A (.handler n a)).isSome = true := by
  have hpasses := h.passes (r, st) (List.mem_of_getElem? hx)
  have hrefers := h.inv.handlers (r, st) (List.mem_of_getElem? hx)
  have hgo : (A.handlerStep service r st .go).isSome = true → A.HandlerCan service beh n :=
    App.handlerCan_of hx (a := .go) trivial
  show A.HandlerCan service beh n
  cases st with
  | answered reply => exact absurd rfl (hopen reply)
  | arrived => exact App.arrived_can hx
  | held => exact App.held_can hx hpasses
  | working i => exact h.working_can hx
  | inserted i => exact h.inserted_can hx
  | stopping todo => exact h.stopping_can hx
  | stored id =>
      cases r with
      | createSession => exact hgo rfl
      | _ => exact hpasses.elim
  | found =>
      cases r with
      | uploadPayload session type =>
          -- any data will do
          refine App.handlerCan_of hx (a := .data []) trivial ?_
          simp [App.handlerStep, App.uploadPayload]
      | downloadPayload session payload =>
          apply hgo
          simp only [App.handlerStep, App.downloadPayload]
          split <;> rfl
      | submitJob session => exact hgo rfl
      | _ => exact hpasses.elim
  | started i =>
      cases r with
      | submitJob session =>
          obtain ⟨req, j, hj, -⟩ := h.inv.jobs session i hrefers
          apply hgo
          simp [App.handlerStep, App.submitJob, hj]
      | _ => exact hpasses.elim
  | cancelling i =>
      cases r with
      | cancelJob session job =>
          apply hgo
          simpa [App.handlerStep, App.cancelJob] using h.inv.cancel_isSome hrefers
      | _ => exact hpasses.elim
  | dropped =>
      cases r with
      | deleteSession session =>
          apply hgo
          simp only [App.handlerStep, App.deleteSession]
          split <;> rfl
      | _ => exact hpasses.elim
  | popped =>
      cases r with
      | deleteSession session => exact hgo rfl
      | _ => exact hpasses.elim
  | marking i todo =>
      cases r with
      | deleteSession session =>
          apply hgo
          simpa [App.handlerStep, App.deleteSession] using
            h.inv.cancel_isSome (hrefers i List.mem_cons_self)
      | _ => exact hpasses.elim

/-- Every request has its reply, and every job of a table its end, with its last
event in the log. -/
structure App.Settled (A : App) : Prop where
  answered : ∀ x ∈ A.handlers, ∃ reply, x.2 = .answered reply
  ended : ∀ session, ∀ i ∈ A.jobs session, ∃ req j, A.server.jobAt i = some (req, j) ∧
    j.status.isTerminal = true ∧
      ∃ e ∈ (A.server.store.sessions session).events.ofJob req.token, e.isFinal = true

/-- A job that is done has announced it. -/
theorem JobInv.announced_of_done {k : Desk} {outcome : Outcome} (h : JobInv service req k j)
    (hdone : j.stage = .done outcome) : j.status.isTerminal = true ∧
      ∃ e ∈ k.2.events.ofJob req.token, e.isFinal = true := by
  unfold JobInv at h
  rw [hdone] at h
  obtain ⟨body, hevents, hstatus, -⟩ := h
  refine ⟨by rw [hstatus]; cases outcome <;> rfl, outcome.event, ?_, by cases outcome <;> rfl⟩
  rw [hevents]
  exact List.mem_append_right _ (by simp [Outcome.ending])

/-- **Where the service can take no step, everything is settled**, when modules
return. -/
theorem AppLive.settled
    (htotal : ∀ m inputs params draft, ∃ outcome, beh m inputs params draft outcome)
    (h : AppLive service beh A) (hstuck : ∀ B, ¬ App.Serves service beh A B) : A.Settled := by
  have hstep : ∀ {a : AppAct}, AppOk service beh A a → a.isRequest = false →
      (appStep service A a).isSome = true → False := by
    intro a hok hserves hsome
    obtain ⟨B, hB⟩ := Option.isSome_iff_exists.mp hsome
    exact hstuck B ⟨a, ⟨hok, hserves⟩, hB⟩
  have hanswered : ∀ x ∈ A.handlers, ∃ reply, x.2 = .answered reply := by
    rintro ⟨r, st⟩ hx
    obtain ⟨n, hn⟩ := List.mem_iff_getElem?.mp hx
    by_contra hopen
    obtain ⟨a, hok, hsome⟩ := exists_handler_step h hn fun reply heq => hopen ⟨reply, heq⟩
    exact hstep hok rfl hsome
  refine ⟨hanswered, fun session i hi => ?_⟩
  obtain ⟨req, j, hj, rfl, hisJob⟩ := h.inv.jobs session i hi
  -- nobody has it in hand, so it has been started
  have hrest : j.stage.awaits = none := by
    rw [← Server.awaits_jobAt hj]
    refine h.attended.rest ?_ i
    intro o ho
    obtain ⟨⟨r, st⟩, hx, rfl⟩ := List.mem_map.mp ho
    obtain ⟨reply, heq⟩ := hanswered _ hx
    obtain rfl : st = .answered reply := heq
    cases r <;> rfl
  have hstarted : j.stage.isStarted = true := by
    cases hst : j.stage with
    | validating | inserted =>
        rw [hst] at hrest
        cases hrest
    | refused =>
        rw [hst] at hisJob
        cases hisJob
    | _ => rfl
  have hinv := h.inv.jobInv hj
  by_contra hnot
  have hopen : ∀ outcome, j.stage ≠ .done outcome := fun outcome hdone =>
    hnot ⟨req, j, hj, hinv.announced_of_done hdone⟩
  obtain ⟨a, hcancel, hok, hsome⟩ := exists_job_step htotal hinv hstarted hopen
  refine hstep (a := .thread i a) ?_ rfl ?_
  · intro x hx
    obtain rfl : x = (.job req, .job j) :=
      (Option.some.inj ((Server.jobAt_eq_some.mp hj).symm.trans hx)).symm
    exact hok
  · have hact := App.act_isSome hj hsome
    simpa [appStep, hj, hstarted, hcancel] using hact

/-- **Every request is answered and every job ends**: when modules return and
no new requests come in, no run of the service goes on for ever, and one that
can take no further step has answered every request and ended every job. -/
theorem service_settles
    (htotal : ∀ m inputs params draft, ∃ outcome, beh m inputs params draft outcome)
    (hrun : AppReaches service beh App.empty A) :
    Terminates (App.Serves service beh) A ∧
      ∀ B, Reaches (App.Serves service beh) A B → (∀ C, ¬ App.Serves service beh B C) →
        B.Settled := by
  constructor
  · refine terminates_of_wellFounded (I := AppInv service beh) (m := App.left service) ?_ ?_
      (app_inv hrun)
    · rintro B C ⟨a, ⟨hok, -⟩, hs⟩ hinv
      exact (hinv.step hok hs).2
    · exact fun B C hs hinv => App.left_lt hinv hs
  · intro B hlater hstuck
    exact (app_live (hrun.trans (App.Serves.reaches hlater))).settled htotal hstuck

/-- A job under way, its session being deleted. -/
theorem service_settles_deleting : ∃ A B : App,
    AppReaches sampleService anyBehaviour App.empty A ∧
      A.handlers[2]? = some (.deleteSession "s", .popped) ∧ A.jobs "s" = [0] ∧
        Reaches (App.Serves sampleService anyBehaviour) A B ∧ B.Settled := by
  have hacts : ∃ A, runActs (guarded (appStep sampleService) (AppOk sampleService anyBehaviour))
      ([.request .createSession, .handler 0 (.create "s"), .handler 0 .go] ++ submitActs ++
        .request (.deleteSession "s") :: List.replicate 2 (.handler 2 .go)) App.empty = some A ∧
      A.handlers[2]? = some (.deleteSession "s", .popped) ∧ A.jobs "s" = [0] :=
    ⟨_, rfl, rfl, rfl⟩
  obtain ⟨A, hA, hdeleting, hjobs⟩ := hacts
  have hrun : AppReaches sampleService anyBehaviour App.empty A := reaches_of_guarded hA
  obtain ⟨hends, hsettles⟩ :=
    service_settles (fun _ _ _ _ => ⟨.error (.exception ""), trivial⟩) hrun
  have hgoes : ∀ C, Reaches (App.Serves sampleService anyBehaviour) A C →
      (∀ D, ¬ App.Serves sampleService anyBehaviour C D) ∨
        ∃ D, App.Serves sampleService anyBehaviour C D := by
    intro C _
    by_cases hmove : ∃ D, App.Serves sampleService anyBehaviour C D
    · exact Or.inr hmove
    · exact Or.inl fun D hD => hmove ⟨D, hD⟩
  obtain ⟨B, hB, hstuck⟩ := hends.reaches_final hgoes
  exact ⟨A, B, hrun, hdeleting, hjobs, hB, hsettles B hB hstuck⟩

end Live

end Formshift
