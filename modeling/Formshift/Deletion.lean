/-
Formshift/Deletion.lean

What deleting a session stops (`delete_session`, `app.py`; `shutdown`,
`jobs.py`).

Deletion takes the session out of the store and its manager out of the dict;
then it goes through a copy of the manager's table of jobs and sets the flag of
each that has not ended.  A submission that holds the manager by then inserts
its job behind the copy, and nobody stops it (`deletion_stops_jobs_fails`).
Main results: where that does not happen each job of the session has ended or is
flagged when the deletion is answered, and where moreover no job is past its
last look when its flag is set, none completes any more
(`deleted_sessions_stop`, and job by job `deletion_stops_jobs`).
-/
import Formshift.LastLook
import Formshift.Registers

namespace Formshift

open Py Steps

/-! ### In time -/

namespace HandlerStage

/-- `shutdown` has its copy of the table, or there was no manager to shut down. -/
def isPastSnapshot : HandlerStage → Bool
  | stopping _ | marking _ _ | answered .noContent => true
  | _ => false

/-- `shutdown` is done with this job, if it was in its copy at all. -/
def hasPassed (i : Nat) : HandlerStage → Bool
  | stopping todo => i ∉ todo
  | marking k todo => i ≠ k ∧ i ∉ todo
  | answered .noContent => true
  | _ => false

theorem isPastSnapshot_of_hasPassed {st : HandlerStage} {i : Nat} (h : st.hasPassed i = true) :
    st.isPastSnapshot = true := by
  cases st with
  | stopping | marking => rfl
  | answered reply =>
      cases reply with
      | noContent => rfl
      | created | payload | download | submitted | document | stream | error => cases h
  | arrived | stored | found | held | working | inserted | started | cancelling | dropped
  | popped => cases h

end HandlerStage

namespace App

variable (service : Service) (A : App)

/-- A deletion of the session is past its copy of the table. -/
def shutDown (session : Str) : Bool :=
  A.handlers.any fun x => x.1 = .deleteSession session ∧ x.2.isPastSnapshot = true

/-- A deletion of the session is done with this job. -/
def hasPassed (session : Str) (i : Nat) : Bool :=
  A.handlers.any fun x => x.1 = .deleteSession session ∧ x.2.hasPassed i = true

/-- A deletion of the session has been answered with 204. -/
def Deleted (session : Str) : Prop :=
  (.deleteSession session, .answered .noContent) ∈ A.handlers

/-- The submission in this place would be accepted. -/
def accepts (i : Nat) : Bool :=
  (A.server.jobAt i).any fun x =>
    (validateGraph x.1.graph service.registry (A.server.store.sessions x.1.session).session).isEmpty

/-- No job is inserted behind the copy `shutdown` has taken of the table. -/
def early : AppAct → Bool
  | .handler n .go =>
    match A.handlers[n]? with
    | some (.submitJob session, .working i) => !(A.accepts service i && A.shutDown session)
    | _ => true
  | .handler _ _ | .thread _ _ | .request _ => true

/-- No job is inserted behind the copy `shutdown` has taken of the table, none
is past its last look at the flag when `shutdown` sets it, and none gets past it
later by a cache hit. -/
def inTime : AppAct → Bool
  | .handler n .go =>
    match A.handlers[n]? with
    | some (.submitJob session, .working i) => !(A.accepts service i && A.shutDown session)
    | some (.deleteSession _, .marking i _) =>
      (A.server.jobAt i).all fun x => x.2.status.isTerminal || stoppable x.1 x.2
    | _ => true
  | .thread i a =>
    (A.server.jobAt i).all fun x =>
      !(A.hasPassed x.1.session i && losesLook x.1 (A.server.store.desk x.1.session) x.2 a)
  | .request _ | .handler _ _ => true

end App

def AppOkInTime (service : Service) (beh : Behaviour) (A : App) (a : AppAct) : Prop :=
  AppOk service beh A a ∧ A.inTime service a = true

instance (service : Service) (A : App) (a : AppAct) :
    Decidable (AppOkInTime service anyBehaviour A a) :=
  inferInstanceAs (Decidable (AppOk service anyBehaviour A a ∧ A.inTime service a = true))

/-- The runs in which every step is in time. -/
abbrev AppReachesInTime (service : Service) (beh : Behaviour) : App → App → Prop :=
  Reaches (Fires (appStep service) (AppOkInTime service beh))

def AppOkEarly (service : Service) (beh : Behaviour) (A : App) (a : AppAct) : Prop :=
  AppOk service beh A a ∧ A.early service a = true

/-- The runs in which no job is inserted behind a copy of its table. -/
abbrev AppReachesEarly (service : Service) (beh : Behaviour) : App → App → Prop :=
  Reaches (Fires (appStep service) (AppOkEarly service beh))

/-! ### What a deletion has seen to -/

/-- Flagged. -/
def Flagged (_ : JobRequest) (j : JobState) : Prop := j.cancel = true

/-- Flagged, with a look at the flag ahead. -/
def FlaggedInTime (req : JobRequest) (j : JobState) : Prop :=
  j.cancel = true ∧ stoppable req j = true

section Settled

/-! What a deletion sees to is that a job has ended or is in a state `Q`. -/

variable (Q : JobRequest → JobState → Prop)

def Server.Settled (P : Server) (i : Nat) : Prop :=
  ∃ req j, P.jobAt i = some (req, j) ∧ (j.status.isTerminal = true ∨ Q req j)

/-- The jobs that a deletion is done with are settled. -/
def Swept (A : App) : Prop :=
  ∀ session, ∀ i ∈ A.jobs session, A.hasPassed session i = true → A.server.Settled Q i

/-- A step of a member that leaves a job in `Q` if a deletion has seen to it. -/
def App.Keeps (service : Service) (A : App) (n : Nat) (a : PartyAct) : Prop :=
  ∀ b req j y, a = .job b → A.server.jobAt n = some (req, j) →
    A.hasPassed req.session n = true → Q req j →
      jobStep service req (A.server.store.desk req.session, j) b = some y → Q req y.2

/-- What is asked of a step for the sake of `Q`: no job is inserted behind the
copy of its table, a flag brings a job into `Q`, and nothing gets it out. -/
structure Timely (service : Service) (A : App) (a : AppAct) : Prop where
  early : A.early service a = true
  marks : ∀ n session i todo req j, a = .handler n .go →
    A.handlers[n]? = some (.deleteSession session, .marking i todo) →
      A.server.jobAt i = some (req, j) → j.status.isTerminal = true ∨
        Q req { j with stage := j.stage.setCancel, cancel := true }
  keeps : ∀ i b, a = .thread i b ∨ b = .advance ∨ b = .cancel → A.Keeps Q service i (.job b)

end Settled

section Swept

variable {Q : JobRequest → JobState → Prop}
variable {service : Service} {beh : Behaviour} {A A' B : App} {session : Str} {i n : Nat}
  {req : JobRequest} {j : JobState} {r : SessionRequest} {st st' : HandlerStage}

theorem App.shutDown_iff : A.shutDown session = true ↔
    ∃ st, (.deleteSession session, st) ∈ A.handlers ∧ st.isPastSnapshot = true := by
  simp only [App.shutDown, List.any_eq_true, decide_eq_true_eq]
  constructor
  · rintro ⟨⟨r, st⟩, hx, rfl, hst⟩
    exact ⟨st, hx, hst⟩
  · rintro ⟨st, hx, hst⟩
    exact ⟨_, hx, rfl, hst⟩

theorem App.hasPassed_iff : A.hasPassed session i = true ↔
    ∃ st, (.deleteSession session, st) ∈ A.handlers ∧ st.hasPassed i = true := by
  simp only [App.hasPassed, List.any_eq_true, decide_eq_true_eq]
  constructor
  · rintro ⟨⟨r, st⟩, hx, rfl, hst⟩
    exact ⟨st, hx, hst⟩
  · rintro ⟨st, hx, hst⟩
    exact ⟨_, hx, rfl, hst⟩

theorem App.early_of_inTime {a : AppAct} (h : A.inTime service a = true) :
    A.early service a = true := by
  cases a with
  | request | thread => rfl
  | handler n b =>
      cases b with
      | go =>
          unfold App.early
          unfold App.inTime at h
          dsimp only at h ⊢
          -- the two ask the same of a submission
          cases hx : A.handlers[n]? with
          | none => rfl
          | some x =>
              obtain ⟨r, st⟩ := x
              rw [hx] at h
              cases r with
              | submitJob session => cases st <;> exact h
              | _ => rfl
      | _ => rfl

/-- Nothing takes a flag back. -/
theorem timely_flagged {a : AppAct} (h : A.early service a = true) :
    Timely Flagged service A a where
  early := h
  marks _ _ _ _ _ _ _ _ _ := Or.inr rfl
  keeps i b _ := by
    intro b' req j y _ _ _ hflag hy
    unfold Flagged at *
    cases jobStep_move service req hy with
    | cancel => rfl
    | refuse | accept | announcePending | mark | announceRunning | group | stuck | enter | returned
    | raised | close | announceStatus | announceEnd | exec | notify | emitted | gate => exact hflag

/-- In time a look at the flag stays ahead. -/
theorem AppInv.timely_flaggedInTime (h : AppInv service beh A) {a : AppAct}
    (htime : A.inTime service a = true) : Timely FlaggedInTime service A a where
  early := App.early_of_inTime htime
  marks := by
    rintro n session i todo req j rfl hx hjob
    have hcan : j.status.isTerminal = true ∨ stoppable req j = true := by
      simpa [App.inTime, hx, hjob] using htime
    exact hcan.imp_right fun hstop => ⟨rfl, stoppable_setCancel hstop⟩
  keeps i b hb := by
    intro b' req j y hb' hjob hpassed hflag hy
    obtain rfl := PartyAct.job.inj hb'
    have hlost : losesLook req (A.server.store.desk req.session) j b = false := by
      rcases hb with rfl | rfl | rfl
      · simpa [App.inTime, hjob, hpassed] using htime
      · rfl
      · rfl
    exact ((h.jobInv hjob).stoppable_step hflag.2 hflag.1 hlost hy).symm

theorem App.keeps_store {id : Str} : A.Keeps Q service i (.store id) := by
  intro b req j y hb
  cases hb

/-- What is settled stays so. -/
theorem AppInv.settled_acts (h : AppInv service beh A) {a : PartyAct} {P : Server}
    (hacts : A.Acts service n a P) (hkeep : A.Keeps Q service n a) (hi : i ∈ A.jobs session)
    (hpassed : A.hasPassed session i = true) (hsettled : A.server.Settled Q i) :
    P.Settled Q i := by
  obtain ⟨req, j, hjob, hsession, -⟩ := h.jobs session i hi
  obtain ⟨req', j', hjob', hsettled⟩ := hsettled
  obtain ⟨rfl, rfl⟩ := Prod.mk.inj (Option.some.inj (hjob.symm.trans hjob'))
  rcases Server.jobAt_step hacts hjob with ⟨-, hsame⟩ | ⟨b, y, heq, hy, hi'⟩
  · exact ⟨req, j, hsame, hsettled⟩
  · obtain ⟨rfl, rfl⟩ := PoolAct.act.inj heq
    refine ⟨req, y.2, hi', ?_⟩
    rcases hsettled with hterminal | hQ
    · have hfinal := (h.jobInv hjob).precedes hy
      exact Or.inl ((hfinal.final hterminal).1 ▸ hterminal)
    · exact Or.inr (hkeep b req j y rfl hjob (hsession ▸ hpassed) hQ hy)

/-- A member takes a step. -/
theorem Swept.acts (h : Swept Q A) (hinv : AppInv service beh A) {a : PartyAct} {P : Server}
    (hacts : A.Acts service n a P) (hkeep : A.Keeps Q service n a) :
    Swept Q { A with server := P } :=
  fun session i hi hpassed => hinv.settled_acts hacts hkeep hi hpassed (h session i hi hpassed)

/-- A new party. -/
theorem Swept.spawn (h : Swept Q A) (m : Party) : Swept Q (A.spawn m) := by
  intro session i hi hpassed
  obtain ⟨req, j, hjob, hsettled⟩ := h session i hi hpassed
  refine ⟨req, j, Server.jobAt_eq_some.mpr ?_, hsettled⟩
  have hmember := Server.jobAt_eq_some.mp hjob
  exact (List.getElem?_append_left (List.getElem?_eq_some_iff.mp hmember).1).trans hmember

/-- A job is inserted before any copy of the table is taken. -/
theorem Swept.insertJob (h : Swept Q A) (hearly : A.shutDown session = false) :
    Swept Q (A.insertJob session i) := by
  intro other k hk hpassed
  rcases App.mem_jobs_insertJob.mp hk with hk | ⟨rfl, rfl⟩
  · exact h other k hk hpassed
  · obtain ⟨st, hst, hpassed⟩ := App.hasPassed_iff.mp hpassed
    have hlate : A.shutDown other = true := App.shutDown_iff.mpr
      ⟨st, hst, HandlerStage.isPastSnapshot_of_hasPassed hpassed⟩
    rw [hearly] at hlate
    cases hlate

/-- A handler moves on: what it is done with from now on is settled. -/
theorem Swept.setHandler (h : Swept Q A) (hserver : A'.server = A.server)
    (hjobs : A'.jobs = A.jobs) (hhandlers : A'.handlers = A.handlers.set n (r, st))
    (hnew : ∀ session, r = .deleteSession session → ∀ i ∈ A.jobs session,
      st.hasPassed i = true → A.hasPassed session i = true ∨ A.server.Settled Q i) :
    Swept Q A' := by
  intro session i hi hpassed
  rw [hserver]
  rw [hjobs] at hi
  obtain ⟨t, ht, hpassed⟩ := App.hasPassed_iff.mp hpassed
  rw [hhandlers] at ht
  rcases List.mem_or_eq_of_mem_set ht with hold | heq
  · exact h session i hi (App.hasPassed_iff.mpr ⟨t, hold, hpassed⟩)
  · obtain ⟨hr, rfl⟩ := Prod.mk.inj heq
    exact (hnew session hr.symm i hi hpassed).elim (h session i hi) id

/-- What `manager.submit` inserts has been validated. -/
theorem App.accepts_of_inserted (hi : A.server.jobAt i = some (req, j)) {P : Server}
    (hacts : A.Acts service i (.job .advance) P) {req' : JobRequest} {j' : JobState}
    (hi' : P.jobAt i = some (req', j')) (hst : j'.stage = .inserted) :
    A.accepts service i = true := by
  rcases Server.jobAt_step hacts hi with ⟨hnot, -⟩ | ⟨b, y, heq, hy, hjob⟩
  · exact absurd rfl (hnot _)
  · obtain ⟨rfl, rfl⟩ := Prod.mk.inj (Option.some.inj (hjob.symm.trans hi'))
    obtain rfl : b = .advance := (PartyAct.job.inj (PoolAct.act.inj heq).2).symm
    cases jobStep_move service _ hy with
    | accept _ hvalid =>
        have hnil : validateGraph req.graph service.registry
            (A.server.store.sessions req.session).session = [] := hvalid
        simp [App.accepts, hi, hnil]
    | refuse | announcePending | mark | announceRunning | group | stuck | enter | returned | raised
    | close | announceStatus | announceEnd => cases hst

/-- **The step lemma of a handler.** -/
theorem Swept.handler (h : Swept Q A) (hinv : AppInv service beh A) (hreg : Registered A)
    {a : HandlerAct} (hx : A.handlers[n]? = some (r, st))
    (hm : HandlerMove service A r st a B st') (htime : Timely Q service A (.handler n a)) :
    Swept Q { B with handlers := A.handlers.set n (r, st') } := by
  have hmem : (r, st) ∈ A.handlers := List.mem_of_getElem? hx
  have hpassed : ∀ session i, r = .deleteSession session → st.hasPassed i = true →
      A.hasPassed session i = true :=
    fun session i hr hst => App.hasPassed_iff.mpr ⟨st, hr ▸ hmem, hst⟩
  cases hm with
  | miss | found | hold | stream | rejectData | rejectBody | download | unsent | noPayload | document
  | unencoded | aim | submitted | create | manage | drop | pop =>
      exact h.setHandler rfl rfl rfl (by simp [HandlerStage.hasPassed, SessionReply.sessionNotFound,
        SessionReply.payloadNotFound])
  | seek hr | noJob hr =>
      exact h.setHandler rfl rfl rfl (by rcases hr with rfl | rfl <;> simp)
  | @unmanaged session hout =>
      refine h.setHandler rfl rfl rfl fun other hr i hi _ => ?_
      obtain rfl := SessionRequest.deleteSession.inj hr
      rw [hreg.no_jobs hx hout] at hi
      cases hi
  | @snapshot session =>
      refine h.setHandler rfl rfl rfl fun other hr i hi hnot => ?_
      obtain rfl := SessionRequest.deleteSession.inj hr
      have hout : i ∉ A.jobs session := by simpa [HandlerStage.hasPassed] using hnot
      exact absurd hi hout
  | stopped =>
      exact h.setHandler rfl rfl rfl fun other hr i hi _ => Or.inl (hpassed other i hr rfl)
  | @skip session k todo req j hjob hterminal =>
      refine h.setHandler rfl rfl rfl fun other hr i hi hpass => ?_
      by_cases hik : i = k
      · subst hik
        exact Or.inr ⟨req, j, hjob, Or.inl hterminal⟩
      · refine Or.inl (hpassed other i hr ?_)
        simpa [HandlerStage.hasPassed, hik] using hpass
  | @see session k todo =>
      refine h.setHandler rfl rfl rfl fun other hr i hi hpass => Or.inl (hpassed other i hr ?_)
      simpa [HandlerStage.hasPassed] using hpass
  | @mark session k todo P hacts =>
      have hacted := h.acts hinv hacts (htime.keeps _ _ (Or.inr (Or.inr rfl)))
      refine hacted.setHandler rfl rfl rfl fun other hr i hi hpass => ?_
      by_cases hik : i = k
      · subst hik
        right
        obtain ⟨req, j, hjob, -, -⟩ := hinv.jobs other i hi
        rcases Server.jobAt_step hacts hjob with ⟨hnot, -⟩ | ⟨b, y, heq, hy, hjob'⟩
        · exact absurd rfl (hnot _)
        · obtain rfl : b = .cancel := (PartyAct.job.inj (PoolAct.act.inj heq).2).symm
          refine ⟨req, y.2, hjob', ?_⟩
          have hmarks := htime.marks n session i todo req j rfl hx hjob
          cases jobStep_move service req hy with
          | cancel => exact hmarks
      · refine Or.inl (hpassed other i hr ?_)
        simpa [HandlerStage.hasPassed, hik] using hpass
  | upload | submit => exact (h.spawn _).setHandler rfl rfl rfl (by simp)
  | store hacts => exact (h.acts hinv hacts App.keeps_store).setHandler rfl rfl rfl (by simp)
  | refuse hacts | start hacts =>
      have hacted := h.acts hinv hacts (htime.keeps _ _ (Or.inr (Or.inl rfl)))
      exact hacted.setHandler rfl rfl rfl (by simp)
  | @insert session i P req' j' hacts hjob' hst =>
      obtain ⟨req, j, hjob, -⟩ := hinv.handlers _ hmem
      have haccepts := App.accepts_of_inserted hjob hacts hjob' hst
      -- the table has not been copied yet
      have hearly : A.shutDown session = false := by
        simpa [App.early, hx, haccepts] using htime.early
      have hacted := h.acts hinv hacts (htime.keeps _ _ (Or.inr (Or.inl rfl)))
      exact (hacted.insertJob (i := i) hearly).setHandler rfl rfl rfl (by simp)
  | cancel hacts =>
      have hacted := h.acts hinv hacts (htime.keeps _ _ (Or.inr (Or.inr rfl)))
      exact hacted.setHandler rfl rfl rfl (by simp)

/-- **The step lemma.** -/
theorem Swept.step (h : Swept Q A) (hinv : AppInv service beh A) (hreg : Registered A)
    {a : AppAct} (htime : Timely Q service A a) (hs : appStep service A a = some A') :
    Swept Q A' := by
  rcases appStep_cases hs with ⟨r, rfl, rfl⟩ | ⟨n, b, r, st, B, st', rfl, hx, hm, rfl⟩ |
    ⟨i, b, P, rfl, hacts, rfl⟩
  · intro session i hi hpassed
    apply h session i hi
    obtain ⟨st, hst, hpassed⟩ := App.hasPassed_iff.mp hpassed
    refine App.hasPassed_iff.mpr ⟨st, ?_, hpassed⟩
    rcases List.mem_append.mp hst with hst | hst
    · exact hst
    · obtain ⟨-, rfl⟩ := Prod.mk.inj (List.mem_singleton.mp hst)
      cases hpassed
  · exact h.handler hinv hreg hx hm htime
  · exact h.acts hinv hacts (htime.keeps _ _ (Or.inl rfl))

end Swept

/-! ### The deletion -/

section Deletion

variable {Q : JobRequest → JobState → Prop}
variable {service : Service} {beh : Behaviour} {A A' B : App} {session : Str} {i n : Nat}
  {req : JobRequest} {j : JobState} {r : SessionRequest} {st st' : HandlerStage} {P : Server}

theorem AppReachesInTime.early (h : AppReachesInTime service beh A B) :
    AppReachesEarly service beh A B :=
  h.lift id fun _ _ ⟨a, ⟨hok, htime⟩, hs⟩ => ⟨a, ⟨hok, App.early_of_inTime htime⟩, hs⟩

/-- The run lemma. -/
theorem swept {Ok : App → AppAct → Prop}
    (hOk : ∀ A a, AppInv service beh A → Ok A a → AppOk service beh A a ∧ Timely Q service A a)
    (hrun : Reaches (Fires (appStep service) Ok) App.empty A) :
    AppInv service beh A ∧ Registered A ∧ Swept Q A := by
  refine Reaches.invariant (I := fun A => AppInv service beh A ∧ Registered A ∧ Swept Q A) ?_ hrun
    ⟨app_inv .refl, @registered service beh _ .refl, by simp [Swept, App.empty]⟩
  rintro A A' ⟨a, ha, hs⟩ ⟨hinv, hreg, hswept⟩
  obtain ⟨hok, htime⟩ := hOk A a hinv ha
  exact ⟨(hinv.step hok hs).2, hreg.step hok hs, hswept.step hinv hreg htime hs⟩

/-- A job that a deletion has seen to stays in `Q`. -/
theorem Timely.step {a : AppAct} (htime : Timely Q service A a)
    (hs : appStep service A a = some A') (hjob : A.server.jobAt i = some (req, j))
    (hpassed : A.hasPassed req.session i = true) (hQ : Q req j) :
    ∃ j', A'.server.jobAt i = some (req, j') ∧ Q req j' := by
  have hacts : ∀ {n b P}, A.Acts service n b P → A.Keeps Q service n b →
      ∃ j', P.jobAt i = some (req, j') ∧ Q req j' := by
    intro n b P hacts hkeep
    rcases Server.jobAt_step hacts hjob with ⟨-, hsame⟩ | ⟨c, y, heq, hy, hi'⟩
    · exact ⟨j, hsame, hQ⟩
    · obtain ⟨rfl, rfl⟩ := PoolAct.act.inj heq
      exact ⟨y.2, hi', hkeep c req j y rfl hjob hpassed hQ hy⟩
  rcases appStep_cases hs with ⟨r, rfl, rfl⟩ | ⟨n, b, r, st, B, st', rfl, hx, hm, rfl⟩ |
    ⟨i, b, P, rfl, hP, rfl⟩
  · exact ⟨j, hjob, hQ⟩
  · rcases hm.server with hsame | ⟨m, hspawn⟩ | ⟨k, c, hP, hc⟩
    · exact ⟨j, by rw [← hjob, ← hsame], hQ⟩
    · refine ⟨j, Server.jobAt_eq_some.mpr ?_, hQ⟩
      have hmember := Server.jobAt_eq_some.mp hjob
      show B.server.members[i]? = _
      rw [hspawn]
      exact (List.getElem?_append_left (List.getElem?_eq_some_iff.mp hmember).1).trans hmember
    · apply hacts hP
      rcases hc with rfl | rfl | ⟨id, rfl⟩
      · exact htime.keeps _ _ (Or.inr (Or.inl rfl))
      · exact htime.keeps _ _ (Or.inr (Or.inr rfl))
      · exact App.keeps_store
  · exact hacts hP (htime.keeps _ _ (Or.inl rfl))

/-- No job is inserted once the copy of the table has been taken. -/
theorem AppInv.jobs_step (h : AppInv service beh A) {a : AppAct}
    (hearly : A.early service a = true) (hs : appStep service A a = some A')
    (hdown : A.shutDown session = true) : A'.jobs session = A.jobs session := by
  rcases appStep_cases hs with ⟨r, rfl, rfl⟩ | ⟨n, b, r, st, B, st', rfl, hx, hm, rfl⟩ |
    ⟨i, b, P, rfl, hP, rfl⟩
  · rfl
  · cases hm with
    | @insert other i P req' j' hacts hjob' hst =>
        obtain ⟨req, j, hjob, -⟩ := h.handlers _ (List.mem_of_getElem? hx)
        have haccepts := App.accepts_of_inserted hjob hacts hjob' hst
        have hopen : A.shutDown other = false := by
          simpa [App.early, hx, haccepts] using hearly
        have hne : session ≠ other := by
          rintro rfl
          rw [hdown] at hopen
          cases hopen
        exact Function.update_of_ne hne _ _
    | miss | found | hold | seek | stream | rejectData | rejectBody | download | unsent | noPayload
    | document | unencoded | noJob | aim | submitted | create | manage | drop | pop | unmanaged
    | snapshot | stopped | skip | see | mark | upload | store | submit | refuse | start | cancel => rfl
  · rfl

theorem App.Deleted.hasPassed (h : A.Deleted session) : A.hasPassed session i = true :=
  App.hasPassed_iff.mpr ⟨_, h, rfl⟩

theorem App.Deleted.shutDown (h : A.Deleted session) : A.shutDown session = true :=
  App.shutDown_iff.mpr ⟨_, h, rfl⟩

theorem App.Deleted.step {a : AppAct} (h : A.Deleted session)
    (hs : appStep service A a = some A') : A'.Deleted session := by
  obtain ⟨n, hn⟩ := List.mem_iff_getElem?.mp h
  rcases appStep_handler hs hn with hsame | ⟨b, B, st', -, hm, -⟩
  · exact List.mem_of_getElem? hsame
  · exact hm.not_answered.elim

section Runs

variable {Ok : App → AppAct → Prop}
  (hOk : ∀ A a, AppInv service beh A → Ok A a → AppOk service beh A a ∧ Timely Q service A a)

include hOk

/-- When the deletion has been answered, the jobs are settled. -/
theorem deleted_settled (hrun : Reaches (Fires (appStep service) Ok) App.empty A)
    (hdeleted : A.Deleted session) (hi : i ∈ A.jobs session) :
    ∃ req j, A.server.jobAt i = some (req, j) ∧ req.session = session ∧
      (j.status.isTerminal = true ∨ Q req j) := by
  obtain ⟨hinv, -, hswept⟩ := swept hOk hrun
  obtain ⟨req, j, hjob, hsession, -⟩ := hinv.jobs session i hi
  obtain ⟨req', j', hjob', hsettled⟩ := hswept session i hi hdeleted.hasPassed
  obtain ⟨rfl, rfl⟩ := Prod.mk.inj (Option.some.inj (hjob.symm.trans hjob'))
  exact ⟨req, j, hjob, hsession, hsettled⟩

/-- From then on no job is added. -/
theorem deleted_run (hinv : AppInv service beh A) (hdeleted : A.Deleted session)
    (hlater : Reaches (Fires (appStep service) Ok) A B) :
    AppInv service beh B ∧ B.Deleted session ∧ B.jobs session = A.jobs session := by
  refine Reaches.invariant (I := fun C => AppInv service beh C ∧ C.Deleted session ∧
    C.jobs session = A.jobs session) ?_ hlater ⟨hinv, hdeleted, rfl⟩
  rintro C D ⟨a, ha, hs⟩ ⟨hC, hdel, hjobs⟩
  obtain ⟨hok, htime⟩ := hOk C a hC ha
  exact ⟨(hC.step hok hs).2, hdel.step hs,
    (hC.jobs_step htime.early hs hdel.shutDown).trans hjobs⟩

/-- And what was settled has ended as it had, or is in `Q`. -/
theorem settled_run (hinv : AppInv service beh A) (hdeleted : A.Deleted session)
    (hjob : A.server.jobAt i = some (req, j)) (hsession : req.session = session)
    (hsettled : j.status.isTerminal = true ∨ Q req j)
    (hlater : Reaches (Fires (appStep service) Ok) A B) :
    ∃ j', B.server.jobAt i = some (req, j') ∧ j.Precedes j' ∧
      (j.status.isTerminal = true ∨ Q req j') := by
  have hlast : AppInv service beh B ∧ B.Deleted session ∧
      ∃ j', B.server.jobAt i = some (req, j') ∧ j.Precedes j' ∧
        (j.status.isTerminal = true ∨ Q req j') := by
    refine Reaches.invariant (I := fun C => AppInv service beh C ∧ C.Deleted session ∧
      ∃ j', C.server.jobAt i = some (req, j') ∧ j.Precedes j' ∧
        (j.status.isTerminal = true ∨ Q req j')) ?_ hlater
      ⟨hinv, hdeleted, j, hjob, .refl j, hsettled⟩
    rintro C D ⟨a, ha, hs⟩ ⟨hC, hdel, j', hj', hpre, hstate⟩
    obtain ⟨hok, htime⟩ := hOk C a hC ha
    obtain ⟨hext, hD⟩ := hC.step hok hs
    -- its status has not gone back
    obtain ⟨j'', hj'', hnext, -⟩ := hext.places i req j' hj'
    refine ⟨hD, hdel.step hs, j'', hj'', hpre.trans hnext, ?_⟩
    rcases hstate with hterminal | hQ
    · exact Or.inl hterminal
    · obtain ⟨k, hk, hkQ⟩ := htime.step hs hj' (hsession ▸ hdel.hasPassed) hQ
      obtain ⟨-, rfl⟩ := Prod.mk.inj (Option.some.inj (hk.symm.trans hj''))
      exact Or.inr hkQ
  exact hlast.2.2

end Runs

theorem timely_of_early (A : App) (a : AppAct) (_ : AppInv service beh A)
    (h : AppOkEarly service beh A a) : AppOk service beh A a ∧ Timely Flagged service A a :=
  ⟨h.1, timely_flagged h.2⟩

theorem timely_of_inTime (A : App) (a : AppAct) (hinv : AppInv service beh A)
    (h : AppOkInTime service beh A a) : AppOk service beh A a ∧ Timely FlaggedInTime service A a :=
  ⟨h.1, hinv.timely_flaggedInTime h.2⟩

/-- A job that had not ended when it was settled does not complete. -/
theorem not_completed_run (hinv : AppInv service beh A) (hdeleted : A.Deleted session)
    (hjob : A.server.jobAt i = some (req, j)) (hsession : req.session = session)
    (hsettled : j.status.isTerminal = true ∨ FlaggedInTime req j)
    (hlater : AppReachesInTime service beh A B) {j' : JobState}
    (hjob' : B.server.jobAt i = some (req, j')) (hopen : j.status.isTerminal = false) :
    j'.status ≠ .completed := by
  have hB := (deleted_run timely_of_inTime hinv hdeleted hlater).1
  obtain ⟨k, hk, -, hstate⟩ :=
    settled_run timely_of_inTime hinv hdeleted hjob hsession hsettled hlater
  obtain ⟨-, rfl⟩ := Prod.mk.inj (Option.some.inj (hk.symm.trans hjob'))
  rcases hstate with hterminal | ⟨-, hstop⟩
  · rw [hopen] at hterminal
    cases hterminal
  · exact (hB.jobInv hk).not_completed hstop

/-- **Deletion stops a session's work**: in every run whose steps are in time,
when a deletion has been answered with 204, each job of the session has ended or
is flagged; no job is added any more, what had ended stays as it was, and what
had not never completes. -/
theorem deletion_stops_jobs (hrun : AppReachesInTime service beh App.empty A)
    (hdeleted : A.Deleted session) (hi : i ∈ A.jobs session) :
    ∃ req j, A.server.jobAt i = some (req, j) ∧ req.session = session ∧
      (j.status.isTerminal = true ∨ j.cancel = true) ∧
      ∀ B, AppReachesInTime service beh A B → B.jobs session = A.jobs session ∧
        ∃ j', B.server.jobAt i = some (req, j') ∧
          (j.status.isTerminal = true → j'.status = j.status) ∧
          (j.status.isTerminal = false → j'.status ≠ .completed) := by
  obtain ⟨hinv, -, -⟩ := swept timely_of_inTime hrun
  obtain ⟨req, j, hjob, hsession, hsettled⟩ := deleted_settled timely_of_inTime hrun hdeleted hi
  refine ⟨req, j, hjob, hsession, hsettled.imp_right And.left, fun B hlater => ?_⟩
  obtain ⟨j', hj', hpre, -⟩ :=
    settled_run timely_of_inTime hinv hdeleted hjob hsession hsettled hlater
  exact ⟨(deleted_run timely_of_inTime hinv hdeleted hlater).2.2, j', hj', fun hterminal => (hpre.final hterminal).1,
    not_completed_run hinv hdeleted hjob hsession hsettled hlater hj'⟩

/-! ### What the deletion misses -/

/-- A job that is in no table has no flag. -/
theorem unflagged (hrun : ServerReaches service beh Server.empty P)
    (hi : P.jobAt i = some (req, j)) (hnot : j.stage.isJob = false) : j.cancel = false := by
  refine Reaches.invariant (I := fun (P : Server) => ∀ i req j, P.jobAt i = some (req, j) →
    j.stage.isJob = false → j.cancel = false) ?_ hrun (fun i req j hi => ?_) i req j hi hnot
  · rintro P P' ⟨e, -, hs⟩ h i req j' hi' hnot
    have hm' := Server.jobAt_eq_some.mp hi'
    rcases poolStep_cases hs with ⟨m, rfl, rfl⟩ | ⟨n, b, m, s, x, rfl, hn, hx, rfl⟩
    · rcases List.mem_append.mp (List.mem_of_getElem? hm') with hold | hnew
      · obtain ⟨k, hk⟩ := List.mem_iff_getElem?.mp hold
        exact h k req j' (Server.jobAt_eq_some.mpr hk) hnot
      -- a new job has none
      · obtain ⟨rfl, hstart⟩ := Prod.mk.inj (List.mem_singleton.mp hnew)
        obtain rfl := PartyState.job.inj hstart
        rfl
    · by_cases hni : n = i
      · subst hni
        rw [List.getElem?_set_self (List.getElem?_eq_some_iff.mp hn).1] at hm'
        obtain ⟨rfl, hx2⟩ := Prod.mk.inj (Option.some.inj hm')
        cases s with
        | job j =>
            cases b with
            | job b =>
                obtain ⟨y, hy, rfl⟩ := Option.map_eq_some_iff.mp hx
                obtain rfl := PartyState.job.inj hx2
                have hold := h n req j (Server.jobAt_eq_some.mpr hn)
                cases jobStep_move service req hy with
                -- it gets into the table as it is, and only there it is flagged
                | refuse hst | accept hst => exact hold (by rw [hst]; rfl)
                | gate => exact hold hnot
                | cancel hjob =>
                    rw [JobStage.isJob_step hjob hy] at hnot
                    cases hnot
                | announcePending | mark | announceRunning | group | stuck | enter | returned
                | raised | close | announceStatus | announceEnd | exec | notify | emitted =>
                    cases hnot
            | store id => cases hx
        | uploading | uploaded =>
            cases b <;> cases hx
      · rw [List.getElem?_set_ne hni] at hm'
        exact h i req j' (Server.jobAt_eq_some.mpr hm') hnot
  · cases hi

/-- Every job of a session whose deletion has been answered has ended or is
flagged. -/
def App.Stopped (A : App) : Prop :=
  ∀ session, A.Deleted session → ∀ i ∈ A.jobs session, ∃ req j,
    A.server.jobAt i = some (req, j) ∧ (j.status.isTerminal = true ∨ j.cancel = true)

/-- No job of the session is completed in `B` that was not so in `A`. -/
def App.NoneCompletes (A B : App) (session : Str) : Prop :=
  ∀ i ∈ B.jobs session, ∀ req j', B.server.jobAt i = some (req, j') → j'.status = .completed →
    i ∈ A.jobs session ∧ ∃ j, A.server.jobAt i = some (req, j) ∧ j.status = .completed

/-- A job that is inserted after the deletion is neither. -/
theorem not_stopped_of_insert (hrun : AppReaches service beh App.empty A)
    (hdeleted : A.Deleted session)
    (hx : A.handlers[n]? = some (.submitJob session, .working i))
    (haccepts : A.accepts service i = true)
    (hs : appStep service A (.handler n .go) = some A') : ¬ A'.Stopped := by
  have hinv := app_inv hrun
  obtain ⟨req, j, hjob, hsession⟩ := hinv.handlers _ (List.mem_of_getElem? hx)
  have hvalid : validateGraph req.graph service.registry
      (A.server.store.sessions req.session).session = [] := by
    simpa [App.accepts, hjob] using haccepts
  intro hstopped
  obtain ⟨B, st', hm, hA', -⟩ := appStep_own hs hx
  cases hm with
  | miss _ hst => rcases hst with hst | hst <;> cases hst
  -- it is not refused, its graph being valid
  | refuse hacts hjob' hst =>
      rcases Server.jobAt_step hacts hjob with ⟨hnot, -⟩ | ⟨b, y, heq, hy, hi'⟩
      · exact hnot _ rfl
      · obtain rfl : b = .advance := (PartyAct.job.inj (PoolAct.act.inj heq).2).symm
        obtain ⟨rfl, rfl⟩ := Prod.mk.inj (Option.some.inj (hi'.symm.trans hjob'))
        cases jobStep_move service _ hy with
        | refuse _ herrors hne => exact hne (herrors.symm.trans hvalid)
        | accept | announcePending | mark | announceRunning | group | stuck | enter | returned
        | raised | close | announceStatus | announceEnd => cases hst
  | @insert _ _ P _ _ hacts hjob' hst =>
      have hin : i ∈ A'.jobs session := by
        rw [hA']
        exact App.mem_jobs_insertJob.mpr (Or.inr ⟨rfl, rfl⟩)
      obtain ⟨req', j', hlast, hstate⟩ := hstopped session (hdeleted.step hs) i hin
      rw [hA'] at hlast
      rcases Server.jobAt_step hacts hjob with ⟨hnot, -⟩ | ⟨b, y, heq, hy, hi'⟩
      · exact hnot _ rfl
      · obtain rfl : b = .advance := (PartyAct.job.inj (PoolAct.act.inj heq).2).symm
        obtain ⟨rfl, rfl⟩ := Prod.mk.inj (Option.some.inj (hi'.symm.trans hjob'))
        obtain ⟨-, rfl⟩ := Prod.mk.inj (Option.some.inj (hi'.symm.trans hlast))
        cases jobStep_move service _ hy with
        | accept hvalidating =>
            -- it is pending, and nobody could have flagged it
            have hfree := unflagged hinv.reached hjob (by rw [hvalidating]; rfl)
            have hbefore := hinv.jobInv hjob
            unfold JobInv at hbefore
            rw [hvalidating] at hbefore
            rcases hstate with hterminal | hcancel
            · rw [hbefore.2.1] at hterminal
              cases hterminal
            · rw [hfree] at hcancel
              cases hcancel
        | refuse | announcePending | mark | announceRunning | group | stuck | enter | returned
        | raised | close | announceStatus | announceEnd => cases hst

/-- **Deletion sees to every job of the session**, in every run in which none is
inserted behind the copy of the table; one that is inserted after the deletion
has been answered goes free at once.  Where the steps are in time, moreover, no
job of the session completes any more. -/
theorem deleted_sessions_stop (service : Service) (beh : Behaviour) :
    (∀ A, AppReachesEarly service beh App.empty A → A.Stopped) ∧
    (∀ A n session i A', AppReaches service beh App.empty A → A.Deleted session →
      A.handlers[n]? = some (.submitJob session, .working i) → A.accepts service i = true →
        appStep service A (.handler n .go) = some A' → ¬ A'.Stopped) ∧
    ∀ A, AppReachesInTime service beh App.empty A → ∀ session, A.Deleted session →
      ∀ B, AppReachesInTime service beh A B → A.NoneCompletes B session := by
  refine ⟨fun A hrun session hdeleted i hi => ?_, fun A n session i A' hrun hdeleted hx haccepts hs =>
    not_stopped_of_insert hrun hdeleted hx haccepts hs, ?_⟩
  · obtain ⟨req, j, hjob, -, hsettled⟩ := deleted_settled timely_of_early hrun hdeleted hi
    exact ⟨req, j, hjob, hsettled⟩
  -- what is completed later had ended before, or it was in time
  · intro A hrun session hdeleted B hlater i hi req j' hjob' hcompleted
    obtain ⟨hinv, -, -⟩ := swept timely_of_inTime hrun
    rw [(deleted_run timely_of_inTime hinv hdeleted hlater).2.2] at hi
    obtain ⟨req', j, hjob, hsession, hsettled⟩ := deleted_settled timely_of_inTime hrun hdeleted hi
    obtain ⟨k, hk, hpre, -⟩ :=
      settled_run timely_of_inTime hinv hdeleted hjob hsession hsettled hlater
    obtain ⟨rfl, rfl⟩ := Prod.mk.inj (Option.some.inj (hk.symm.trans hjob'))
    refine ⟨hi, j, hjob, ?_⟩
    by_contra hne
    cases hterminal : j.status.isTerminal with
    | true => exact hne ((hpre.final hterminal).1.symm.trans hcompleted)
    | false =>
        exact not_completed_run hinv hdeleted hjob hsession hsettled hlater hjob' hterminal
          hcompleted

end Deletion

/-! ### In time, and too late -/

/-- A submission up to the job's thread, which has begun to execute. -/
def submitActs : List AppAct :=
  [.request (.submitJob "s"), .handler 1 .go, .handler 1 .go,
    .handler 1 (.body (some splitBody) "job"), .handler 1 .go, .handler 1 .go, .handler 1 .go] ++
    List.replicate 4 (.thread 0 .advance)

/-- A deletion while the job executes, in time. -/
theorem reaches_deleted : ∃ A, AppReachesInTime sampleService anyBehaviour App.empty A ∧
    A.Deleted "s" ∧ A.jobs "s" = [0] := by
  have hrun : ∃ A, runActs (guarded (appStep sampleService)
      (AppOkInTime sampleService anyBehaviour))
      ([.request .createSession, .handler 0 (.create "s"), .handler 0 .go] ++ submitActs ++
        .request (.deleteSession "s") :: List.replicate 6 (.handler 2 .go)) App.empty = some A ∧
      A.handlers[2]? = some (.deleteSession "s", .answered .noContent) ∧ A.jobs "s" = [0] :=
    ⟨_, rfl, rfl, rfl⟩
  obtain ⟨A, hA, hdone, hjobs⟩ := hrun
  exact ⟨A, reaches_of_guarded hA, List.mem_of_getElem? hdone, hjobs⟩

theorem deletion_stops_jobs_split : ∃ (A : App) (req : JobRequest) (j : JobState),
    AppReachesInTime sampleService anyBehaviour App.empty A ∧ A.Deleted "s" ∧
      A.server.jobAt 0 = some (req, j) ∧ (j.status.isTerminal = true ∨ j.cancel = true) := by
  obtain ⟨A, hreach, hdeleted, hjobs⟩ := reaches_deleted
  obtain ⟨req, j, hjob, -, hstate, -⟩ :=
    deletion_stops_jobs (i := 0) hreach hdeleted (by rw [hjobs]; exact List.mem_cons_self)
  exact ⟨A, req, j, hreach, hdeleted, hjob, hstate⟩

/-- A submission that holds the manager and gets its body after the deletion. -/
def lateActs : List AppAct :=
  [.request (.submitJob "s"), .handler 1 .go, .handler 1 .go, .request (.deleteSession "s")] ++
    List.replicate 4 (.handler 2 .go) ++ [.handler 1 (.body (some splitBody) "job")]

theorem deleted_sessions_stop_late :
    (∃ A, AppReachesInTime sampleService anyBehaviour App.empty A ∧ A.Deleted "s" ∧
      A.jobs "s" = [0] ∧ A.Stopped ∧
        ∀ B, AppReachesInTime sampleService anyBehaviour A B → A.NoneCompletes B "s") ∧
    ∃ A A', AppReaches sampleService anyBehaviour App.empty A ∧
      appStep sampleService A (.handler 1 .go) = some A' ∧ ¬ A'.Stopped := by
  obtain ⟨hstops, hlate, hnone⟩ := deleted_sessions_stop sampleService anyBehaviour
  constructor
  · obtain ⟨A, hreach, hdeleted, hjobs⟩ := reaches_deleted
    exact ⟨A, hreach, hdeleted, hjobs, hstops A hreach.early, hnone A hreach "s" hdeleted⟩
  · have hrun : ∃ A A', runActs (guarded (appStep sampleService)
        (AppOk sampleService anyBehaviour)) lateActs openedApp = some A ∧
        A.handlers[2]? = some (.deleteSession "s", .answered .noContent) ∧
        A.handlers[1]? = some (.submitJob "s", .working 0) ∧
        A.accepts sampleService 0 = true ∧ appStep sampleService A (.handler 1 .go) = some A' :=
      ⟨_, _, rfl, rfl, rfl, rfl, rfl⟩
    obtain ⟨A, A', hA, hdone, hworking, haccepts, hs⟩ := hrun
    have hreach := reaches_openedApp.trans (reaches_of_guarded hA)
    exact ⟨A, A', hreach, hs,
      hlate A 1 "s" 0 A' hreach (List.mem_of_getElem? hdone) hworking haccepts hs⟩

/-- A submission that holds the manager gets its job past `shutdown`: nobody
will stop it. -/
theorem deletion_stops_jobs_fails : ∃ (A : App) (req : JobRequest) (j : JobState),
    AppReaches sampleService anyBehaviour App.empty A ∧ A.Deleted "s" ∧ 0 ∈ A.jobs "s" ∧
      A.server.jobAt 0 = some (req, j) ∧ j.status.isTerminal = false ∧ j.cancel = false := by
  have hrun : ∃ A, runActs (guarded (appStep sampleService) (AppOk sampleService anyBehaviour))
      (lateActs ++ [.handler 1 .go, .handler 1 .go]) openedApp = some A ∧
      A.handlers[2]? = some (.deleteSession "s", .answered .noContent) ∧ A.jobs "s" = [0] ∧
      ∃ req j, A.server.jobAt 0 = some (req, j) ∧ j.status.isTerminal = false ∧
        j.cancel = false := ⟨_, rfl, rfl, rfl, _, _, rfl, rfl, rfl⟩
  obtain ⟨A, hA, hdone, hjobs, req, j, hjob, hopen, hcancel⟩ := hrun
  exact ⟨A, req, j, reaches_openedApp.trans (reaches_of_guarded hA), List.mem_of_getElem? hdone,
    by rw [hjobs]; exact List.mem_cons_self, hjob, hopen, hcancel⟩

end Formshift
