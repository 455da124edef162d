/-
Formshift/SessionRuns.lean

What lasts in a run of the service.

`AppInv` holds in every state: every reference a handler holds is to a party of
its own session, and every reply it has sent was made from something that is
still there.  To the server the run is a run of its own (`AppInv.reached`), and
to one handler a sequence of its own moves (`handler_run`).  Between two states
of a run `App.Extends` says what cannot be taken back.
-/
import Formshift.Sessions

namespace Formshift

open Py Steps

/-! ### Jobs in the server -/

/-- How far a job has come, by its status. -/
def JobStatus.rank : JobStatus → Nat
  | .pending => 0
  | .running => 1
  | .completed | .failed | .cancelled => 2

/-- `j'` is the same job later on: its status has not gone back, and once it was
terminal nothing a client is told of it has changed. -/
structure JobState.Precedes (j j' : JobState) : Prop where
  rank : j.status.rank ≤ j'.status.rank
  final : j.status.isTerminal = true →
    j'.status = j.status ∧ j'.outputs = j.outputs ∧ j'.error = j.error

namespace JobState.Precedes

variable {j j' j'' : JobState}

theorem refl (j : JobState) : j.Precedes j := ⟨le_rfl, fun _ => ⟨rfl, rfl, rfl⟩⟩

theorem trans (h : j.Precedes j') (h' : j'.Precedes j'') : j.Precedes j'' := by
  refine ⟨h.rank.trans h'.rank, fun hterminal => ?_⟩
  obtain ⟨hstatus, houtputs, herror⟩ := h.final hterminal
  obtain ⟨hstatus', houtputs', herror'⟩ := h'.final (hstatus ▸ hterminal)
  exact ⟨hstatus'.trans hstatus, houtputs'.trans houtputs, herror'.trans herror⟩

/-- The documents of a job that has ended are one. -/
theorem toJson_eq (h : j.Precedes j') (hterminal : j.status.isTerminal = true) (job : Str) :
    j'.toJson job = j.toJson job := by
  obtain ⟨hstatus, houtputs, herror⟩ := h.final hterminal
  unfold JobState.toJson
  rw [hstatus, houtputs, herror]

end JobState.Precedes

section Server

variable {service : Service} {beh : Behaviour} {P P' : Server} {i : Nat} {req : JobRequest}
  {j : JobState}

theorem JobInv.precedes {x y : Desk × JobState} {a : JobAct} (h : JobInv service req x.1 x.2)
    (hs : jobStep service req x a = some y) : x.2.Precedes y.2 := by
  obtain ⟨k, j⟩ := x
  unfold JobInv at h
  -- a job at work is pending or running
  have hopen : ∀ {status : JobStatus} {j' : JobState}, j.status = status →
      status.isTerminal = false → status.rank ≤ j'.status.rank → j.Precedes j' := by
    intro status j' hstatus hfalse hrank
    refine ⟨by rw [hstatus]; exact hrank, fun hterminal => ?_⟩
    rw [hstatus, hfalse] at hterminal
    cases hterminal
  cases jobStep_move service req hs with
  | mark hst =>
      rw [hst] at h
      exact hopen h.2.2.1 rfl (Nat.zero_le _)
  | raised hst | emitted hst | gate hst =>
      rw [hst] at h
      obtain ⟨session, hd⟩ := h
      apply hopen hd.status rfl
      show JobStatus.running.rank ≤ j.status.rank
      rw [hd.status]
  | @close outcome hst =>
      rw [hst] at h
      obtain ⟨body, -, hstatus, -⟩ := h
      apply hopen hstatus rfl
      show 1 ≤ outcome.status.rank
      cases outcome <;> exact one_le_two
  | refuse | accept | announcePending | announceRunning | group | stuck | enter | returned
  | announceStatus | announceEnd | exec | notify | cancel =>
      exact ⟨le_rfl, fun _ => ⟨rfl, rfl, rfl⟩⟩

theorem Server.jobAt_eq_some : P.jobAt i = some (req, j) ↔
    P.members[i]? = some (.job req, .job j) := by
  unfold Server.jobAt
  constructor
  · intro h
    split at h
    · rename_i hm
      obtain ⟨rfl, rfl⟩ := Prod.mk.inj (Option.some.inj h)
      exact hm
    · cases h
  · intro h
    rw [h]

/-- What a step of the server does to a job. -/
theorem Server.jobAt_step {e : PoolAct Party PartyAct}
    (hs : poolStep Party.start (partyStep service) P e = some P')
    (hi : P.jobAt i = some (req, j)) :
    (∀ b, e ≠ .act i b) ∧ P'.jobAt i = some (req, j) ∨
      ∃ b y, e = .act i (.job b) ∧
        jobStep service req (P.store.desk req.session, j) b = some y ∧
          P'.jobAt i = some (req, y.2) := by
  have hm := Server.jobAt_eq_some.mp hi
  have hlt : i < P.members.length := (List.getElem?_eq_some_iff.mp hm).1
  rcases poolStep_cases hs with ⟨m, rfl, rfl⟩ | ⟨n, b, m, s, x, rfl, hn, hx, rfl⟩
  · refine Or.inl ⟨by simp, ?_⟩
    exact Server.jobAt_eq_some.mpr ((List.getElem?_append_left hlt).trans hm)
  · by_cases hni : n = i
    · subst hni
      obtain ⟨rfl, rfl⟩ := Prod.mk.inj (Option.some.inj (hn.symm.trans hm))
      cases b with
      | job b =>
          obtain ⟨y, hy, rfl⟩ := Option.map_eq_some_iff.mp hx
          exact Or.inr ⟨b, y, rfl, hy, Server.jobAt_eq_some.mpr (List.getElem?_set_self hlt)⟩
      | store id => cases hx
    · refine Or.inl ⟨fun b' heq => hni (PoolAct.act.inj heq).1, ?_⟩
      exact Server.jobAt_eq_some.mpr ((List.getElem?_set_ne hni).trans hm)

/-- A step of a member draws no new ids. -/
theorem Server.Distinct.act {n : Nat} {b : PartyAct} (h : P.Distinct)
    (hs : poolStep Party.start (partyStep service) P (.act n b) = some P') : P'.Distinct := by
  have hsame : P'.members.map Prod.fst = P.members.map Prod.fst := by
    rcases poolStep_cases hs with ⟨m, heq, -⟩ | ⟨k, c, m, s, x, -, hk, -, rfl⟩
    · cases heq
    · refine List.ext_getElem? fun l => ?_
      rw [List.getElem?_map, List.getElem?_map]
      by_cases hkl : k = l
      · subst hkl
        rw [List.getElem?_set_self (List.getElem?_eq_some_iff.mp hk).1, hk]
        rfl
      · rw [List.getElem?_set_ne hkl]
  unfold Server.Distinct
  rw [hsame]
  exact h

/-- A new party whose id is new. -/
theorem Server.Distinct.spawn (h : P.Distinct) {m : Party}
    (hnew : ∀ x ∈ P.members, m.token.isSome → x.1.token ≠ m.token) :
    Server.Distinct { P with members := P.members ++ [(m, m.start)] } := by
  unfold Server.Distinct
  rw [List.map_append]
  refine List.pairwise_append.mpr ⟨h, List.pairwise_singleton _ _, ?_⟩
  intro x hx y hy
  obtain ⟨p, hp, rfl⟩ := List.mem_map.mp hx
  rw [List.mem_singleton.mp hy]
  cases hm : m with
  | upload => cases p.1 <;> trivial
  | job req =>
      have hne := hnew p hp (by rw [hm]; rfl)
      cases hparty : p.1 with
      | upload => trivial
      | job req' =>
          rw [hm, hparty] at hne
          exact fun e => hne (congrArg some e)

/-- An id is the id of one job. -/
theorem Server.Distinct.place_eq (h : P.Distinct) {k : Nat} {req' : JobRequest} {j' : JobState}
    (hi : P.jobAt i = some (req, j)) (hk : P.jobAt k = some (req', j'))
    (htoken : req.token = req'.token) : i = k := by
  have hget : ∀ {l req j}, P.jobAt l = some (req, j) →
      (P.members.map Prod.fst)[l]? = some (.job req) := by
    intro l req j hl
    rw [List.getElem?_map, Server.jobAt_eq_some.mp hl]
    rfl
  obtain ⟨hilt, higet⟩ := List.getElem?_eq_some_iff.mp (hget hi)
  obtain ⟨hklt, hkget⟩ := List.getElem?_eq_some_iff.mp (hget hk)
  have hpair := List.pairwise_iff_getElem.mp h
  rcases Nat.lt_trichotomy i k with hlt | heq | hlt
  · have hapart := hpair i k hilt hklt hlt
    rw [higet, hkget] at hapart
    exact absurd htoken hapart
  · exact heq
  · have hapart := hpair k i hklt hilt hlt
    rw [higet, hkget] at hapart
    exact absurd htoken.symm hapart

theorem JobStage.isJob_step {x y : Desk × JobState} {a : JobAct} (h : x.2.stage.isJob = true)
    (hs : jobStep service req x a = some y) : y.2.stage.isJob = true := by
  cases jobStep_move service req hs with
  | refuse hst | accept hst =>
      rw [hst] at h
      cases h
  | gate => exact h
  | cancel =>
      show x.2.stage.setCancel.isJob = true
      cases hst : x.2.stage <;> (rw [hst] at h; first | rfl | cases h)
  | announcePending | mark | announceRunning | group | stuck | enter | returned | raised | close
  | announceStatus | announceEnd | exec | notify | emitted => rfl

/-- A step of a member takes no payload away. -/
theorem grown_of_acts {n : Nat} {a : PartyAct}
    (hok : PoolOk (fun _ => True) (PartyOk service beh) P (.act n a))
    (hs : poolStep Party.start (partyStep service) P (.act n a) = some P') :
    Grown P.store P'.store := by
  rcases poolStep_cases hs with ⟨m, heq, -⟩ | ⟨k, b, m, p, x, heq, hm, hx, rfl⟩
  · cases heq
  · obtain ⟨rfl, rfl⟩ := PoolAct.act.inj heq
    have hparty := hok m p hm
    cases m with
    | job req =>
        cases p with
        | job j =>
            cases a with
            | job a =>
                obtain ⟨z, hz, rfl⟩ := Option.map_eq_some_iff.mp hx
                -- a job only adds outputs
                exact grown_put fun id p hp => jobStep_payloads hparty hz id p hp
            | store id => cases hx
        | uploading | uploaded => cases hx
    | upload session type data =>
        cases p with
        | uploading =>
            cases a with
            | job a => cases hx
            | store id =>
                obtain rfl := Option.some.inj hx
                exact grown_put (@interferes_addPayload session _ _ hparty type data).payloads
        | job j | uploaded id => cases hx

end Server

/-! ### What stays -/

/-- `A'` is the service later on: parties have kept their places, and no
payload and no job has been taken away. -/
structure App.Extends (A A' : App) : Prop where
  places : ∀ i req j, A.server.jobAt i = some (req, j) → ∃ j',
    A'.server.jobAt i = some (req, j') ∧ j.Precedes j' ∧
      (j.stage.isJob = true → j'.stage.isJob = true)
  uploads : ∀ (i : Nat) (session type : Str) (data : Bytes) (p : PartyState),
    A.server.members[i]? = some (.upload session type data, p) →
      ∃ p' : PartyState, A'.server.members[i]? = some (.upload session type data, p')
  grown : Grown A.server.store A'.server.store
  jobs : ∀ session, ∀ i ∈ A.jobs session, i ∈ A'.jobs session

/-- The job with this id has been in state `j`. -/
def App.Was (A : App) (session job : Str) (j : JobState) : Prop :=
  ∃ i ∈ A.jobs session, ∃ req j', A.server.jobAt i = some (req, j') ∧ req.token = job ∧
    j.Precedes j'

/-- What a handler refers to, and what the reply it has sent was made from. -/
def App.Refers (A : App) : SessionRequest → HandlerStage → Prop
  | .submitJob session, .working i =>
    ∃ req j, A.server.jobAt i = some (req, j) ∧ req.session = session
  | .submitJob session, .inserted i | .submitJob session, .started i => i ∈ A.jobs session
  | .submitJob session, .answered (.submitted job status) =>
    ∃ j, A.Was session job j ∧ status = j.status
  | .getJob session job, .answered (.document fields) =>
    ∃ j, A.Was session job j ∧ fields = j.toJson job
  | .cancelJob session _, .cancelling i => i ∈ A.jobs session
  | .deleteSession session, .stopping todo => ∀ i ∈ todo, i ∈ A.jobs session
  | .deleteSession session, .marking i todo => ∀ k ∈ i :: todo, k ∈ A.jobs session
  | .uploadPayload session type, .working i =>
    ∃ (data : Bytes) (p : PartyState), A.server.members[i]? = some (.upload session type data, p)
  | _, _ => True

structure AppInv (service : Service) (beh : Behaviour) (A : App) : Prop where
  reached : ServerReaches service beh Server.empty A.server
  distinct : A.server.Distinct
  jobs : ∀ session, ∀ i ∈ A.jobs session, ∃ req j, A.server.jobAt i = some (req, j) ∧
    req.session = session ∧ j.stage.isJob = true
  handlers : ∀ x ∈ A.handlers, A.Refers x.1 x.2

section Invariant

variable {service : Service} {beh : Behaviour} {A A' B : App} {session job : Str} {i n : Nat}
  {req : JobRequest} {j : JobState} {r : SessionRequest} {st st' : HandlerStage}

theorem App.Extends.refl (A : App) : A.Extends A :=
  ⟨fun _ _ j hj => ⟨j, hj, .refl j, id⟩, fun _ _ _ _ p hp => ⟨p, hp⟩, fun _ _ _ hp => hp,
    fun _ _ hi => hi⟩

theorem App.Extends.trans (h : A.Extends A') (h' : A'.Extends B) : A.Extends B := by
  refine ⟨fun i req j hj => ?_, fun i session type data p hp => ?_,
    fun sid id p hp => h'.grown sid id p (h.grown sid id p hp),
    fun session i hi => h'.jobs session i (h.jobs session i hi)⟩
  · obtain ⟨j', hj', hpre, hisJob⟩ := h.places i req j hj
    obtain ⟨j'', hj'', hpre', hisJob'⟩ := h'.places i req j' hj'
    exact ⟨j'', hj'', hpre.trans hpre', fun hjob => hisJob' (hisJob hjob)⟩
  · obtain ⟨p', hp'⟩ := h.uploads i session type data p hp
    exact h'.uploads i session type data p' hp'

/-- The handlers and the registers do not matter to it. -/
theorem App.Extends.of_eq (hserver : A'.server = A.server) (hjobs : A'.jobs = A.jobs) :
    A.Extends A' := by
  have hrefl := App.Extends.refl A
  refine ⟨?_, ?_, ?_, ?_⟩
  · rw [hserver]
    exact hrefl.places
  · rw [hserver]
    exact hrefl.uploads
  · rw [hserver]
    exact hrefl.grown
  · rw [hjobs]
    exact hrefl.jobs

theorem App.Was.mono (hext : A.Extends A') (h : A.Was session job j) : A'.Was session job j := by
  obtain ⟨i, hi, req, j', hj', htoken, hpre⟩ := h
  obtain ⟨j'', hj'', hpre', -⟩ := hext.places i req j' hj'
  exact ⟨i, hext.jobs session i hi, req, j'', hj'', htoken, hpre.trans hpre'⟩

theorem App.Refers.mono (hext : A.Extends A') (h : A.Refers r st) : A'.Refers r st := by
  cases r with
  | createSession | downloadPayload | events => trivial
  | deleteSession session =>
      cases st with
      -- the jobs of a table stay in it
      | stopping todo | marking i todo => exact fun k hk => hext.jobs session k (h k hk)
      | arrived | stored | found | held | working | inserted | started | cancelling | dropped
      | popped | answered => trivial
  | uploadPayload session type =>
      cases st with
      | working i =>
          obtain ⟨data, p, hp⟩ := h
          exact ⟨data, hext.uploads i session type data p hp⟩
      | arrived | stored | found | held | inserted | started | cancelling | dropped | popped
      | stopping | marking | answered => trivial
  | submitJob session =>
      cases st with
      | working i =>
          obtain ⟨req, j, hj, hsession⟩ := h
          obtain ⟨j', hj', -⟩ := hext.places i req j hj
          exact ⟨req, j', hj', hsession⟩
      | inserted i | started i => exact hext.jobs session i h
      | answered reply =>
          cases reply with
          -- what a reply was made from was so then
          | submitted job status =>
              obtain ⟨j, hwas, hstatus⟩ := h
              exact ⟨j, hwas.mono hext, hstatus⟩
          | created | noContent | payload | download | document | stream | error => trivial
      | arrived | stored | found | held | cancelling | dropped | popped | stopping | marking =>
          trivial
  | getJob session job =>
      cases st with
      | answered reply =>
          cases reply with
          | document fields =>
              obtain ⟨j, hwas, hfields⟩ := h
              exact ⟨j, hwas.mono hext, hfields⟩
          | created | noContent | payload | download | submitted | stream | error => trivial
      | arrived | stored | found | held | working | inserted | started | cancelling | dropped
      | popped | stopping | marking => trivial
  | cancelJob session job =>
      cases st with
      | cancelling i => exact hext.jobs session i h
      | arrived | stored | found | held | working | inserted | started | dropped | popped
      | stopping | marking | answered => trivial

/-- Carry the invariant on to a later state. -/
theorem AppInv.extend (h : AppInv service beh A) (hext : A.Extends A')
    (hreached : ServerReaches service beh Server.empty A'.server) (hdistinct : A'.server.Distinct)
    (hjobs : ∀ session, ∀ i ∈ A'.jobs session, i ∈ A.jobs session ∨ ∃ req j,
      A'.server.jobAt i = some (req, j) ∧ req.session = session ∧ j.stage.isJob = true)
    (hhandlers : ∀ x ∈ A'.handlers, x ∈ A.handlers ∨ A'.Refers x.1 x.2) :
    AppInv service beh A' := by
  refine ⟨hreached, hdistinct, fun session i hi => ?_, fun x hx => ?_⟩
  · rcases hjobs session i hi with hold | hnew
    · obtain ⟨req, j, hj, hsession, hisJob⟩ := h.jobs session i hold
      obtain ⟨j', hj', -, hisJob'⟩ := hext.places i req j hj
      exact ⟨req, j', hj', hsession, hisJob' hisJob⟩
    · exact hnew
  · rcases hhandlers x hx with hold | hnew
    · exact (h.handlers x hold).mono hext
    · exact hnew

/-- The job in its place, by what is known of every job of a server. -/
theorem AppInv.jobInv (h : AppInv service beh A) (hi : A.server.jobAt i = some (req, j)) :
    JobInv service req (A.server.store.desk req.session) j :=
  server_job_inv h.reached h.distinct (Server.jobAt_eq_some.mp hi)

theorem App.poolOk {a : PartyAct} (h : A.Permits service beh n a) :
    PoolOk (fun _ => True) (PartyOk service beh) A.server (.act n a) := by
  exact fun m p hm => h (m, p) hm

/-- A member takes a step. -/
theorem AppInv.acts (h : AppInv service beh A) {a : PartyAct} {P : Server}
    (hacts : A.Acts service n a P) (hok : A.Permits service beh n a) :
    A.Extends { A with server := P } ∧ AppInv service beh { A with server := P } := by
  have hpool := App.poolOk hok
  have hext : A.Extends { A with server := P } := by
    refine ⟨fun i req j hi => ?_, fun i session type data p hp => ?_, grown_of_acts hpool hacts,
      fun _ _ hi => hi⟩
    · rcases Server.jobAt_step hacts hi with ⟨-, hsame⟩ | ⟨b, y, -, hy, hi'⟩
      · exact ⟨j, hsame, .refl j, id⟩
      · exact ⟨y.2, hi', (h.jobInv hi).precedes hy,
          fun hjob => JobStage.isJob_step (x := (_, j)) hjob hy⟩
    · rcases poolStep_cases hacts with ⟨m, heq, -⟩ | ⟨k, b, m, s, x, -, hk, -, rfl⟩
      · cases heq
      · by_cases hki : k = i
        · subst hki
          obtain ⟨rfl, rfl⟩ := Prod.mk.inj (Option.some.inj (hp.symm.trans hk))
          exact ⟨x.2, List.getElem?_set_self (List.getElem?_eq_some_iff.mp hk).1⟩
        · exact ⟨p, (List.getElem?_set_ne hki).trans hp⟩
  exact ⟨hext, h.extend hext (h.reached.tail ⟨_, hpool, hacts⟩) (h.distinct.act hacts)
    (fun _ _ hi => Or.inl hi) fun _ hx => Or.inl hx⟩

/-- A new party. -/
theorem AppInv.spawn (h : AppInv service beh A) {m : Party}
    (hnew : ∀ x ∈ A.server.members, m.token.isSome → x.1.token ≠ m.token) :
    A.Extends (A.spawn m) ∧ AppInv service beh (A.spawn m) := by
  have hstep : poolStep Party.start (partyStep service) A.server (.spawn m) =
      some (A.spawn m).server := rfl
  have hext : A.Extends (A.spawn m) := by
    refine ⟨fun i req j hi => ?_, fun i session type data p hp => ?_, fun _ _ _ hp => hp,
      fun _ _ hi => hi⟩
    · rcases Server.jobAt_step hstep hi with ⟨-, hsame⟩ | ⟨b, y, heq, -, -⟩
      · exact ⟨j, hsame, .refl j, id⟩
      · cases heq
    · exact ⟨p, (List.getElem?_append_left (List.getElem?_eq_some_iff.mp hp).1).trans hp⟩
  exact ⟨hext, h.extend hext (h.reached.tail ⟨.spawn m, trivial, hstep⟩) (h.distinct.spawn hnew)
    (fun _ _ hi => Or.inl hi) fun _ hx => Or.inl hx⟩

/-- A job is inserted into its manager's table. -/
theorem AppInv.insertJob (h : AppInv service beh A) (hjob : A.server.jobAt i = some (req, j))
    (hsession : req.session = session) (hisJob : j.stage.isJob = true) :
    A.Extends (A.insertJob session i) ∧ AppInv service beh (A.insertJob session i) := by
  have hrefl := App.Extends.refl A
  have hext : A.Extends (A.insertJob session i) :=
    ⟨hrefl.places, hrefl.uploads, hrefl.grown,
      fun other k hk => App.mem_jobs_insertJob.mpr (Or.inl hk)⟩
  refine ⟨hext, h.extend hext h.reached h.distinct (fun other k hk => ?_) fun _ hx => Or.inl hx⟩
  exact (App.mem_jobs_insertJob.mp hk).imp_right fun ⟨hother, hki⟩ =>
    ⟨req, j, hki ▸ hjob, hother ▸ hsession, hisJob⟩

/-- A handler moves on, and the server sees nothing of it. -/
theorem AppInv.setHandler (h : AppInv service beh A) (hserver : A'.server = A.server)
    (hjobs : A'.jobs = A.jobs) (hhandlers : A'.handlers = A.handlers.set n (r, st))
    (hst : A.Refers r st) : A.Extends A' ∧ AppInv service beh A' := by
  have hext : A.Extends A' := .of_eq hserver hjobs
  refine ⟨hext, h.extend hext (hserver ▸ h.reached) (hserver ▸ h.distinct)
    (fun session i hi => Or.inl (hjobs ▸ hi)) fun x hx => ?_⟩
  rw [hhandlers] at hx
  rcases List.mem_or_eq_of_mem_set hx with hold | rfl
  · exact Or.inl hold
  · exact Or.inr (hst.mono hext)

/-- Anyone may go on with a job outside `execute_graph`, and set its flag. -/
theorem App.permits_job {a : JobAct} (ha : a = .advance ∨ a = .cancel) :
    A.Permits service beh i (.job a) := by
  rintro ⟨m, p⟩ -
  cases m with
  | upload => cases p <;> trivial
  | job req =>
      cases p with
      | job j => rcases ha with rfl | rfl <;> trivial
      | uploading | uploaded => trivial

/-- What `find` finds was as it is. -/
theorem App.was_of_find (hfind : A.find session job = some i)
    (hjob : A.server.jobAt i = some (req, j)) : A.Was session job j := by
  obtain ⟨hi, req', j', hjob', htoken⟩ := App.find_eq_some hfind
  obtain ⟨rfl, rfl⟩ := Prod.mk.inj (Option.some.inj (hjob.symm.trans hjob'))
  exact ⟨i, hi, req, j, hjob, htoken, .refl j⟩

/-- **The step lemma of a handler.** -/
theorem AppInv.handler (h : AppInv service beh A) {a : HandlerAct}
    (hx : A.handlers[n]? = some (r, st)) (hm : HandlerMove service A r st a B st')
    (hok : AppOk service beh A (.handler n a)) :
    A.Extends { B with handlers := A.handlers.set n (r, st') } ∧
      AppInv service beh { B with handlers := A.handlers.set n (r, st') } := by
  have hold : A.Refers r st := h.handlers (r, st) (List.mem_of_getElem? hx)
  -- the handler's own part, after what it has done to the service
  have hset : ∀ {C D : App}, A.Extends C ∧ AppInv service beh C → C.handlers = A.handlers →
      D.server = C.server → D.jobs = C.jobs → D.handlers = C.handlers → C.Refers r st' →
      A.Extends { D with handlers := A.handlers.set n (r, st') } ∧
        AppInv service beh { D with handlers := A.handlers.set n (r, st') } := by
    rintro C D ⟨hext, hinv⟩ hhandlers hserver hjobs - hst
    have hlast : C.Extends { D with handlers := A.handlers.set n (r, st') } ∧
        AppInv service beh { D with handlers := A.handlers.set n (r, st') } :=
      hinv.setHandler hserver hjobs (by rw [hhandlers]) hst
    obtain ⟨hext', hinv'⟩ := hlast
    exact ⟨hext.trans hext', hinv'⟩
  have hsame : A.Extends A ∧ AppInv service beh A := ⟨.refl A, h⟩
  cases hm with
  | miss | found =>
      apply hset hsame rfl rfl rfl rfl
      cases r <;> trivial
  | seek hr | noJob hr =>
      apply hset hsame rfl rfl rfl rfl
      rcases hr with rfl | rfl <;> trivial
  | hold | stream | rejectData | rejectBody | download | unsent | noPayload | unencoded | create
  | manage | drop | pop | unmanaged | stopped =>
      exact hset hsame rfl rfl rfl rfl trivial
  | document hfind hjob _ => exact hset hsame rfl rfl rfl rfl ⟨_, App.was_of_find hfind hjob, rfl⟩
  | aim hfind => exact hset hsame rfl rfl rfl rfl (App.find_eq_some hfind).1
  | @submitted session i req j hjob =>
      exact hset hsame rfl rfl rfl rfl ⟨j, ⟨i, hold, req, j, hjob, rfl, .refl j⟩, rfl⟩
  | snapshot => exact hset hsame rfl rfl rfl rfl fun _ hi => hi
  | skip => exact hset hsame rfl rfl rfl rfl fun k hk => hold k (List.mem_cons_of_mem _ hk)
  | see => exact hset hsame rfl rfl rfl rfl hold
  | mark hacts =>
      have hacted := h.acts hacts (App.permits_job (Or.inr rfl))
      exact hset hacted rfl rfl rfl rfl fun k hk => hold k (List.mem_cons_of_mem _ hk)
  | @upload session type content =>
      have hspawned := h.spawn (m := .upload session type content) (by simp [Party.token])
      refine hset hspawned rfl rfl rfl rfl ⟨content, .uploading, ?_⟩
      exact List.getElem?_concat_length
  | @store session type i id P hacts =>
      have hpermits : A.Permits service beh i (.store id) := hok _ hx i rfl
      exact hset (h.acts hacts hpermits) rfl rfl rfl rfl trivial
  | @submit session content job graph draft hread =>
      have hspawned := h.spawn (m := .job ⟨job, session, graph, draft⟩) fun x hx' _ => hok x hx'
      refine hset hspawned rfl rfl rfl rfl ⟨⟨job, session, graph, draft⟩, .init, ?_, rfl⟩
      exact Server.jobAt_eq_some.mpr List.getElem?_concat_length
  | refuse hacts =>
      exact hset (h.acts hacts (App.permits_job (Or.inl rfl))) rfl rfl rfl rfl trivial
  | start hacts =>
      exact hset (h.acts hacts (App.permits_job (Or.inl rfl))) rfl rfl rfl rfl hold
  | @insert session i P req j hacts hjob hst =>
      obtain ⟨hext, hinv⟩ := h.acts hacts (App.permits_job (Or.inl rfl))
      obtain ⟨req', j', hi, hsession⟩ := hold
      obtain ⟨j'', hi', -⟩ := hext.places i req' j' hi
      obtain ⟨rfl, rfl⟩ := Prod.mk.inj (Option.some.inj (hjob.symm.trans hi'))
      obtain ⟨hext', hinv'⟩ := hinv.insertJob hjob hsession (by rw [hst]; rfl)
      exact hset ⟨hext.trans hext', hinv'⟩ rfl rfl rfl rfl
        (App.mem_jobs_insertJob.mpr (Or.inr ⟨rfl, rfl⟩))
  | cancel hacts =>
      exact hset (h.acts hacts (App.permits_job (Or.inr rfl))) rfl rfl rfl rfl trivial

/-- A request comes in. -/
theorem AppInv.request (h : AppInv service beh A) (r : SessionRequest) :
    A.Extends { A with handlers := A.handlers ++ [(r, .arrived)] } ∧
      AppInv service beh { A with handlers := A.handlers ++ [(r, .arrived)] } := by
  have hext : A.Extends { A with handlers := A.handlers ++ [(r, .arrived)] } := .of_eq rfl rfl
  refine ⟨hext, h.extend hext h.reached h.distinct (fun _ _ hi => Or.inl hi) fun x hx => ?_⟩
  rcases List.mem_append.mp hx with hx | hx
  · exact Or.inl hx
  · rw [List.mem_singleton.mp hx]
    right
    cases r <;> trivial

/-- What a step of the service can be. -/
theorem appStep_cases {a : AppAct} (hs : appStep service A a = some A') :
    (∃ r, a = .request r ∧ A' = { A with handlers := A.handlers ++ [(r, .arrived)] }) ∨
    (∃ n b r st B st', a = .handler n b ∧ A.handlers[n]? = some (r, st) ∧
      HandlerMove service A r st b B st' ∧
        A' = { B with handlers := A.handlers.set n (r, st') }) ∨
    ∃ i b P, a = .thread i b ∧ A.Acts service i (.job b) P ∧ A' = { A with server := P } := by
  cases a with
  | request r => exact Or.inl ⟨r, rfl, (Option.some.inj hs).symm⟩
  | handler n b =>
      obtain ⟨⟨r, st⟩, hx, hs⟩ := Option.bind_eq_some_iff.mp hs
      obtain ⟨⟨B, st'⟩, hstep, rfl⟩ := Option.map_eq_some_iff.mp hs
      exact Or.inr (Or.inl ⟨n, b, r, st, B, st', rfl, hx, handlerStep_move hstep, rfl⟩)
  | thread i b =>
      obtain ⟨x, -, hs⟩ := Option.bind_eq_some_iff.mp hs
      split at hs
      · obtain ⟨P, hP, rfl⟩ := A.act_eq_some service hs
        exact Or.inr (Or.inr ⟨i, b, P, rfl, hP, rfl⟩)
      · cases hs

/-- **The step lemma of the service.** -/
theorem AppInv.step (h : AppInv service beh A) {a : AppAct} (hok : AppOk service beh A a)
    (hs : appStep service A a = some A') : A.Extends A' ∧ AppInv service beh A' := by
  rcases appStep_cases hs with ⟨r, rfl, rfl⟩ | ⟨n, b, r, st, B, st', rfl, hx, hm, rfl⟩ |
    ⟨i, b, P, rfl, hacts, rfl⟩
  · exact h.request r
  · exact h.handler hx hm hok
  · exact h.acts hacts hok

/-- The run lemma. -/
theorem AppInv.run (h : AppInv service beh A) (hrun : AppReaches service beh A A') :
    A.Extends A' ∧ AppInv service beh A' := by
  refine Reaches.invariant (I := fun B => A.Extends B ∧ AppInv service beh B) ?_ hrun ⟨.refl A, h⟩
  rintro B C ⟨a, hok, hs⟩ ⟨hext, hinv⟩
  obtain ⟨hext', hinv'⟩ := hinv.step hok hs
  exact ⟨hext.trans hext', hinv'⟩

theorem app_inv (hrun : AppReaches service beh App.empty A) : AppInv service beh A := by
  refine (AppInv.run ?_ hrun).2
  exact ⟨Relation.ReflTransGen.refl, List.Pairwise.nil, by simp [App.empty], by simp [App.empty]⟩

/-! ### One handler in a run -/

/-- A handler that has answered is done. -/
theorem HandlerMove.not_answered {a : HandlerAct} {reply : SessionReply}
    (hm : HandlerMove service A r (.answered reply) a B st') : False := by
  cases hm with
  | miss _ hst => rcases hst with hst | hst <;> cases hst

/-- What a move of a handler is to the server. -/
theorem HandlerMove.server {a : HandlerAct} (hm : HandlerMove service A r st a B st') :
    B.server = A.server ∨ (∃ m, B.server = (A.spawn m).server) ∨
      ∃ k c, A.Acts service k c B.server ∧
        (c = .job .advance ∨ c = .job .cancel ∨ ∃ id, c = .store id) := by
  cases hm with
  | upload | submit => exact Or.inr (Or.inl ⟨_, rfl⟩)
  | refuse hacts | insert hacts | start hacts => exact Or.inr (Or.inr ⟨_, _, hacts, Or.inl rfl⟩)
  | mark hacts | cancel hacts => exact Or.inr (Or.inr ⟨_, _, hacts, Or.inr (Or.inl rfl)⟩)
  | store hacts => exact Or.inr (Or.inr ⟨_, _, hacts, Or.inr (Or.inr ⟨_, rfl⟩)⟩)
  | miss | found | hold | seek | stream | rejectData | rejectBody | download | unsent | noPayload
  | document | unencoded | noJob | aim | submitted | create | manage | drop | pop | unmanaged
  | snapshot | stopped | skip | see => exact Or.inl rfl

/-- A handler's own step. -/
theorem appStep_own {a : HandlerAct} (hs : appStep service A (.handler n a) = some A')
    (hx : A.handlers[n]? = some (r, st)) : ∃ B st', HandlerMove service A r st a B st' ∧
      A' = { B with handlers := A.handlers.set n (r, st') } ∧ A'.handlers[n]? = some (r, st') := by
  rcases appStep_cases hs with ⟨r', heq, -⟩ | ⟨m, b, r', t, B, t', heq, hm, hmove, rfl⟩ |
    ⟨i, b, P, heq, -⟩
  · cases heq
  · obtain ⟨rfl, rfl⟩ := AppAct.handler.inj heq
    obtain ⟨rfl, rfl⟩ := Prod.mk.inj (Option.some.inj (hx.symm.trans hm))
    exact ⟨B, t', hmove, rfl, List.getElem?_set_self (List.getElem?_eq_some_iff.mp hx).1⟩
  · cases heq

/-- To one handler a step of the service is its own, or nothing. -/
theorem appStep_handler {a : AppAct} (hs : appStep service A a = some A')
    (hx : A.handlers[n]? = some (r, st)) :
    A'.handlers[n]? = some (r, st) ∨ ∃ b B st', a = .handler n b ∧
      HandlerMove service A r st b B st' ∧ A' = { B with handlers := A.handlers.set n (r, st') } ∧
        A'.handlers[n]? = some (r, st') := by
  have hlt : n < A.handlers.length := (List.getElem?_eq_some_iff.mp hx).1
  rcases appStep_cases hs with ⟨r', rfl, rfl⟩ | ⟨m, b, r', t, B, t', rfl, hm, hmove, rfl⟩ |
    ⟨i, b, P, rfl, hacts, rfl⟩
  · exact Or.inl ((List.getElem?_append_left hlt).trans hx)
  · by_cases hmn : m = n
    · subst hmn
      obtain ⟨B', st', hown⟩ := appStep_own hs hx
      exact Or.inr ⟨b, B', st', rfl, hown⟩
    · exact Or.inl ((List.getElem?_set_ne hmn).trans hx)
  · exact Or.inl hx

/-- Its reply is its last word. -/
theorem answered_run {reply : SessionReply} (hrun : AppReaches service beh A A')
    (hx : A.handlers[n]? = some (r, .answered reply)) :
    A'.handlers[n]? = some (r, .answered reply) := by
  refine Reaches.invariant (I := fun B => B.handlers[n]? = some (r, .answered reply)) ?_ hrun hx
  rintro B C ⟨a, -, hs⟩ hB
  rcases appStep_handler hs hB with hsame | ⟨b, D, st', -, hmove, -⟩
  · exact hsame
  · exact hmove.not_answered.elim

/-- **The rule for one handler**: what lasts under the steps of others and is
preserved by its own moves holds of it to the end. -/
theorem handler_run {I : App → HandlerStage → Prop}
    (hstay : ∀ B C a t, AppOk service beh B a → appStep service B a = some C → I B t → I C t)
    (hmove : ∀ B C D a t t', AppOk service beh B (.handler n a) →
      appStep service B (.handler n a) = some C → HandlerMove service B r t a D t' →
        C = { D with handlers := B.handlers.set n (r, t') } → I B t → I C t')
    (hrun : AppReaches service beh A A') (hx : A.handlers[n]? = some (r, st)) (hst : I A st) :
    ∃ st', A'.handlers[n]? = some (r, st') ∧ I A' st' := by
  refine Reaches.invariant (I := fun B => ∃ t, B.handlers[n]? = some (r, t) ∧ I B t) ?_ hrun
    ⟨st, hx, hst⟩
  rintro B C ⟨a, hok, hs⟩ ⟨t, ht, hIt⟩
  rcases appStep_handler hs ht with hsame | ⟨b, D, t', rfl, hm, heq, ht'⟩
  · exact ⟨t, hsame, hstay B C a t hok hs hIt⟩
  · exact ⟨t', ht', hmove B C D b t t' hok hs hm heq hIt⟩

/-- The rule for one handler and what does not go away. -/
theorem AppInv.handler_run {I : App → HandlerStage → Prop} (h : AppInv service beh A)
    (hmono : ∀ B C t, B.Extends C → I B t → I C t)
    (hmove : ∀ B C a t t', AppInv service beh B → B.Extends C → HandlerMove service B r t a C t' →
      I B t → I C t')
    (hrun : AppReaches service beh A A') (hx : A.handlers[n]? = some (r, st)) (hst : I A st) :
    ∃ st', A'.handlers[n]? = some (r, st') ∧ I A' st' := by
  have hinv : ∃ st', A'.handlers[n]? = some (r, st') ∧ AppInv service beh A' ∧ I A' st' := by
    refine Formshift.handler_run (I := fun B t => AppInv service beh B ∧ I B t)
      (fun B C a t hok hs hB => ?_) (fun B C D a t t' hok hs hm heq hB => ?_) hrun hx ⟨h, hst⟩
    · obtain ⟨hext, hC⟩ := hB.1.step hok hs
      exact ⟨hC, hmono B C t hext hB.2⟩
    · obtain ⟨hext, hC⟩ := hB.1.step hok hs
      subst heq
      have hext' : B.Extends D := ⟨hext.places, hext.uploads, hext.grown, hext.jobs⟩
      exact ⟨hC, hmono D _ t' (.of_eq rfl rfl) (hmove B D a t t' hB.1 hext' hm hB.2)⟩
  obtain ⟨st', hst', -, hI⟩ := hinv
  exact ⟨st', hst', hI⟩

end Invariant

end Formshift
