/-
Formshift/Isolation.lean

What a session serves is its own.

All sessions share one result cache, so a session can be given results that
another one has paid for.  Still every payload it has was uploaded to it or is an
output of one of its own jobs, and every event of its log is about one of them
(`server_own`): a job writes to the desk of its own session, and what it stores
was on its way through its own `on_output` (`jobStep_writes`).  Main results:
`session_serves_its_own`, for the downloads, polls and streams of any run, and
`downloads_are_values`, where modules are functions.
-/
import Formshift.Subscribers

namespace Formshift

open Py Steps

/-! ### What a job writes -/

section Writes

variable {service : Service} {req : JobRequest}

/-- The payloads grow by an output that is at `add_payload`, if at all. -/
def Adds (session session' : Session) (gate : GateState) : Prop :=
  session' = session ∨ ∃ t id output group gated,
    gate.calls t = .emitting output group gated .add ∧
      session' = session.addPayload id output.type output.data

/-- The log grows by an event of this job, if at all. -/
def Reports (job : Str) (log log' : EventLog) : Prop :=
  log' = log ∨ ∃ body, log' = log.append job body

theorem gateStep_writes {groups : Groups} {job : Str} {x y : SessionState × GateState}
    {a : GateAct} (hs : gateStep groups job x a = some y) :
    Adds x.1.session y.1.session x.2 ∧ Reports job x.1.events y.1.events := by
  cases gateStep_move groups job hs with
  | add hcall => exact ⟨Or.inr ⟨_, _, _, _, _, hcall, rfl⟩, Or.inl rfl⟩
  | announceGated | announce => exact ⟨Or.inl rfl, Or.inr ⟨_, rfl⟩⟩
  | direct | enter | record | next | leave | ret => exact ⟨Or.inl rfl, Or.inl rfl⟩

/-- **A job stores what its own workers hand over, and reports on itself.** -/
theorem jobStep_writes {x y : Desk × JobState} {a : JobAct}
    (hs : jobStep service req x a = some y) :
    Adds x.1.2.session y.1.2.session x.2.gate ∧ Reports req.token x.1.2.events y.1.2.events := by
  cases jobStep_move service req hs with
  | announcePending | announceRunning | announceStatus | announceEnd | notify =>
      exact ⟨Or.inl rfl, Or.inr ⟨_, rfl⟩⟩
  | emitted _ _ hret => exact gateStep_writes hret
  | gate _ _ _ hgate => exact gateStep_writes hgate
  | refuse | accept | mark | group | stuck | enter | returned | raised | close | exec | cancel =>
      exact ⟨Or.inl rfl, Or.inl rfl⟩

end Writes

/-! ### What a session has -/

section Own

variable (Q : JobRequest → Session → ExecutionOutput → Prop)

/-- The payload was uploaded to the session. -/
def Server.Uploaded (P : Server) (session : Str) (p : Payload) : Prop :=
  ∃ i : Nat, P.members[i]? = some (.upload session p.type p.data, .uploaded p.id)

/-- The payload is an output, such as `Q` says, of a job of the session. -/
def Server.Made (P : Server) (session : Str) (p : Payload) : Prop :=
  ∃ i req j node port, P.jobAt i = some (req, j) ∧ req.session = session ∧
    Q req (P.store.sessions session).session ⟨node, port, p.type, p.data⟩

/-- A job of the session has this id. -/
def Server.Submitted (P : Server) (session job : Str) : Prop :=
  ∃ i req j, P.jobAt i = some (req, j) ∧ req.session = session ∧ req.token = job

/-- The payload came in for the session. -/
def Server.Holds (P : Server) (session : Str) (p : Payload) : Prop :=
  P.Uploaded session p ∨ P.Made Q session p

/-- Everything the session has came in for it. -/
structure Server.Own (P : Server) (session : Str) : Prop where
  payloads : ∀ id p, (P.store.sessions session).session.payloads.lookup id = some p →
    p.id = id ∧ P.Holds Q session p
  events : ∀ e ∈ (P.store.sessions session).events, P.Submitted session e.job

variable {Q} {service : Service} {beh : Behaviour} {P P' : Server} {session : Str}

/-- An upload that is done stays as it is, and so do the requests of the jobs. -/
structure Server.Remembers (P P' : Server) : Prop where
  grown : Grown P.store P'.store
  jobs : ∀ i req j, P.jobAt i = some (req, j) → ∃ j', P'.jobAt i = some (req, j')
  uploads : ∀ (i : Nat) (session type : Str) (data : Bytes) (id : Str),
    P.members[i]? = some (.upload session type data, .uploaded id) →
      P'.members[i]? = some (.upload session type data, .uploaded id)

theorem server_remembers (hfire : Fires (poolStep Party.start (partyStep service))
    (PoolOk (fun _ => True) (PartyOk service beh)) P P') : P.Remembers P' := by
  obtain ⟨hgrown, hjobs⟩ := server_later hfire
  refine ⟨hgrown, hjobs, fun i session type data id hi => ?_⟩
  obtain ⟨a, -, hs⟩ := hfire
  rcases poolStep_cases hs with ⟨m, -, rfl⟩ | ⟨k, b, m, p, x, -, hk, hx, rfl⟩
  · exact getElem?_concat hi _
  · by_cases hik : i = k
    · subst hik
      obtain ⟨rfl, rfl⟩ := Prod.mk.inj (Option.some.inj (hi.symm.trans hk))
      cases b <;> cases hx
    · exact (List.getElem?_set_ne (Ne.symm hik)).trans hi

theorem Server.Submitted.later (hlater : P.Remembers P') {job : Str}
    (h : P.Submitted session job) : P'.Submitted session job := by
  obtain ⟨i, req, j, hi, hsession, htoken⟩ := h
  obtain ⟨j', hi'⟩ := hlater.jobs i req j hi
  exact ⟨i, req, j', hi', hsession, htoken⟩

theorem Server.Holds.later (hlast : ∀ req, Lasting (Q req)) (hlater : P.Remembers P')
    {p : Payload} (h : P.Holds Q session p) : P'.Holds Q session p := by
  rcases h with ⟨i, hi⟩ | ⟨i, req, j, node, port, hi, hsession, hgood⟩
  · exact Or.inl ⟨i, hlater.uploads _ _ _ _ _ hi⟩
  · obtain ⟨j', hi'⟩ := hlater.jobs i req j hi
    exact Or.inr ⟨i, req, j', node, port, hi', hsession,
      hlast req _ _ (hlater.grown session) _ hgood⟩

theorem Server.Own.payloads_same (hlast : ∀ req, Lasting (Q req)) (h : P.Own Q session)
    (hlater : P.Remembers P')
    (hsame : (P'.store.sessions session).session = (P.store.sessions session).session) :
    ∀ id p, (P'.store.sessions session).session.payloads.lookup id = some p →
      p.id = id ∧ P'.Holds Q session p := by
  intro id p hp
  rw [hsame] at hp
  obtain ⟨hid, hholds⟩ := h.payloads id p hp
  exact ⟨hid, hholds.later hlast hlater⟩

/-- One payload more, which came in for the session. -/
theorem Server.Own.payloads_add (hlast : ∀ req, Lasting (Q req)) (h : P.Own Q session)
    (hlater : P.Remembers P') {id type : Str} {data : Bytes}
    (hgrown : (P'.store.sessions session).session =
      (P.store.sessions session).session.addPayload id type data)
    (hnew : P'.Holds Q session ⟨id, type, data⟩) :
    ∀ id p, (P'.store.sessions session).session.payloads.lookup id = some p →
      p.id = id ∧ P'.Holds Q session p := by
  intro id' p hp
  rw [hgrown] at hp
  change ((P.store.sessions session).session.payloads.insert id ⟨id, type, data⟩).lookup id' =
    some p at hp
  rw [Dict.lookup_insert_ite] at hp
  split at hp
  · rename_i hid
    obtain rfl := Option.some.inj hp
    exact ⟨hid.symm, hnew⟩
  · obtain ⟨hid, hholds⟩ := h.payloads id' p hp
    exact ⟨hid, hholds.later hlast hlater⟩

theorem Server.Own.events_same (h : P.Own Q session) (hlater : P.Remembers P')
    (hsame : (P'.store.sessions session).events = (P.store.sessions session).events) :
    ∀ e ∈ (P'.store.sessions session).events, P'.Submitted session e.job := by
  intro e he
  rw [hsame] at he
  exact (h.events e he).later hlater

/-- One event more, about a job of the session. -/
theorem Server.Own.events_add (h : P.Own Q session) (hlater : P.Remembers P')
    {job : Str} {body : EventBody} (hnew : (P'.store.sessions session).events =
      (P.store.sessions session).events.append job body) (hjob : P'.Submitted session job) :
    ∀ e ∈ (P'.store.sessions session).events, P'.Submitted session e.job := by
  intro e he
  rw [hnew] at he
  rcases List.mem_append.mp he with hold | hlast
  · exact (h.events e hold).later hlater
  · rw [List.mem_singleton.mp hlast]
    exact hjob

theorem Server.Own.keep (hlast : ∀ req, Lasting (Q req)) (h : P.Own Q session)
    (hlater : P.Remembers P')
    (hsame : P'.store.sessions session = P.store.sessions session) :
    P'.Own Q session :=
  ⟨h.payloads_same hlast hlater (by rw [hsame]), h.events_same hlater (by rw [hsame])⟩

/-- The step of a job of the session. -/
theorem Server.Own.job (hlast : ∀ req, Lasting (Q req)) (h : P.Own Q session)
    (hlater : P.Remembers P') {i : Nat} {req : JobRequest} {j : JobState} {y : Desk × JobState}
    {a : JobAct} (hi : P.jobAt i = some (req, j)) (hsession : req.session = session)
    (hdelivers : Delivers (Q req) (P.store.sessions session).session j.gate)
    (hy : jobStep service req (P.store.desk req.session, j) a = some y)
    (hstore : P'.store.sessions session = y.1.2) : P'.Own Q session := by
  subst hsession
  obtain ⟨hadds, hreports⟩ := jobStep_writes hy
  obtain ⟨j', hi'⟩ := hlater.jobs i req j hi
  refine ⟨?_, ?_⟩
  · rcases hadds with hsame | ⟨t, id, output, group, gated, hcall, hgrown⟩
    · apply h.payloads_same hlast hlater
      rw [hstore, hsame]
      rfl
    · refine h.payloads_add hlast hlater (hstore ▸ hgrown) (Or.inr ?_)
      have hgood := hlast req _ _ (hlater.grown req.session) _ (hdelivers.calls t _ _ _ _ hcall)
      exact ⟨i, req, j', output.node, output.port, hi', rfl, hgood⟩
  · rcases hreports with hsame | ⟨body, hnew⟩
    · apply h.events_same hlater
      rw [hstore, hsame]
      rfl
    · exact h.events_add hlater (hstore ▸ hnew) ⟨i, req, j', hi', rfl, rfl⟩

/-- **What a session has came in for it**, in every run of a server, where `Q`
is what every output has when a worker hands it over. -/
theorem server_own (hlast : ∀ req, Lasting (Q req))
    (hrun : ServerReaches service beh Server.empty P)
    (hcalling : ∀ P', ServerReaches service beh Server.empty P' → ServerReaches service beh P' P →
      ∀ i req s t output, P'.Runs i req s → s.calling t = some output →
        Q req (P'.store.sessions req.session).session output) (session : Str) :
    P.Own Q session := by
  induction hrun with
  | refl => exact ⟨fun id p hp => by simp [Server.empty] at hp, by simp [Server.empty]⟩
  | @tail P P' hrun hfire ih =>
      have hearlier : ∀ P₀, ServerReaches service beh Server.empty P₀ →
          ServerReaches service beh P₀ P → ∀ i req s t output, P₀.Runs i req s →
            s.calling t = some output → Q req (P₀.store.sessions req.session).session output :=
        fun P₀ h₀ hlater => hcalling P₀ h₀ (hlater.tail hfire)
      have hdelivers := server_delivers hlast hrun hearlier
      replace ih := ih hearlier
      have hlater := server_remembers hfire
      obtain ⟨a, -, hs⟩ := hfire
      rcases poolStep_cases hs with ⟨m, -, rfl⟩ | ⟨i, b, m, p, x, -, hi, hx, rfl⟩
      -- a new request touches no session
      · exact ih.keep hlast hlater rfl
      · cases m with
        | job req =>
            cases p with
            | job j =>
                cases b with
                | job b =>
                    obtain ⟨y, hy, rfl⟩ := Option.map_eq_some_iff.mp hx
                    -- a job writes to its own session only
                    by_cases hsession : req.session = session
                    · have hjob := Server.jobAt_eq_some.mpr hi
                      refine ih.job hlast hlater hjob hsession ?_ hy ?_
                      · rw [← hsession]
                        exact hdelivers i req j hjob
                      · rw [← hsession]
                        exact Function.update_self ..
                    · exact ih.keep hlast hlater (Function.update_of_ne (Ne.symm hsession) ..)
                | store id => cases hx
            | uploading | uploaded => cases hx
        | upload other type data =>
            cases p with
            | uploading =>
                cases b with
                | job b => cases hx
                | store id =>
                    obtain rfl := Option.some.inj hx
                    -- and so does an upload
                    by_cases hsession : other = session
                    · subst hsession
                      have hlt := (List.getElem?_eq_some_iff.mp hi).1
                      have hput : (P.store.put other (P.store.cache,
                          (P.store.sessions other).addPayload id type data)).sessions other =
                            (P.store.sessions other).addPayload id type data :=
                        Function.update_self ..
                      have hevents := congrArg SessionState.events hput
                      refine ⟨ih.payloads_add hlast hlater (congrArg SessionState.session hput) ?_,
                        ih.events_same hlater hevents⟩
                      exact Or.inl ⟨i, List.getElem?_set_self hlt⟩
                    · exact ih.keep hlast hlater (Function.update_of_ne (Ne.symm hsession) ..)
            | job | uploaded => cases hx

end Own

/-! ### What a session serves -/

section Serves

variable {service : Service} {beh : Behaviour} {A A' : App} {W : StreamedApp} {n : Nat}
  {session id : Str}

/-- A download has been answered with what the session has. -/
theorem download_stored (hrun : AppReaches service beh App.empty A) {p : Payload}
    (hx : A.handlers[n]? = some (.downloadPayload session id, .answered (.download p))) :
    (A.server.store.sessions session).session.payloads.lookup id = some p := by
  induction hrun with
  | refl => simp [App.empty] at hx
  | @tail A B hrun hfire ih =>
      obtain ⟨a, hok, hs⟩ := hfire
      have hgrown := ((app_inv hrun).step hok hs).1.grown
      rcases appStep_cases hs with ⟨r, -, rfl⟩ | ⟨m, b, r, st, D, st', -, -, hm, rfl⟩ |
        ⟨i, b, P, -, -, rfl⟩
      · rcases getElem?_concat_cases hx with hold | ⟨-, hnew⟩
        · exact hgrown _ _ _ (ih hold)
        · cases hnew
      · rcases getElem?_set_some hx with ⟨-, heq⟩ | ⟨-, hold⟩
        · -- the handler that has just answered
          obtain ⟨rfl, rfl⟩ := Prod.mk.inj heq
          cases hm with
          | download hp => exact hp
        · exact hgrown _ _ _ (ih hold)
      · exact hgrown _ _ _ (ih hx)

/-- **Every download is an upload or a value**: where keys tell the nodes of the
server's calls apart, whatever a client gets out of a session, also of jobs that
have failed, been cancelled or still run, was uploaded to it or is what the
reference evaluator computes for an output of one of its jobs, from the
payloads of this session alone. -/
theorem downloads_are_values (hinj : Function.Injective service.host.blake2b) {run : Run}
    (hconf : run.Conforms service.registry) (hsame : ∀ m inputs p p' draft,
      p.toJson.Same p'.toJson → run m inputs p draft = run m inputs p' draft)
    (hrun : AppReaches service run.behaviour App.empty A)
    (hno : NoConfusion service.host (A.server.Calls service)) {p : Payload}
    (hx : A.handlers[n]? = some (.downloadPayload session id, .answered (.download p))) :
    p.id = id ∧ (A.server.Uploaded session p ∨
      ∃ i req j outputs node port, A.server.jobAt i = some (req, j) ∧ req.session = session ∧
        referenceOutputs run (req.call service (A.server.store.sessions session).session) =
          some outputs ∧ ⟨node, port, p.type, p.data⟩ ∈ outputs) := by
  have hreached := (app_inv hrun).reached
  have hown := server_own (Q := fun req session o => (req.call service session).Valid ∧
      Computed run (req.call service session) o)
    (fun req s s' hgrow o ho => ⟨ho.1.keep ⟨fun _ _ h => h, hgrow⟩, ho.2.grow hgrow⟩) hreached
    (fun P' hP' hlater i req s t output hruns hcall => ⟨server_runs_valid hP' hruns,
      computed_of_calling hinj hconf hsame hP' (hno.mono fun _ hcall => hcall.reaches hlater)
        hruns hcall⟩) session
  obtain ⟨hid, hup | ⟨i, req, j, node, port, hi, hsession, hvalid, hcomputed⟩⟩ :=
    hown.payloads id p (download_stored hrun hx)
  · exact ⟨hid, Or.inl hup⟩
  · obtain ⟨outputs, href, -, hmem⟩ := exists_referenceOutputs hsame hvalid hconf
    exact ⟨hid, Or.inr ⟨i, req, j, outputs, node, port, hi, hsession, href, hmem _ hcomputed⟩⟩

end Serves

/-! ### A result that is served -/

def HandlerStage.served? : HandlerStage → Option Payload
  | .answered (.download p) => some p
  | _ => none

theorem HandlerStage.served?_eq_some {st : HandlerStage} {p : Payload} :
    st.served? = some p ↔ st = .answered (.download p) := by
  cases st with
  | answered reply => cases reply <;> simp [served?]
  | _ => simp [served?]

/-- One job, its node, and a download of its output. -/
def serveSeen (A : App) : Bool :=
  A.server.members.length = 1 ∧
    (A.server.jobAt 0).any (fun x => x.1.graph.bindings.isEmpty = true ∧
      x.1.graph.nodes.map (fun n => (n.id, n.module)) = [(.text "s", .text "split")]) ∧
    (A.handlers[3]?).any fun x => x.1 = .downloadPayload (.text "s") (.text "p") ∧ x.2.served?.isSome

theorem serve_check : ((runActs (guarded (appStep sampleService)
      (AppOk sampleService sampleRun.behaviour))
        (redeemActs ++ [.handler 3 .go, .handler 3 .go]) App.empty).any serveSeen) = true := by
  decide +kernel

theorem served : ∃ (A : App) (p : Payload),
    AppReaches sampleService sampleRun.behaviour App.empty A ∧
      A.handlers[3]? = some (.downloadPayload "s" "p", .answered (.download p)) ∧
      NoConfusion sampleHost (A.server.Calls sampleService) := by
  obtain ⟨A, hA, hseen⟩ := (Option.any_eq_true _ _).mp serve_check
  simp only [serveSeen, Option.any_eq_true, decide_eq_true_eq, Bool.decide_and, Bool.and_eq_true,
    List.isEmpty_iff] at hseen
  obtain ⟨hlength, ⟨⟨req, j⟩, hjob, hbindings, hnodes⟩, ⟨r, st⟩, hx, hr, hst⟩ := hseen
  subst hr
  obtain ⟨p, hp⟩ := Option.isSome_iff_exists.mp hst
  obtain rfl := HandlerStage.served?_eq_some.mp hp
  have honly := Server.only_of_length hlength hjob
  exact ⟨A, p, reaches_of_guarded hA, hx, noConfusion_split honly hbindings hnodes⟩

theorem downloads_are_values_split : ∃ (A : App) (p : Payload),
    AppReaches sampleService sampleRun.behaviour App.empty A ∧
      A.handlers[3]? = some (.downloadPayload "s" "p", .answered (.download p)) ∧
      p.id = "p" ∧ (A.server.Uploaded "s" p ∨
        ∃ i req j outputs node port, A.server.jobAt i = some (req, j) ∧ req.session = "s" ∧
          referenceOutputs sampleRun
              (req.call sampleService (A.server.store.sessions "s").session) = some outputs ∧
            ⟨node, port, p.type, p.data⟩ ∈ outputs) := by
  obtain ⟨A, p, hrun, hx, hno⟩ := served
  obtain ⟨hid, hvalue⟩ := downloads_are_values sampleHost_injective (sampleRun_conforms _)
    (fun _ _ _ _ _ _ => rfl) hrun hno hx
  exact ⟨A, p, hrun, hx, hid, hvalue⟩

end Formshift
