/-
Formshift/Server.lean

A server at work: jobs of many sessions and payload uploads on one cache.

Each request is a party with its own place in its handler or job; a step of
the server is a step of one of them on the shared cache and the sessions.  To
one job the others are an environment that leaves its events alone and takes
no payload away (`job_view`), so a run of the server is, for each of its jobs,
a run of `JobSteps`.
-/
import Formshift.Jobs

namespace Formshift

open Py Steps

/-! ### Parties -/

structure ServerStore where
  cache : ResultCache
  sessions : Str → SessionState

namespace ServerStore

/-- The part of the store a job of this session works on. -/
def desk (k : ServerStore) (session : Str) : Desk := (k.cache, k.sessions session)

def put (k : ServerStore) (session : Str) (d : Desk) : ServerStore :=
  ⟨d.1, Function.update k.sessions session d.2⟩

@[simp] theorem desk_put_self (k : ServerStore) (session : Str) (d : Desk) :
    (k.put session d).desk session = d := by
  simp [desk, put]

theorem desk_put_other (k : ServerStore) {session other : Str} (h : other ≠ session) (d : Desk) :
    ((k.put session d).desk other).2 = (k.desk other).2 := by
  simp [desk, put, h]

end ServerStore

/-- A request at work in the server. -/
inductive Party where
  | job (req : JobRequest)
  /-- `POST /payloads`, its body read. -/
  | upload (session type : Str) (data : Bytes)

inductive PartyState where
  | job (j : JobState)
  | uploading
  | uploaded (id : Str)

/-- The job's own state, when the party is a job. -/
def PartyState.asJob : PartyState → Option JobState
  | .job j => some j
  | .uploading | .uploaded _ => none

inductive PartyAct where
  | job (a : JobAct)
  /-- `session.add_payload`, which draws this id. -/
  | store (id : Str)

def Party.start : Party → PartyState
  | .job _ => .job .init
  | .upload _ _ _ => .uploading

def partyStep (service : Service) :
    Party → ServerStore × PartyState → PartyAct → Option (ServerStore × PartyState)
  | .job req, (k, .job j), .job a =>
    (jobStep service req (k.desk req.session, j) a).map fun y => (k.put req.session y.1, .job y.2)
  | .upload session type data, (k, .uploading), .store id =>
    some (k.put session (k.cache, (k.sessions session).addPayload id type data), .uploaded id)
  | _, _, _ => none

def PartyOk (service : Service) (beh : Behaviour) :
    Party → ServerStore × PartyState → PartyAct → Prop
  | .job req, (k, .job j), .job a => JobOk service req beh (k.desk req.session, j) a
  | .upload session _ _, (k, _), .store id => id ∉ (k.sessions session).session.payloads
  | _, _, _ => True

abbrev Server := Pool Party ServerStore PartyState

/-- Nothing in the cache, and in no session a payload or an event. -/
def Server.empty : Server := ⟨⟨∅, fun id => ⟨⟨id, ∅⟩, []⟩⟩, []⟩

/-- The runs of a server whose modules behave as `beh` says. -/
abbrev ServerReaches (service : Service) (beh : Behaviour) : Server → Server → Prop :=
  PoolReaches Party.start (partyStep service) (fun _ => True) (PartyOk service beh)

/-- The ids drawn for two jobs differ. -/
def Party.Apart : Party → Party → Prop
  | .job req, .job req' => req.token ≠ req'.token
  | _, _ => True

def Server.Distinct (P : Server) : Prop := (P.members.map Prod.fst).Pairwise Party.Apart

/-! ### What one party does to another's session -/

section Others

variable {service : Service} {beh : Behaviour}

theorem interferes_addPayload {job : Str} {x : SessionState} {id : Str}
    (hid : id ∉ x.session.payloads) (type : Str) (data : Bytes) :
    x.Interferes job (x.addPayload id type data) := by
  refine ⟨rfl, fun id' p hp => ?_⟩
  have hne : id' ≠ id := fun e => hid (e ▸ Dict.mem_of_lookup hp)
  show (x.session.payloads.insert id _).lookup id' = some p
  rw [Dict.lookup_insert_ite, if_neg hne, hp]

theorem interferes_log {job other : Str} (hne : other ≠ job) (x : SessionState)
    (body : EventBody) : x.Interferes job (x.log other body) :=
  ⟨EventLog.ofJob_append_other hne body, fun _ _ => id⟩

theorem gateStep_interferes {groups : Groups} {job other : Str} (hne : other ≠ job)
    {x y : SessionState × GateState} {a : GateAct}
    (hfresh : ∀ t id, a = .add t id → id ∉ x.1.session.payloads)
    (hs : gateStep groups other x a = some y) : x.1.Interferes job y.1 := by
  cases gateStep_move groups other hs with
  | add => exact interferes_addPayload (hfresh _ _ rfl) _ _
  | announceGated | announce => exact interferes_log hne _ _
  | direct | enter | record | next | leave | ret => exact SessionState.Interferes.refl _

theorem jobStep_interferes {req : JobRequest} {job : Str} (hne : req.token ≠ job)
    {x y : Desk × JobState} {a : JobAct} (hok : JobOk service req beh x a)
    (hs : jobStep service req x a = some y) : x.1.2.Interferes job y.1.2 := by
  cases jobStep_move service req hs with
  | announcePending | announceRunning | announceStatus | announceEnd | notify =>
      exact interferes_log hne _ _
  | emitted _ _ hret => exact gateStep_interferes hne (by simp) hret
  | gate _ _ _ hgate =>
      refine gateStep_interferes hne ?_ hgate
      rintro t id rfl
      exact hok
  | refuse | accept | mark | group | stuck | enter | returned | raised | close | exec | cancel =>
      exact SessionState.Interferes.refl _

/-- What another party does is interference. -/
theorem partyStep_interferes {m : Party} {req : JobRequest} (hapart : m.Apart (.job req))
    {x y : ServerStore × PartyState} {a : PartyAct} (hok : PartyOk service beh m x a)
    (hs : partyStep service m x a = some y) :
    Elsewhere req.token (x.1.desk req.session) (y.1.desk req.session) := by
  obtain ⟨k, p⟩ := x
  cases m with
  | job req' =>
      cases p with
      | job j =>
          cases a with
          | job a =>
              obtain ⟨z, hz, rfl⟩ := Option.map_eq_some_iff.mp hs
              -- another job of the session has its own token
              by_cases hsession : req.session = req'.session
              · show (k.desk req.session).2.Interferes _ ((k.put req'.session z.1).desk req.session).2
                rw [hsession, ServerStore.desk_put_self]
                exact jobStep_interferes hapart hok hz
              · show (k.desk req.session).2.Interferes _ ((k.put req'.session z.1).desk req.session).2
                rw [ServerStore.desk_put_other k hsession]
                exact SessionState.Interferes.refl _
          | store id => cases hs
      | uploading | uploaded id => cases hs
  | upload session type data =>
      cases p with
      | uploading =>
          cases a with
          | job a => cases hs
          | store id =>
              obtain rfl := Option.some.inj hs
              show (k.desk req.session).2.Interferes _ ((k.put session _).desk req.session).2
              -- an upload only adds its payload
              by_cases hsession : req.session = session
              · rw [hsession, ServerStore.desk_put_self]
                exact interferes_addPayload hok type data
              · rw [ServerStore.desk_put_other k hsession]
                exact SessionState.Interferes.refl _
      | job j | uploaded id => cases hs

end Others

/-! ### One job -/

section View

variable {service : Service} {beh : Behaviour}

/-- A job's own steps in the server are steps of the job. -/
theorem job_steps {req : JobRequest} {x y : ServerStore × PartyState}
    (hrun : Reaches (Among (partyStep service) (PartyOk service beh)
      (fun k k' => Elsewhere req.token (k.desk req.session) (k'.desk req.session)) (.job req)) x y)
    {j : JobState} (hx : x.2 = .job j) :
    ∃ j', y.2 = .job j' ∧ Reaches (JobSteps service req beh) (x.1.desk req.session, j)
      (y.1.desk req.session, j') := by
  induction hrun with
  | refl => exact ⟨j, hx, Relation.ReflTransGen.refl⟩
  | @tail y z _ hstep ih =>
      obtain ⟨j', hy, hreach⟩ := ih
      obtain ⟨k, p⟩ := y
      obtain rfl : p = .job j' := hy
      rcases hstep with ⟨a, hok, hs⟩ | ⟨hsame, helse⟩
      · cases a with
        | job a =>
            obtain ⟨w, hw, rfl⟩ := Option.map_eq_some_iff.mp hs
            refine ⟨w.2, rfl, hreach.tail (Or.inl ⟨a, hok, ?_⟩)⟩
            rw [hw, ServerStore.desk_put_self]
        | store id => cases hs
      · exact ⟨j', hsame, hreach.tail (Or.inr ⟨rfl, helse⟩)⟩

/-- The state of job `i`, which has not begun before it is there. -/
def Server.jobState (P : Server) (i : Nat) : JobState :=
  match P.members[i]? with
  | some (_, .job j) => j
  | _ => .init

/-- **A job's view of a run of the server**: its own steps, and interference. -/
theorem job_view {P P' : Server} {i : Nat} {req : JobRequest}
    (hrun : ServerReaches service beh P P') (hdistinct : P'.Distinct)
    (hi : (P'.members.map Prod.fst)[i]? = some (.job req))
    (hshape : ∀ m p, P.members[i]? = some (m, p) → ∃ j, p = .job j) :
    (∀ m p, P'.members[i]? = some (m, p) → ∃ j, p = .job j) ∧
    Reaches (JobSteps service req beh) (P.store.desk req.session, P.jobState i)
      (P'.store.desk req.session, P'.jobState i) := by
  have hview := PoolReaches.member_view
    (R := fun k k' => Elsewhere req.token (k.desk req.session) (k'.desk req.session)) hrun hi
    (fun n m' x a y hn hm' hok hs => by
      refine partyStep_interferes ?_ hok hs
      obtain ⟨hlt, hget⟩ := List.getElem?_eq_some_iff.mp hm'
      obtain ⟨hlt', hget'⟩ := List.getElem?_eq_some_iff.mp hi
      have hpair := List.pairwise_iff_getElem.mp hdistinct
      rcases Nat.lt_or_gt_of_ne hn with h | h
      · have hapart := hpair n i hlt hlt' h
        rwa [hget, hget'] at hapart
      · have hapart := hpair i n hlt' hlt h
        rw [hget, hget'] at hapart
        cases m' with
        | job req' => exact fun e => hapart e.symm
        | upload => trivial)
  -- a job that is not there yet begins in its first state
  have hstart : P.stateOf Party.start i (.job req) = .job (P.jobState i) := by
    unfold Pool.stateOf Server.jobState
    cases hm : P.members[i]? with
    | none => rfl
    | some mp =>
        obtain ⟨m, p⟩ := mp
        obtain ⟨j, rfl⟩ := hshape m p hm
        rfl
  obtain ⟨j', hj', hreach⟩ := job_steps hview hstart
  -- what the job sees of the run is a run of its own
  have hlast : ∀ m p, P'.members[i]? = some (m, p) → p = .job j' := by
    intro m p hm
    have hstate : P'.stateOf Party.start i (.job req) = p := by simp [Pool.stateOf, hm]
    exact hstate.symm.trans hj'
  refine ⟨fun m p hm => ⟨j', hlast m p hm⟩, ?_⟩
  have hstate : P'.jobState i = j' := by
    obtain ⟨mp, hm⟩ : ∃ mp, P'.members[i]? = some mp := by
      rw [List.getElem?_map] at hi
      obtain ⟨mp, hm, -⟩ := Option.map_eq_some_iff.mp hi
      exact ⟨mp, hm⟩
    obtain ⟨m, p⟩ := mp
    obtain rfl := hlast m p hm
    simp [Server.jobState, hm]
  rw [hstate]
  exact hreach

/-- The same from the start of the server. -/
theorem job_view_empty {P : Server} {i : Nat} {req : JobRequest} {j : JobState}
    (hrun : ServerReaches service beh Server.empty P) (hdistinct : P.Distinct)
    (hi : P.members[i]? = some (.job req, .job j)) :
    Reaches (JobSteps service req beh) ((∅, ⟨⟨req.session, ∅⟩, []⟩), .init)
      (P.store.desk req.session, j) := by
  have hview := (job_view hrun hdistinct (by rw [List.getElem?_map, hi]; rfl)
    (by simp [Server.empty])).2
  have hj : P.jobState i = j := by simp [Server.jobState, hi]
  rw [hj] at hview
  exact hview

end View

end Formshift
