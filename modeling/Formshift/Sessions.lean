/-
Formshift/Sessions.lean

The session handlers of the service (`create_app`, `app.py`; `SessionStore`,
`sessions.py`; `JobManager`, `jobs.py`).

Every request to a session is a handler with its own place in its code, and a
step of the service is a step of one handler or of one job's threads on the
store of sessions, the dict of managers, their tables of jobs and the server.
`HandlerMove` lists what a handler can do.
-/
import Formshift.Accepted
import Formshift.GraphFormat

namespace Formshift

open Py Steps

/-! ### Requests -/

inductive SessionRequest where
  | createSession
  | deleteSession (session : Str)
  | uploadPayload (session : Str) (type : String)
  | downloadPayload (session payload : Str)
  | submitJob (session : Str)
  | getJob (session job : Str)
  | cancelJob (session job : Str)
  | events (session : Str)
  deriving DecidableEq

/-- The session a request is to. -/
def SessionRequest.session : SessionRequest → Option Str
  | .createSession => none
  | .deleteSession session | .uploadPayload session _ | .downloadPayload session _
  | .submitJob session | .getJob session _ | .cancelJob session _ | .events session =>
    some session

/-- The `detail` of an `HTTPException`. -/
inductive Detail where
  | text (s : Str)
  | errors (texts : List Str)

inductive SessionReply where
  | created (session : Str)
  | noContent
  | payload (id type : Str)
  | download (payload : Payload)
  | submitted (job : Str) (status : JobStatus)
  | document (fields : List (Str × Json))
  | stream
  | error (statusCode : Nat) (detail : Detail)

namespace SessionReply

def sessionNotFound : SessionReply := .error 404 (.text "Session not found")

def payloadNotFound : SessionReply := .error 404 (.text "Payload not found")

def jobNotFound : SessionReply := .error 404 (.text "Job not found")

/-- What becomes of an exception that no handler catches. -/
def serverError : SessionReply := .error 500 (.text "Internal Server Error")

theorem payloadNotFound_ne : payloadNotFound ≠ sessionNotFound := by
  simp [payloadNotFound, sessionNotFound]

theorem jobNotFound_ne : jobNotFound ≠ sessionNotFound := by
  simp [jobNotFound, sessionNotFound]

/-- `JSONResponse` of a document, which it cannot encode with a surrogate half in it. -/
def ofDocument (fields : List (Str × Json)) : SessionReply :=
  if (Json.obj fields).isText then .document fields else serverError

theorem ofDocument_of_true {fields : List (Str × Json)} (h : (Json.obj fields).isText = true) :
    ofDocument fields = .document fields := if_pos h

theorem ofDocument_of_false {fields : List (Str × Json)} (h : (Json.obj fields).isText = false) :
    ofDocument fields = serverError := if_neg (by simp [h])

/-- The answer to a graph with these errors, likewise. -/
def unprocessable (errors : List Str) : SessionReply :=
  if errors.all Str.isText then .error 422 (.errors errors) else serverError

theorem unprocessable_eq (errors : List Str) :
    ∃ statusCode detail, unprocessable errors = .error statusCode detail ∧ statusCode ≠ 404 := by
  unfold unprocessable
  split
  · exact ⟨_, _, rfl, by decide⟩
  · exact ⟨_, _, rfl, by decide⟩

end SessionReply

/-- Where a handler stands; a number is the place of its party in the server. -/
inductive HandlerStage where
  | arrived
  /-- `create_session`: the session is in the store, its manager not yet in the
  dict. -/
  | stored (id : Str)
  /-- The session has been looked up. -/
  | found
  /-- The manager has been looked up. -/
  | held
  /-- The body has been read: a graph to be validated, or a payload. -/
  | working (i : Nat)
  /-- The job is in the table of jobs. -/
  | inserted (i : Nat)
  /-- Its thread has been started. -/
  | started (i : Nat)
  /-- `cancel_job`: the job's event is to be set. -/
  | cancelling (i : Nat)
  /-- `delete_session`: the session is out of the store. -/
  | dropped
  /-- The manager is out of the dict. -/
  | popped
  /-- `shutdown`: the jobs still to be looked at. -/
  | stopping (todo : List Nat)
  /-- The first of them has not ended, and its event is to be set. -/
  | marking (i : Nat) (todo : List Nat)
  | answered (reply : SessionReply)

namespace HandlerStage

/-- `delete_session` has taken the session out of the store. -/
def isDeleting : HandlerStage → Bool
  | dropped | popped | stopping _ | marking _ _ | answered .noContent => true
  | _ => false

/-- It has taken the manager out of the dict, if there was one. -/
def hasPopped : HandlerStage → Bool
  | popped | stopping _ | marking _ _ | answered .noContent => true
  | _ => false

/-- `submit_job` has its manager. -/
def isHolding : HandlerStage → Bool
  | held | working _ | inserted _ | started _ => true
  | _ => false

/-- The party that has the body. -/
def worker : HandlerStage → Option Nat
  | working i => some i
  | _ => none

/-- The id drawn for a session. -/
def drawn : HandlerStage → Option Str
  | stored id | answered (.created id) => some id
  | _ => none

end HandlerStage

inductive HandlerAct where
  /-- The handler goes on. -/
  | go
  /-- `store.create`, which draws this id. -/
  | create (id : Str)
  /-- The body of a submission, or that it is no JSON; `job` is the id the job
  will draw. -/
  | body (content : Option JsonValue) (job : Str)
  /-- The body of an upload. -/
  | data (content : Bytes)
  /-- `add_payload`, which draws this id. -/
  | store (id : Str)

/-- `bool(value)`. -/
def jsonTruthy : Json → Bool
  | .null => false
  | .bool b => b
  | .int n => n ≠ 0
  | .float x => x.text ≠ ['0', '.', '0'] ∧ x.text ≠ ['-', '0', '.', '0']
  | .str s => s ≠ .text ""
  | .arr items => !items.isEmpty
  | .obj fields => !fields.isEmpty

/-- `body.get("graph") or {}`. -/
def graphField (fields : List (Str × Json)) : Json :=
  match fields.lookup (.text "graph") with
  | some value => if jsonTruthy value then value else .obj []
  | none => .obj []

/-- What `submit_job` reads from its body: the graph and whether it is a draft. -/
def readSubmission (repr : Str → String) : Option JsonValue → Except SessionReply (Graph × Bool)
  | none => .error (.error 400 (.text "Body must be JSON"))
  | some body =>
    match body.value with
    | .obj fields =>
      match parseGraph repr (graphField fields) with
      | .ok graph => .ok (graph, ((fields.lookup (.text "draft")).map jsonTruthy).getD false)
      | .error (.graphValidation errors) => .error (.unprocessable errors)
      | .error (.other _) => .error .serverError
    | _ => .error (.error 400 (.text "Body must be a JSON object"))

/-- `Job.to_json`. -/
def JobState.toJson (job : Str) (j : JobState) : List (Str × Json) :=
  let named : List (Str × Json) := [("id", .str job), ("status", .str j.status.value)]
  let outputs : List (Str × Json) :=
    if j.status = .completed then [("outputs", .arr (j.outputs.map fun r => .obj r.fields))] else []
  let error : List (Str × Json) := match j.error with
    | some error => [("error", .str error)]
    | none => []
  named ++ outputs ++ error

/-! ### The handlers -/

/-- The service: the server at work, the keys of the session store and of the
dict of managers, each manager's table of jobs, and the handlers. -/
structure App where
  server : Server
  sessions : Finset Str
  managers : Finset Str
  jobs : Str → List Nat
  handlers : List (SessionRequest × HandlerStage)

/-- The job in this place of the server. -/
def Server.jobAt (P : Server) (i : Nat) : Option (JobRequest × JobState) :=
  match P.members[i]? with
  | some (.job req, .job j) => some (req, j)
  | _ => none

namespace App

def empty : App := ⟨Server.empty, ∅, ∅, fun _ => [], []⟩

section Handlers

variable (service : Service) (A : App)

/-- A party of the server takes a step. -/
def act (i : Nat) (a : PartyAct) : Option App :=
  (poolStep Party.start (partyStep service) A.server (.act i a)).map fun server =>
    { A with server := server }

/-- A new party in the server. -/
def spawn (m : Party) : App :=
  { A with server := { A.server with members := A.server.members ++ [(m, m.start)] } }

/-- `_session_or_404`. -/
def sessionOr404 (session : Str) (next : HandlerStage) : HandlerStage :=
  if session ∈ A.sessions then next else .answered .sessionNotFound

/-- `_manager_or_404`. -/
def managerOr404 (session : Str) (next : HandlerStage) : HandlerStage :=
  if session ∈ A.managers then next else .answered .sessionNotFound

/-- `manager.get`. -/
def find (session job : Str) : Option Nat :=
  (A.jobs session).find? fun i => (A.server.jobAt i).any fun x => x.1.token = job

/-- `manager._jobs[job.id] = job`. -/
def insertJob (session : Str) (i : Nat) : App :=
  { A with jobs := Function.update A.jobs session (A.jobs session ++ [i]) }

def createSession : HandlerStage → HandlerAct → Option (App × HandlerStage)
  | .arrived, .create id => some ({ A with sessions := insert id A.sessions }, .stored id)
  | .stored id, .go =>
    some ({ A with managers := insert id A.managers }, .answered (.created id))
  | _, _ => none

/-- `delete_session`, and `shutdown` of the manager. -/
def deleteSession (session : Str) : HandlerStage → HandlerAct → Option (App × HandlerStage)
  | .arrived, .go =>
    if session ∈ A.sessions then
      some ({ A with sessions := A.sessions.erase session }, .dropped)
    else some (A, .answered .sessionNotFound)
  | .dropped, .go =>
    if session ∈ A.managers then
      some ({ A with managers := A.managers.erase session }, .popped)
    else some (A, .answered .noContent)
  | .popped, .go => some (A, .stopping (A.jobs session))
  | .stopping [], .go => some (A, .answered .noContent)
  | .stopping (i :: todo), .go =>
    (A.server.jobAt i).map fun x =>
      (A, if x.2.status.isTerminal then .stopping todo else .marking i todo)
  | .marking i todo, .go => (A.act service i (.job .cancel)).map fun B => (B, .stopping todo)
  | _, _ => none

def uploadPayload (session : Str) (type : String) :
    HandlerStage → HandlerAct → Option (App × HandlerStage)
  | .arrived, .go => some (A, A.sessionOr404 session .found)
  | .found, .data content =>
    if content = [] then some (A, .answered (.error 400 (.text "Empty payload body")))
    else some (A.spawn (.upload session type content), .working A.server.members.length)
  | .working i, .store id =>
    (A.act service i (.store id)).map fun B => (B, .answered (.payload id type))
  | _, _ => none

/-- The answer to a download: the payload, its type in a header if it can stand
there. -/
def served (p : Payload) : SessionReply :=
  if service.headerOk p.type then .download p else .serverError

theorem served_of_true {p : Payload} (h : service.headerOk p.type = true) :
    served service p = .download p := if_pos h

theorem served_of_false {p : Payload} (h : service.headerOk p.type = false) :
    served service p = .serverError := if_neg (by simp [h])

def downloadPayload (session payload : Str) :
    HandlerStage → HandlerAct → Option (App × HandlerStage)
  | .arrived, .go => some (A, A.sessionOr404 session .found)
  | .found, .go =>
    match (A.server.store.sessions session).session.payloads.lookup payload with
    | some p => some (A, .answered (served service p))
    | none => some (A, .answered .payloadNotFound)
  | _, _ => none

/-- `submit_job`, and `submit` of the manager. -/
def submitJob (session : Str) : HandlerStage → HandlerAct → Option (App × HandlerStage)
  | .arrived, .go => some (A, A.sessionOr404 session .found)
  | .found, .go => some (A, A.managerOr404 session .held)
  | .held, .body content job =>
    match readSubmission service.repr content with
    | .ok (graph, draft) =>
      some (A.spawn (.job ⟨job, session, graph, draft⟩), .working A.server.members.length)
    | .error reply => some (A, .answered reply)
  | .working i, .go =>
    (A.act service i (.job .advance)).bind fun B =>
      (B.server.jobAt i).bind fun x =>
        match x.2.stage with
        | .refused errors =>
          some (B, .answered (.unprocessable (errors.map (GraphError.message service.repr))))
        | .inserted => some (B.insertJob session i, .inserted i)
        | _ => none
  | .inserted i, .go => (A.act service i (.job .advance)).map fun B => (B, .started i)
  | .started i, .go =>
    (A.server.jobAt i).map fun x => (A, .answered (.submitted x.1.token x.2.status))
  | _, _ => none

def getJob (session job : Str) : HandlerStage → HandlerAct → Option (App × HandlerStage)
  | .arrived, .go => some (A, A.managerOr404 session .held)
  | .held, .go =>
    match (A.find session job).bind A.server.jobAt with
    | some x => some (A, .answered (.ofDocument (x.2.toJson job)))
    | none => some (A, .answered .jobNotFound)
  | _, _ => none

def cancelJob (session job : Str) : HandlerStage → HandlerAct → Option (App × HandlerStage)
  | .arrived, .go => some (A, A.managerOr404 session .held)
  | .held, .go =>
    match A.find session job with
    | some i => some (A, .cancelling i)
    | none => some (A, .answered .jobNotFound)
  | .cancelling i, .go =>
    (A.act service i (.job .cancel)).map fun B => (B, .answered .noContent)
  | _, _ => none

def events (session : Str) : HandlerStage → HandlerAct → Option (App × HandlerStage)
  | .arrived, .go => some (A, A.managerOr404 session (.answered .stream))
  | _, _ => none

def handlerStep : SessionRequest → HandlerStage → HandlerAct → Option (App × HandlerStage)
  | .createSession => A.createSession
  | .deleteSession session => A.deleteSession service session
  | .uploadPayload session type => A.uploadPayload service session type
  | .downloadPayload session payload => A.downloadPayload service session payload
  | .submitJob session => A.submitJob service session
  | .getJob session job => A.getJob session job
  | .cancelJob session job => A.cancelJob service session job
  | .events session => A.events session

end Handlers

end App

/-! ### Runs -/

inductive AppAct where
  | request (r : SessionRequest)
  | handler (n : Nat) (a : HandlerAct)
  /-- A step of the job in this place, by its own threads. -/
  | thread (i : Nat) (a : JobAct)

/-- The job's thread is at work, or was. -/
def JobStage.isStarted : JobStage → Bool
  | .validating | .refused _ | .inserted => false
  | _ => true

def JobAct.isCancel : JobAct → Bool
  | .cancel => true
  | .advance | .exec _ | .gate _ => false

def appStep (service : Service) (A : App) : AppAct → Option App
  | .request r => some { A with handlers := A.handlers ++ [(r, .arrived)] }
  | .handler n a =>
    (A.handlers[n]?).bind fun x =>
      (A.handlerStep service x.1 x.2 a).map fun y =>
        { y.1 with handlers := A.handlers.set n (x.1, y.2) }
  | .thread i a =>
    (A.server.jobAt i).bind fun x =>
      if x.2.stage.isStarted = true ∧ a.isCancel = false then A.act service i (.job a) else none

/-- The id of a job. -/
def Party.token : Party → Option Str
  | .job req => some req.token
  | .upload _ _ _ => none

/-- What the party in this place may do next. -/
def App.Permits (service : Service) (beh : Behaviour) (A : App) (i : Nat) (a : PartyAct) : Prop :=
  ∀ x ∈ A.server.members[i]?, PartyOk service beh x.1 (A.server.store, x.2) a

/-- Modules behave as `beh` says, and the ids drawn are new. -/
def AppOk (service : Service) (beh : Behaviour) (A : App) : AppAct → Prop
  | .handler _ (.create id) => ∀ x ∈ A.handlers, x.2.drawn ≠ some id
  | .handler _ (.body _ job) => ∀ x ∈ A.server.members, x.1.token ≠ some job
  | .handler n (.store id) =>
    ∀ x ∈ A.handlers[n]?, ∀ i ∈ x.2.worker, A.Permits service beh i (.store id)
  | .thread i a => A.Permits service beh i (.job a)
  | .request _ | .handler _ .go | .handler _ (.data _) => True

instance (service : Service) (A : App) (i : Nat) (a : PartyAct) :
    Decidable (A.Permits service anyBehaviour i a) :=
  inferInstanceAs (Decidable (∀ x ∈ A.server.members[i]?,
    PartyOk service anyBehaviour x.1 (A.server.store, x.2) a))

instance (service : Service) (A : App) (a : AppAct) : Decidable (AppOk service anyBehaviour A a) :=
  match a with
  | .handler _ (.create id) => inferInstanceAs (Decidable (∀ x ∈ A.handlers, x.2.drawn ≠ some id))
  | .handler _ (.body _ job) =>
    inferInstanceAs (Decidable (∀ x ∈ A.server.members, x.1.token ≠ some job))
  | .handler n (.store id) =>
    inferInstanceAs (Decidable (∀ x ∈ A.handlers[n]?, ∀ i ∈ x.2.worker,
      A.Permits service anyBehaviour i (.store id)))
  | .thread i a => inferInstanceAs (Decidable (A.Permits service anyBehaviour i (.job a)))
  | .request _ | .handler _ .go | .handler _ (.data _) => isTrue trivial

/-- The runs of the service. -/
abbrev AppReaches (service : Service) (beh : Behaviour) : App → App → Prop :=
  Reaches (Fires (appStep service) (AppOk service beh))

/-! ### What a handler can do -/

section Moves

variable (service : Service) (A : App)

/-- A party of the server has taken a step. -/
def App.Acts (i : Nat) (a : PartyAct) (P : Server) : Prop :=
  poolStep Party.start (partyStep service) A.server (.act i a) = some P

theorem App.act_eq_some {B : App} {i : Nat} {a : PartyAct} (h : A.act service i a = some B) :
    ∃ P, A.Acts service i a P ∧ B = { A with server := P } := by
  obtain ⟨P, hP, rfl⟩ := Option.map_eq_some_iff.mp h
  exact ⟨P, hP, rfl⟩

/-- The requests that look the session up in the store and go on with it. -/
inductive SessionRequest.Reads (session : Str) : SessionRequest → Prop
  | upload {type} : Reads session (.uploadPayload session type)
  | download {payload} : Reads session (.downloadPayload session payload)
  | submit : Reads session (.submitJob session)

theorem SessionRequest.Reads.session {session : Str} {r : SessionRequest}
    (h : r.Reads session) : r.session = some session := by
  cases h <;> rfl

/-- The transitions of a handler. -/
inductive HandlerMove : SessionRequest → HandlerStage → HandlerAct → App → HandlerStage → Prop
  | miss {r st a session} (hsession : r.session = some session)
      (hst : st = .arrived ∨ st = .found) (hout : session ∉ A.sessions ∨ session ∉ A.managers) :
      HandlerMove r st a A (.answered .sessionNotFound)
  | found {r a session} (hr : r.Reads session) (hmem : session ∈ A.sessions) :
      HandlerMove r .arrived a A .found
  | hold {session a} (hmem : session ∈ A.managers) :
      HandlerMove (.submitJob session) .found a A .held
  | seek {r a session job} (hr : r = .getJob session job ∨ r = .cancelJob session job)
      (hmem : session ∈ A.managers) : HandlerMove r .arrived a A .held
  | stream {session a} (hmem : session ∈ A.managers) :
      HandlerMove (.events session) .arrived a A (.answered .stream)
  | rejectData {session type a statusCode detail} (hne : statusCode ≠ 404) :
      HandlerMove (.uploadPayload session type) .found a A (.answered (.error statusCode detail))
  | rejectBody {session a statusCode detail} (hne : statusCode ≠ 404) :
      HandlerMove (.submitJob session) .held a A (.answered (.error statusCode detail))
  | download {session payload p}
      (hp : (A.server.store.sessions session).session.payloads.lookup payload = some p)
      (hheader : service.headerOk p.type = true) :
      HandlerMove (.downloadPayload session payload) .found .go A (.answered (.download p))
  | unsent {session payload p}
      (hp : (A.server.store.sessions session).session.payloads.lookup payload = some p)
      (hheader : service.headerOk p.type = false) :
      HandlerMove (.downloadPayload session payload) .found .go A (.answered .serverError)
  | noPayload {session payload}
      (hnone : (A.server.store.sessions session).session.payloads.lookup payload = none) :
      HandlerMove (.downloadPayload session payload) .found .go A (.answered .payloadNotFound)
  | document {session job i req j} (hfind : A.find session job = some i)
      (hjob : A.server.jobAt i = some (req, j)) (htext : (Json.obj (j.toJson job)).isText = true) :
      HandlerMove (.getJob session job) .held .go A (.answered (.document (j.toJson job)))
  | unencoded {session job i req j} (hfind : A.find session job = some i)
      (hjob : A.server.jobAt i = some (req, j)) (htext : (Json.obj (j.toJson job)).isText = false) :
      HandlerMove (.getJob session job) .held .go A (.answered .serverError)
  | noJob {r session job} (hr : r = .getJob session job ∨ r = .cancelJob session job)
      (hnone : A.find session job = none) :
      HandlerMove r .held .go A (.answered .jobNotFound)
  | aim {session job i} (hfind : A.find session job = some i) :
      HandlerMove (.cancelJob session job) .held .go A (.cancelling i)
  | submitted {session i req j} (hjob : A.server.jobAt i = some (req, j)) :
      HandlerMove (.submitJob session) (.started i) .go A
        (.answered (.submitted req.token j.status))
  | create {id} : HandlerMove .createSession .arrived (.create id)
      { A with sessions := insert id A.sessions } (.stored id)
  | manage {id} : HandlerMove .createSession (.stored id) .go
      { A with managers := insert id A.managers } (.answered (.created id))
  | drop {session} (hmem : session ∈ A.sessions) :
      HandlerMove (.deleteSession session) .arrived .go
        { A with sessions := A.sessions.erase session } .dropped
  | pop {session} (hmem : session ∈ A.managers) :
      HandlerMove (.deleteSession session) .dropped .go
        { A with managers := A.managers.erase session } .popped
  | unmanaged {session} (hmem : session ∉ A.managers) :
      HandlerMove (.deleteSession session) .dropped .go A (.answered .noContent)
  | snapshot {session} :
      HandlerMove (.deleteSession session) .popped .go A (.stopping (A.jobs session))
  | stopped {session} :
      HandlerMove (.deleteSession session) (.stopping []) .go A (.answered .noContent)
  | skip {session i todo req j} (hjob : A.server.jobAt i = some (req, j))
      (hterminal : j.status.isTerminal = true) :
      HandlerMove (.deleteSession session) (.stopping (i :: todo)) .go A (.stopping todo)
  | see {session i todo} :
      HandlerMove (.deleteSession session) (.stopping (i :: todo)) .go A (.marking i todo)
  | mark {session i todo P} (hacts : A.Acts service i (.job .cancel) P) :
      HandlerMove (.deleteSession session) (.marking i todo) .go { A with server := P }
        (.stopping todo)
  | upload {session type content} (hne : content ≠ []) :
      HandlerMove (.uploadPayload session type) .found (.data content)
        (A.spawn (.upload session type content)) (.working A.server.members.length)
  | store {session type i id P} (hacts : A.Acts service i (.store id) P) :
      HandlerMove (.uploadPayload session type) (.working i) (.store id) { A with server := P }
        (.answered (.payload id type))
  | submit {session content job graph draft}
      (hread : readSubmission service.repr content = .ok (graph, draft)) :
      HandlerMove (.submitJob session) .held (.body content job)
        (A.spawn (.job ⟨job, session, graph, draft⟩)) (.working A.server.members.length)
  | refuse {session i P req j found statusCode detail} (hacts : A.Acts service i (.job .advance) P)
      (hjob : P.jobAt i = some (req, j)) (hst : j.stage = .refused found)
      (hne : statusCode ≠ 404) :
      HandlerMove (.submitJob session) (.working i) .go { A with server := P }
        (.answered (.error statusCode detail))
  | insert {session i P req j} (hacts : A.Acts service i (.job .advance) P)
      (hjob : P.jobAt i = some (req, j)) (hst : j.stage = .inserted) :
      HandlerMove (.submitJob session) (.working i) .go
        (App.insertJob { A with server := P } session i) (.inserted i)
  | start {session i P} (hacts : A.Acts service i (.job .advance) P) :
      HandlerMove (.submitJob session) (.inserted i) .go { A with server := P } (.started i)
  | cancel {session job i P} (hacts : A.Acts service i (.job .cancel) P) :
      HandlerMove (.cancelJob session job) (.cancelling i) .go { A with server := P }
        (.answered .noContent)

variable {service A} {B : App} {st st' : HandlerStage} {a : HandlerAct}

theorem HandlerMove.sessionOr404 {r : SessionRequest} {session : Str} (hr : r.Reads session) :
    HandlerMove service A r .arrived a A (A.sessionOr404 session .found) := by
  unfold App.sessionOr404
  split
  · rename_i hmem
    exact .found hr hmem
  · rename_i hout
    exact .miss hr.session (Or.inl rfl) (Or.inl hout)

theorem HandlerMove.managerOr404 {r : SessionRequest} {session : Str} {next : HandlerStage}
    (hsession : r.session = some session) (hst : st = .arrived ∨ st = .found)
    (hnext : session ∈ A.managers → HandlerMove service A r st a A next) :
    HandlerMove service A r st a A (A.managerOr404 session next) := by
  unfold App.managerOr404
  split
  · rename_i hmem
    exact hnext hmem
  · rename_i hout
    exact .miss hsession hst (Or.inr hout)

/-- A body that is refused is answered with an error of its own. -/
theorem readSubmission_error {repr : Str → String} {content : Option JsonValue}
    {reply : SessionReply} (h : readSubmission repr content = .error reply) :
    ∃ statusCode detail, reply = .error statusCode detail ∧ statusCode ≠ 404 := by
  unfold readSubmission at h
  split at h
  · cases h
    exact ⟨_, _, rfl, by decide⟩
  · split at h
    · split at h
      · cases h
      · cases h
        exact SessionReply.unprocessable_eq _
      · cases h
        exact ⟨_, _, rfl, by decide⟩
    · cases h
      exact ⟨_, _, rfl, by decide⟩

theorem App.mem_jobs_insertJob {session other : Str} {i k : Nat} :
    k ∈ (A.insertJob session i).jobs other ↔ k ∈ A.jobs other ∨ other = session ∧ k = i := by
  show k ∈ Function.update A.jobs session (A.jobs session ++ [i]) other ↔ _
  by_cases hother : other = session
  · subst hother
    simp
  · simp [hother]

/-- What `manager.get` finds is a job of the table with this id. -/
theorem App.find_eq_some {session job : Str} {i : Nat} (h : A.find session job = some i) :
    i ∈ A.jobs session ∧ ∃ req j, A.server.jobAt i = some (req, j) ∧ req.token = job := by
  unfold App.find at h
  refine ⟨List.mem_of_find?_eq_some h, ?_⟩
  have hany := List.find?_some h
  cases hjob : A.server.jobAt i with
  | none => simp [hjob] at hany
  | some x => exact ⟨x.1, x.2, rfl, by simpa [hjob] using hany⟩

theorem createSession_move (h : A.createSession st a = some (B, st')) :
    HandlerMove service A .createSession st a B st' := by
  unfold App.createSession at h
  split at h
  · cases h
    exact .create
  · cases h
    exact .manage
  · cases h

theorem deleteSession_move {session : Str}
    (h : A.deleteSession service session st a = some (B, st')) :
    HandlerMove service A (.deleteSession session) st a B st' := by
  unfold App.deleteSession at h
  split at h
  · split at h
    · rename_i hmem
      cases h
      exact .drop hmem
    · rename_i hout
      cases h
      exact .miss rfl (Or.inl rfl) (Or.inl hout)
  · split at h
    · rename_i hmem
      cases h
      exact .pop hmem
    · rename_i hmem
      cases h
      exact .unmanaged hmem
  · cases h
    exact .snapshot
  · cases h
    exact .stopped
  -- `shutdown` looks at the next job of its copy
  · obtain ⟨⟨req, j⟩, hjob, heq⟩ := Option.map_eq_some_iff.mp h
    by_cases hterminal : j.status.isTerminal = true
    · rw [if_pos hterminal] at heq
      cases heq
      exact .skip hjob hterminal
    · rw [if_neg hterminal] at heq
      cases heq
      exact .see
  -- and sets its flag
  · obtain ⟨C, hC, heq⟩ := Option.map_eq_some_iff.mp h
    obtain ⟨P, hP, rfl⟩ := A.act_eq_some service hC
    cases heq
    exact .mark hP
  · cases h

theorem uploadPayload_move {session : Str} {type : String}
    (h : A.uploadPayload service session type st a = some (B, st')) :
    HandlerMove service A (.uploadPayload session type) st a B st' := by
  unfold App.uploadPayload at h
  split at h
  · cases h
    exact .sessionOr404 .upload
  · split at h
    · cases h
      exact .rejectData (by decide)
    · rename_i hne
      cases h
      exact .upload hne
  · obtain ⟨C, hC, heq⟩ := Option.map_eq_some_iff.mp h
    obtain ⟨P, hP, rfl⟩ := A.act_eq_some service hC
    cases heq
    exact .store hP
  · cases h

theorem downloadPayload_move {session payload : Str}
    (h : A.downloadPayload service session payload st a = some (B, st')) :
    HandlerMove service A (.downloadPayload session payload) st a B st' := by
  unfold App.downloadPayload at h
  split at h
  · cases h
    exact .sessionOr404 .download
  · split at h
    · rename_i p hp
      cases h
      cases hheader : service.headerOk p.type with
      | true =>
          rw [App.served_of_true service hheader]
          exact .download hp hheader
      | false =>
          rw [App.served_of_false service hheader]
          exact .unsent hp hheader
    · rename_i hnone
      cases h
      exact .noPayload hnone
  · cases h

theorem submitJob_move {session : Str} (h : A.submitJob service session st a = some (B, st')) :
    HandlerMove service A (.submitJob session) st a B st' := by
  unfold App.submitJob at h
  split at h
  · cases h
    exact .sessionOr404 .submit
  · cases h
    exact .managerOr404 rfl (Or.inr rfl) .hold
  · split at h
    · rename_i graph draft hread
      cases h
      exact .submit hread
    · rename_i reply hread
      cases h
      obtain ⟨statusCode, detail, rfl, hne⟩ := readSubmission_error hread
      exact .rejectBody hne
  -- the graph is validated, and the job refused or inserted
  · obtain ⟨C, hC, h⟩ := Option.bind_eq_some_iff.mp h
    obtain ⟨P, hP, rfl⟩ := A.act_eq_some service hC
    obtain ⟨⟨req, j⟩, hjob, h⟩ := Option.bind_eq_some_iff.mp h
    split at h
    · rename_i errors hst
      cases h
      obtain ⟨statusCode, detail, hreply, hne⟩ :=
        SessionReply.unprocessable_eq (errors.map (GraphError.message service.repr))
      rw [hreply]
      exact .refuse hP hjob hst hne
    · rename_i hst
      cases h
      exact .insert hP hjob hst
    · cases h
  -- its thread is started
  · obtain ⟨C, hC, heq⟩ := Option.map_eq_some_iff.mp h
    obtain ⟨P, hP, rfl⟩ := A.act_eq_some service hC
    cases heq
    exact .start hP
  · obtain ⟨⟨req, j⟩, hjob, heq⟩ := Option.map_eq_some_iff.mp h
    cases heq
    exact .submitted hjob
  · cases h

theorem getJob_move {session job : Str} (h : A.getJob session job st a = some (B, st')) :
    HandlerMove service A (.getJob session job) st a B st' := by
  unfold App.getJob at h
  split at h
  · cases h
    exact .managerOr404 rfl (Or.inl rfl) (.seek (Or.inl rfl))
  · split at h
    · rename_i x hx
      obtain ⟨i, hi, hjob⟩ := Option.bind_eq_some_iff.mp hx
      cases h
      -- the document is encoded, or the encoding raises
      cases htext : (Json.obj (x.2.toJson job)).isText with
      | true =>
          rw [SessionReply.ofDocument_of_true htext]
          exact .document hi hjob htext
      | false =>
          rw [SessionReply.ofDocument_of_false htext]
          exact .unencoded hi hjob htext
    · rename_i hnone
      cases h
      refine .noJob (Or.inl rfl) ?_
      -- there is no such job in the table
      cases hfind : A.find session job with
      | none => rfl
      | some i =>
          obtain ⟨-, req, j, hjob, -⟩ := App.find_eq_some hfind
          rw [hfind, Option.bind_some, hjob] at hnone
          cases hnone
  · cases h

theorem cancelJob_move {session job : Str}
    (h : A.cancelJob service session job st a = some (B, st')) :
    HandlerMove service A (.cancelJob session job) st a B st' := by
  unfold App.cancelJob at h
  split at h
  · cases h
    exact .managerOr404 rfl (Or.inl rfl) (.seek (Or.inr rfl))
  · split at h
    · rename_i hfind
      cases h
      exact .aim hfind
    · rename_i hnone
      cases h
      exact .noJob (Or.inr rfl) hnone
  · obtain ⟨C, hC, heq⟩ := Option.map_eq_some_iff.mp h
    obtain ⟨P, hP, rfl⟩ := A.act_eq_some service hC
    cases heq
    exact .cancel hP
  · cases h

theorem events_move {session : Str} (h : A.events session st a = some (B, st')) :
    HandlerMove service A (.events session) st a B st' := by
  unfold App.events at h
  split at h
  · cases h
    exact .managerOr404 rfl (Or.inl rfl) .stream
  · cases h

/-- A step of a handler is one of these. -/
theorem handlerStep_move {r : SessionRequest} (h : A.handlerStep service r st a = some (B, st')) :
    HandlerMove service A r st a B st' := by
  cases r with
  | createSession => exact createSession_move h
  | deleteSession => exact deleteSession_move h
  | uploadPayload => exact uploadPayload_move h
  | downloadPayload => exact downloadPayload_move h
  | submitJob => exact submitJob_move h
  | getJob => exact getJob_move h
  | cancelJob => exact cancelJob_move h
  | events => exact events_move h

end Moves

end Formshift
