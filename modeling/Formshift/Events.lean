/-
Formshift/Events.lean

Jobs' records and the event log of a session (`jobs.py`).

An event is kept as the call that appended it: the job it is about and its
body.  `Event.type` and `Event.data` are the two arguments `append` was given,
the data as the JSON object the source builds, fields in its order.
-/
import Formshift.Graph

namespace Formshift

open Py

/-! ### Jobs -/

inductive JobStatus where
  | pending
  | running
  | completed
  | failed
  | cancelled
  deriving DecidableEq

namespace JobStatus

def value : JobStatus → String
  | pending => "pending"
  | running => "running"
  | completed => "completed"
  | failed => "failed"
  | cancelled => "cancelled"

/-- `status in TERMINAL`. -/
def isTerminal : JobStatus → Bool
  | completed | failed | cancelled => true
  | pending | running => false

end JobStatus

/-- An entry of `job.outputs`. -/
structure OutputRecord where
  node : Str
  port : Str
  type : Str
  payload : Str
  group : Option Str
  deriving DecidableEq

def OutputRecord.key (r : OutputRecord) : Str × Str := (r.node, r.port)

def OutputRecord.fields (r : OutputRecord) : List (Str × Json) :=
  let shared : List (Str × Json) := [("node", .str r.node), ("port", .str r.port),
    ("type", .str r.type), ("payload", .str r.payload)]
  shared ++ match r.group with
  | some group => [("group", .str group)]
  | none => []

/-! ### Events -/

/-- What is appended to the log, and where. -/
inductive EventBody where
  | jobStatus (status : JobStatus)
  | nodeCompleted (node : Str) (cached : Bool)
  | jobOutput (record : OutputRecord)
  | jobCompleted
  | jobFailed (error : Str)
  | jobCancelled
  deriving DecidableEq

structure Event where
  index : Nat
  job : Str
  body : EventBody
  deriving DecidableEq

def EventBody.type : EventBody → String
  | .jobStatus _ => "job.status"
  | .nodeCompleted _ _ => "node.completed"
  | .jobOutput _ => "job.output"
  | .jobCompleted => "job.completed"
  | .jobFailed _ => "job.failed"
  | .jobCancelled => "job.cancelled"

def EventBody.data (job : Str) (body : EventBody) : Json :=
  .obj (("job", .str job) :: match body with
    | .jobStatus status => [("status", .str status.value)]
    | .nodeCompleted node cached => [("node", .str node), ("cached", .bool cached)]
    | .jobOutput record => record.fields
    | .jobFailed error => [("error", .str error)]
    | .jobCompleted | .jobCancelled => [])

/-- What is in it that a client or a module may have chosen. -/
def EventBody.strings : EventBody → List Str
  | .nodeCompleted node _ => [node]
  | .jobOutput record => record.node :: record.port :: record.type :: record.payload ::
      record.group.toList
  | .jobFailed error => [error]
  | .jobStatus _ | .jobCompleted | .jobCancelled => []

def Event.type (e : Event) : String := e.body.type

def Event.data (e : Event) : Json := e.body.data e.job

/-- The append-only log of a session. -/
abbrev EventLog := List Event

namespace EventLog

/-- `append`, under the condition's lock. -/
def append (log : EventLog) (job : Str) (body : EventBody) : EventLog :=
  log ++ [⟨log.length, job, body⟩]

/-- `since`. -/
def since (log : EventLog) (index : Nat) : List Event := log.drop index

/-- What the log says of one job. -/
def ofJob (log : EventLog) (job : Str) : List EventBody :=
  (log.filter fun e => e.job = job).map Event.body

@[simp] theorem ofJob_append_self (log : EventLog) (job : Str) (body : EventBody) :
    (log.append job body).ofJob job = log.ofJob job ++ [body] := by
  simp [append, ofJob]

@[simp] theorem ofJob_append_other {log : EventLog} {job other : Str} (h : other ≠ job)
    (body : EventBody) : (log.append other body).ofJob job = log.ofJob job := by
  simp [append, ofJob, h]

/-- Every event carries its own position. -/
def Indexed (log : EventLog) : Prop :=
  ∀ (i : Nat) (e : Event), log[i]? = some e → e.index = i

theorem Indexed.append {log : EventLog} (h : log.Indexed) (job : Str) (body : EventBody) :
    (log.append job body).Indexed := by
  intro i e he
  rcases Nat.lt_or_ge i log.length with hlt | hge
  · rw [EventLog.append, List.getElem?_append_left hlt] at he
    exact h i e he
  · rw [EventLog.append, List.getElem?_append_right hge, List.getElem?_singleton] at he
    split at he
    · rw [← Option.some.inj he]
      show log.length = i
      omega
    · cases he

end EventLog

/-- The requested outputs announced so far, in order. -/
def EventBody.output? : EventBody → Option OutputRecord
  | .jobOutput record => some record
  | _ => none

/-- The `job.output` records of a job's events. -/
def outputsOf (bodies : List EventBody) : List OutputRecord := bodies.filterMap EventBody.output?

@[simp] theorem outputsOf_append (bodies bodies' : List EventBody) :
    outputsOf (bodies ++ bodies') = outputsOf bodies ++ outputsOf bodies' :=
  List.filterMap_append

/-! ### The session a job works in -/

/-- A session and its log, as everybody who works in the session shares them. -/
structure SessionState where
  session : Session
  events : EventLog

namespace SessionState

def addPayload (x : SessionState) (id type : Str) (data : Bytes) : SessionState :=
  { x with session := x.session.addPayload id type data }

def log (x : SessionState) (job : Str) (body : EventBody) : SessionState :=
  { x with events := x.events.append job body }

@[simp] theorem events_addPayload (x : SessionState) (id type : Str) (data : Bytes) :
    (x.addPayload id type data).events = x.events := rfl

@[simp] theorem events_log (x : SessionState) (job : Str) (body : EventBody) :
    (x.log job body).events = x.events.append job body := rfl

@[simp] theorem session_log (x : SessionState) (job : Str) (body : EventBody) :
    (x.log job body).session = x.session := rfl

/-- What others do to a session leaves the events of this job alone and takes
no payload away. -/
structure Interferes (job : Str) (x y : SessionState) : Prop where
  events : y.events.ofJob job = x.events.ofJob job
  payloads : ∀ id p, x.session.payloads.lookup id = some p →
    y.session.payloads.lookup id = some p

theorem Interferes.refl {job : Str} (x : SessionState) : Interferes job x x :=
  ⟨rfl, fun _ _ => id⟩

end SessionState

end Formshift
