/-
Formshift/Workers.lean

`ExtensionWorker.request` and the process behind it (`extensions.py`,
`extension_runner.py`).

A process reads request lines and writes one answer line for each, character by
character, and may die at any point; a process that hangs takes no more steps.
A kill takes effect by the death of the process, a step of its own.  A child it
has forked may outlive it and keep its ends of the pipes, saying nothing: until
that child is gone there is no end of file to read.  Calls of
`request` take turns under the lock, each with a timer thread of its own that
may have passed its last check when it is cancelled.  `poll` may not have seen
a death yet, so a process that is gone can be chosen once more.

`replies`, `line` and `kills` are history and are read by no step.
-/
import Formshift.Modules
import Formshift.Lib.JsonPrefix
import Formshift.Lib.Steps
import Formshift.Lib.Text

namespace Formshift

open Py Steps

/-! ### Answers -/

/-- One line that reads as this object.  The text mode of the pipe ends a line
at either break. -/
def Answers (text : Text) (v : Json) : Prop :=
  '\n' ∉ text ∧ '\r' ∉ text ∧ (∃ fields, v = .obj fields) ∧ Json.loads text = some v

/-- What `serve` answers: the outputs as port, type and base64 text, or the
text of an exception. -/
inductive ServeResponse where
  | outputs (ports : List (Str × Str × String))
  | error (text : Str)

/-- `response` in `serve`. -/
def ServeResponse.json : ServeResponse → Json
  | .outputs ports => .obj [("ok", .bool true), ("outputs", .obj (ports.map fun port =>
      (port.1, .obj [("type", .str port.2.1), ("data", .str port.2.2)])))]
  | .error text => .obj [("ok", .bool false), ("error", .str text)]

/-! ### The process -/

structure Process where
  alive : Bool
  /-- A child that has outlived it holds the pipes. -/
  held : Bool
  /-- WorkerRequest lines it has not read: whose they are, and what they say. -/
  stdin : List (Nat × Json)
  /-- What is left to write of the line it is at. -/
  todo : Text
  /-- Written and not read by the server. -/
  stdout : Text
  replies : List (Nat × Text)

inductive ProcessAct where
  /-- Read a line; this will be the answer. -/
  | take (answer : Text)
  | write
  /-- A child may be left behind. -/
  | die (child : Bool)
  /-- The child that was left behind ends. -/
  | letGo

namespace Process

def start : Process := ⟨true, false, [], [], [], []⟩

/-- The other ends of the pipes are open. -/
def connected (pr : Process) : Bool := pr.alive || pr.held

def step (pr : Process) : ProcessAct → Option Process
  | .take answer =>
    match pr.alive, pr.todo, pr.stdin with
    | true, [], (i, _) :: rest => some { pr with
        stdin := rest
        todo := answer ++ ['\n']
        replies := pr.replies ++ [(i, answer)] }
    | _, _, _ => none
  | .write =>
    match pr.alive, pr.todo with
    | true, c :: rest => some { pr with
        todo := rest
        stdout := pr.stdout ++ [c] }
    | _, _ => none
  | .die child =>
    if pr.alive then some { pr with
      alive := false
      held := child }
    else none
  | .letGo => if !pr.alive && pr.held then some { pr with held := false } else none

/-- The first line, with its break, and what follows. -/
def cutLine : Text → Option (Text × Text)
  | [] => none
  | c :: cs => if c = '\n' then some ([c], cs) else (cutLine cs).map fun x => (c :: x.1, x.2)

/-- `stdout.readline()`: a line, or what there is when the other end is closed. -/
def readline (pr : Process) : Option (Text × Process) :=
  match cutLine pr.stdout with
  | some (line, rest) => some (line, { pr with stdout := rest })
  | none => if pr.connected then none else some (pr.stdout, { pr with stdout := [] })

end Process

/-! ### Calls of `request` -/

/-- Why `request` raises; each is a `ModuleError`. -/
inductive WorkerError where
  | startFailed (text : Str)
  | pipeFailed (text : Str)
  | timedOut
  | exited (code : Option Int)
  | invalidOutput
  deriving DecidableEq

/-- The text of the `ModuleError`. -/
def WorkerError.message (repr : Str → String) (extension context timeout : String) :
    WorkerError → Str
  | .startFailed text => "failed to start worker for extension " ++ repr extension ++ ": " ++ text
  | .pipeFailed text => context ++ ": worker pipe failed: " ++ text
  | .timedOut => context ++ ": timed out after " ++ timeout ++ "s"
  | .exited code => context ++ ": worker exited with " ++ (code.map Int.repr).getD "None"
  | .invalidOutput => context ++ ": worker returned invalid output"

inductive RequestStage where
  | waiting
  /-- The lock is held. -/
  | entered
  /-- `_ensure_started` has returned this process. -/
  | chosen (p : Nat)
  /-- The watchdog has been started. -/
  | armed (p : Nat)
  /-- The line is written and flushed. -/
  | sent (p : Nat)
  | received (p : Nat) (line : Text)
  /-- The watchdog has been cancelled. -/
  | settled (p : Nat) (line : Text)
  /-- About to call `stop`. -/
  | failing (e : WorkerError)
  /-- In `stop`, which has taken this process. -/
  | stopping (q : Option Nat) (e : WorkerError)
  | returned (result : Except WorkerError Json)

/-- The timer thread. -/
inductive Watchdog where
  | idle
  | running
  /-- Past its wait: nothing keeps it from calling its function. -/
  | fired
  /-- `timed_out` is set; about to kill. -/
  | flagged
  | over
  deriving DecidableEq

/-- `Timer.cancel`, which is too late for a timer that has fired. -/
def Watchdog.cancel : Watchdog → Watchdog
  | .idle | .running => .over
  | t => t

structure WorkerRequest where
  payload : Json
  stage : RequestStage
  /-- The local variable `process`. -/
  process : Option Nat
  watchdog : Watchdog
  timedOut : Bool
  /-- What `readline` has returned. -/
  line : Option Text

def WorkerRequest.start (payload : Json) : WorkerRequest := ⟨payload, .waiting, none, .idle, false, none⟩

structure Worker where
  /-- `self._process`. -/
  current : Option Nat
  /-- The call that holds the lock. -/
  holder : Option Nat
  processes : List Process
  requests : List WorkerRequest
  /-- Which watchdog has killed which process. -/
  kills : List (Nat × Nat)

def Worker.start : Worker := ⟨none, none, [], [], []⟩

inductive ThreadAct where
  | acquire
  /-- `poll` has returned `None`. -/
  | reuse
  | spawn
  | spawnFails (text : Str)
  | arm
  | send
  | sendFails (text : Str)
  | receive
  | receiveFails (text : Str)
  | cancelWatchdog
  /-- Look at the line; `poll` returns this code if it is empty. -/
  | conclude (code : Option Int)
  | stop
  /-- Leave `stop`, the `try` block and the lock. -/
  | finish

inductive WatchdogAct where
  | fire
  | flag
  | kill

inductive ExtensionWorkerAct where
  | request (payload : Json)
  | thread (i : Nat) (a : ThreadAct)
  | watchdog (i : Nat) (a : WatchdogAct)
  | process (p : Nat) (a : ProcessAct)
  /-- `stop`, called by `atexit` without the lock. -/
  | exit

namespace Worker

variable (W : Worker)

def setRequest (i : Nat) (r : WorkerRequest) : Worker := { W with requests := W.requests.set i r }

def setProcess (p : Nat) (pr : Process) : Worker := { W with processes := W.processes.set p pr }

/-- The call leaves the lock. -/
def release (i : Nat) (r : WorkerRequest) (result : Except WorkerError Json) : Worker :=
  { W.setRequest i { r with stage := .returned result } with holder := none }

/-- `poll` can have seen the end of it. -/
def gone (p : Option Nat) : Bool :=
  match p.bind fun p => W.processes[p]? with
  | some pr => !pr.alive
  | none => true

end Worker

/-- What a call does next. -/
def threadStep (W : Worker) (i : Nat) (r : WorkerRequest) : ThreadAct → Option Worker
  | .acquire =>
    match r.stage, W.holder with
    | .waiting, none => some { W.setRequest i { r with stage := .entered } with holder := some i }
    | _, _ => none
  | .reuse =>
    match r.stage, W.current with
    | .entered, some p => some (W.setRequest i { r with
        stage := .chosen p
        process := some p })
    | _, _ => none
  | .spawn =>
    match r.stage, W.gone W.current with
    | .entered, true => some { W.setRequest i { r with
          stage := .chosen W.processes.length
          process := some W.processes.length } with
        processes := W.processes ++ [.start]
        current := some W.processes.length }
    | _, _ => none
  | .spawnFails text =>
    match r.stage, W.gone W.current with
    | .entered, true => some (W.release i r (.error (.startFailed text)))
    | _, _ => none
  | .arm =>
    match r.stage with
    | .chosen p => some (W.setRequest i { r with
        stage := .armed p
        watchdog := .running })
    | _ => none
  | .send =>
    match r.stage with
    | .armed p =>
      match W.processes[p]? with
      | some pr =>
        if pr.connected then
          some ((W.setProcess p { pr with stdin := pr.stdin ++ [(i, r.payload)] }).setRequest i
            { r with stage := .sent p })
        else none
      | none => none
    | _ => none
  | .sendFails text =>
    match r.stage with
    | .armed _ => some (W.setRequest i { r with stage := .failing (.pipeFailed text) })
    | _ => none
  | .receive =>
    match r.stage with
    | .sent p =>
      match (W.processes[p]?).bind Process.readline with
      | some (line, pr) => some ((W.setProcess p pr).setRequest i { r with
          stage := .received p line
          line := some line })
      | none => none
    | _ => none
  | .receiveFails text =>
    match r.stage with
    | .sent _ => some (W.setRequest i { r with stage := .failing (.pipeFailed text) })
    | _ => none
  | .cancelWatchdog =>
    match r.stage with
    | .received p line => some (W.setRequest i { r with
        stage := .settled p line
        watchdog := r.watchdog.cancel })
    | _ => none
  | .conclude code =>
    match r.stage with
    | .settled _ line =>
      if line = [] then some (W.setRequest i { r with stage := .failing (.exited code) })
      else
        match Json.loads line with
        | some response => some (W.release i r (.ok response))
        | none => some (W.setRequest i { r with stage := .failing .invalidOutput })
    | _ => none
  | .stop =>
    match r.stage with
    | .failing e => some { W.setRequest i { r with stage := .stopping W.current e } with
        current := none }
    | _ => none
  | .finish =>
    match r.stage with
    | .stopping q e =>
      if W.gone q then
        some (W.release i { r with watchdog := r.watchdog.cancel } (.error (match e with
          | .exited code => if r.timedOut then .timedOut else .exited code
          | e => e)))
      else none
    | _ => none

/-- What the timer thread of a call does next. -/
def watchdogStep (W : Worker) (i : Nat) (r : WorkerRequest) : WatchdogAct → Option Worker
  | .fire =>
    match r.watchdog with
    | .running => some (W.setRequest i { r with watchdog := .fired })
    | _ => none
  | .flag =>
    match r.watchdog with
    | .fired => some (W.setRequest i { r with
        watchdog := .flagged
        timedOut := true })
    | _ => none
  | .kill =>
    match r.watchdog, r.process with
    | .flagged, some p => some { W.setRequest i { r with watchdog := .over } with
        kills := W.kills ++ [(i, p)] }
    | _, _ => none

def extensionWorkerStep (W : Worker) : ExtensionWorkerAct → Option Worker
  | .request payload => some { W with requests := W.requests ++ [.start payload] }
  | .thread i a => (W.requests[i]?).bind fun r => threadStep W i r a
  | .watchdog i a => (W.requests[i]?).bind fun r => watchdogStep W i r a
  | .process p a => (W.processes[p]?).bind fun pr => (pr.step a).map (W.setProcess p)
  | .exit => some { W with current := none }

/-- A process writes one whole answer line for each line it reads. -/
def WorkerOk : ExtensionWorkerAct → Prop
  | .process _ (.take answer) => ∃ v, Answers answer v
  | _ => True

def readsObject : Option Json → Bool
  | some (.obj _) => true
  | _ => false

instance (text : Text) : Decidable (∃ v, Answers text v) :=
  decidable_of_iff ('\n' ∉ text ∧ '\r' ∉ text ∧ readsObject (Json.loads text)) <| by
    constructor
    · rintro ⟨hbreak, hreturn, hobj⟩
      unfold readsObject at hobj
      split at hobj
      · rename_i fields hloads
        exact ⟨.obj fields, hbreak, hreturn, ⟨fields, rfl⟩, hloads⟩
      · cases hobj
    · rintro ⟨v, hbreak, hreturn, ⟨fields, rfl⟩, hloads⟩
      rw [hloads]
      exact ⟨hbreak, hreturn, rfl⟩

instance : DecidablePred WorkerOk
  | .process _ (.take answer) => inferInstanceAs (Decidable (∃ v, Answers answer v))
  | .process _ .write | .process _ (.die _) | .process _ .letGo => isTrue trivial
  | .request _ | .thread _ _ | .watchdog _ _ | .exit => isTrue trivial

abbrev WorkerReaches : Worker → Worker → Prop := Reaches (Fires extensionWorkerStep fun _ => WorkerOk)

/-! ### `IsolatedModule.run` -/

inductive RunError where
  | moduleError (message : Str)
  /-- What a response provokes that `serve` never writes. -/
  | malformed
  deriving DecidableEq

section Run

variable (repr : Str → String) (b64decode : String → Bytes) (module : String)

/-- One item of `response["outputs"]`. -/
def portResult : Str × Json → Except RunError (Str × ModuleResult)
  | (port, .obj fields) =>
    match fields.lookup (.text "type"), fields.lookup (.text "data") with
    | some (.str type), some (.str (.text data)) => .ok (port, ⟨type, b64decode data⟩)
    | _, _ => .error .malformed
  | _ => .error .malformed

/-- What `run` makes of the response of `request`. -/
def runResponse : Json → Except RunError (List (Str × ModuleResult))
  | .obj fields =>
    match fields.lookup (.text "ok") with
    | some (.bool true) =>
      match fields.lookup (.text "outputs") with
      | some (.obj ports) => ports.mapM (portResult b64decode)
      | _ => .error .malformed
    | none | some .null | some (.bool false) =>
      match fields.lookup (.text "error") with
      | some (.str text) =>
        .error (.moduleError ("module " ++ repr module ++ " failed: " ++ text))
      | _ => .error .malformed
    | some _ => .error .malformed
  | _ => .error .malformed

/-- `run`, when `request` has returned or raised this. -/
def runResult (extension timeout : String) :
    Except WorkerError Json → Except RunError (List (Str × ModuleResult))
  | .ok response => runResponse repr b64decode module response
  | .error e => .error (.moduleError (e.message repr extension ("module " ++ repr module) timeout))

end Run

end Formshift
