/-
Formshift/Jobs.lean

`JobManager.submit` and `JobManager._run` (`jobs.py`), and all that goes on in
a server at once.

A job is the handler that validates its graph and inserts it, then its own
thread, which runs `execute_graph` with the callbacks that write the event log.
`jobStep` interleaves the job thread, the threads of its pool and the gate; it
works on the result cache and on the session as they stand at that step.  A
server is a pool of such jobs and of payload uploads on one cache and many
sessions (`ServerReaches`).  To one job a run of the server is a run of its own
with the rest of the world interfering (`job_view`).
-/
import Formshift.Gate
import Formshift.Validation
import Formshift.Progress

namespace Formshift

open Py Steps

/-! ### Jobs -/

/-- What the jobs of a server share and nobody changes: in a run of the server the
registry is fixed, and what installs do to it is told in `Installs`. -/
structure Service where
  host : Host
  registry : ModuleRegistry
  workers : Option Int
  repr : Str → String
  /-- The text can be sent as a header: it is Latin-1, and the HTTP server takes it. -/
  headerOk : Str → Bool

/-- A request to submit a job, its body parsed; `token` is the id the job gets. -/
structure JobRequest where
  token : Str
  session : Str
  graph : Graph
  draft : Bool

/-- The arguments of `execute_graph` while the session stands like this. -/
def JobRequest.call (service : Service) (req : JobRequest) (session : Session) : Call where
  graph := req.graph
  registry := service.registry
  session := session
  draft := req.draft
  workers := service.workers

/-- How a job ends. -/
inductive Outcome where
  | completed
  | failed (error : Str)
  | cancelled
  deriving DecidableEq

namespace Outcome

def status : Outcome → JobStatus
  | completed => .completed
  | failed _ => .failed
  | cancelled => .cancelled

/-- The last event of a job. -/
def event : Outcome → EventBody
  | completed => .jobCompleted
  | failed error => .jobFailed error
  | cancelled => .jobCancelled

/-- `job.error`. -/
def error : Outcome → Option Str
  | failed error => some error
  | completed | cancelled => none

end Outcome

/-- `str` of the `KeyError` or `AssertionError`. -/
def Fault.text (repr : Str → String) : Fault → String
  | .assertAcyclic | .assertModule _ => ""
  | .dependencies key | .dependents key | .remainingDeps key | .nodesById key | .payloads key
  | .nodeKeys key | .nodeResults key | .results key | .declared key => repr key
  | .edgeInto node port | .emittedOutputs node port => "(" ++ repr node ++ ", " ++ repr port ++ ")"

/-- What the `except` clauses of `_run` make of an exception. -/
def Exn.outcome (repr : Str → String) : Exn → Outcome
  | .cancelled => .cancelled
  | .module (.moduleError message) => .failed message
  | .contract e => .failed (e.message repr)
  | .module (.exception text) => .failed ("internal error: " ++ text)
  | .invalid errors =>
      .failed ("internal error: " ++ Str.intercalate "; " (errors.map (GraphError.message repr)))
  | .fault f => .failed ("internal error: " ++ f.text repr)

/-- Where the handler that submits, and then the job thread, stands. -/
inductive JobStage where
  /-- `submit_job` is about to validate the graph. -/
  | validating
  | refused (errors : List GraphError)
  /-- In the table of jobs, the pending status to be announced. -/
  | inserted
  /-- The job thread has been started. -/
  | spawned
  /-- The status is `running`, to be announced. -/
  | marked
  | grouping
  /-- A lookup failed outside the `try` block and ended the thread. -/
  | stuck (fault : GroupFault)
  | entering (groups : Groups)
  | executing (groups : Groups) (s : ExecState)
  /-- `execute_graph` has ended and `job.error` is set. -/
  | ended (outcome : Outcome)
  /-- The last status is set, to be announced. -/
  | closing (outcome : Outcome)
  /-- The last event is to be appended. -/
  | announcing (outcome : Outcome)
  | done (outcome : Outcome)

structure JobState where
  stage : JobStage
  status : JobStatus
  error : Option Str
  cancel : Bool
  gate : GateState

namespace JobState

/-- Before the graph is validated. -/
def init : JobState := ⟨.validating, .pending, none, false, .init⟩

/-- `job.outputs`. -/
def outputs (j : JobState) : List OutputRecord := j.gate.outputs

end JobState

/-- The job is in the table of jobs. -/
def JobStage.isJob : JobStage → Bool
  | .validating | .refused _ => false
  | _ => true

/-- The cancel event, as `execute_graph` sees it. -/
def JobStage.setCancel : JobStage → JobStage
  | .executing groups s => .executing groups { s with cancel := true }
  | stage => stage

inductive JobAct where
  /-- The handler, or the job thread outside `execute_graph`, goes on. -/
  | advance
  /-- A step of `execute_graph`. -/
  | exec (a : Act)
  /-- A step of a call of `on_output`; the thread is the future that calls. -/
  | gate (a : GateAct)
  /-- Somebody sets the cancel event of the job. -/
  | cancel

/-- What a job works on: the result cache, its session and the session's log. -/
abbrev Desk := ResultCache × SessionState

section Step

variable (service : Service) (req : JobRequest)

/-- `execute_graph` in its first state; the cancel event may be set already. -/
def entered (k : Desk) (j : JobState) : ExecState :=
  { enter (req.call service k.2.session) with cancel := j.cancel }

/-- The handler and the job thread outside `execute_graph`. -/
def advance (k : Desk) (j : JobState) : Option (Desk × JobState) :=
  let log (body : EventBody) : Desk := (k.1, k.2.log req.token body)
  match j.stage with
  | .validating =>
    match validateGraph req.graph service.registry k.2.session with
    | [] => some (k, { j with stage := .inserted })
    | errors => some (k, { j with stage := .refused errors })
  | .inserted => some (log (.jobStatus .pending), { j with stage := .spawned })
  | .spawned => some (k, { j with stage := .marked, status := .running })
  | .marked => some (log (.jobStatus .running), { j with stage := .grouping })
  | .grouping =>
    match buildGroups req.graph with
    | .ok groups => some (k, { j with stage := .entering groups })
    | .error fault => some (k, { j with stage := .stuck fault })
  | .entering groups =>
    some (k, { j with stage := .executing groups (entered service req k j) })
  | .executing _ s =>
    match s.phase with
    | .returned _ => some (k, { j with stage := .ended .completed })
    | .raised e =>
      some (k, { j with
        stage := .ended (e.outcome service.repr)
        error := (e.outcome service.repr).error })
    | _ => none
  | .ended outcome => some (k, { j with stage := .closing outcome, status := outcome.status })
  | .closing outcome =>
    some (log (.jobStatus outcome.status), { j with stage := .announcing outcome })
  | .announcing outcome => some (log outcome.event, { j with stage := .done outcome })
  | .refused _ | .stuck _ | .done _ => none

/-- `on_node` is called where a worker notifies, and a call of `on_output`
ends where it goes on. -/
def execStep (k : Desk) (j : JobState) (groups : Groups) (s : ExecState) (a : Act) :
    Option (Desk × JobState) :=
  match step service.host (req.call service k.2.session) (k.1, s) a with
  | none => none
  | some (cache, s') =>
    match a with
    | .cancel => none
    | .worker i .notify =>
      match s.futures[i]? with
      | some ⟨node, .notifying _ cached, _⟩ =>
        some ((cache, k.2.log req.token (.nodeCompleted node cached)),
          { j with stage := .executing groups s' })
      | _ => none
    | .worker i .emitted =>
      (gateStep groups req.token (k.2, j.gate) (.ret i)).map fun y =>
        ((cache, y.1), { j with stage := .executing groups s', gate := y.2 })
    | _ => some ((cache, k.2), { j with stage := .executing groups s' })

/-- The output a future is calling `on_output` with. -/
def ExecState.calling (s : ExecState) (t : Nat) : Option ExecutionOutput :=
  (s.futures[t]?).bind fun f =>
    match f.stage with
    | .calling _ output _ => some output
    | _ => none

/-- The steps inside a call of `on_output`. -/
def outputStep (k : Desk) (j : JobState) (groups : Groups) (s : ExecState) (a : GateAct) :
    Option (Desk × JobState) :=
  let go := (gateStep groups req.token (k.2, j.gate) a).map fun y =>
    ((k.1, y.1), { j with gate := y.2 })
  match a with
  | .call t output => if s.calling t = some output then go else none
  | .ret _ => none
  | _ => go

def jobStep (x : Desk × JobState) : JobAct → Option (Desk × JobState)
  | .advance => advance service req x.1 x.2
  | .exec a =>
    match x.2.stage with
    | .executing groups s => execStep service req x.1 x.2 groups s a
    | _ => none
  | .gate a =>
    match x.2.stage with
    | .executing groups s => outputStep req x.1 x.2 groups s a
    | _ => none
  | .cancel =>
    if x.2.stage.isJob then
      some (x.1, { x.2 with stage := x.2.stage.setCancel, cancel := true })
    else none

/-- Modules behave as `beh` says, and payload ids are new. -/
def JobOk (beh : Behaviour) (x : Desk × JobState) : JobAct → Prop
  | .exec a => ∀ groups s, x.2.stage = .executing groups s →
      Permits beh (req.call service x.1.2.session) (x.1.1, s) a
  | .gate (.add _ id) => id ∉ x.1.2.session.payloads
  | _ => True

/-- What others do meanwhile: anything to the cache, and to the session what
leaves the events of this job alone. -/
def Elsewhere (job : Str) (k k' : Desk) : Prop := k.2.Interferes job k'.2

/-- A step of the job, or of the rest of the world. -/
def JobSteps (beh : Behaviour) : Desk × JobState → Desk × JobState → Prop :=
  Among (jobStep service) (fun req => JobOk service req beh) (Elsewhere req.token) req

/-- An action of `execute_graph` that calls neither callback. -/
def Act.isPlain : Act → Bool
  | .cancel | .worker _ .notify | .worker _ .emitted => false
  | _ => true

/-- What a step of a job can do. -/
inductive JobMove (x : Desk × JobState) : JobAct → Desk × JobState → Prop
  | refuse {errors} (hst : x.2.stage = .validating)
      (herrors : validateGraph req.graph service.registry x.1.2.session = errors)
      (hne : errors ≠ []) : JobMove x .advance (x.1, { x.2 with stage := .refused errors })
  | accept (hst : x.2.stage = .validating)
      (hvalid : validateGraph req.graph service.registry x.1.2.session = []) :
      JobMove x .advance (x.1, { x.2 with stage := .inserted })
  | announcePending (hst : x.2.stage = .inserted) :
      JobMove x .advance
        ((x.1.1, x.1.2.log req.token (.jobStatus .pending)), { x.2 with stage := .spawned })
  | mark (hst : x.2.stage = .spawned) :
      JobMove x .advance (x.1, { x.2 with stage := .marked, status := .running })
  | announceRunning (hst : x.2.stage = .marked) :
      JobMove x .advance
        ((x.1.1, x.1.2.log req.token (.jobStatus .running)), { x.2 with stage := .grouping })
  | group {groups} (hst : x.2.stage = .grouping) (hgroups : buildGroups req.graph = .ok groups) :
      JobMove x .advance (x.1, { x.2 with stage := .entering groups })
  | stuck {fault} (hst : x.2.stage = .grouping) (hfault : buildGroups req.graph = .error fault) :
      JobMove x .advance (x.1, { x.2 with stage := .stuck fault })
  | enter {groups} (hst : x.2.stage = .entering groups) :
      JobMove x .advance
        (x.1, { x.2 with stage := .executing groups (entered service req x.1 x.2) })
  | returned {groups s report} (hst : x.2.stage = .executing groups s)
      (hp : s.phase = .returned report) :
      JobMove x .advance (x.1, { x.2 with stage := .ended .completed })
  | raised {groups s e} (hst : x.2.stage = .executing groups s) (hp : s.phase = .raised e) :
      JobMove x .advance (x.1, { x.2 with
        stage := .ended (e.outcome service.repr)
        error := (e.outcome service.repr).error })
  | close {outcome} (hst : x.2.stage = .ended outcome) :
      JobMove x .advance (x.1, { x.2 with stage := .closing outcome, status := outcome.status })
  | announceStatus {outcome} (hst : x.2.stage = .closing outcome) :
      JobMove x .advance ((x.1.1, x.1.2.log req.token (.jobStatus outcome.status)),
        { x.2 with stage := .announcing outcome })
  | announceEnd {outcome} (hst : x.2.stage = .announcing outcome) :
      JobMove x .advance
        ((x.1.1, x.1.2.log req.token outcome.event), { x.2 with stage := .done outcome })
  | exec {groups s a cache s'} (hst : x.2.stage = .executing groups s) (hplain : a.isPlain = true)
      (hs : step service.host (req.call service x.1.2.session) (x.1.1, s) a = some (cache, s')) :
      JobMove x (.exec a) ((cache, x.1.2), { x.2 with stage := .executing groups s' })
  | notify {groups s i f results cached cache s'} (hst : x.2.stage = .executing groups s)
      (hf : s.futures[i]? = some f) (hnote : f.stage = .notifying results cached)
      (hs : step service.host (req.call service x.1.2.session) (x.1.1, s) (.worker i .notify) =
        some (cache, s')) :
      JobMove x (.exec (.worker i .notify))
        ((cache, x.1.2.log req.token (.nodeCompleted f.node cached)),
          { x.2 with stage := .executing groups s' })
  | emitted {groups s i cache s' y} (hst : x.2.stage = .executing groups s)
      (hs : step service.host (req.call service x.1.2.session) (x.1.1, s) (.worker i .emitted) =
        some (cache, s'))
      (hret : gateStep groups req.token (x.1.2, x.2.gate) (.ret i) = some y) :
      JobMove x (.exec (.worker i .emitted))
        ((cache, y.1), { x.2 with stage := .executing groups s', gate := y.2 })
  | gate {groups s a y} (hst : x.2.stage = .executing groups s)
      (hcall : ∀ t output, a = .call t output → s.calling t = some output)
      (hnret : ∀ t, a ≠ .ret t) (hs : gateStep groups req.token (x.1.2, x.2.gate) a = some y) :
      JobMove x (.gate a) ((x.1.1, y.1), { x.2 with gate := y.2 })
  | cancel (hjob : x.2.stage.isJob = true) :
      JobMove x .cancel (x.1, { x.2 with stage := x.2.stage.setCancel, cancel := true })

theorem advance_move {x y : Desk × JobState} (h : advance service req x.1 x.2 = some y) :
    JobMove service req x .advance y := by
  unfold advance at h
  split at h
  · rename_i hst
    split at h
    · rename_i hvalid
      obtain rfl := Option.some.inj h
      exact .accept hst hvalid
    · rename_i hne
      obtain rfl := Option.some.inj h
      exact .refuse hst rfl hne
  · rename_i hst
    obtain rfl := Option.some.inj h
    exact .announcePending hst
  · rename_i hst
    obtain rfl := Option.some.inj h
    exact .mark hst
  · rename_i hst
    obtain rfl := Option.some.inj h
    exact .announceRunning hst
  · rename_i hst
    split at h
    · rename_i groups hgroups
      obtain rfl := Option.some.inj h
      exact .group hst hgroups
    · rename_i fault hfault
      obtain rfl := Option.some.inj h
      exact .stuck hst hfault
  · rename_i groups hst
    obtain rfl := Option.some.inj h
    exact .enter hst
  -- `execute_graph` has returned or raised
  · rename_i groups s hst
    split at h
    · rename_i report hp
      obtain rfl := Option.some.inj h
      exact .returned hst hp
    · rename_i e hp
      obtain rfl := Option.some.inj h
      exact .raised hst hp
    · cases h
  · rename_i outcome hst
    obtain rfl := Option.some.inj h
    exact .close hst
  · rename_i outcome hst
    obtain rfl := Option.some.inj h
    exact .announceStatus hst
  · rename_i outcome hst
    obtain rfl := Option.some.inj h
    exact .announceEnd hst
  · cases h
  · cases h
  · cases h

theorem execStep_move {x y : Desk × JobState} {groups : Groups} {s : ExecState} {a : Act}
    (hst : x.2.stage = .executing groups s)
    (h : execStep service req x.1 x.2 groups s a = some y) : JobMove service req x (.exec a) y := by
  unfold execStep at h
  split at h
  · cases h
  · rename_i cache s' hs
    split at h
    · cases h
    · split at h
      · rename_i hf
        obtain rfl := Option.some.inj h
        exact .notify hst hf rfl hs
      · cases h
    · obtain ⟨z, hz, rfl⟩ := Option.map_eq_some_iff.mp h
      exact .emitted hst hs hz
    -- the other steps are not seen from outside
    · rename_i hcancel hnotify hemitted
      obtain rfl := Option.some.inj h
      refine .exec hst ?_ hs
      cases a with
      | cancel => exact absurd rfl hcancel
      | worker i w =>
          cases w with
          | notify => exact absurd rfl (hnotify i)
          | emitted => exact absurd rfl (hemitted i)
          | start | lookup | ret | check | put | record | emit | finish => rfl
      | loop | submit | wait | process | join => rfl

theorem outputStep_move {x y : Desk × JobState} {groups : Groups} {s : ExecState} {a : GateAct}
    (hst : x.2.stage = .executing groups s)
    (h : outputStep req x.1 x.2 groups s a = some y) : JobMove service req x (.gate a) y := by
  have hgo : (∀ t output, a = .call t output → s.calling t = some output) → (∀ t, a ≠ .ret t) →
      (gateStep groups req.token (x.1.2, x.2.gate) a).map
        (fun z => ((x.1.1, z.1), { x.2 with gate := z.2 })) = some y →
      JobMove service req x (.gate a) y := by
    intro hcall hret hmap
    obtain ⟨z, hz, rfl⟩ := Option.map_eq_some_iff.mp hmap
    exact .gate hst hcall hret hz
  cases a with
  | call t output =>
      simp only [outputStep] at h
      split at h
      · rename_i hcalling
        refine hgo ?_ (by simp) h
        rintro t' output' heq
        obtain ⟨rfl, rfl⟩ := GateAct.call.inj heq
        exact hcalling
      · cases h
  | ret t => cases h
  | add | record | announce | flush => exact hgo (by simp) (by simp) h

/-- A step of a job is one of these. -/
theorem jobStep_move {x y : Desk × JobState} {a : JobAct} (h : jobStep service req x a = some y) :
    JobMove service req x a y := by
  cases a with
  | advance => exact advance_move service req h
  | exec a =>
      simp only [jobStep] at h
      split at h
      · rename_i hst
        exact execStep_move service req hst h
      · cases h
  | gate a =>
      simp only [jobStep] at h
      split at h
      · rename_i hst
        exact outputStep_move service req hst h
      · cases h
  | cancel =>
      simp only [jobStep] at h
      split at h
      · rename_i hjob
        obtain rfl := Option.some.inj h
        exact .cancel hjob
      · cases h

end Step

/-! ### Validated graphs -/

/-- **A validated graph never faults the engine**: whatever is in a cache the
engine has filled, a call ends otherwise than with a report only by what a
module raised, a broken contract or the cancellation, and `_run` finds the
group of every output. -/
theorem validated_graphs_never_fault (host : Host) (hinj : Function.Injective host.blake2b)
    (reg : ModuleRegistry) (beh : Behaviour) {E : Engine}
    (hrun : EngineReaches host (fun call => call.registry = reg) beh Engine.empty E) (call : Call)
    (s : ExecState) (hmem : (call, s) ∈ E.members)
    (hvalid : validateGraph call.graph call.registry call.session = []) :
    (∀ e, s.phase = .raised e → e.Expected beh) ∧
      (∀ f ∈ s.futures, ∀ e, f.stage = .failed e → e.Expected beh) ∧
      ∃ groups, buildGroups call.graph = .ok groups := by
  have hw : call.Valid := validateGraph_nil_iff.mp hvalid
  have hraises := engine_raises hinj reg beh hrun call s hmem hw
  obtain ⟨groups, hgroups, -⟩ := buildGroups_ok hw
  exact ⟨hraises.raised, hraises.futures, groups, hgroups⟩

/-- The source's module raises. -/
def raisingActs : List Act :=
  [.loop, .submit, .submit, .worker 0 .start, .worker 0 .lookup,
    .worker 0 (.ret (.error (.exception "boom"))), .wait [0], .process [], .join]

/-- The exception a call has raised. -/
def Phase.exception : Phase → Option Exn
  | .raised e => some e
  | _ => none

theorem Phase.exception_eq_some {p : Phase} {e : Exn} (h : p.exception = some e) :
    p = .raised e := by
  cases p with
  | raised e' => rw [Option.some.inj h]
  | head | submitting | waiting | processing | draining | returned => cases h

theorem validated_graphs_never_fault_raising : ∃ (E : Engine) (s : ExecState),
    EngineReaches sampleHost (fun call => call.registry = sampleRegistry) anyBehaviour Engine.empty
      E ∧ (chainCall, s) ∈ E.members ∧ s.phase = .raised (.module (.exception "boom")) ∧
      (Exn.module (.exception "boom")).Expected anyBehaviour ∧
      ∃ groups, buildGroups chainCall.graph = .ok groups := by
  have hcheck : (runActs (step sampleHost chainCall) raisingActs (∅, enter chainCall)).bind
      (fun x => x.2.phase.exception) = some (.module (.exception "boom")) := by
    decide +kernel
  obtain ⟨x, hx, hraised⟩ := Option.bind_eq_some_iff.mp hcheck
  have hphase := Phase.exception_eq_some hraised
  have hrun : EngineReaches sampleHost (fun call => call.registry = sampleRegistry) anyBehaviour
      Engine.empty ⟨x.1, [(chainCall, x.2)]⟩ :=
    engineReaches_of_call (S := fun call => call.registry = sampleRegistry) rfl
      (reaches_of_runActs (permits_any _) hx)
  obtain ⟨hexpected, -, hgroups⟩ := validated_graphs_never_fault sampleHost sampleHost_injective
    sampleRegistry anyBehaviour hrun chainCall x.2 List.mem_cons_self (by decide +kernel)
  exact ⟨_, x.2, hrun, List.mem_cons_self, hphase, hexpected _ hphase, hgroups⟩

end Formshift
