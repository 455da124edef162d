/-
Formshift/Executor.lean

`execute_graph` as a step function (`executor.py`).

One call is a scheduler thread, a pool of at most `maxWorkers` threads that
run `run_node`, and the dictionaries they share.  `step` takes one action of
one thread; the action names every choice that is not the program's: which
futures `wait` finds finished, in which order a set is iterated, what
`module.run` does, when the cancel event is set.  Statements that touch only
a thread's own variables are folded into the step of the shared access that
follows them.  A partial lookup of the source stays partial: where it fails
the thread raises a `Fault`.

Two fields are history and are read by no step: `processed`, the nodes whose
completion the scheduler has handled, and `Future.ran`, whether the future
has called `module.run`.
-/
import Formshift.Lib.Steps
import Formshift.Graph
import Formshift.Cache

namespace Formshift

open Py

/-! ### Reports and exceptions -/

structure ExecutionOutput where
  node : Str
  port : Str
  type : Str
  data : Bytes
  deriving DecidableEq

structure ExecutionReport where
  outputs : List ExecutionOutput
  executedNodes : Finset Str
  cachedNodes : Finset Str
  deriving DecidableEq

/-- What `module.run` may raise. -/
inductive ModuleExn where
  | moduleError (message : Str)
  | exception (text : Str)
  deriving DecidableEq

/-- A violated output contract; each is raised as a `ModuleError`. -/
inductive ContractError where
  | missing (module : Str) (ports : List Str)
  | undeclared (module : Str) (ports : List Str)
  | wrongType (module port type declared : Str)
  deriving DecidableEq

/-- The text of a contract error; `repr` is `str.__repr__`. -/
def ContractError.message (repr : Str → String) : ContractError → String
  | .missing m ports => "module " ++ repr m ++ " missing declared outputs: [" ++
      ", ".intercalate (ports.map repr) ++ "]"
  | .undeclared m ports => "module " ++ repr m ++ " returned undeclared outputs: [" ++
      ", ".intercalate (ports.map repr) ++ "]"
  | .wrongType m port type declared => "module " ++ repr m ++ " output " ++ repr port ++
      " has wrong type " ++ repr type ++ " (declared " ++ repr declared ++ ")"

/-- A failed assertion, or the key a dictionary does not have. -/
inductive Fault where
  | assertAcyclic
  | assertModule (name : Str)
  | dependencies (node : Str)
  | dependents (node : Str)
  | remainingDeps (node : Str)
  | nodesById (node : Str)
  | edgeInto (node port : Str)
  | payloads (payload : Str)
  | nodeKeys (node : Str)
  | nodeResults (node : Str)
  | results (port : Str)
  | declared (port : Str)
  | emittedOutputs (node port : Str)
  deriving DecidableEq

inductive Exn where
  | invalid (errors : List GraphError)
  | module (e : ModuleExn)
  | contract (e : ContractError)
  | cancelled
  | fault (f : Fault)
  deriving DecidableEq

/-- `d[k]`, or the fault. -/
def require {β : Type} (value : Option β) (f : Fault) : Except Fault β :=
  match value with
  | some v => .ok v
  | none => .error f

/-! ### The call -/

/-- What the engine takes from its host: the digest and the processor count. -/
structure Host where
  blake2b : Bytes → String
  cpuCount : Option Nat

/-- The arguments of one `execute_graph` call. -/
structure Call where
  graph : Graph
  registry : ModuleRegistry
  session : Session
  draft : Bool
  workers : Option Int

/-- `os.cpu_count() or 4`. -/
def defaultWorkers (host : Host) : Int :=
  match host.cpuCount with
  | none | some 0 => 4
  | some n => n

/-- `max(1, max_workers)`. -/
def maxWorkers (host : Host) (call : Call) : Nat :=
  (max 1 (call.workers.getD (defaultWorkers host))).toNat

/-! ### Threads -/

/-- The local variables of `run_node` once the cache key is computed. -/
structure NodeCall where
  node : Node
  manifest : ModuleManifest
  inputs : Dict Str Bytes
  key : String

/-- Where a submitted `run_node` stands. -/
inductive Stage where
  | queued
  | keyed (c : NodeCall)
  | running (c : NodeCall)
  | returned (c : NodeCall) (results : Results)
  | storing (c : NodeCall) (results : Results)
  | recording (c : NodeCall) (results : Results) (cached : Bool)
  | notifying (results : Results) (cached : Bool)
  | emitting (results : Results) (todo : List (Str × Str))
  | calling (results : Results) (output : ExecutionOutput) (todo : List (Str × Str))
  | finished
  | failed (e : Exn)

namespace Stage

def isQueued : Stage → Bool
  | queued => true
  | _ => false

/-- The call `module.run` is at work on. -/
def runningCall : Stage → Option NodeCall
  | running c => some c
  | _ => none

theorem runningCall_eq_some_iff {st : Stage} {c : NodeCall} :
    st.runningCall = some c ↔ st = running c := by
  cases st <;> simp [runningCall]

/-- The future is done. -/
def isFinal : Stage → Bool
  | finished | failed _ => true
  | _ => false

/-- A pool thread is at work on it. -/
def isActive (st : Stage) : Bool := !st.isQueued && !st.isFinal

end Stage

structure Future where
  node : Str
  stage : Stage
  ran : Bool := false

/-- Where the scheduler thread stands. -/
inductive Phase where
  | head
  | submitting
  | waiting
  | processing (todo : List Nat)
  | draining (e : Exn)
  | raised (e : Exn)
  | returned (report : ExecutionReport)

/-- The call has returned its report. -/
def Phase.isReturned : Phase → Bool
  | .returned _ => true
  | _ => false

theorem Phase.returned_of_isReturned {p : Phase} (h : p.isReturned = true) :
    ∃ r, p = .returned r := by
  cases p with
  | returned r => exact ⟨r, rfl⟩
  | head | submitting | waiting | processing | draining | raised => cases h

structure ExecState where
  phase : Phase
  dependents : Dict Str (Finset Str)
  remainingDeps : Dict Str (Finset Str)
  ready : List Str
  futures : List Future
  inFlight : List Nat
  nodeKeys : Dict Str String
  nodeResults : Dict Str Results
  executed : Finset Str
  cached : Finset Str
  emittedOutputs : Dict (Str × Str) ExecutionOutput
  cancel : Bool
  processed : List Str

namespace ExecState

def submitted (s : ExecState) : List Str := s.futures.map Future.node

/-- Every future is done: what leaving the pool's `with` block waits for. -/
def Drained (s : ExecState) : Prop := ∀ f ∈ s.futures, f.stage.isFinal = true

instance (s : ExecState) : Decidable s.Drained :=
  inferInstanceAs (Decidable (∀ f ∈ s.futures, f.stage.isFinal = true))

/-- The pool threads at work. -/
def active (s : ExecState) : Nat := s.futures.countP fun f => f.stage.isActive

/-- Future `i` takes the place of the old one. -/
def setFuture (s : ExecState) (i : Nat) (f : Future) : ExecState :=
  { s with futures := s.futures.set i f }

end ExecState

/-! ### Before the loop -/

section Call

variable (call : Call)

/-- `{(e.to_node, e.to_port): (e.from_node, e.from_port) for e in graph.edges}`. -/
def edgeInto : Dict (Str × Str) (Str × Str) :=
  Dict.ofPairs (call.graph.edges.map fun e => (e.target, (e.fromNode, e.fromPort)))

/-- `{(b.node, b.port): b.payload for b in graph.bindings}`. -/
def bindingInto : Dict (Str × Str) Str :=
  Dict.ofPairs (call.graph.bindings.map fun b => (b.target, b.payload))

/-- `outputs_by_node.get(node_id, [])`. -/
def outputsByNode (node : Str) : List (Str × Str) :=
  (call.graph.outputs.filter fun o => o.node = node).map OutputRef.key

/-- `{node.id: set() for node in graph.nodes}`. -/
def emptySets : Dict Str (Finset Str) :=
  Dict.ofPairs (call.graph.nodes.map fun n => (n.id, ∅))

/-- `d[k].add(v)`. -/
def addTo (d : Dict Str (Finset Str)) (k v : Str) (f : Fault) :
    Except Fault (Dict Str (Finset Str)) := do
  let set ← require (d.lookup k) f
  return d.insert k (insert v set)

/-- The loop that fills `dependencies` and `dependents`. -/
def addEdges : List Edge → Dict Str (Finset Str) × Dict Str (Finset Str) →
    Except Fault (Dict Str (Finset Str) × Dict Str (Finset Str))
  | [], d => .ok d
  | e :: es, (deps, dependents) => do
    let deps ← addTo deps e.toNode e.fromNode (.dependencies e.toNode)
    let dependents ← addTo dependents e.fromNode e.toNode (.dependents e.fromNode)
    addEdges es (deps, dependents)

/-- The state with nothing computed. -/
def blank (phase : Phase) : ExecState where
  phase := phase
  dependents := ∅
  remainingDeps := ∅
  ready := []
  futures := []
  inFlight := []
  nodeKeys := ∅
  nodeResults := ∅
  executed := ∅
  cached := ∅
  emittedOutputs := ∅
  cancel := false
  processed := []

/-- `execute_graph` up to its loop.  The ids are distinct by then, so the dict
of remaining dependencies lists them as the graph does. -/
def enter : ExecState :=
  let errors := validateGraph call.graph call.registry call.session
  if errors ≠ [] then blank (.raised (.invalid errors))
  else if topologicalOrder call.graph = none then blank (.raised (.fault .assertAcyclic))
  else match addEdges call.graph.edges (emptySets call, emptySets call) with
    | .error f => blank (.raised (.fault f))
    | .ok (dependencies, dependents) =>
      { blank .head with
        dependents := dependents
        remainingDeps := dependencies
        ready := call.graph.nodeIds.filter fun n => dependencies.lookup n = some ∅ }

end Call

/-! ### `run_node` -/

section RunNode

variable (host : Host) (call : Call)

/-- What the loop over the input ports finds for one port: the key that goes
into the recipe and the bytes that go to the module. -/
def inputOf (s : ExecState) (node : Str) (port : PortSpec) :
    Except Fault (Str × String × Bytes) :=
  match (bindingInto call).lookup (node, port.name) with
  | some payload => do
    let payload ← require (call.session.payloads.lookup payload) (.payloads payload)
    return (port.name, contentHash host.blake2b payload.data, payload.data)
  | none => do
    let (srcNode, srcPort) ← require ((edgeInto call).lookup (node, port.name))
      (.edgeInto node port.name)
    let key ← require (s.nodeKeys.lookup srcNode) (.nodeKeys srcNode)
    let results ← require (s.nodeResults.lookup srcNode) (.nodeResults srcNode)
    let result ← require (results.lookup srcPort) (.results srcPort)
    return (port.name, key, result.data)

/-- `run_node` up to the cache lookup. -/
def beginNode (s : ExecState) (node : Str) : Except Fault NodeCall := do
  let n ← require (call.graph.nodesById.lookup node) (.nodesById node)
  let m ← require (call.registry.get n.module) (.assertModule n.module)
  let found ← m.inputs.mapM (inputOf host call s node)
  return {
    node := n
    manifest := m
    inputs := Dict.ofPairs (found.map fun x => (x.1, x.2.2))
    key := recipeKey host.blake2b m.name m.version n.params (found.map fun x => x.2.1) call.draft }

/-- `{p.name: p.type for p in manifest.outputs}`. -/
def declaredOutputs (m : ModuleManifest) : Dict Str Str :=
  Dict.ofPairs (m.outputs.map fun p => (p.name, p.type))

/-- The first result whose type is not the declared one. -/
def checkTypes (m : ModuleManifest) : List (Sigma fun _ : Str => ModuleResult) → Option Exn
  | [] => none
  | ⟨name, result⟩ :: rest =>
    match (declaredOutputs m).lookup name with
    | none => some (.fault (.declared name))
    | some declared =>
      if result.type ≠ declared then
        some (.contract (.wrongType m.name name result.type declared))
      else checkTypes m rest

/-- The manifest contract, enforced before anything reaches the cache. -/
def checkContract (m : ModuleManifest) (results : Results) : Option Exn :=
  let missing := (declaredOutputs m).keys.filter fun p => p ∉ results
  let undeclared := results.keys.filter fun p => p ∉ declaredOutputs m
  if missing ≠ [] then some (.contract (.missing m.name (missing.insertionSort (· ≤ ·))))
  else if undeclared ≠ [] then
    some (.contract (.undeclared m.name (undeclared.insertionSort (· ≤ ·))))
  else checkTypes m results.entries

end RunNode

/-! ### Steps -/

/-- What a pool thread does next with its future. -/
inductive WorkerAct where
  /-- Take the next queued future and compute its inputs and its key. -/
  | start
  /-- `cache.get(cache_key)`; a miss calls `module.run`. -/
  | lookup
  /-- `module.run` ends; the contract is checked. -/
  | ret (outcome : Except ModuleExn Results)
  /-- The cancel check after the run. -/
  | check
  /-- `cache.put`. -/
  | put
  /-- The block under the state lock. -/
  | record
  /-- `on_node`. -/
  | notify
  /-- One requested output is put among the emitted ones and `on_output` called. -/
  | emit
  /-- `on_output` returns. -/
  | emitted
  /-- `run_node` returns. -/
  | finish
  deriving DecidableEq

inductive Act where
  | worker (i : Nat) (w : WorkerAct)
  /-- The scheduler at the head of its loop. -/
  | loop
  /-- Submit the next ready node, or go on to wait. -/
  | submit
  /-- `wait` returns these futures. -/
  | wait (done : List Nat)
  /-- Handle the next of them, its dependents in this order. -/
  | process (order : List Str)
  /-- The pool is empty: the exception leaves the `with` block. -/
  | join
  /-- Somebody sets the cancel event. -/
  | cancel
  deriving DecidableEq

section Step

variable (host : Host) (call : Call)

/-- Nobody before `i` is queued, and a thread is free. -/
def CanStart (s : ExecState) (i : Nat) : Prop :=
  (∀ f ∈ s.futures.take i, f.stage.isQueued = false) ∧ s.active < maxWorkers host call

instance (s : ExecState) (i : Nat) : Decidable (CanStart host call s i) :=
  inferInstanceAs (Decidable (_ ∧ _))

/-- The block under the state lock. -/
def recordNode (s : ExecState) (node : Str) (c : NodeCall) (results : Results) (cached : Bool) :
    ExecState :=
  { s with
    nodeKeys := s.nodeKeys.insert node c.key
    nodeResults := s.nodeResults.insert node results
    executed := if cached then s.executed else insert node s.executed
    cached := if cached then insert node s.cached else s.cached }

/-- `emitted_outputs[out_node, out_port] = output`. -/
def emitOutput (s : ExecState) (output : ExecutionOutput) : ExecState :=
  { s with emittedOutputs := s.emittedOutputs.insert (output.node, output.port) output }

/-- One step of the thread that holds future `i`, at stage `f.stage`. -/
def workerStep (cache : ResultCache) (s : ExecState) (i : Nat) (f : Future) :
    WorkerAct → Option (ResultCache × ExecState)
  | .start =>
    match f.stage with
    | .queued =>
      if CanStart host call s i then
        match beginNode host call s f.node with
        | .ok c => some (cache, s.setFuture i { f with stage := .keyed c })
        | .error e => some (cache, s.setFuture i { f with stage := .failed (.fault e) })
      else none
    | _ => none
  | .lookup =>
    match f.stage with
    | .keyed c =>
      match cache.get c.key with
      | some hit => some (cache, s.setFuture i { f with stage := .recording c hit true })
      | none => some (cache, s.setFuture i { f with stage := .running c, ran := true })
    | _ => none
  | .ret outcome =>
    match f.stage with
    | .running c =>
      match outcome with
      | .error e => some (cache, s.setFuture i { f with stage := .failed (.module e) })
      | .ok results =>
        match checkContract c.manifest results with
        | some e => some (cache, s.setFuture i { f with stage := .failed e })
        | none => some (cache, s.setFuture i { f with stage := .returned c results })
    | _ => none
  | .check =>
    match f.stage with
    | .returned c results =>
      if s.cancel then some (cache, s.setFuture i { f with stage := .failed .cancelled })
      else some (cache, s.setFuture i { f with stage := .storing c results })
    | _ => none
  | .put =>
    match f.stage with
    | .storing c results =>
      some (cache.put c.key results, s.setFuture i { f with stage := .recording c results false })
    | _ => none
  | .record =>
    match f.stage with
    | .recording c results cached =>
      some (cache, (recordNode s f.node c results cached).setFuture i
        { f with stage := .notifying results cached })
    | _ => none
  | .notify =>
    match f.stage with
    | .notifying results _ =>
      some (cache, s.setFuture i { f with stage := .emitting results (outputsByNode call f.node) })
    | _ => none
  | .emit =>
    match f.stage with
    | .emitting results ((outNode, outPort) :: todo) =>
      match results.lookup outPort with
      | none => some (cache, s.setFuture i { f with stage := .failed (.fault (.results outPort)) })
      | some result =>
        let output : ExecutionOutput := ⟨outNode, outPort, result.type, result.data⟩
        some (cache, (emitOutput s output).setFuture i
          { f with stage := .calling results output todo })
    | _ => none
  | .emitted =>
    match f.stage with
    | .calling results _ todo =>
      some (cache, s.setFuture i { f with stage := .emitting results todo })
    | _ => none
  | .finish =>
    match f.stage with
    | .emitting _ [] => some (cache, s.setFuture i { f with stage := .finished })
    | _ => none

/-- `for dependent in dependents[finished]`: drop the dependency, and note who
has none left. -/
def release (finished : Str) :
    List Str → Dict Str (Finset Str) × List Str →
      Except Fault (Dict Str (Finset Str) × List Str)
  | [], acc => .ok acc
  | v :: vs, (remaining, ready) => do
    let deps ← require (remaining.lookup v) (.remainingDeps v)
    let deps := deps.erase finished
    release finished vs
      (remaining.insert v deps, if deps = ∅ then ready ++ [v] else ready)

/-- Where the loop over the finished futures goes next. -/
def afterFuture : List Nat → Phase
  | [] => .head
  | todo => .processing todo

/-- The scheduler has finished with a completed future. -/
def processFinished (s : ExecState) (i : Nat) (todo : List Nat) (node : Str)
    (order : List Str) : Option ExecState :=
  let s := { s with inFlight := s.inFlight.erase i }
  match s.dependents.lookup node with
  | none => some { s with phase := .draining (.fault (.dependents node)) }
  | some dependents =>
    if order.Nodup ∧ order.toFinset = dependents then
      match release node order (s.remainingDeps, s.ready) with
      | .error e => some { s with phase := .draining (.fault e) }
      | .ok (remaining, ready) => some { s with
          remainingDeps := remaining
          ready := ready
          processed := s.processed ++ [node]
          phase := afterFuture todo }
    else none

/-- `tuple(emitted_outputs[ref.node, ref.port] for ref in graph.outputs)`. -/
def collectOutputs (s : ExecState) : Except Fault (List ExecutionOutput) :=
  call.graph.outputs.mapM fun o =>
    require (s.emittedOutputs.lookup o.key) (.emittedOutputs o.node o.port)

/-- The end of `execute_graph`. -/
def report (s : ExecState) : Phase :=
  match collectOutputs call s with
  | .error e => .raised (.fault e)
  | .ok outputs => .returned ⟨outputs, s.executed, s.cached⟩

/-- One step of the scheduler thread. -/
def schedStep (s : ExecState) : Act → Option ExecState
  | .loop =>
    match s.phase with
    | .head =>
      if s.ready = [] ∧ s.inFlight = [] then
        if s.Drained then some { s with phase := report call s } else none
      else if s.cancel then some { s with phase := .draining .cancelled }
      else some { s with phase := .submitting }
    | _ => none
  | .submit =>
    match s.phase, s.ready with
    | .submitting, n :: rest => some { s with
        futures := s.futures ++ [{ node := n, stage := .queued }]
        inFlight := s.inFlight ++ [s.futures.length]
        ready := rest }
    | .submitting, [] => some { s with phase := .waiting }
    | _, _ => none
  | .wait done =>
    match s.phase with
    | .waiting =>
      if done ≠ [] ∧ done.Nodup ∧ ∀ i ∈ done, i ∈ s.inFlight ∧
          ∃ f, s.futures[i]? = some f ∧ f.stage.isFinal = true then
        some { s with phase := .processing done }
      else none
    | _ => none
  | .process order =>
    match s.phase with
    | .processing (i :: todo) =>
      match s.futures[i]? with
      | some ⟨_, .failed e, _⟩ =>
        some { s with inFlight := s.inFlight.erase i, phase := .draining e }
      | some ⟨node, .finished, _⟩ => processFinished s i todo node order
      | _ => none
    | _ => none
  | .join =>
    match s.phase with
    | .draining e => if s.Drained then some { s with phase := .raised e } else none
    | _ => none
  | .cancel => some { s with cancel := true }
  | .worker _ _ => none

/-- One step of the call, on the cache it shares. -/
def step (x : ResultCache × ExecState) : Act → Option (ResultCache × ExecState)
  | .worker i w =>
    match x.2.futures[i]? with
    | some f => workerStep host call x.1 x.2 i f w
    | none => none
  | a => (schedStep call x.2 a).map fun s => (x.1, s)

end Step

end Formshift
