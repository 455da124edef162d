/-
Formshift/Runner.lean

What runs in the process (`extension_runner.py`), and a module's `run` through
it (`IsolatedModule.run`, `extensions.py`).

A run is to be the call itself: the entry, called with the inputs, the params
and the draft flag of the run (`directCall`).  The two programs put it behind two
lines of JSON, with every byte string in base64, and an exception behind its text.
An exception whose `str` raises has none: it leaves the loop of the runner, and
the process ends.  Of that alone something shows (`isolated_runs_refine_calls_iff`):
over a sequence of calls the runs give what the calls give, a refusal for a
refusal, by one process that ends where the calls end, exactly if every exception
on the way has a text.  The requests, and the dicts that come back, are to be such
that JSON round-trips (`JsonRoundTrips`): no key and no string in them has a surrogate
half behind another that make a character.
-/
import Formshift.Pairing
import Formshift.Lib.Base64
import Formshift.Lib.Except

namespace Formshift

open Py

/-! ### What an entry returns -/

/-- An exception: the name of its class and its `str`, if that has a result. -/
structure Thrown where
  typeName : String
  text : Option Str
  deriving DecidableEq

def Thrown.typeError (text : Str) : Thrown := ⟨"TypeError", some text⟩

/-- A value in the dict that an entry returns. -/
inductive PyValue where
  /-- `None`, a flag, a number, a string, or a list or dict of such. -/
  | json (v : Json)
  | bytes (b : Bytes)
  | tuple (items : List PyValue)
  /-- Any other object, and what it gives or raises when it is iterated. -/
  | object (typeName : String) (items : Except Thrown (List PyValue))

namespace PyValue

/-- `type(value).__name__`. -/
def typeName : PyValue → String
  | json v => v.typeName
  | bytes _ => "bytes"
  | tuple _ => "tuple"
  | object name _ => name

/-- `iter(value)`. -/
def iter : PyValue → Except Thrown (List PyValue)
  | json (.arr items) => .ok (items.map json)
  | json (.obj fields) => .ok (fields.map fun f => json (.str f.1))
  | json (.str s) => .ok (s.codes.map fun c => json (.str (Str.ofCodes [c])))
  | json v => .error (.typeError ("cannot unpack non-iterable " ++ v.typeName ++ " object"))
  | bytes b => .ok (b.map fun n => json (.int n.toNat))
  | tuple items => .ok items
  | object _ items => items

/-- `a, b = value`. -/
def unpackPair (v : PyValue) : Except Thrown (PyValue × PyValue) := do
  match ← v.iter with
  | [a, b] => .ok (a, b)
  | items =>
    if items.length < 2 then
      .error ⟨"ValueError", some ("not enough values to unpack (expected 2, got " ++
        items.length.repr ++ ")")⟩
    else .error ⟨"ValueError", some "too many values to unpack (expected 2)"⟩

mutual

/-- What `json.dumps` writes of it; bytes and objects have no JSON. -/
def toJson : PyValue → Option Json
  | json v => some v
  | tuple items => (itemsToJson items).map .arr
  | bytes _ | object _ _ => none

def itemsToJson : List PyValue → Option (List Json)
  | [] => some []
  | v :: rest => do
    let w ← toJson v
    let ws ← itemsToJson rest
    some (w :: ws)

end

end PyValue

/-- What an entry returns. -/
inductive Produced where
  /-- A dict by port names. -/
  | ports (entries : List (Str × PyValue)) (distinct : (entries.map Prod.fst).Nodup)
  | other (typeName : String)

/-! ### The runner -/

/-- The interpreter of an extension, with a state of its own: what importing an
entry and calling it do. -/
structure Interpreter (σ κ : Type) where
  /-- `sys.path`, and the state, of a process that has just been started. -/
  path : List String
  boot : σ
  /-- `getattr(importlib.import_module(module_name), attr)`, under this `sys.path`. -/
  importEntry : List String → Text → Text → σ → Except Thrown κ × σ
  call : κ → List (Str × Bytes) → Json → Bool → σ → Except Thrown Produced × σ
  /-- What a line that is no JSON raises. -/
  decodeError : Text → Thrown
  /-- What a request raises that the server does not write. -/
  complaint : Json → Thrown

/-- JSON round-trips here: what is written of the value is read as the value. -/
def JsonRoundTrips (v : Json) : Prop := v.reread = v

/-- How JSON is written: as one line, which is read as `json.loads` does. -/
structure JsonWriter where
  dumps : Json → Text
  loads_dumps : ∀ v, Json.loads (dumps v) = some v.reread
  no_break : ∀ v, '\n' ∉ dumps v

/-- The state of a runner. -/
structure Runner (σ : Type) where
  path : List String
  host : σ

structure RunnerRequest where
  src : String
  entry : String
  inputs : List (Str × Bytes)
  params : Json
  draft : Bool

def decodeInput : Str × Json → Option (Str × Bytes)
  | (port, .str (.text s)) => some (port, b64decode s.toList)
  | _ => none

/-- The fields of a request. -/
def readRequest : Json → Option RunnerRequest
  | .obj fields =>
    match fields.lookup (.text "src"), fields.lookup (.text "entry"),
        fields.lookup (.text "inputs"), fields.lookup (.text "params"),
        fields.lookup (.text "draft") with
    | some (.str (.text src)), some (.str (.text entry)), some (.obj inputs), some params,
        some (.bool draft) =>
      (inputs.mapM decodeInput).map fun inputs => ⟨src, entry, inputs, params, draft⟩
    | _, _, _, _, _ => none
  | _ => none

section Serve

variable {σ κ : Type} (py : Interpreter σ κ) (writer : JsonWriter) (repr : Str → String)

/-- The first half of `_run`: the entry is imported and called. -/
def callEntry (src entry : String) (inputs : List (Str × Bytes)) (params : Json) (draft : Bool)
    (s : Runner σ) : Except Thrown Produced × Runner σ :=
  let path := if src ∈ s.path then s.path else src :: s.path
  let (moduleName, attr) := Text.partition ':' entry.toList
  match py.importEntry path moduleName attr s.host with
  | (.error e, host) => (.error e, ⟨path, host⟩)
  | (.ok callable, host) =>
    let (produced, host) := py.call callable inputs params draft host
    (produced, ⟨path, host⟩)

def encodePort (entry : Str × PyValue) : Except Thrown (Str × PyValue × String) := do
  let (type, data) ← entry.2.unpackPair
  match data with
  | .bytes b => .ok (entry.1, type, String.ofList (b64encode b))
  | data => .error (.typeError ("output port " ++ repr entry.1 ++ " produced " ++ data.typeName ++
      ", expected bytes"))

/-- The outputs of a response. -/
def encodeOutputs : Produced → Except Thrown (List (Str × PyValue × String))
  | .ports entries _ => entries.mapM (encodePort repr)
  | .other typeName =>
    .error ⟨"AttributeError", some ("'" ++ typeName ++ "' object has no attribute 'items'")⟩

/-- `_run`. -/
def runRequest (request : RunnerRequest) (s : Runner σ) :
    Except Thrown (List (Str × PyValue × String)) × Runner σ :=
  let (produced, s) :=
    callEntry py request.src request.entry request.inputs request.params request.draft s
  (produced >>= encodeOutputs repr, s)

/-- The `try` block in `serve`. -/
def respond (line : Text) (s : Runner σ) :
    Except Thrown (List (Str × PyValue × String)) × Runner σ :=
  match Json.loads line with
  | none => (.error (py.decodeError line), s)
  | some v =>
    match readRequest v with
    | none => (.error (py.complaint v), s)
    | some request => runRequest py repr request s

def portJson (port : Str × PyValue × String) : Option (Str × Json) :=
  port.2.1.toJson.map fun type => (port.1, .obj [("type", type), ("data", .str port.2.2)])

/-- The response to a request that went well. -/
def outputsJson (outputs : List (Str × PyValue × String)) : Option Json :=
  (outputs.mapM portJson).map fun ports => .obj [("ok", .bool true), ("outputs", .obj ports)]

/-- `f"{type(exc).__name__}: {exc}"`, in the handler of `serve`; `none` where that
raises in its turn. -/
def errorResponse (e : Thrown) : Option ServeResponse :=
  e.text.map fun text => .error (e.typeName ++ ": " ++ text)

def responseJson : Except Thrown (List (Str × PyValue × String)) → Option Json
  | .ok outputs => outputsJson outputs
  | .error e => (errorResponse e).map ServeResponse.json

/-- One line in `serve`, and what is written; `none` where an exception leaves
the loop. -/
def serveLine (line : Text) (s : Runner σ) : Option (Text × Runner σ) :=
  if Text.strip line = [] then some ([], s)
  else
    (responseJson (respond py repr line s).1).map fun response =>
      (writer.dumps response ++ ['\n'], (respond py repr line s).2)

/-! ### The process and its pipes -/

/-- A runner with what it has not read and what the server has not; none once it
has ended. -/
structure RunnerProcess (σ : Type) where
  runner : Option (Runner σ)
  stdin : Text
  stdout : Text

/-- A runner with nothing to read on either side. -/
def RunnerProcess.idle (s : Runner σ) : RunnerProcess σ := ⟨some s, [], []⟩

/-- The process answers the next line, or ends by it; `none` while there is none. -/
def RunnerProcess.serve (pr : RunnerProcess σ) : Option (RunnerProcess σ) := do
  let s ← pr.runner
  let (line, rest) ← Process.cutLine pr.stdin
  match serveLine py writer repr line s with
  | some (response, s) => some ⟨some s, rest, pr.stdout ++ response⟩
  | none => some ⟨none, rest, pr.stdout⟩

/-- `stdout.readline()`; `none` while it waits. -/
def RunnerProcess.readline (pr : RunnerProcess σ) : Option (Text × RunnerProcess σ) :=
  match Process.cutLine pr.stdout with
  | some (line, rest) => some (line, { pr with stdout := rest })
  | none => if pr.runner.isSome then none else some (pr.stdout, { pr with stdout := [] })

/-- `ExtensionWorker`: its process, and how many it has started. -/
structure RunnerSlot (σ : Type) where
  process : Option (RunnerProcess σ)
  started : Nat

/-- `_ensure_started`. -/
def RunnerSlot.ensureStarted (w : RunnerSlot σ) : RunnerProcess σ × Nat :=
  match w.process with
  | some ⟨some s, stdin, stdout⟩ => (⟨some s, stdin, stdout⟩, w.started)
  | _ => (.idle ⟨py.path, py.boot⟩, w.started + 1)

/-- `ExtensionWorker.request`, where nothing but the runner itself ends the process
and its watchdog is not set off; `polled` is the exit code `poll` gives. -/
def exchange (polled : Option Int) (payload : Json) (w : RunnerSlot σ) :
    Option (Except WorkerError Json × RunnerSlot σ) := do
  let (pr, started) := w.ensureStarted py
  let pr ← RunnerProcess.serve py writer repr
    { pr with stdin := pr.stdin ++ writer.dumps payload ++ ['\n'] }
  let (line, pr) ← pr.readline
  if line = [] then some (.error (.exited polled), ⟨none, started⟩)
  else
    match Json.loads line with
    | some response => some (.ok response, ⟨some pr, started⟩)
    | none => some (.error .invalidOutput, ⟨none, started⟩)

/-! ### Runs -/

/-- A call of `IsolatedModule.run`. -/
structure ModuleCall where
  module : String
  src : String
  entry : String
  inputs : List (Str × Bytes)
  distinct : (inputs.map Prod.fst).Nodup
  params : JsonObject
  draft : Bool

/-- What is sent. -/
def ModuleCall.payload (c : ModuleCall) : Json :=
  .obj [("src", .str c.src), ("entry", .str c.entry),
    ("inputs", .obj (c.inputs.map fun input =>
      (input.1, .str (String.ofList (b64encode input.2))))),
    ("params", c.params.toJson), ("draft", .bool c.draft)]

/-- An `ExtensionWorker` as `run` calls it: the extension's name, the text of the
timeout, and what `poll` gives at the end of a process. -/
structure RunnerContext where
  extension : String
  timeout : String
  polled : Option Int

variable (ctx : RunnerContext)

/-- `IsolatedModule.run`. -/
def isolatedRun (c : ModuleCall) (w : RunnerSlot σ) :
    Option (Except RunError (List (Str × ModuleResult)) × RunnerSlot σ) :=
  (exchange py writer repr ctx.polled c.payload w).map fun (response, w) =>
    (runResult repr (fun s => b64decode s.toList) c.module ctx.extension ctx.timeout response, w)

/-- One run after the other, through one worker. -/
def isolatedRuns : List ModuleCall → RunnerSlot σ →
    Option (List (Except RunError (List (Str × ModuleResult))) × RunnerSlot σ)
  | [], w => some ([], w)
  | c :: rest, w => do
    let (result, w) ← isolatedRun py writer repr ctx c w
    let (results, w) ← isolatedRuns rest w
    some (result :: results, w)

/-- What the entry of a call stands for in an interpreter that finds the source. -/
def entryOf (c : ModuleCall) (s : Runner σ) : Except Thrown κ × Runner σ :=
  let path := if c.src ∈ s.path then s.path else c.src :: s.path
  let names := Text.partition ':' c.entry.toList
  let found := py.importEntry path names.1 names.2 s.host
  (found.1, ⟨path, found.2⟩)

/-- **The call that a run stands for**: the entry, called with the inputs, the params
and the draft flag. -/
def directCall (c : ModuleCall) (s : Runner σ) : Except Thrown Produced × Runner σ :=
  match entryOf py c s with
  | (.error e, s) => (.error e, s)
  | (.ok callable, s) =>
    let made := py.call callable c.inputs c.params.toJson c.draft s.host
    (made.1, { s with host := made.2 })

def directCalls : List ModuleCall → Runner σ → List (Except Thrown Produced) × Runner σ
  | [], s => ([], s)
  | c :: rest, s =>
    let (outcome, s) := directCall py c s
    let (outcomes, s) := directCalls rest s
    (outcome :: outcomes, s)

end Serve

/-! ### One line there, one line back -/

/-- A text that reads as an object is no blank line. -/
theorem strip_ne_nil_of_loads {text : Text} {fields : List (Str × Json)}
    (h : Json.loads text = some (.obj fields)) : Text.strip text ≠ [] := by
  obtain ⟨rest, hread, -⟩ := Json.loads_eq_some_iff.mp h
  obtain ⟨cs, hbrace⟩ := Json.brace_of_readValue hread
  have hmem : '\x7b' ∈ text := by
    have hsuffix : Json.skip text <:+ text := List.dropWhile_suffix _
    exact hsuffix.subset (by rw [hbrace]; exact List.mem_cons_self)
  exact Text.strip_ne_nil hmem (by decide)

section Lines

variable {σ κ : Type} {py : Interpreter σ κ} {writer : JsonWriter} {repr : Str → String}

theorem JsonWriter.loads_line (writer : JsonWriter) (fields : List (Str × Json)) :
    Json.loads (writer.dumps (.obj fields) ++ ['\n']) = some (Json.obj fields).reread :=
  Json.loads_append_blank (writer.loads_dumps (.obj fields)) rfl

theorem JsonWriter.cutLine (writer : JsonWriter) (v : Json) :
    Process.cutLine (writer.dumps v ++ ['\n']) = some (writer.dumps v ++ ['\n'], []) :=
  Process.cutLine_line (writer.no_break v) []

/-- What one line does to an idle runner. -/
theorem serve_payload (payload : List (Str × Json)) (s : Runner σ) :
    RunnerProcess.serve py writer repr ⟨some s, writer.dumps (.obj payload) ++ ['\n'], []⟩ =
      some (match responseJson (respond py repr (writer.dumps (.obj payload) ++ ['\n']) s).1 with
        | some response => ⟨some (respond py repr (writer.dumps (.obj payload) ++ ['\n']) s).2, [],
            writer.dumps response ++ ['\n']⟩
        | none => ⟨none, [], []⟩) := by
  have hstrip : Text.strip (writer.dumps (.obj payload) ++ ['\n']) ≠ [] :=
    strip_ne_nil_of_loads (writer.loads_line payload)
  simp only [RunnerProcess.serve, writer.cutLine, serveLine, Option.bind_eq_bind, Option.bind_some,
    if_neg hstrip]
  cases responseJson (respond py repr (writer.dumps (.obj payload) ++ ['\n']) s).1 with
  | none => rfl
  | some response => rfl

/-- A request that is answered is answered by one line, and nothing is left. -/
theorem exchange_eq {payload response : List (Str × Json)} {s s' : Runner σ} {n : Nat}
    {polled : Option Int}
    (hanswer : responseJson (respond py repr (writer.dumps (.obj payload) ++ ['\n']) s).1 =
      some (.obj response))
    (hstate : (respond py repr (writer.dumps (.obj payload) ++ ['\n']) s).2 = s') :
    exchange py writer repr polled (.obj payload) ⟨some (.idle s), n⟩ =
      some (.ok (Json.obj response).reread, ⟨some (.idle s'), n⟩) := by
  have hserve : RunnerProcess.serve py writer repr
      ⟨some s, writer.dumps (.obj payload) ++ ['\n'], []⟩ = _ := serve_payload payload s
  rw [hanswer, hstate] at hserve
  simp [exchange, RunnerSlot.ensureStarted, RunnerProcess.idle, hserve, RunnerProcess.readline,
    writer.cutLine, writer.loads_line response]

/-- Where the runner has no response, the process ends and the request fails. -/
theorem exchange_ended {payload : List (Str × Json)} {s : Runner σ} {n : Nat}
    {polled : Option Int}
    (hanswer : responseJson (respond py repr (writer.dumps (.obj payload) ++ ['\n']) s).1 = none) :
    exchange py writer repr polled (.obj payload) ⟨some (.idle s), n⟩ =
      some (.error (.exited polled), ⟨none, n⟩) := by
  have hserve : RunnerProcess.serve py writer repr
      ⟨some s, writer.dumps (.obj payload) ++ ['\n'], []⟩ = _ := serve_payload payload s
  rw [hanswer] at hserve
  simp [exchange, RunnerSlot.ensureStarted, RunnerProcess.idle, hserve, RunnerProcess.readline,
    Process.cutLine]

end Lines

/-! ### Requests -/

section Requests

variable {σ κ : Type} {py : Interpreter σ κ} {writer : JsonWriter} {repr : Str → String}

theorem decodeInput_encode (inputs : List (Str × Bytes)) :
    (inputs.map fun input => (input.1, Json.str (String.ofList (b64encode input.2)))).mapM
      decodeInput = some inputs := by
  rw [mapM_some_iff, List.forall₂_map_left_iff, List.forall₂_same]
  intro input _
  simp [decodeInput, b64decode_b64encode]

/-- The runner reads what the server was asked. -/
theorem readRequest_payload (c : ModuleCall) : readRequest c.payload =
    some ⟨c.src, c.entry, c.inputs, c.params.toJson, c.draft⟩ := by
  have hinputs := decodeInput_encode c.inputs
  simp [ModuleCall.payload, readRequest, List.lookup, hinputs]

end Requests

/-! ### Responses -/

/-- An entry of a dict of type string and bytes. -/
def IsPort (entry : Str × PyValue) (result : Str × ModuleResult) : Prop :=
  entry.1 = result.1 ∧
    entry.2.unpackPair = .ok (.json (.str result.2.type), .bytes result.2.data)

/-- No pair, or one without bytes. -/
def IsBadPort (entry : Str × PyValue) : Prop :=
  ∀ type data, entry.2.unpackPair ≠ .ok (type, .bytes data)

/-- What a run is to give for what the call has given: the dict as results, and
a `ModuleError` for an exception and for a dict with a bad value. -/
inductive RunsAs : Except Thrown Produced → Except RunError (List (Str × ModuleResult)) → Prop
  | results {entries : List (Str × PyValue)} {distinct : (entries.map Prod.fst).Nodup}
      {results : List (Str × ModuleResult)} : List.Forall₂ IsPort entries results →
      RunsAs (.ok (.ports entries distinct)) (.ok results)
  | raised {e : Thrown} {message : Str} : RunsAs (.error e) (.error (.moduleError message))
  | badPort {entries : List (Str × PyValue)} {distinct : (entries.map Prod.fst).Nodup}
      {entry : Str × PyValue} {message : Str} : entry ∈ entries → IsBadPort entry →
      RunsAs (.ok (.ports entries distinct)) (.error (.moduleError message))
  | noDict {typeName : String} {message : Str} :
      RunsAs (.ok (.other typeName)) (.error (.moduleError message))

/-- The response to a dict of ports. -/
def portsResponse (results : List (Str × ModuleResult)) : ServeResponse :=
  .outputs (results.map fun r => (r.1, r.2.type, String.ofList (b64encode r.2.data)))

/-- The outcomes that are said something about: all but dicts of pairs with bytes
of which some type is no string, or which JSON does not carry over. -/
def Covered (outcome : Except Thrown Produced) : Prop :=
  ∀ entries distinct, outcome = .ok (.ports entries distinct) →
    (∃ results, List.Forall₂ IsPort entries results ∧ JsonRoundTrips (portsResponse results).json) ∨
      ∃ entry ∈ entries, IsBadPort entry

/-- What the call raises, or what reading its dict up to the first bad value does,
has a text. -/
def Speaks : Except Thrown Produced → Prop
  | .error e => e.text ≠ none
  | .ok (.ports entries _) => ∀ before entry behind e, entries = before ++ entry :: behind →
      (∀ p ∈ before, ¬ IsBadPort p) → entry.2.unpackPair = .error e → e.text ≠ none
  | .ok (.other _) => True

section Responses

variable {repr : Str → String}

theorem encodePort_ok {entry : Str × PyValue} {result : Str × ModuleResult}
    (h : IsPort entry result) : encodePort repr entry = .ok (result.1, .json (.str result.2.type),
      String.ofList (b64encode result.2.data)) := by
  rw [encodePort, h.2, ← h.1]
  rfl

theorem encodePort_error {entry : Str × PyValue} (h : IsBadPort entry) :
    ∃ e, encodePort repr entry = .error e := by
  rw [encodePort]
  cases hpair : entry.2.unpackPair with
  | error e => exact ⟨e, rfl⟩
  | ok pair =>
      obtain ⟨type, data⟩ := pair
      cases data with
      | bytes b => exact absurd hpair (h type b)
      | json v | tuple items | object name items => exact ⟨_, rfl⟩

/-- A value that is a pair with bytes is encoded. -/
theorem exists_encodePort {entry : Str × PyValue} (h : ¬ IsBadPort entry) :
    ∃ y, encodePort repr entry = .ok y := by
  simp only [IsBadPort, not_forall, not_not] at h
  obtain ⟨type, data, hpair⟩ := h
  rw [encodePort, hpair]
  exact ⟨_, rfl⟩

/-- What is raised past the unpacking of a value has a text. -/
theorem encodePort_text {entry : Str × PyValue} {e : Thrown}
    (h : encodePort repr entry = .error e) (hunpack : entry.2.unpackPair ≠ .error e) :
    e.text ≠ none := by
  rw [encodePort] at h
  cases hpair : entry.2.unpackPair with
  | error e' =>
      rw [hpair] at h
      exact absurd (Except.error.inj h ▸ hpair) hunpack
  | ok pair =>
      obtain ⟨type, data⟩ := pair
      rw [hpair] at h
      cases data with
      | bytes b => cases h
      | json v | tuple items | object name items =>
          rw [← Except.error.inj h]
          simp [Thrown.typeError]

theorem encodeOutputs_ok {entries : List (Str × PyValue)}
    (distinct : (entries.map Prod.fst).Nodup) {results : List (Str × ModuleResult)}
    (h : List.Forall₂ IsPort entries results) :
    responseJson (encodeOutputs repr (.ports entries distinct)) =
      some (portsResponse results).json := by
  have hencode : entries.mapM (encodePort repr) = .ok (results.map fun r =>
      (r.1, .json (.str r.2.type), String.ofList (b64encode r.2.data))) :=
    mapM_ok_iff.mpr (List.forall₂_map_right_iff.mpr (h.imp fun _ _ => encodePort_ok))
  have hjson : (results.map fun r => (r.1, PyValue.json (.str r.2.type),
      String.ofList (b64encode r.2.data))).mapM portJson = some (results.map fun r =>
        (r.1, .obj [("type", .str r.2.type), ("data", .str (String.ofList
          (b64encode r.2.data)))])) := by
    rw [mapM_some_iff, List.forall₂_map_left_iff, List.forall₂_map_right_iff, List.forall₂_same]
    exact fun r _ => rfl
  rw [encodeOutputs, hencode, responseJson, outputsJson, hjson, portsResponse, ServeResponse.json,
    List.map_map]
  rfl

theorem encodeOutputs_error {entries : List (Str × PyValue)}
    (distinct : (entries.map Prod.fst).Nodup) {entry : Str × PyValue} (hentry : entry ∈ entries)
    (hbad : IsBadPort entry) : ∃ e, encodeOutputs repr (.ports entries distinct) = .error e := by
  rw [encodeOutputs]
  cases h : entries.mapM (encodePort repr) with
  | error e => exact ⟨e, rfl⟩
  | ok outputs =>
      obtain ⟨output, houtput⟩ := forall₂_exists_iff.mp ⟨outputs, mapM_ok_iff.mp h⟩ entry hentry
      obtain ⟨e, he⟩ : ∃ e, encodePort repr entry = .error e := encodePort_error hbad
      rw [he] at houtput
      cases houtput

/-- What the runner raises for an outcome has a text exactly if the outcome
speaks. -/
theorem speaks_iff {outcome : Except Thrown Produced} :
    Speaks outcome ↔ ∀ e, outcome >>= encodeOutputs repr = .error e → e.text ≠ none := by
  cases outcome with
  | error e =>
      constructor
      · rintro h _ ⟨⟩
        exact h
      · intro h
        exact h e rfl
  | ok produced =>
      cases produced with
      | other typeName =>
          refine iff_of_true trivial ?_
          rintro _ ⟨⟩
          simp
      | ports entries distinct =>
          -- the first port that cannot be encoded decides
          show _ ↔ ∀ e, entries.mapM (encodePort repr) = .error e → _
          simp only [mapM_error_iff, Speaks]
          constructor
          · rintro h e ⟨before, entry, behind, rfl, hbefore, he⟩
            -- the value is no pair, or its type or data is not what it should be
            by_cases hunpack : entry.2.unpackPair = .error e
            · refine h before entry behind e rfl (fun p hp hbad => ?_) hunpack
              obtain ⟨y, hy⟩ := hbefore p hp
              obtain ⟨e', he'⟩ : ∃ e', encodePort repr p = .error e' := encodePort_error hbad
              rw [he'] at hy
              cases hy
            · exact encodePort_text he hunpack
          · rintro h before entry behind e rfl hbefore he
            refine h e ⟨before, entry, behind, rfl, fun p hp => ?_, ?_⟩
            · exact exists_encodePort (hbefore p hp)
            · rw [encodePort, he]
              rfl

/-- The text of an exception comes back joined. -/
theorem reread_error (text : Str) :
    (ServeResponse.error text).json.reread = (ServeResponse.error text.joined).json := by
  simp only [ServeResponse.json, Json.reread, Json.rereadFields, Str.joined_text]
  rfl

/-- What the server makes of the results of a dict is the dict. -/
theorem outcome_portsResponse (results : List (Str × ModuleResult)) (module : String) :
    (portsResponse results).outcome repr (fun t => b64decode t.toList) module = .ok results := by
  simp [portsResponse, ServeResponse.outcome, Function.comp_def, b64decode_b64encode]

end Responses

/-! ### Runs and calls -/

section Runs

variable {σ κ : Type} {py : Interpreter σ κ} {writer : JsonWriter} {repr : Str → String}

/-- What the runner calls is the call. -/
theorem callEntry_eq (c : ModuleCall) (s : Runner σ) :
    callEntry py c.src c.entry c.inputs c.params.toJson c.draft s = directCall py c s := by
  unfold callEntry directCall entryOf
  dsimp only
  obtain ⟨moduleName, attr⟩ := Text.partition ':' c.entry.toList
  dsimp only
  obtain ⟨found, host⟩ :=
    py.importEntry (if c.src ∈ s.path then s.path else c.src :: s.path) moduleName attr s.host
  cases found with
  | error e => rfl
  | ok callable => rfl

theorem respond_payload {c : ModuleCall} (hsent : JsonRoundTrips c.payload) (s : Runner σ) :
    respond py repr (writer.dumps c.payload ++ ['\n']) s =
      ((directCall py c s).1 >>= encodeOutputs repr, (directCall py c s).2) := by
  have hline : Json.loads (writer.dumps c.payload ++ ['\n']) = some c.payload := by
    rw [ModuleCall.payload, writer.loads_line, ← ModuleCall.payload, hsent]
  rw [respond, hline]
  simp only [readRequest_payload, runRequest, callEntry_eq]

/-- **One run** is the call and what the response makes of it. -/
theorem isolatedRun_eq {c : ModuleCall} (hsent : JsonRoundTrips c.payload) {s : Runner σ} {n : Nat}
    {a b : ServeResponse}
    (hresponse : responseJson ((directCall py c s).1 >>= encodeOutputs repr) = some a.json)
    (hback : a.json.reread = b.json) :
    isolatedRun py writer repr ctx c ⟨some (.idle s), n⟩ =
      some (b.outcome repr (fun t => b64decode t.toList) c.module,
        ⟨some (.idle (directCall py c s).2), n⟩) := by
  have hrespond : respond py repr (writer.dumps c.payload ++ ['\n']) s = _ :=
    respond_payload hsent s
  obtain ⟨fields, hfields⟩ : ∃ fields, a.json = .obj fields := by cases a <;> exact ⟨_, rfl⟩
  rw [hfields] at hresponse hback
  have hexchange : exchange py writer repr ctx.polled c.payload ⟨some (.idle s), n⟩ =
      some (.ok (Json.obj fields).reread, ⟨some (.idle (directCall py c s).2), n⟩) :=
    exchange_eq ((congrArg (fun r => responseJson r.1) hrespond).trans hresponse)
      (congrArg Prod.snd hrespond)
  rw [isolatedRun, hexchange, hback, ← runResponse_json]
  rfl

/-- A run whose exception has no text ends the process. -/
theorem isolatedRun_ended {c : ModuleCall} (hsent : JsonRoundTrips c.payload) {s : Runner σ}
    {n : Nat} {e : Thrown}
    (he : (directCall py c s).1 >>= encodeOutputs repr = .error e) (htext : e.text = none) :
    ∃ message, isolatedRun py writer repr ctx c ⟨some (.idle s), n⟩ =
      some (.error (.moduleError message), ⟨none, n⟩) := by
  have hrespond : respond py repr (writer.dumps c.payload ++ ['\n']) s = _ :=
    respond_payload hsent s
  have hnone : responseJson (respond py repr (writer.dumps c.payload ++ ['\n']) s).1 = none := by
    rw [hrespond, he, responseJson, errorResponse, htext]
    rfl
  have hexchange : exchange py writer repr ctx.polled c.payload ⟨some (.idle s), n⟩ =
      some (.error (.exited ctx.polled), ⟨none, n⟩) := exchange_ended hnone
  rw [isolatedRun, hexchange]
  exact ⟨_, rfl⟩

/-- A run answers a covered call that speaks as it is to, and the process is where
the call leads. -/
theorem isolatedRun_refines {c : ModuleCall} (hsent : JsonRoundTrips c.payload) {s : Runner σ}
    (n : Nat) (h : Covered (directCall py c s).1) (hspeaks : Speaks (directCall py c s).1) :
    ∃ result, isolatedRun py writer repr ctx c ⟨some (.idle s), n⟩ =
        some (result, ⟨some (.idle (directCall py c s).2), n⟩) ∧
      RunsAs (directCall py c s).1 result := by
  -- an exception that has a text is answered, and fails the run
  have herror : ∀ e, (directCall py c s).1 >>= encodeOutputs repr = .error e →
      ∃ message, isolatedRun py writer repr ctx c ⟨some (.idle s), n⟩ =
        some (.error (.moduleError message), ⟨some (.idle (directCall py c s).2), n⟩) := by
    intro e he
    obtain ⟨text, htext⟩ := Option.ne_none_iff_exists'.mp (speaks_iff.mp hspeaks e he)
    refine ⟨_, isolatedRun_eq (a := .error (e.typeName ++ ": " ++ text)) hsent ?_ (reread_error _)⟩
    rw [he, responseJson, errorResponse, htext]
    rfl
  cases houtcome : (directCall py c s).1 with
  | error e =>
      obtain ⟨message, hrun⟩ := herror e (by rw [houtcome]; rfl)
      exact ⟨_, hrun, .raised⟩
  | ok produced =>
      cases produced with
      | other typeName =>
          obtain ⟨message, hrun⟩ := herror _ (by rw [houtcome]; rfl)
          exact ⟨_, hrun, .noDict⟩
      | ports entries distinct =>
          -- the ports can be encoded, or one of them cannot
          rcases h entries distinct houtcome with ⟨results, hports, hback⟩ | ⟨entry, hentry, hbad⟩
          · have hrun : isolatedRun py writer repr ctx c ⟨some (.idle s), n⟩ = _ :=
              isolatedRun_eq hsent (by
                rw [houtcome]
                exact encodeOutputs_ok distinct hports) hback
            rw [outcome_portsResponse] at hrun
            exact ⟨_, hrun, .results hports⟩
          · obtain ⟨e, he⟩ : ∃ e, encodeOutputs repr (.ports entries distinct) = .error e :=
              encodeOutputs_error distinct hentry hbad
            obtain ⟨message, hrun⟩ := herror e (by rw [houtcome]; exact he)
            exact ⟨_, hrun, .badPort hentry hbad⟩

/-! ### Which process serves -/

/-- A request starts a process at most, and if there was none. -/
theorem exchange_started {payload : Json} {w w' : RunnerSlot σ} {polled : Option Int}
    {result : Except WorkerError Json}
    (h : exchange py writer repr polled payload w = some (result, w')) :
    w'.started = (w.ensureStarted py).2 := by
  rw [exchange] at h
  obtain ⟨pr, -, h⟩ := Option.bind_eq_some_iff.mp h
  obtain ⟨⟨line, pr'⟩, -, h⟩ := Option.bind_eq_some_iff.mp h
  dsimp only at h
  split_ifs at h
  · exact congrArg RunnerSlot.started (Prod.mk.inj (Option.some.inj h)).2.symm
  · split at h
    · exact congrArg RunnerSlot.started (Prod.mk.inj (Option.some.inj h)).2.symm
    · exact congrArg RunnerSlot.started (Prod.mk.inj (Option.some.inj h)).2.symm

theorem RunnerSlot.le_ensureStarted (w : RunnerSlot σ) : w.started ≤ (w.ensureStarted py).2 := by
  unfold RunnerSlot.ensureStarted
  split
  · exact le_rfl
  · exact Nat.le_succ _

theorem isolatedRun_started {c : ModuleCall} {w w' : RunnerSlot σ}
    {result : Except RunError (List (Str × ModuleResult))}
    (h : isolatedRun py writer repr ctx c w = some (result, w')) :
    w'.started = (w.ensureStarted py).2 := by
  rw [isolatedRun, Option.map_eq_some_iff] at h
  obtain ⟨⟨response, w''⟩, hexchange, heq⟩ := h
  rw [← (Prod.mk.inj heq).2]
  exact exchange_started hexchange

theorem isolatedRuns_cons {c : ModuleCall} {calls : List ModuleCall} {w w' : RunnerSlot σ}
    {results : List (Except RunError (List (Str × ModuleResult)))} :
    isolatedRuns py writer repr ctx (c :: calls) w = some (results, w') ↔
      ∃ result w₁ rest, isolatedRun py writer repr ctx c w = some (result, w₁) ∧
        isolatedRuns py writer repr ctx calls w₁ = some (rest, w') ∧ results = result :: rest := by
  rw [isolatedRuns]
  cases isolatedRun py writer repr ctx c w with
  | none => simp
  | some run =>
      obtain ⟨result, w₁⟩ := run
      cases hrest : isolatedRuns py writer repr ctx calls w₁ with
      | none => simp [hrest]
      | some runs =>
          obtain ⟨rest, w₂⟩ := runs
          simp only [Option.bind_eq_bind, Option.bind_some, hrest]
          constructor
          · intro h
            obtain ⟨rfl, rfl⟩ := Prod.mk.inj (Option.some.inj h)
            exact ⟨result, w₁, rest, rfl, hrest, rfl⟩
          · rintro ⟨result', w₁', rest', hrun, hrest', rfl⟩
            obtain ⟨rfl, rfl⟩ := Prod.mk.inj (Option.some.inj hrun)
            obtain ⟨rfl, rfl⟩ := Prod.mk.inj (Option.some.inj (hrest.symm.trans hrest'))
            rfl

theorem le_started_isolatedRuns {calls : List ModuleCall} {w w' : RunnerSlot σ}
    {results : List (Except RunError (List (Str × ModuleResult)))}
    (h : isolatedRuns py writer repr ctx calls w = some (results, w')) : w.started ≤ w'.started := by
  induction calls generalizing w results with
  | nil =>
      rw [← (Prod.mk.inj (Option.some.inj h)).2]
  | cons c calls ih =>
      obtain ⟨result, w₁, rest, hrun, hruns, -⟩ := isolatedRuns_cons.mp h
      calc w.started ≤ (w.ensureStarted py).2 := w.le_ensureStarted
        _ = w₁.started := (isolatedRun_started hrun).symm
        _ ≤ w'.started := ih hruns

/-- Behind a process that has ended no run is served by it. -/
theorem process_of_ended {calls : List ModuleCall} {n : Nat} {w : RunnerSlot σ}
    {results : List (Except RunError (List (Str × ModuleResult)))}
    (h : isolatedRuns py writer repr ctx calls ⟨none, n⟩ = some (results, w)) :
    w.process = none ∨ n < w.started := by
  cases calls with
  | nil =>
      rw [← (Prod.mk.inj (Option.some.inj h)).2]
      exact Or.inl rfl
  | cons c calls =>
      obtain ⟨result, w₁, rest, hrun, hruns, -⟩ := isolatedRuns_cons.mp h
      have hfirst : w₁.started = n + 1 := isolatedRun_started hrun
      have hrest : w₁.started ≤ w.started := le_started_isolatedRuns hruns
      exact Or.inr (by omega)

end Runs

/-! ### The refinement -/

/-- The runs give what the calls give, by one process, which is then where the calls
lead, with nothing unread. -/
def Refines {σ κ : Type} (py : Interpreter σ κ) (writer : JsonWriter) (repr : Str → String)
    (ctx : RunnerContext) (calls : List ModuleCall) (s : Runner σ) (n : Nat) : Prop :=
  ∃ results, isolatedRuns py writer repr ctx calls ⟨some (.idle s), n⟩ =
      some (results, ⟨some (.idle (directCalls py calls s).2), n⟩) ∧
    List.Forall₂ RunsAs (directCalls py calls s).1 results

/-- **Runs out of process refine calls** exactly if every exception on the way has
a text. -/
theorem isolated_runs_refine_calls_iff {σ κ : Type} (py : Interpreter σ κ) (writer : JsonWriter)
    (repr : Str → String) (ctx : RunnerContext) (calls : List ModuleCall) (s : Runner σ)
    (n : Nat) (hsent : ∀ c ∈ calls, JsonRoundTrips c.payload)
    (h : ∀ outcome ∈ (directCalls py calls s).1, Covered outcome) :
    Refines py writer repr ctx calls s n ↔
      ∀ outcome ∈ (directCalls py calls s).1, Speaks outcome := by
  induction calls generalizing s with
  | nil => exact iff_of_true ⟨[], rfl, .nil⟩ (by simp [directCalls])
  | cons c calls ih =>
      rw [directCalls] at h ⊢
      obtain ⟨hfirst, hrest⟩ := List.forall_mem_cons.mp h
      obtain ⟨hround, hsent⟩ := List.forall_mem_cons.mp hsent
      rw [List.forall_mem_cons]
      by_cases hspeaks : Speaks (directCall py c s).1
      · -- the process goes on, and the rest are the runs behind it
        obtain ⟨result, hrun, hruns⟩ : ∃ result,
            isolatedRun py writer repr ctx c ⟨some (.idle s), n⟩ = some (result, _) ∧ _ :=
          isolatedRun_refines hround n hfirst hspeaks
        rw [and_iff_right hspeaks, ← ih (directCall py c s).2 hsent hrest]
        constructor
        · rintro ⟨results, hresults, hall⟩
          obtain ⟨result', w₁, rest, hrun', hrest, rfl⟩ := isolatedRuns_cons.mp hresults
          obtain ⟨-, rfl⟩ := Prod.mk.inj (Option.some.inj (hrun.symm.trans hrun'))
          exact ⟨rest, hrest, (List.forall₂_cons.mp hall).2⟩
        · rintro ⟨rest, hrest, hall⟩
          exact ⟨result :: rest, isolatedRuns_cons.mpr ⟨_, _, rest, hrun, hrest, rfl⟩,
            .cons hruns hall⟩
      · -- the process ends at this run, and no later one is served by it
        refine iff_of_false ?_ fun hall => hspeaks hall.1
        rintro ⟨results, hresults, -⟩
        obtain ⟨e, he, htext⟩ : ∃ e, (directCall py c s).1 >>= encodeOutputs repr = .error e ∧
            e.text = none := by
          by_contra hnone
          exact hspeaks (speaks_iff.mpr fun e he htext => hnone ⟨e, he, htext⟩)
        obtain ⟨message, hrun⟩ : ∃ message,
            isolatedRun py writer repr ctx c ⟨some (.idle s), n⟩ = some (_, ⟨none, n⟩) :=
          isolatedRun_ended hround he htext
        obtain ⟨result', w₁, rest, hrun', hrest, -⟩ := isolatedRuns_cons.mp hresults
        obtain ⟨-, rfl⟩ := Prod.mk.inj (Option.some.inj (hrun.symm.trans hrun'))
        rcases process_of_ended hrest with hnone | hlt
        · cases hnone
        · exact absurd hlt (lt_irrefl n)

/-! ### A process that goes on -/

/-- JSON without blanks. -/
def compactWriter : JsonWriter where
  dumps := Json.render
  loads_dumps := Json.loads_render
  no_break v hbreak := absurd (Json.render_printable v _ hbreak) (by decide)

/-- An entry that gives its input back, and raises at every other call an exception
with this text. -/
def moody (text : Option Str) : Interpreter Nat Unit where
  path := []
  boot := 0
  importEntry _ _ _ n := (.ok (), n)
  call _ inputs _ _ n :=
    (if n % 2 = 0 then
      match inputs with
      | (_, data) :: _ => .ok (.ports [("text", .tuple [.json (.str "text"), .bytes data])]
          (List.nodup_singleton (Str.text "text")))
      | [] => .error ⟨"KeyError", some "'text'"⟩
    else .error ⟨"Moody", text⟩, n + 1)
  decodeError _ := ⟨"JSONDecodeError", some "Expecting value: line 1 column 1 (char 0)"⟩
  complaint _ := ⟨"KeyError", some "'src'"⟩

def echo : ModuleCall where
  module := "text.echo"
  src := "/ext/echo/src"
  entry := "echo:run"
  inputs := [("text", [104, 105])]
  distinct := by decide
  params := .empty
  draft := false

/-- What is sent of it comes as it is. -/
theorem echo_jsonRoundTrips : JsonRoundTrips echo.payload := by
  simp only [JsonRoundTrips, ModuleCall.payload, echo, JsonObject.toJson, JsonObject.empty,
    List.map_cons, List.map_nil, Json.reread, Json.rereadFields, Str.joined_text]
  rw [Json.dictOf_of_nodup (by simp), Json.dictOf_of_nodup (by simp),
    Json.dictOf_of_nodup (by simp)]

/-- Strings without quotes. -/
def spelled : Str → String
  | .text s => s
  | .cut s _ _ => s

def echoContext : RunnerContext := ⟨"echo", "600", some 1⟩

theorem covered_moody {t : Option Str} {outcome : Except Thrown Produced}
    (h : outcome = .error ⟨"Moody", t⟩ ∨ outcome = .ok (.ports [("text", .tuple
      [.json (.str "text"), .bytes [104, 105]])] (List.nodup_singleton (Str.text "text")))) :
    Covered outcome := by
  rcases h with rfl | rfl
  · intro entries distinct h
    cases h
  · intro entries distinct h
    obtain ⟨rfl⟩ := Produced.ports.inj (Except.ok.inj h)
    exact Or.inl ⟨[("text", ⟨"text", [104, 105]⟩)], .cons ⟨rfl, rfl⟩ .nil, rfl⟩

/-- A run behind an exception is served as the one before it. -/
theorem isolated_runs_refine_calls_moody : Refines (moody (some "not again")) compactWriter
    spelled echoContext [echo, echo, echo] ⟨[], 0⟩ 1 := by
  refine (isolated_runs_refine_calls_iff (moody (some "not again")) compactWriter spelled
    echoContext [echo, echo, echo] ⟨[], 0⟩ 1 (fun c hc => ?_) fun outcome h => ?_).mpr
      fun outcome h => ?_
  · have hecho : c = echo := by simpa using hc
    exact hecho ▸ echo_jsonRoundTrips
  · have hmem : outcome ∈ [Except.ok (.ports [("text", .tuple [.json (.str "text"),
        .bytes [104, 105]])] _), .error ⟨"Moody", some "not again"⟩, .ok (.ports [("text",
          .tuple [.json (.str "text"), .bytes [104, 105]])] _)] := h
    refine covered_moody (t := some "not again") ?_
    simp only [List.mem_cons, List.not_mem_nil, or_false] at hmem
    tauto
  · have hmem : outcome ∈ [Except.ok (.ports [("text", .tuple [.json (.str "text"),
        .bytes [104, 105]])] (List.nodup_singleton (Str.text "text"))),
          .error ⟨"Moody", some "not again"⟩,
          .ok (.ports [("text", .tuple [.json (.str "text"), .bytes [104, 105]])]
            (List.nodup_singleton (Str.text "text")))] := h
    -- the good run has nothing to say that has no text
    have hports : Speaks (.ok (.ports [("text", .tuple [.json (.str "text"), .bytes [104, 105]])]
        (List.nodup_singleton (Str.text "text")))) := by
      have hencodes : ∀ e, (.ok (.ports [("text", .tuple [.json (.str "text"), .bytes [104, 105]])]
          (List.nodup_singleton (Str.text "text"))) : Except Thrown Produced) >>=
            encodeOutputs spelled = .error e → e.text ≠ none := by
        intro e he
        cases (show Except.ok _ = Except.error e from he)
      exact speaks_iff.mpr hencodes
    simp only [List.mem_cons, List.not_mem_nil, or_false] at hmem
    rcases hmem with rfl | rfl | rfl
    · exact hports
    · simp [Speaks]
    · exact hports

/-- An exception whose `str` raises ends the process. -/
theorem isolated_runs_refine_calls_fails : ¬ ∀ (σ κ : Type) (py : Interpreter σ κ)
    (writer : JsonWriter) (repr : Str → String) (ctx : RunnerContext) (calls : List ModuleCall)
    (s : Runner σ) (n : Nat), (∀ c ∈ calls, JsonRoundTrips c.payload) →
      (∀ outcome ∈ (directCalls py calls s).1, Covered outcome) →
        Refines py writer repr ctx calls s n := by
  intro h
  obtain ⟨results, hruns, -⟩ := h Nat Unit (moody none) compactWriter spelled echoContext [echo]
    ⟨[], 1⟩ 1 (by simpa using echo_jsonRoundTrips)
    fun outcome houtcome => covered_moody (Or.inl (List.mem_singleton.mp houtcome))
  obtain ⟨result, w, rest, hrun, hrest, -⟩ := isolatedRuns_cons.mp hruns
  obtain ⟨message, hended⟩ : ∃ message, isolatedRun (moody none) compactWriter spelled echoContext
      echo ⟨some (.idle ⟨[], 1⟩), 1⟩ = some (.error (.moduleError message), ⟨none, 1⟩) :=
    isolatedRun_ended echo_jsonRoundTrips (e := ⟨"Moody", none⟩) rfl rfl
  obtain ⟨-, rfl⟩ := Prod.mk.inj (Option.some.inj (hended.symm.trans hrun))
  cases (Prod.mk.inj (Option.some.inj hrest)).2

end Formshift
