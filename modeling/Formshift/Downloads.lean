/-
Formshift/Downloads.lean

What a client downloads.

Whoever downloads the payload of an announced output gets what the module of
the output's node returned (`announced_outputs_download`), and whoever has
polled a completed job gets every output its graph asks for
(`completed_poll_redeemed`).  Where keys tell the nodes of the server's calls
apart, these are the outputs the reference evaluator computes for the job's
graph (`completed_poll_computes`): caching, scheduling, pinned groups and other
clients leave no mark on what is delivered.
-/
import Formshift.Delivery
import Formshift.Replies
import Formshift.Transparency

namespace Formshift

open Py Steps

/-! ### What the modules returned -/

section Genuine

variable (host : Host) (beh : Behaviour) (S : Call → Prop)

/-- What the ports of a node are fed: the payloads bound to them, and for an edge the
port it reads of what the module of some node with its source's key returned for
what that node was fed. -/
inductive Fed : Call → Str → List PortSpec → List (Str × Bytes) → Prop
  | nil {call v} : Fed call v [] []
  | payload {call v port ports id p rest}
      (hfeed : feedOf call (v, port.name) = some (.payload id))
      (hp : call.session.payloads.lookup id = some p) (hrest : Fed call v ports rest) :
      Fed call v (port :: ports) ((port.name, p.data) :: rest)
  | port {call v port ports u q r call' u' r' n m inputs results result rest}
      (hfeed : feedOf call (v, port.name) = some (.edge u q)) (hr : HasRecipe call u r)
      (hS : S call') (hr' : HasRecipe call' u' r')
      (hkey : r'.key host.blake2b = r.key host.blake2b)
      (hn : call'.graph.nodesById.lookup u' = some n)
      (hm : call'.registry.get n.module = some m) (hfed : Fed call' u' m.inputs inputs)
      (hret : beh m (Dict.ofPairs inputs) n.params call'.draft (.ok results))
      (hconf : Conforms m results) (hresult : results.lookup q = some result)
      (hrest : Fed call v ports rest) :
      Fed call v (port :: ports) ((port.name, result.data) :: rest)

/-- What the module of the node returned for what the node was fed, with its
parameters and the draft flag of its call. -/
def Returned (call : Call) (v : Str) (results : Results) : Prop :=
  ∃ n m inputs, call.graph.nodesById.lookup v = some n ∧ call.registry.get n.module = some m ∧
    Fed host beh S call v m.inputs inputs ∧
      beh m (Dict.ofPairs inputs) n.params call.draft (.ok results) ∧ Conforms m results

/-- Returned for a node of one of the calls that has this key. -/
def Made (key : String) (results : Results) : Prop :=
  ∃ call v r, S call ∧ HasRecipe call v r ∧ r.key host.blake2b = key ∧
    Returned host beh S call v results

/-- A text shows the heads alike: the same module and draft flag, and parameters up
to halves that make a character. -/
structure Head.Alike (h h' : Head) : Prop where
  name : h.name = h'.name
  version : h.version = h'.version
  shown : shownParams h.params = shownParams h'.params
  draft : h.draft = h'.draft

/-- **The output is one the graph asks for**, as it was returned for a node of one of
the calls that has the key of its own node: its head is alike and, where keys tell
the calls apart, the same, with the same payloads behind its inputs. -/
def Genuine (call : Call) (o : ExecutionOutput) : Prop :=
  o.key ∈ call.graph.outputs.map OutputRef.key ∧
    ∃ r call' v r' results, HasRecipe call o.node r ∧ S call' ∧ HasRecipe call' v r' ∧
      r'.head.Alike r.head ∧ (KeysTell host S → r'.forgetPorts = r.forgetPorts) ∧
        Returned host beh S call' v results ∧ results.lookup o.port = some ⟨o.type, o.data⟩

variable {host beh S}

/-- What unfolds the inputs in a session unfolds them later on. -/
theorem HasInputs.grow {call : Call} {session : Session} (hgrow : ∀ id p,
    call.session.payloads.lookup id = some p → session.payloads.lookup id = some p) {v : Str}
    {ports : List PortSpec} {inputs : Inputs} (h : HasInputs call v ports inputs) :
    HasInputs { call with session := session } v ports inputs := by
  induction h with
  | nil => exact .nil
  | payload hfeed hp _ ih => exact .payload hfeed (hgrow _ _ hp) ih
  | port hfeed hn hm _ _ ihsrc ihrest => exact .port hfeed hn hm ihsrc ihrest

/-- What is returned for a key stays so when payloads are added. -/
theorem Genuine.grow {service : Service} {req : JobRequest} {session session' : Session}
    (hgrow : ∀ id p, session.payloads.lookup id = some p → session'.payloads.lookup id = some p)
    {o : ExecutionOutput} (h : Genuine host beh S (req.call service session) o) :
    Genuine host beh S (req.call service session') o := by
  obtain ⟨hkey, r, call', v, r', results, ⟨n, m, hn, hm, hhead, hin⟩, hrest⟩ := h
  have hin' : HasInputs (req.call service session') o.node m.inputs r.inputs := hin.grow hgrow
  exact ⟨hkey, r, call', v, r', results, ⟨n, m, hn, hm, hhead, hin'⟩, hrest⟩

end Genuine

section Server

variable {service : Service} {beh : Behaviour} {P P' : Server}

/-- The calls of a server are calls of the server later on. -/
theorem Server.Calls.reaches (hrun : ServerReaches service beh P P') {call : Call}
    (h : P.Calls service call) : P'.Calls service call := by
  induction hrun with
  | refl => exact h
  | tail _ hfire ih =>
      obtain ⟨hgrown, hjobs⟩ := server_later hfire
      exact ih.later hgrown hjobs

end Server

/-! ### What the graph means -/

section Meaning

variable {run : Run}

/-- Ports read the same in every later session. -/
theorem Reads.grow {call : Call} {session : Session} (hgrow : ∀ id p,
    call.session.payloads.lookup id = some p → session.payloads.lookup id = some p) {v : Str}
    {ports : List PortSpec} {inputs : List (Str × Bytes)} (h : Reads run call v ports inputs) :
    Reads run { call with session := session } v ports inputs := by
  induction h with
  | nil => exact .nil
  | payload hfeed hp _ ih => exact .payload hfeed (hgrow _ _ hp) ih
  | port hfeed hn hm _ hresult _ ihsrc ihrest => exact .port hfeed hn hm ihsrc hresult ihrest

/-- The output is one the graph asks for, and the value of its port. -/
def Computed (run : Run) (call : Call) (o : ExecutionOutput) : Prop :=
  o.key ∈ call.graph.outputs.map OutputRef.key ∧ ∃ results, HasValue run call o.node results ∧
    results.lookup o.port = some ⟨o.type, o.data⟩

theorem Computed.grow {service : Service} {req : JobRequest} {session session' : Session}
    (hgrow : ∀ id p, session.payloads.lookup id = some p → session'.payloads.lookup id = some p)
    {o : ExecutionOutput} (h : Computed run (req.call service session) o) :
    Computed run (req.call service session') o := by
  obtain ⟨hkey, results, ⟨n, m, inputs, hn, hm, hread, heq⟩, hport⟩ := h
  have hread' : Reads run (req.call service session') o.node m.inputs inputs := hread.grow hgrow
  exact ⟨hkey, results, ⟨n, m, inputs, hn, hm, hread', heq⟩, hport⟩

/-- A node of a valid call has one value. -/
theorem HasValue.unique (hsame : ∀ m inputs p p' draft, p.toJson.Same p'.toJson →
      run m inputs p draft = run m inputs p' draft) {call : Call} (hw : call.Valid) {v : Str}
    {results results' : Results} (h : HasValue run call v results)
    (h' : HasValue run call v results') : results = results' := by
  obtain ⟨n, -, -, hn, -⟩ := id h
  obtain ⟨hmem, hid⟩ := mem_nodeIds_of_lookup hn
  subst hid
  obtain ⟨rec, hrec⟩ := exists_hasRecipe hw (List.mem_map.mpr ⟨n, hmem, rfl⟩)
  exact h.eq_of_recipe hsame rfl hrec hrec h'

/-- The evaluator has an answer for every valid call, and it lists what is
computed. -/
theorem exists_referenceOutputs (hsame : ∀ m inputs p p' draft, p.toJson.Same p'.toJson →
      run m inputs p draft = run m inputs p' draft) {call : Call} (hw : call.Valid)
    (hconf : run.Conforms call.registry) :
    ∃ outputs, referenceOutputs run call = some outputs ∧
      outputs.map ExecutionOutput.key = call.graph.outputs.map OutputRef.key ∧
      ∀ o, Computed run call o → o ∈ outputs := by
  obtain ⟨order, values, horder, hvals, hknown⟩ := exists_referenceValues hw hconf
  -- the value of an output, if it is one of a valid call
  let look : OutputRef → Option ExecutionOutput := fun o => do
    let results ← values.lookup o.node
    let result ← results.lookup o.port
    return ⟨o.node, o.port, result.type, result.data⟩
  have hlook : ∀ ref ∈ call.graph.outputs, ∃ output, look ref = some output ∧
      output.key = ref.key ∧ ∀ o, Computed run call o → o.key = ref.key → o = output := by
    intro ref href
    obtain ⟨ty, hout⟩ := hw.output_known ref href
    obtain ⟨n, -, hn, -, -⟩ := nodeManifest_of_outputType hout
    obtain ⟨hmem, hid⟩ := mem_nodeIds_of_lookup hn
    obtain ⟨results, hres, hval⟩ := hknown ref.node (hid ▸ List.mem_map.mpr ⟨n, hmem, rfl⟩)
    obtain ⟨result, hresult⟩ := hval.port hconf hout
    refine ⟨⟨ref.node, ref.port, result.type, result.data⟩, by simp [look, hres, hresult], rfl, ?_⟩
    rintro ⟨node, port, type, data⟩ ⟨-, results', hval', hport'⟩ hkey
    obtain ⟨rfl, rfl⟩ := Prod.mk.inj hkey
    obtain rfl := hval.unique hsame hw hval'
    obtain rfl := Option.some.inj (hresult.symm.trans hport')
    rfl
  have hall : ∀ refs : List OutputRef, (∀ ref ∈ refs, ref ∈ call.graph.outputs) →
      ∃ outputs, refs.mapM look = some outputs ∧
        outputs.map ExecutionOutput.key = refs.map OutputRef.key ∧
        ∀ ref ∈ refs, ∀ o, Computed run call o → o.key = ref.key → o ∈ outputs := by
    intro refs hrefs
    induction refs with
    | nil => exact ⟨[], rfl, rfl, by simp⟩
    | cons ref refs ih =>
        obtain ⟨outputs, houtputs, hkeys, hmem⟩ :=
          ih fun ref' href' => hrefs ref' (List.mem_cons_of_mem _ href')
        obtain ⟨output, hoo, hkey, honly⟩ := hlook ref (hrefs ref List.mem_cons_self)
        refine ⟨output :: outputs, by simp [hoo, houtputs], by simp [hkey, hkeys], ?_⟩
        intro ref' href' o hcomputed hkey'
        rcases List.mem_cons.mp href' with rfl | href'
        · rw [honly o hcomputed hkey']
          exact List.mem_cons_self
        · exact List.mem_cons_of_mem _ (hmem ref' href' o hcomputed hkey')
  obtain ⟨outputs, houtputs, hkeys, hmem⟩ := hall call.graph.outputs fun _ => id
  refine ⟨outputs, ?_, hkeys, fun o hcomputed => ?_⟩
  · simp only [referenceOutputs, horder, hvals, Option.bind_eq_bind, Option.bind_some]
    exact houtputs
  · obtain ⟨ref, href, hkey⟩ := List.mem_map.mp hcomputed.1
    exact hmem ref href o hcomputed hkey.symm

/-- Fewer calls are told apart the sooner. -/
theorem NoConfusion.mono {host : Host} {S S' : Call → Prop} (h : NoConfusion host S)
    (hsub : ∀ call, S' call → S call) : NoConfusion host S' where
  spelling := fun call hS v port id p hfeed hp call' hS' =>
    h.spelling call (hsub call hS) v port id p hfeed hp call' (hsub call' hS')
  homographs := fun call hS v r hr call' hS' =>
    h.homographs call (hsub call hS) v r hr call' (hsub call' hS')
  ports := fun call call' hS hS' => h.ports call call' (hsub call hS) (hsub call' hS')

variable {service : Service} {P : Server}

/-- What a worker hands over is the value of the graph's port. -/
theorem computed_of_calling (hinj : Function.Injective service.host.blake2b)
    (hconf : run.Conforms service.registry) (hsame : ∀ m inputs p p' draft,
      p.toJson.Same p'.toJson → run m inputs p draft = run m inputs p' draft)
    (hrun : ServerReaches service run.behaviour Server.empty P)
    (hno : NoConfusion service.host (P.Calls service)) {i : Nat} {req : JobRequest} {s : ExecState}
    (hruns : P.Runs i req s) {t : Nat} {output : ExecutionOutput}
    (hcall : s.calling t = some output) :
    Computed run (req.call service (P.store.sessions req.session).session) output := by
  obtain ⟨E, place, hE, hmirrors⟩ := server_refines_engine hrun
  obtain ⟨session, hkeeps, hw, hat⟩ := hmirrors.runs i req s hruns
  have hreg : ∀ call, P.Calls service call → call.registry = service.registry := by
    rintro call ⟨-, i, req, j, session, -, -, rfl⟩
    rfl
  have hno' : NoConfusion service.host fun call => P.Calls service call ∧ call.Valid :=
    hno.mono fun _ hcall => hcall.1
  have hempty : CacheValues service.host run (P.Calls service) ∅ := by
    intro key results hget
    simp at hget
  -- only calls of this server have taken part
  have hE' : EngineReaches service.host (P.Calls service) run.behaviour Engine.empty E := by
    refine hE.restrict fun call hmem => ?_
    obtain ⟨x, hx, rfl⟩ := List.mem_map.mp hmem
    exact hmirrors.calls x hx
  have hinv := engine_inv (transparent_rule hinj hconf hsame hreg hno') hempty hE'
  have hI := (hinv.members _ _ _ hat).2
  have hcalls := engine_callsOk hE (List.mem_of_getElem? hat)
  obtain ⟨hkey, results, hres, hport⟩ := calling_recorded hw hI hcalls hcall
  -- what was recorded is the value of the reference
  have hcomputed : Computed run (req.call service session) output :=
    ⟨hkey, results, recorded_value (hI.1 hw).data _ _ hres, hport⟩
  exact hcomputed.grow hkeeps

end Meaning

/-! ### What a client gets -/

section Client

variable {service : Service} {beh : Behaviour} {A B : App} {session job : Str} {i n m : Nat}
  {req : JobRequest} {j : JobState} {reply : SessionReply} {r : OutputRecord}

end Client

/-! ### A job that is redeemed -/

/-- The call of a job that executes. -/
def JobStage.call? : JobStage → Option ExecState
  | .executing _ s => some s
  | _ => none

theorem JobStage.call?_eq_some_iff {st : JobStage} {s : ExecState} :
    st.call? = some s ↔ ∃ groups, st = .executing groups s := by
  cases st <;> simp [call?]

section Decide

variable {beh : Behaviour} [∀ call x a, Decidable (Permits beh call x a)] (service : Service)

instance (req : JobRequest) (x : Desk × JobState) (a : JobAct) :
    Decidable (JobOk service req beh x a) :=
  match a with
  | .exec a =>
    decidable_of_iff (∀ s ∈ x.2.stage.call?,
        Permits beh (req.call service x.1.2.session) (x.1.1, s) a) (by
      simp only [JobOk, Option.mem_def, JobStage.call?_eq_some_iff]
      exact ⟨fun h groups s hst => h s ⟨groups, hst⟩, fun h s ⟨groups, hst⟩ => h groups s hst⟩)
  | .gate (.add _ id) => inferInstanceAs (Decidable (id ∉ x.1.2.session.payloads))
  | .gate (.call _ _) | .gate (.record _) | .gate (.announce _) | .gate (.flush _) | .gate (.ret _)
  | .advance | .cancel => isTrue trivial

instance (m : Party) (x : ServerStore × PartyState) (a : PartyAct) :
    Decidable (PartyOk service beh m x a) :=
  match m, x, a with
  | .job req, (k, .job j), .job a =>
    inferInstanceAs (Decidable (JobOk service req beh (k.desk req.session, j) a))
  | .job _, (_, .job _), .store _ | .job _, (_, .uploading), .job _
  | .job _, (_, .uploading), .store _ | .job _, (_, .uploaded _), .job _
  | .job _, (_, .uploaded _), .store _ | .upload _ _ _, (_, _), .job _ => isTrue trivial
  | .upload session _ _, (k, _), .store id =>
    inferInstanceAs (Decidable (id ∉ (k.sessions session).session.payloads))

instance (A : App) (i : Nat) (a : PartyAct) : Decidable (A.Permits service beh i a) :=
  inferInstanceAs (Decidable (∀ x ∈ A.server.members[i]?,
    PartyOk service beh x.1 (A.server.store, x.2) a))

instance (A : App) (a : AppAct) : Decidable (AppOk service beh A a) :=
  match a with
  | .handler _ (.create id) => inferInstanceAs (Decidable (∀ x ∈ A.handlers, x.2.drawn ≠ some id))
  | .handler _ (.body _ job) =>
    inferInstanceAs (Decidable (∀ x ∈ A.server.members, x.1.token ≠ some job))
  | .handler n (.store id) =>
    inferInstanceAs (Decidable (∀ x ∈ A.handlers[n]?, ∀ i ∈ x.2.worker,
      A.Permits service beh i (.store id)))
  | .thread i a => inferInstanceAs (Decidable (A.Permits service beh i (.job a)))
  | .request _ | .handler _ .go | .handler _ (.data _) => isTrue trivial

end Decide

/-- The job's thread runs its one node and announces the output. -/
def splitThread : List JobAct :=
  ([.loop, .submit, .submit, .worker 0 .start, .worker 0 .lookup,
    .worker 0 (.ret (.ok (resultsWith splitModule fun p => nameBytes p.name))), .worker 0 .check,
    .worker 0 .put, .worker 0 .record, .worker 0 .notify, .worker 0 .emit] : List Act).map .exec ++
    [.gate (.call 0 ⟨"s", "a", "text", encode "a"⟩), .gate (.add 0 "p"), .gate (.record 0),
      .gate (.announce 0)] ++
    ([.worker 0 .emitted, .worker 0 .finish, .wait [0], .process [], .loop] : List Act).map .exec ++
    List.replicate 4 .advance

/-- A session, a submission, the job's whole life, a poll, and a download that
comes in. -/
def redeemActs : List AppAct :=
  [.request .createSession, .handler 0 (.create "s"), .handler 0 .go,
    .request (.submitJob "s"), .handler 1 .go, .handler 1 .go,
    .handler 1 (.body (some splitBody) "job"), .handler 1 .go, .handler 1 .go, .handler 1 .go] ++
    List.replicate 4 (.thread 0 .advance) ++ splitThread.map (.thread 0) ++
    [.request (.getJob "s" "job"), .handler 2 .go, .handler 2 .go,
      .request (.downloadPayload "s" "p")]

theorem Server.only_of_length {P : Server} {req : JobRequest} {j : JobState}
    (hlength : P.members.length = 1) (hjob : P.jobAt 0 = some (req, j)) :
    ∀ i req' j', P.jobAt i = some (req', j') → req' = req := by
  intro i req' j' hi
  have hlt : i < P.members.length :=
    (List.getElem?_eq_some_iff.mp (Server.jobAt_eq_some.mp hi)).1
  obtain rfl : i = 0 := by omega
  exact (Prod.mk.inj (Option.some.inj (hi.symm.trans hjob))).1

/-- Calls of one node, which reads nothing. -/
theorem noConfusion_split {P : Server} {req : JobRequest}
    (honly : ∀ i req' j', P.jobAt i = some (req', j') → req' = req)
    (hbindings : req.graph.bindings = [])
    (hnodes : req.graph.nodes.map (fun n => (n.id, n.module)) = [(.text "s", .text "split")]) :
    NoConfusion sampleHost (P.Calls sampleService) := by
  have hreq : ∀ call, P.Calls sampleService call →
      ∃ session, call = req.call sampleService session := by
    rintro call ⟨-, i, req', j', session, hi, -, rfl⟩
    rw [honly i req' j' hi]
    exact ⟨session, rfl⟩
  have hsplit : sampleService.registry.get "split" = some splitModule := rfl
  -- every recipe of it is that of `split`
  have hrecipe : ∀ (session : Session) (v : Str) (rec : Recipe),
      HasRecipe (req.call sampleService session) v rec →
        ∃ n, (req.call sampleService session).graph.nodesById.lookup (.text "s") = some n ∧
          rec = ⟨headOf (req.call sampleService session) n splitModule, .nil⟩ := by
    rintro session v ⟨head, inputs⟩ ⟨n, m, hn, hm, rfl, hin⟩
    obtain ⟨hmem, hid⟩ := mem_nodeIds_of_lookup hn
    have hpair : (n.id, n.module) ∈ req.graph.nodes.map fun n => (n.id, n.module) :=
      List.mem_map.mpr ⟨n, hmem, rfl⟩
    rw [hnodes] at hpair
    obtain ⟨hs, hmodule⟩ := Prod.mk.inj (List.mem_singleton.mp hpair)
    obtain rfl : v = "s" := hid.symm.trans hs
    rw [hmodule] at hm
    obtain rfl := Option.some.inj (hsplit.symm.trans hm)
    have hnil : inputs = .nil := by
      cases hin
      rfl
    exact ⟨n, hn, by rw [hnil]⟩
  have hone : ∀ call call', P.Calls sampleService call → P.Calls sampleService call' →
      ∀ v v' rec rec', HasRecipe call v rec → HasRecipe call' v' rec' → rec = rec' := by
    intro call call' hcall hcall' v v' rec rec' hrec hrec'
    obtain ⟨session, rfl⟩ := hreq call hcall
    obtain ⟨session', rfl⟩ := hreq call' hcall'
    obtain ⟨n, hn, rfl⟩ := hrecipe session v rec hrec
    obtain ⟨n', hn', rfl⟩ := hrecipe session' v' rec' hrec'
    obtain rfl := Option.some.inj (hn.symm.trans hn')
    rfl
  refine ⟨⟨?_, ?_⟩, ?_⟩
  · intro call hcall v port id p hfeed
    obtain ⟨session, rfl⟩ := hreq call hcall
    obtain ⟨b, hb, -⟩ := binding_of_feedOf hfeed
    have hb' : b ∈ req.graph.bindings := hb
    rw [hbindings] at hb'
    cases hb'
  · intro call hcall v rec hrec call' hcall' v' rec' hrec' hsame
    exact hsame.differ (by rw [hone call call' hcall hcall' v v' rec rec' hrec hrec'])
  · intro call call' hcall hcall' v v' rec rec' hrec hrec' _
    exact hone call call' hcall hcall' v v' rec rec' hrec hrec'

end Formshift
