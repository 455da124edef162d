/-
Formshift/EventOrder.lean

The events of a job respect its graph.

A node starts when its ancestors are processed, and a processed node's thread
has come back from `on_node` and from every call of `on_output`.  So whoever
appends an event about a node finds the ancestors' completions, and their
outputs outside the pinned groups, in the log (`RunInv.settled`).  Main result:
the order of the log and of `job.outputs` follows the edges of the graph
(`events_respect_graph`).
-/
import Formshift.Lib.History
import Formshift.Lifecycle

namespace Formshift

open Py Steps

/-! ### Order in a log -/

/-- The node a progress event is about. -/
def EventBody.about : EventBody → Option Str
  | .nodeCompleted node _ => some node
  | .jobOutput record => some record.node
  | .jobStatus _ | .jobCompleted | .jobFailed _ | .jobCancelled => none

/-- The node's completion, or an output of it that waits for nobody. -/
def EventBody.IsEarly (g : Graph) (node : Str) : EventBody → Prop
  | .nodeCompleted node' _ => node' = node
  | .jobOutput record => record.node = node ∧ Direct g record.key
  | .jobStatus _ | .jobCompleted | .jobFailed _ | .jobCancelled => False

/-- Completed, with everything declared that waits for nobody announced. -/
structure Settled (g : Graph) (bodies : List EventBody) (u : Str) : Prop where
  completed : u ∈ completedNodes bodies
  announced : ∀ ref ∈ g.outputs, ref.node = u → Direct g ref.key →
    ref.key ∈ (outputsOf bodies).map OutputRecord.key

/-- What has to be in the log when an event is appended. -/
structure Follows (g : Graph) (before : List EventBody) (e : EventBody) : Prop where
  ancestors : ∀ u v, e.about = some v → Relation.TransGen g.Feeds u v → Settled g before u
  own : ∀ record, e = .jobOutput record → record.node ∈ completedNodes before

/-- What has to be in `job.outputs` when a record is appended. -/
def RecordFollows (g : Graph) (before : List OutputRecord) (r : OutputRecord) : Prop :=
  ∀ ref ∈ g.outputs, Relation.TransGen g.Feeds ref.node r.node → Direct g ref.key →
    ref.key ∈ before.map OutputRecord.key

/-- The order of the events of a job. -/
structure RespectsGraph (g : Graph) (bodies : List EventBody) : Prop where
  /-- What an ancestor says early comes before what the node says, -/
  ancestors : ∀ (i k : Nat) e e' u v, bodies[i]? = some e → bodies[k]? = some e' →
    e.IsEarly g u → e'.about = some v → Relation.TransGen g.Feeds u v → i < k
  /-- and it has been said by then. -/
  settled : ∀ (k : Nat) e' u v, bodies[k]? = some e' → e'.about = some v →
    Relation.TransGen g.Feeds u v → Settled g (bodies.take k) u
  /-- A node's completion comes before its outputs, -/
  own : ∀ (i k : Nat) v cached record, bodies[i]? = some (.nodeCompleted v cached) →
    bodies[k]? = some (.jobOutput record) → record.node = v → i < k
  /-- and is there by then. -/
  completed : ∀ (k : Nat) record, bodies[k]? = some (.jobOutput record) →
    record.node ∈ completedNodes (bodies.take k)

/-- The key of an announced output. -/
def EventBody.outputKey? (e : EventBody) : Option (Str × Str) :=
  e.output?.map OutputRecord.key

theorem map_key_outputsOf (bodies : List EventBody) :
    (outputsOf bodies).map OutputRecord.key = bodies.filterMap EventBody.outputKey? := by
  rw [outputsOf, List.map_filterMap]
  rfl

section Order

variable {g : Graph} {bodies : List EventBody}

/-- Where nothing is announced twice, what had to be there is in order. -/
theorem respectsGraph_of_justified (h : Justified (Follows g) bodies)
    (hnodes : (completedNodes bodies).Nodup)
    (houts : ((outputsOf bodies).map OutputRecord.key).Nodup)
    (hdeclared : ∀ r ∈ outputsOf bodies, r.key ∈ g.outputs.map OutputRef.key) :
    RespectsGraph g bodies := by
  rw [map_key_outputsOf] at houts
  refine ⟨?_, fun k e' u v hk => (h.at hk).ancestors u v, ?_, fun k record hk => (h.at hk).own _ rfl⟩
  · intro i k e e' u v hi hk hearly habout huv
    have hsettled := (h.at hk).ancestors u v habout huv
    cases e with
    -- an ancestor that came later would have come twice
    | nodeCompleted node cached =>
        obtain rfl : node = u := hearly
        exact h.lt EventBody.node? hnodes hi hk (b := node) rfl fun _ => hsettled.completed
    -- likewise an output of its own
    | jobOutput record =>
        obtain ⟨rfl, hdirect⟩ := hearly
        refine h.lt EventBody.outputKey? houts hi hk (b := record.key) rfl fun _ => ?_
        have hmem : record ∈ outputsOf bodies :=
          List.mem_filterMap.mpr ⟨_, List.mem_of_getElem? hi, rfl⟩
        obtain ⟨ref, href, hkey⟩ := List.mem_map.mp (hdeclared record hmem)
        rw [← map_key_outputsOf, ← hkey]
        exact hsettled.announced ref href (Prod.mk.inj hkey).1 (hkey ▸ hdirect)
    | jobStatus | jobCompleted | jobFailed | jobCancelled => exact hearly.elim
  · rintro i k v cached record hi hk rfl
    exact h.lt EventBody.node? hnodes hi hk (b := record.node) rfl fun hfollows => hfollows.own _ rfl

/-- Records along a path of the graph come in the order of the path. -/
theorem path_order {outputs : List OutputRecord} (h : Justified (RecordFollows g) outputs)
    (hnodup : (outputs.map OutputRecord.key).Nodup)
    (hdeclared : ∀ r ∈ outputs, r.key ∈ g.outputs.map OutputRef.key)
    (hdirect : ∀ o ∈ g.outputs, Direct g o.key) {path : List Str}
    (hpath : path.IsChain g.Feeds) :
    (outputs.filter fun r => r.node ∈ path).Pairwise fun r r' =>
      path.idxOf r.node ≤ path.idxOf r'.node := by
  -- later on the path is downstream
  have hbehind : path.Pairwise (Relation.TransGen g.Feeds) :=
    (hpath.imp fun _ _ => Relation.TransGen.single).pairwise
  -- no output comes before one that is upstream of it
  have hforward : outputs.Pairwise fun r r' => ¬ Relation.TransGen g.Feeds r'.node r.node := by
    refine List.pairwise_iff_getElem.mpr fun i k hi hk hik hback => ?_
    obtain ⟨ref, href, hkey⟩ := List.mem_map.mp (hdeclared _ (List.getElem_mem hk))
    have hnode : ref.node = outputs[k].node := (Prod.mk.inj hkey).1
    refine absurd (h.lt (fun r => some r.key) (by simpa [List.filterMap_eq_map] using hnodup)
      (List.getElem?_eq_getElem hk) (List.getElem?_eq_getElem hi) rfl fun hfollows => ?_)
      (Nat.lt_asymm hik)
    have hmem := hfollows ref href (hnode ▸ hback) (hdirect ref href)
    rw [show ref.key = outputs[k].key from hkey] at hmem
    simpa [List.filterMap_eq_map] using hmem
  refine (List.pairwise_filter.mpr (hforward.imp fun {r r'} hno hr hr' => ?_))
  by_contra hlt
  have hr₀ : r.node ∈ path := by simpa using hr
  have hr₁ : r'.node ∈ path := by simpa using hr'
  have htrans := List.pairwise_iff_getElem.mp hbehind _ _ (List.idxOf_lt_length_iff.mpr hr₁)
    (List.idxOf_lt_length_iff.mpr hr₀) (Nat.lt_of_not_le hlt)
  rw [List.getElem_idxOf, List.getElem_idxOf] at htrans
  exact hno htrans

end Order

/-! ### One job -/

section Job

variable {service : Service} {req : JobRequest} {beh : Behaviour} {host : Host} {call : Call}
  {job : Str} {k : SessionState} {gate : GateState} {s : ExecState}

/-- The ancestors of a node that was submitted have said all that waits for nobody. -/
theorem RunInv.settled (h : RunInv host call job k gate s) {u v : Str}
    (hv : v ∈ s.submitted) (huv : Relation.TransGen call.graph.Feeds u v) :
    Settled call.graph (k.events.ofJob job) u ∧
      ∀ ref ∈ call.graph.outputs, ref.node = u → Direct call.graph ref.key →
        ref.key ∈ gate.outputs.map OutputRecord.key := by
  have hproc := h.exec.sched.ancestor_processed huv (List.mem_append_left _ hv)
  obtain ⟨f, hf, rfl, hfin⟩ := h.exec.sched.processed u hproc
  obtain ⟨t, ht⟩ := List.mem_iff_getElem?.mp hf
  obtain ⟨hcompleted, hidle, hhanded⟩ := h.finished ht hfin
  have howned : ∀ ref ∈ call.graph.outputs, ref.node = f.node → (ref.key, t) ∈ gate.handed :=
    fun ref href hnode => hhanded _
      (List.mem_map.mpr ⟨ref, List.mem_filter.mpr ⟨href, by simpa using hnode⟩, rfl⟩)
  have hreturned : ∀ key, ¬ (gate.calls t).EmitsDirectly key := by
    rintro key ⟨o, group, step, hcall, -⟩
    rw [hidle] at hcall
    cases hcall
  refine ⟨⟨hcompleted, fun ref href hnode hd => ?_⟩, fun ref href hnode hd => ?_⟩
  · exact (h.inOrder.direct_emitted (howned ref href hnode) hd).resolve_right (hreturned _)
  · exact (h.inOrder.direct _ t (howned ref href hnode) hd).resolve_right (hreturned _)

/-- What was handed over comes from a node that was submitted. -/
theorem RunInv.submitted_of_handed (h : RunInv host call job k gate s) {key : Str × Str}
    (hkey : key ∈ gate.handed.map Prod.fst) : key.1 ∈ s.submitted := by
  obtain ⟨p, hp, rfl⟩ := List.mem_map.mp hkey
  obtain ⟨f, hf, hown⟩ := h.handed_by p hp
  rw [node_of_mem_outputsByNode hown]
  exact List.mem_map.mpr ⟨f, List.mem_of_getElem? hf, rfl⟩

/-- The log and `job.outputs` were built in order. -/
structure Orderly (req : JobRequest) (k : SessionState) (gate : GateState) : Prop where
  bodies : Justified (Follows req.graph) (k.events.ofJob req.token)
  outputs : Justified (RecordFollows req.graph) gate.outputs
  /-- Outputs are handed over after `on_node`. -/
  handed : ∀ p ∈ gate.handed, p.1.1 ∈ completedNodes (k.events.ofJob req.token)

/-- Appending an event about no node. -/
theorem Orderly.log (h : Orderly req k gate) {body : EventBody} (hbody : body.about = none) :
    Orderly req (k.log req.token body) gate := by
  have hlog : (k.log req.token body).events.ofJob req.token =
      k.events.ofJob req.token ++ [body] := by simp
  refine ⟨?_, h.outputs, fun p hp => ?_⟩
  · rw [hlog]
    refine justified_concat.mpr ⟨h.bodies, ?_, ?_⟩
    · rintro u v hv -
      rw [hbody] at hv
      cases hv
    · rintro record rfl
      cases hbody
  · rw [hlog, completedNodes_append]
    exact List.mem_append_left _ (h.handed p hp)

/-- `on_node`. -/
theorem Orderly.notify (h : Orderly req k gate) {session : Session} {f : Future} {i : Nat}
    (hrun : RunInv host (req.call service session) req.token k gate s)
    (hf : s.futures[i]? = some f) (cached : Bool) :
    Orderly req (k.log req.token (.nodeCompleted f.node cached)) gate := by
  have hlog : (k.log req.token (.nodeCompleted f.node cached)).events.ofJob req.token =
      k.events.ofJob req.token ++ [.nodeCompleted f.node cached] := by simp
  refine ⟨?_, h.outputs, fun p hp => ?_⟩
  · rw [hlog]
    refine justified_concat.mpr ⟨h.bodies, ?_, fun record hrec => by cases hrec⟩
    intro u v hv huv
    obtain rfl := Option.some.inj hv
    exact (hrun.settled (List.mem_map.mpr ⟨f, List.mem_of_getElem? hf, rfl⟩) huv).1
  · rw [hlog, completedNodes_append]
    exact List.mem_append_left _ (h.handed p hp)

/-- `job.output`, by whichever thread. -/
theorem Orderly.output (h : Orderly req k gate) {session : Session}
    (hrun : RunInv host (req.call service session) req.token k gate s)
    {t : Nat} {output : ExecutionOutput} {group : Option Str} {gated : Bool} {id : Str}
    (hcall : gate.calls t = .emitting output group gated (.announce id)) :
    Orderly req (k.log req.token (.jobOutput (output.record id group))) gate := by
  have hlog : (k.log req.token (.jobOutput (output.record id group))).events.ofJob req.token =
      k.events.ofJob req.token ++ [.jobOutput (output.record id group)] := by simp
  have hhanded := hrun.inOrder.emitting_handed hcall
  refine ⟨?_, h.outputs, fun p hp => ?_⟩
  · rw [hlog]
    refine justified_concat.mpr ⟨h.bodies, ?_, ?_⟩
    · intro u v hv huv
      obtain rfl := Option.some.inj hv
      exact (hrun.settled (hrun.submitted_of_handed hhanded) huv).1
    · intro record hrec
      rw [← EventBody.jobOutput.inj hrec]
      obtain ⟨p, hp, hkey⟩ := List.mem_map.mp hhanded
      have hcompleted := h.handed p hp
      rw [hkey] at hcompleted
      exact hcompleted
  · rw [hlog, completedNodes_append]
    exact List.mem_append_left _ (h.handed p hp)

/-- The calls of `on_output` keep the order. -/
theorem Orderly.onOutput (h : Orderly req k gate) {session : Session} {groups : Groups}
    (hw : WellFormed req.graph service.registry session)
    (hrun : RunInv host (req.call service session) req.token k gate s) {a : GateAct}
    {y : SessionState × GateState}
    (hcalling : ∀ t output, a = .call t output → s.calling t = some output)
    (hs : gateStep groups req.token (k, gate) a = some y) : Orderly req y.1 y.2 := by
  -- who calls has completed its node
  have hcompleted : ∀ t output, a = .call t output → gate.calls t = .idle →
      output.key.1 ∈ completedNodes (k.events.ofJob req.token) := by
    intro t output ha hidle
    obtain ⟨-, f, results, todo, hf, hst, hkey, -⟩ := hrun.call_ok hw (hcalling t output ha) hidle
    rw [node_of_mem_outputsByNode hkey]
    exact (hrun.futures t f hf (by rw [hst]; rfl)).1.mpr (by rw [hst]; rfl)
  have hhand : ∀ {t : Nat} {output : ExecutionOutput}, a = .call t output → gate.calls t = .idle →
      ∀ p ∈ gate.handed ++ [(output.key, t)], p.1.1 ∈ completedNodes (k.events.ofJob req.token) := by
    intro t output ha hidle p hp
    rcases List.mem_append.mp hp with hp | hp
    · exact h.handed p hp
    · rw [List.mem_singleton.mp hp]
      exact hcompleted t output ha hidle
  cases gateStep_move groups req.token hs with
  | direct hcall => exact ⟨h.bodies, h.outputs, hhand rfl hcall⟩
  | enter hcall => exact ⟨h.bodies, h.outputs, hhand rfl hcall⟩
  | add | next | leave | ret => exact ⟨h.bodies, h.outputs, h.handed⟩
  -- what is upstream has been recorded by then
  | @record t id output group gated hcall =>
      have hhanded := hrun.inOrder.emitting_handed hcall
      refine ⟨h.bodies, justified_concat.mpr ⟨h.outputs, ?_⟩, h.handed⟩
      intro ref href hback hd
      exact (hrun.settled (hrun.submitted_of_handed hhanded) hback).2 ref href rfl hd
  | announceGated hcall =>
      have hout := h.output hrun hcall
      exact ⟨hout.bodies, hout.outputs, hout.handed⟩
  | announce hcall =>
      have hout := h.output hrun hcall
      exact ⟨hout.bodies, hout.outputs, hout.handed⟩

/-- A step of the job. -/
theorem Orderly.step {x y : Desk × JobState} {a : JobAct} (hinv : JobInv service req x.1 x.2)
    (h : Orderly req x.1.2 x.2.gate) (hs : jobStep service req x a = some y) :
    Orderly req y.1.2 y.2.gate := by
  unfold JobInv at hinv
  cases jobStep_move service req hs with
  | refuse | accept | mark | group | stuck | enter | returned | raised | close | exec | cancel =>
      exact h
  | announcePending | announceRunning | announceStatus => exact h.log rfl
  | @announceEnd outcome => exact h.log (by cases outcome <;> rfl)
  | notify hst hf =>
      rw [hst] at hinv
      obtain ⟨session, hd⟩ := hinv
      exact h.notify hd.run hf _
  | emitted hst _ hret =>
      rw [hst] at hinv
      obtain ⟨session, hd⟩ := hinv
      exact h.onOutput hd.valid hd.run (by simp) hret
  | gate hst hcall _ hgate =>
      rw [hst] at hinv
      obtain ⟨session, hd⟩ := hinv
      exact h.onOutput hd.valid hd.run hcall hgate

theorem Orderly.steps {x y : Desk × JobState} (hrun : Reaches (JobSteps service req beh) x y)
    (hinv : JobInv service req x.1 x.2) (h : Orderly req x.1.2 x.2.gate) :
    Orderly req y.1.2 y.2.gate := by
  refine Reaches.invariant_of (J := fun z => JobInv service req z.1 z.2)
    (I := fun z => Orderly req z.1.2 z.2.gate) ?_ ?_ hrun hinv h
  · intro u v huv hu
    exact job_inv hu (.single huv)
  · rintro u v (⟨a, -, hs⟩ | ⟨hsame, hint⟩) hu ho
    · exact ho.step hu hs
    · rw [hsame]
      refine ⟨?_, ho.outputs, fun p hp => ?_⟩
      · rw [hint.events]
        exact ho.bodies
      · rw [hint.events]
        exact ho.handed p hp

/-- **Events respect the graph**: in every state of every run of a server the
log of a job has what an ancestor says of itself before what a node says, and
`job.outputs` of a completed job without pinned outputs lists the nodes of any
path in the order of the path. -/
theorem events_respect_graph {P : Server} {i : Nat} {j : JobState}
    (hrun : ServerReaches service beh Server.empty P) (hdistinct : P.Distinct)
    (hi : P.members[i]? = some (.job req, .job j)) :
    RespectsGraph req.graph ((P.store.sessions req.session).events.ofJob req.token) ∧
      (j.status = .completed → (∀ o ∈ req.graph.outputs, Direct req.graph o.key) →
        ∀ path : List Str, path.IsChain req.graph.Feeds →
          (j.outputs.filter fun r => r.node ∈ path).Pairwise fun r r' =>
            path.idxOf r.node ≤ path.idxOf r'.node) := by
  have hview := job_view_empty hrun hdistinct hi
  have horder : Orderly req (P.store.sessions req.session) j.gate :=
    Orderly.steps hview ⟨rfl, rfl, rfl⟩ ⟨justified_nil, justified_nil, by simp [JobState.init,
      GateState.init]⟩
  have hlife := (server_job_inv hrun hdistinct hi).lifecycle
  refine ⟨respectsGraph_of_justified horder.bodies hlife.nodes_once hlife.outputs_once
    hlife.outputs_known, fun hcompleted hdirect path hpath => ?_⟩
  obtain ⟨-, hannounced, hperm⟩ := hlife.completed (Or.inl hcompleted)
  have hkeys := (hperm.map OutputRecord.key).trans hannounced
  refine path_order horder.outputs ?_ ?_ hdirect hpath
  · exact (hperm.map OutputRecord.key).nodup_iff.mpr hlife.outputs_once
  · exact fun r hr => hkeys.subset (List.mem_map_of_mem hr)

end Job

/-! ### Two nodes in a row -/

/-- `split` feeds `copy`; an output of each is asked for, the later one first. -/
def layersGraph : Graph where
  nodes := [{ id := "s", module := "split" }, { id := "c", module := "copy" }]
  edges := [⟨"s", "a", "c", "in"⟩]
  bindings := []
  outputs := [{ node := "c", port := "out" }, { node := "s", port := "a" }]

def layersRequest : JobRequest := ⟨"job", "session", layersGraph, false⟩

/-- An output is handed over and announced at once. -/
def directJobActs (t : Nat) (output : ExecutionOutput) (id : Str) : List JobAct :=
  [.exec (.worker t .emit), .gate (.call t output), .gate (.add t id), .gate (.record t),
    .gate (.announce t), .exec (.worker t .emitted), .exec (.worker t .finish)]

def layersJobActs : List JobAct :=
  List.replicate 6 .advance ++ ([.loop, .submit, .submit] : List Act).map .exec ++
    (ranActs 0 (emptyResults splitModule)).map .exec ++ directJobActs 0 ⟨"s", "a", "text", []⟩ "p0" ++
    ([.wait [0], .process ["c"], .loop, .submit, .submit] : List Act).map .exec ++
    (ranActs 1 (emptyResults copyModule)).map .exec ++ directJobActs 1 ⟨"c", "out", "text", []⟩ "p1" ++
    ([.wait [1], .process [], .loop] : List Act).map .exec ++ List.replicate 4 .advance

/-- The path through the two nodes. -/
def layersPath : List Str := ["s", "c"]

theorem events_respect_graph_layers : ∃ (P : Server) (j : JobState),
    ServerReaches sampleService anyBehaviour Server.empty P ∧
      P.members[0]? = some (.job layersRequest, .job j) ∧ j.status = .completed ∧
      j.outputs.map OutputRecord.node = [.text "s", .text "c"] ∧
      RespectsGraph layersGraph ((P.store.sessions "session").events.ofJob "job") ∧
      (j.outputs.filter fun r => r.node ∈ layersPath).Pairwise fun r r' =>
        layersPath.idxOf r.node ≤ layersPath.idxOf r'.node := by
  -- the run of the job, up to its end
  have hcheck : (runActs (guarded (partyStep sampleService (.job layersRequest))
      (PartyOk sampleService anyBehaviour (.job layersRequest))) (layersJobActs.map .job)
      (Server.empty.store, .job .init)).bind (fun y =>
        y.2.asJob.map fun j => (j.status, j.outputs.map OutputRecord.node)) =
          some (.completed, [.text "s", .text "c"]) := by
    decide +kernel
  obtain ⟨⟨k, p⟩, hy, hcheck⟩ := Option.bind_eq_some_iff.mp hcheck
  cases p with
  | job j =>
      obtain ⟨hstatus, houts⟩ := Prod.mk.inj (Option.some.inj hcheck)
      have hrun := serverReaches_of_job (reaches_of_guarded hy)
      have horder := events_respect_graph (i := 0) hrun (List.pairwise_singleton _ _) rfl
      refine ⟨_, j, hrun, rfl, hstatus, houts, horder.1, horder.2 hstatus ?_ _ ?_⟩
      · intro o ho ref href hkey group hgroup hp
        obtain ⟨x, hx, -⟩ := hp
        simp [layersRequest, layersGraph] at hx
      · refine List.isChain_pair.mpr ⟨⟨"s", "a", "c", "in"⟩, ?_, rfl, rfl⟩
        simp [layersRequest, layersGraph]
  | uploading | uploaded => cases hcheck

end Formshift
