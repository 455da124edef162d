/-
Formshift/Provenance.lean

What equal cache keys say about two nodes.

An `Instance` is a node whose `run_node` a pool thread has begun, in any call
of the engine.  Each of its inputs is a payload or a node with a key, and its
own key hashes the keys of these, in one list without tags.  So two nodes of
one key have the same module, parameters and draft flag and the same inputs, as
long as no bound payload spells the canonical text of a node and no two nodes are
homographs, that is, differ in parameters whose texts are the same alone; and
where there are such, keys confuse them (`keys_identify_recipes_iff`).
-/
import Formshift.Recipe

namespace Formshift

open Py Steps

/-! ### Instances -/

/-- A begun `run_node`: its call, the state it is seen in, its node and what it
has computed. -/
structure Instance where
  call : Call
  state : ExecState
  node : Str
  begun : NodeCall

/-- A pool thread of the engine has begun this `run_node`. -/
def Instance.In (host : Host) (E : Engine) (x : Instance) : Prop :=
  (x.call, x.state) ∈ E.members ∧
    (∃ f ∈ x.state.futures, f.node = x.node ∧ f.stage.isQueued = false) ∧
    beginNode host x.call x.state x.node = .ok x.begun

/-- Where the value of an input port comes from. -/
inductive Origin where
  | payload (data : Bytes)
  | node (key : String)
  deriving DecidableEq

def Origin.key (blake2b : Bytes → String) : Origin → String
  | .payload data => contentHash blake2b data
  | .node key => key

/-- The origin of a port of node `v`, once its source is recorded. -/
def originOf (call : Call) (s : ExecState) (v : Str) (port : PortSpec) : Option Origin :=
  match feedOf call (v, port.name) with
  | some (.payload id) => (call.session.payloads.lookup id).map fun p => .payload p.data
  | some (.edge u _) => (s.nodeKeys.lookup u).map .node
  | none => none

namespace Instance

/-- The origins of the inputs, in port order. -/
def origins (x : Instance) : List (Option Origin) :=
  x.begun.manifest.inputs.map (originOf x.call x.state x.node)

/-- These bytes are bound to one of the inputs. -/
def Binds (x : Instance) (data : Bytes) : Prop := some (.payload data) ∈ x.origins

/-- The canonical text of the node. -/
def text (host : Host) (x : Instance) : String :=
  recipeText x.begun.manifest.name x.begun.manifest.version x.begun.node.params
    (x.origins.map fun o => (o.map (Origin.key host.blake2b)).getD "") x.call.draft

/-- Same module, version, parameters and draft flag, and inputs of the same
origins, port by port. -/
def SameRecipe (x y : Instance) : Prop :=
  x.begun.manifest.name = y.begun.manifest.name ∧
    x.begun.manifest.version = y.begun.manifest.version ∧
    x.begun.node.params.toJson.Same y.begun.node.params.toJson ∧
    x.call.draft = y.call.draft ∧ x.origins = y.origins

end Instance

section Provenance

variable {host : Host} {call : Call} {s : ExecState}

/-- What a port contributes to the key is its origin's key. -/
theorem InputIs.origin {v : Str} {port : PortSpec} {key : String} {data : Bytes}
    (h : InputIs host call s v port.name key data) :
    ∃ o, originOf call s v port = some o ∧ o.key host.blake2b = key := by
  rcases h with ⟨id, p, hfeed, hp, rfl, -⟩ | ⟨u, q, _, _, hfeed, hkey, -⟩
  · exact ⟨.payload p.data, by simp [originOf, hfeed, hp], rfl⟩
  · exact ⟨.node key, by simp [originOf, hfeed, hkey], rfl⟩

theorem keys_of_origins {v : Str} {ports : List PortSpec}
    {found : List (Str × String × Bytes)}
    (h : List.Forall₂ (fun port x => x.1 = port.name ∧
      InputIs host call s v port.name x.2.1 x.2.2) ports found) :
    found.map (fun x => x.2.1) =
        (ports.map (originOf call s v)).map (fun o => (o.map (Origin.key host.blake2b)).getD "") ∧
      ∀ o ∈ ports.map (originOf call s v), ∃ origin, o = some origin := by
  induction h with
  | nil => simp
  | cons hx _ ih =>
      obtain ⟨o, ho, hkey⟩ := hx.2.origin
      obtain ⟨hkeys, hsome⟩ := ih
      refine ⟨?_, ?_⟩
      · simp only [List.map_cons, ho, Option.map_some, Option.getD_some, hkey, hkeys]
      · simp only [List.map_cons, List.forall_mem_cons, ho]
        exact ⟨⟨o, rfl⟩, hsome⟩

namespace Instance

variable {E : Engine} {x y : Instance}

/-- The key of an instance is the hash of its text. -/
theorem In.key_eq (hx : x.In host E) : x.begun.key = host.blake2b (encode (x.text host)) := by
  obtain ⟨found, -, -, hf, -, hk⟩ := beginNode_ok_iff.mp hx.2.2
  rw [hk, (keys_of_origins hf).1]
  rfl

theorem In.origins_some (hx : x.In host E) : ∀ o ∈ x.origins, ∃ origin, o = some origin := by
  obtain ⟨found, -, -, hf, -, -⟩ := beginNode_ok_iff.mp hx.2.2
  exact (keys_of_origins hf).2

/-- Equal texts leave only the origins open, which have equal keys. -/
theorem key_eq_iff (hinj : Function.Injective host.blake2b) (hx : x.In host E)
    (hy : y.In host E) : x.begun.key = y.begun.key ↔
      x.begun.manifest.name = y.begun.manifest.name ∧
      x.begun.manifest.version = y.begun.manifest.version ∧
      shownParams x.begun.node.params.toJson = shownParams y.begun.node.params.toJson ∧
      x.origins.map (fun o => (o.map (Origin.key host.blake2b)).getD "") =
        y.origins.map (fun o => (o.map (Origin.key host.blake2b)).getD "") ∧
      x.call.draft = y.call.draft := by
  rw [hx.key_eq, hy.key_eq, hinj.eq_iff, encode_injective.eq_iff, text, text, recipeText_eq_iff]

section Engine

variable (hI : ∀ call s, (call, s) ∈ E.members → EngineCallInv host (fun _ _ _ => True) call s)
include hI

theorem In.valid (hx : x.In host E) : x.call.Valid := by
  obtain ⟨hmem, ⟨f, hf, -⟩, -⟩ := hx
  by_contra hw
  rw [((hI _ _ hmem).2 hw).1] at hf
  cases hf

theorem In.data (hx : x.In host E) : DataInv host x.call (fun _ _ => True) x.state :=
  ((hI _ _ hx.1).1 (hx.valid hI)).data

/-- A source of an instance is an instance. -/
theorem In.source (hx : x.In host E) {u : Str} {key : String}
    (hkey : x.state.nodeKeys.lookup u = some key) :
    ∃ c, c.key = key ∧ Instance.In host E ⟨x.call, x.state, u, c⟩ := by
  have hD := hx.data hI
  obtain ⟨c, results, hc, hck, -⟩ := hD.recorded u key hkey
  obtain ⟨g, hg, rfl⟩ := List.mem_map.mp (hD.submitted u (Dict.mem_of_lookup hkey))
  refine ⟨c, hck, hx.1, ⟨g, hg, rfl, ?_⟩, hc⟩
  have hok := hD.stages g hg
  cases hst : g.stage with
  | queued =>
      rw [StageOk, hst] at hok
      exact absurd (Dict.mem_of_lookup hkey) hok
  | keyed | running | returned | storing | recording | notifying | emitting | calling
  | finished | failed => rfl

/-- An instance has a recipe, and its key is the key of that. -/
theorem In.exists_recipe (hx : x.In host E) : ∃ r, HasRecipe x.call x.node r := by
  obtain ⟨-, hn, -⟩ := beginNode_ok_iff.mp hx.2.2
  obtain ⟨hmem, hid⟩ := mem_nodeIds_of_lookup hn
  exact exists_hasRecipe (hx.valid hI) (List.mem_map.mpr ⟨_, hmem, hid⟩)

theorem In.key_of_recipe (hx : x.In host E) {r : Recipe} (hr : HasRecipe x.call x.node r) :
    x.begun.key = r.key host.blake2b :=
  begun_key_eq (hx.data hI) hx.2.2 hr

end Engine

/-- The recipe of an instance is that of the node it has begun. -/
theorem In.recipe (hx : x.In host E) {r : Recipe} (hr : HasRecipe x.call x.node r) :
    r.head = headOf x.call x.begun.node x.begun.manifest ∧
      HasInputs x.call x.node x.begun.manifest.inputs r.inputs := by
  obtain ⟨n, m, hn, hm, hrecipe⟩ := hr
  obtain ⟨-, hcn, hcm, -⟩ := beginNode_ok_iff.mp hx.2.2
  obtain rfl := Option.some.inj (hn.symm.trans hcn)
  obtain rfl := Option.some.inj (hm.symm.trans hcm)
  exact hrecipe

end Instance

/-- Lists of origins with equal keys are equal, where payloads and nodes keep apart. -/
theorem origins_eq {blake2b : Bytes → String} (hinj : Function.Injective blake2b)
    {os os' : List (Option Origin)} (hs : ∀ o ∈ os, ∃ origin, o = some origin)
    (hs' : ∀ o ∈ os', ∃ origin, o = some origin)
    (hapart : ∀ data key, some (.payload data) ∈ os → some (.node key) ∈ os' →
      contentHash blake2b data ≠ key)
    (hapart' : ∀ data key, some (.payload data) ∈ os' → some (.node key) ∈ os →
      contentHash blake2b data ≠ key)
    (hkeys : os.map (fun o => (o.map (Origin.key blake2b)).getD "") =
      os'.map (fun o => (o.map (Origin.key blake2b)).getD "")) : os = os' := by
  induction os generalizing os' with
  | nil => exact (List.map_eq_nil_iff.mp hkeys.symm).symm
  | cons o os ih =>
      obtain ⟨o', os', rfl⟩ := List.exists_cons_of_ne_nil (l := os') fun e => by
        rw [e] at hkeys
        cases hkeys
      obtain ⟨hkey, hrest⟩ := List.cons.inj hkeys
      have htail := ih (fun p hp => hs p (List.mem_cons_of_mem _ hp))
        (fun p hp => hs' p (List.mem_cons_of_mem _ hp))
        (fun d k hd hk => hapart d k (List.mem_cons_of_mem _ hd) (List.mem_cons_of_mem _ hk))
        (fun d k hd hk => hapart' d k (List.mem_cons_of_mem _ hd) (List.mem_cons_of_mem _ hk)) hrest
      obtain ⟨origin, rfl⟩ := hs o List.mem_cons_self
      obtain ⟨origin', rfl⟩ := hs' o' List.mem_cons_self
      rw [htail]
      -- a payload and a node are told apart, and two of a kind by their keys
      simp only [Option.map_some, Option.getD_some] at hkey
      cases origin with
      | payload data =>
          cases origin' with
          | payload data' => rw [hinj hkey]
          | node key => exact absurd hkey (hapart data key List.mem_cons_self List.mem_cons_self)
      | node key =>
          cases origin' with
          | payload data =>
              exact absurd hkey.symm (hapart' data key List.mem_cons_self List.mem_cons_self)
          | node key' => rw [show key = key' from hkey]

/-! ### Equal keys unfold to equal recipes -/

/-- What a node with a key in some state of the engine hashes. -/
theorem mem_origins_node {v : Str} {ports : List PortSpec} {key : String}
    (h : some (.node key) ∈ ports.map (originOf call s v)) :
    ∃ u, s.nodeKeys.lookup u = some key := by
  obtain ⟨port, -, ho⟩ := List.mem_map.mp h
  unfold originOf at ho
  split at ho
  · obtain ⟨_, _, hnode⟩ := Option.map_eq_some_iff.mp ho
    cases hnode
  · rename_i u q hfeed
    obtain ⟨k, hk, hnode⟩ := Option.map_eq_some_iff.mp ho
    obtain rfl := Origin.node.inj hnode
    exact ⟨u, hk⟩
  · cases ho

theorem origin_of_payload {v id : Str} {port : PortSpec} {p : Payload}
    (hfeed : feedOf call (v, port.name) = some (.payload id))
    (hp : call.session.payloads.lookup id = some p) :
    originOf call s v port = some (.payload p.data) := by
  simp [originOf, hfeed, hp]

/-- Inputs of equal origins unfold alike, once equal keys mean equal recipes. -/
theorem forgetPorts_of_origins {E : Engine}
    (hI : ∀ call s, (call, s) ∈ E.members → EngineCallInv host (fun _ _ _ => True) call s)
    (hinj : Function.Injective host.blake2b)
    (hsame : ∀ x y : Instance, x.In host E → y.In host E → x.begun.key = y.begun.key →
      x.origins = y.origins)
    (hno : ∀ x y : Instance, x.In host E → y.In host E → ∀ r r', HasRecipe x.call x.node r →
      HasRecipe y.call y.node r' → ¬ r.Homograph r')
    {x y : Instance} (hx : x.In host E) (hy : y.In host E) {v v' : Str}
    {ports ports' : List PortSpec} {inputs inputs' : Inputs}
    (h : HasInputs x.call v ports inputs) (h' : HasInputs y.call v' ports' inputs')
    (ho : ports.map (originOf x.call x.state v) = ports'.map (originOf y.call y.state v'))
    (hsome : ∀ o ∈ ports.map (originOf x.call x.state v), ∃ origin, o = some origin) :
    inputs.forgetPorts = inputs'.forgetPorts := by
  induction h generalizing v' ports' inputs' with
  | nil =>
      cases h' with
      | nil => rfl
      | payload | port => cases ho
  | payload hfeed hp _ ih =>
      rw [List.map_cons, origin_of_payload hfeed hp] at ho hsome
      cases h' with
      | nil => cases ho
      | payload hfeed' hp' hrest' =>
          rw [List.map_cons, origin_of_payload hfeed' hp'] at ho
          obtain ⟨hhead, hrest⟩ := List.cons.inj ho
          rw [Inputs.forgetPorts, Inputs.forgetPorts, Origin.payload.inj (Option.some.inj hhead),
            ih hrest' hrest fun o hmem => hsome o (List.mem_cons_of_mem _ hmem)]
      | port hfeed' =>
          rw [List.map_cons] at ho
          obtain ⟨hhead, -⟩ := List.cons.inj ho
          rw [originOf, hfeed'] at hhead
          obtain ⟨_, _, hnode⟩ := Option.map_eq_some_iff.mp hhead.symm
          cases hnode
  | port hfeed hn hm hsrc _ ihsrc ihrest =>
      obtain ⟨origin, horigin⟩ := hsome _ List.mem_cons_self
      rw [originOf, hfeed] at horigin
      obtain ⟨key, hkey, rfl⟩ := Option.map_eq_some_iff.mp horigin
      rw [List.map_cons, originOf, hfeed] at ho
      simp only [hkey, Option.map_some] at ho
      cases h' with
      | nil => cases ho
      | payload hfeed' hp' =>
          rw [List.map_cons, origin_of_payload hfeed' hp'] at ho
          cases (List.cons.inj ho).1
      | port hfeed' hn' hm' hsrc' hrest' =>
          rw [List.map_cons, originOf, hfeed'] at ho
          obtain ⟨hhead, hrest⟩ := List.cons.inj ho
          obtain ⟨key', hkey', hnode⟩ := Option.map_eq_some_iff.mp hhead.symm
          obtain rfl := Origin.node.inj hnode
          -- the two sources are instances of one key
          obtain ⟨c, hck, hc⟩ := hx.source hI hkey
          obtain ⟨c', hck', hc'⟩ := hy.source hI hkey'
          have hkk : c.key = c'.key := hck.trans hck'.symm
          obtain ⟨hname, hversion, hshown, -, hdraft⟩ := (Instance.key_eq_iff hinj hc hc').mp hkk
          obtain ⟨found, hcn, hcm, -⟩ := beginNode_ok_iff.mp hc.2.2
          obtain ⟨found', hcn', hcm', -⟩ := beginNode_ok_iff.mp hc'.2.2
          obtain rfl := Option.some.inj (hn.symm.trans hcn)
          obtain rfl := Option.some.inj (hn'.symm.trans hcn')
          obtain rfl := Option.some.inj (hm.symm.trans hcm)
          obtain rfl := Option.some.inj (hm'.symm.trans hcm')
          have hin := ihsrc hsrc' (hsame _ _ hc hc' hkk) hc.origins_some
          have hr : HasRecipe x.call _ ⟨headOf x.call c.node c.manifest, _⟩ :=
            ⟨_, _, hn, hm, rfl, hsrc⟩
          have hr' : HasRecipe y.call _ ⟨headOf y.call c'.node c'.manifest, _⟩ :=
            ⟨_, _, hn', hm', rfl, hsrc'⟩
          have hheads : headOf x.call c.node c.manifest = headOf y.call c'.node c'.manifest :=
            Recipe.head_eq (hno _ _ hc hc' _ _ hr hr') hname hversion
              (by simpa only [headOf, shownParams_canon] using hshown) hdraft hin
          rw [Inputs.forgetPorts, Inputs.forgetPorts, hheads, hin,
            ihrest hrest' hrest fun o hmem => hsome o (List.mem_cons_of_mem _ hmem)]

end Provenance

/-! ### Keys identify recipes -/

/-- Equal keys name one recipe, and no content hash is a node's key. -/
structure KeysIdentify (host : Host) (E : Engine) : Prop where
  same : ∀ x y : Instance, x.In host E → y.In host E → x.begun.key = y.begun.key → x.SameRecipe y
  unfold : ∀ x y : Instance, x.In host E → y.In host E → x.begun.key = y.begun.key →
    ∀ r r', HasRecipe x.call x.node r → HasRecipe y.call y.node r' →
      r.forgetPorts = r'.forgetPorts
  apart : ∀ x y : Instance, x.In host E → y.In host E → ∀ data, x.Binds data →
    contentHash host.blake2b data ≠ y.begun.key

/-- **Keys identify recipes exactly where no bound payload spells the canonical
text of a node and no two nodes are homographs**, over all nodes begun in any run of
the engine. -/
theorem keys_identify_recipes_iff (host : Host) (hinj : Function.Injective host.blake2b)
    (beh : Behaviour) (E : Engine)
    (hrun : EngineReaches host (fun _ => True) beh Engine.empty E) :
    KeysIdentify host E ↔
      (∀ x y : Instance, x.In host E → y.In host E → ∀ data, x.Binds data →
        ∀ r, HasRecipe y.call y.node r → data ≠ encode (r.text host.blake2b)) ∧
      ∀ x y : Instance, x.In host E → y.In host E → ∀ r r', HasRecipe x.call x.node r →
        HasRecipe y.call y.node r' → ¬ r.Homograph r' := by
  have hinv := engine_inv (trivial_rule host (fun _ => True) beh) trivial hrun
  have hI : ∀ call s, (call, s) ∈ E.members →
      EngineCallInv host (fun _ _ _ => True) call s := by
    intro call s hmem
    obtain ⟨i, hi⟩ := List.mem_iff_getElem?.mp hmem
    exact (hinv.members i call s hi).2
  constructor
  · intro h
    constructor
    · rintro x y hx hy data hdata r hr rfl
      exact h.apart x y hx hy _ hdata (hy.key_of_recipe hI hr).symm
    · intro x y hx hy r r' hr hr' hsame
      -- recipes that are written alike have one key
      have hkey : x.begun.key = y.begun.key := by
        rw [hx.key_of_recipe hI hr, hsame.key_eq, hy.key_of_recipe hI hr']
      have hheads := Recipe.head_of_forgetPorts (h.unfold x y hx hy hkey r r' hr hr')
      exact hsame.differ (congrArg Head.params hheads)
  · rintro ⟨h, hno⟩
    have hapart : ∀ x y : Instance, x.In host E → y.In host E → ∀ data, x.Binds data →
        contentHash host.blake2b data ≠ y.begun.key := by
      intro x y hx hy data hdata hhash
      obtain ⟨r, hr⟩ := hy.exists_recipe hI
      rw [hy.key_of_recipe hI hr] at hhash
      exact h x y hx hy data hdata r hr (hinj hhash)
    -- an origin that is a node has been begun, and its key is apart from every payload
    have hnode : ∀ x y : Instance, x.In host E → y.In host E → ∀ data key, x.Binds data →
        some (.node key) ∈ y.origins → contentHash host.blake2b data ≠ key := by
      intro x y hx hy data key hdata hkey
      obtain ⟨u, hu⟩ := mem_origins_node hkey
      obtain ⟨c, rfl, hc⟩ := hy.source hI hu
      exact hapart x _ hx hc data hdata
    -- so equal keys have equal origins
    have horigins : ∀ x y : Instance, x.In host E → y.In host E → x.begun.key = y.begun.key →
        x.origins = y.origins := by
      intro x y hx hy hkey
      obtain ⟨-, -, -, hkeys, -⟩ := (Instance.key_eq_iff hinj hx hy).mp hkey
      exact origins_eq hinj hx.origins_some hy.origins_some
        (fun d k hd hk => hnode x y hx hy d k hd hk)
        (fun d k hd hk => hnode y x hy hx d k hd hk) hkeys
    -- and by induction on the recipes the same below
    have hunfold : ∀ x y : Instance, x.In host E → y.In host E → x.begun.key = y.begun.key →
        ∀ r r', HasRecipe x.call x.node r → HasRecipe y.call y.node r' →
          r.forgetPorts = r'.forgetPorts := by
      intro x y hx hy hkey r r' hr hr'
      obtain ⟨hname, hversion, hshown, -, hdraft⟩ := (Instance.key_eq_iff hinj hx hy).mp hkey
      obtain ⟨hhead, hin⟩ := hx.recipe hr
      obtain ⟨hhead', hin'⟩ := hy.recipe hr'
      have hfp := forgetPorts_of_origins hI hinj horigins hno hx hy hin hin'
        (horigins x y hx hy hkey) hx.origins_some
      have hheads : r.head = r'.head := by
        refine Recipe.head_eq (hno x y hx hy r r' hr hr') ?_ ?_ ?_ ?_ hfp
        · rw [hhead, hhead']
          exact hname
        · rw [hhead, hhead']
          exact hversion
        · rw [hhead, hhead']
          simpa only [headOf, shownParams_canon] using hshown
        · rw [hhead, hhead']
          exact hdraft
      rw [Recipe.forgetPorts, Recipe.forgetPorts, hheads, hfp]
    refine ⟨fun x y hx hy hkey => ?_, hunfold, hapart⟩
    obtain ⟨r, hr⟩ := hx.exists_recipe hI
    obtain ⟨r', hr'⟩ := hy.exists_recipe hI
    have hheads : headOf x.call x.begun.node x.begun.manifest =
        headOf y.call y.begun.node y.begun.manifest := by
      rw [← (hx.recipe hr).1, ← (hy.recipe hr').1]
      exact Recipe.head_of_forgetPorts (hunfold x y hx hy hkey r r' hr hr')
    obtain ⟨hname, hversion, hparams, hdraft⟩ := Head.mk.inj hheads
    exact ⟨hname, hversion, Json.same_of_canon_eq _ _ hparams, hdraft, horigins x y hx hy hkey⟩

/-! ### A payload that spells a node -/

/-- `a` copies what `g` produced, `b` a payload with the canonical text of `g`. -/
def confusionCall : Call where
  graph := {
    nodes := [{ id := "g", module := "split" }, { id := "a", module := "copy" },
      { id := "b", module := "copy" }]
    edges := [⟨"g", "a", "a", "in"⟩]
    bindings := [⟨"p", "b", "in"⟩]
    outputs := [{ node := "a", port := "out" }, { node := "b", port := "out" }] }
  registry := sampleRegistry
  session := (⟨"session", ∅⟩ : Session).addPayload "p" "text" (encode splitText)
  draft := false
  workers := some 2

/-- Run `g`, then begin `b` and `a`. -/
def confusionActs : List Act :=
  [.loop, .submit, .submit, .submit, .worker 0 .start, .worker 0 .lookup,
    .worker 0 (.ret (.ok (emptyResults splitModule))), .worker 0 .check, .worker 0 .put,
    .worker 0 .record, .worker 0 .notify, .worker 0 .finish, .wait [0], .process ["a"], .loop,
    .submit, .submit, .worker 1 .start, .worker 2 .start]

def confusionRun : Option (ResultCache × ExecState) :=
  runActs (step sampleHost confusionCall) confusionActs (∅, enter confusionCall)

/-- Node `v` is begun, with this key and these origins. -/
def BegunAs (call : Call) (s : ExecState) (v : Str) (key : String)
    (origins : List (Option Origin)) : Prop :=
  (∃ f ∈ s.futures, f.node = v ∧ f.stage.isQueued = false) ∧
    (beginNode sampleHost call s v).toOption.map (fun c =>
      (c.key, c.manifest.inputs.map (originOf call s v))) = some (key, origins)

instance (call : Call) (s : ExecState) (v : Str) (key : String) (origins : List (Option Origin)) :
    Decidable (BegunAs call s v key origins) :=
  inferInstanceAs (Decidable (_ ∧ _))

/-- A begun node as an instance of the engine. -/
theorem BegunAs.instance {call : Call} {s : ExecState} {v : Str} {key : String}
    {origins : List (Option Origin)} (h : BegunAs call s v key origins) {E : Engine}
    (hmem : (call, s) ∈ E.members) :
    ∃ x : Instance, x.In sampleHost E ∧ x.begun.key = key ∧ x.origins = origins := by
  obtain ⟨hfut, hmap⟩ := h
  obtain ⟨c, hc, heq⟩ := Option.map_eq_some_iff.mp hmap
  obtain ⟨rfl, rfl⟩ := Prod.mk.inj heq
  cases hb : beginNode sampleHost call s v with
  | error e => simp [hb, Except.toOption] at hc
  | ok c' =>
      obtain rfl : c' = c := by simpa [hb, Except.toOption] using hc
      exact ⟨⟨call, s, v, c'⟩, ⟨hmem, hfut, hb⟩, rfl, rfl⟩

/-- The engine reaches a state where `a` and `b` are begun with one key, one
from the node `g`, the other from bytes that hash like `g`. -/
theorem confusion_reached : ∃ E, EngineReaches sampleHost (fun _ => True)
      anyBehaviour Engine.empty E ∧ (∀ call s, (call, s) ∈ E.members → call = confusionCall) ∧
    ∃ g a b : Instance, g.In sampleHost E ∧ a.In sampleHost E ∧ b.In sampleHost E ∧
      g.begun.key = splitKey ∧ a.begun.key = b.begun.key ∧
      a.origins = [some (.node splitKey)] ∧
      b.origins = [some (.payload (encode splitText))] := by
  have hcheck : (confusionRun.map fun x => decide (
      BegunAs confusionCall x.2 "g" splitKey [] ∧
      BegunAs confusionCall x.2 "a" copyKey [some (.node splitKey)] ∧
      BegunAs confusionCall x.2 "b" copyKey [some (.payload (encode splitText))])) = some true := by
    decide +kernel
  obtain ⟨x, hx, hdec⟩ := Option.map_eq_some_iff.mp hcheck
  obtain ⟨hg, ha, hb⟩ := of_decide_eq_true hdec
  refine ⟨_, engineReaches_of_call trivial (reaches_of_runActs (permits_any _) hx), ?_⟩
  obtain ⟨g, hg, hgk, -⟩ := hg.instance (E := ⟨x.1, [(confusionCall, x.2)]⟩) List.mem_cons_self
  obtain ⟨a, ha, hak, hao⟩ := ha.instance (E := ⟨x.1, [(confusionCall, x.2)]⟩) List.mem_cons_self
  obtain ⟨b, hb, hbk, hbo⟩ := hb.instance (E := ⟨x.1, [(confusionCall, x.2)]⟩) List.mem_cons_self
  refine ⟨fun call s hmem => ?_, g, a, b, hg, ha, hb, hgk, hak.trans hbk.symm, hao, hbo⟩
  exact congrArg Prod.fst (List.mem_singleton.mp hmem)

/-- Equal keys, different origins: a payload is taken for a node. -/
theorem keys_identify_recipes_fails : ¬ ∀ (host : Host) (beh : Behaviour) (E : Engine),
    Function.Injective host.blake2b →
    EngineReaches host (fun _ => True) beh Engine.empty E →
    ∀ x y : Instance, x.In host E → y.In host E → x.begun.key = y.begun.key →
      x.SameRecipe y := by
  intro h
  obtain ⟨E, hrun, -, -, a, b, -, ha, hb, -, hkey, hao, hbo⟩ := confusion_reached
  obtain ⟨-, -, -, -, ho⟩ := h sampleHost _ E sampleHost_injective hrun a b ha hb hkey
  rw [hao, hbo] at ho
  cases ho

/-- No parameters, no homographs: what confuses the keys is the payload. -/
theorem keys_identify_recipes_iff_confusion : ∃ E : Engine,
    ∃ x y : Instance, x.In sampleHost E ∧ y.In sampleHost E ∧ ¬ KeysIdentify sampleHost E ∧
      ∃ data r, x.Binds data ∧ HasRecipe y.call y.node r ∧
        data = encode (r.text sampleHost.blake2b) := by
  obtain ⟨E, hrun, hcall, g, a, b, hg, ha, hb, hgk, hkey, hao, hbo⟩ := confusion_reached
  have hnot : ¬ KeysIdentify sampleHost E := fun h => by
    obtain ⟨-, -, -, -, ho⟩ := h.same a b ha hb hkey
    rw [hao, hbo] at ho
    cases ho
  have hplain : NoHomographs fun call => call = confusionCall := by
    refine noHomographs_of_shown ?_
    rintro call rfl n hn
    simp only [confusionCall, List.mem_cons, List.not_mem_nil, or_false] at hn
    rcases hn with rfl | rfl | rfl <;> rfl
  have hspell := (keys_identify_recipes_iff sampleHost sampleHost_injective _ E hrun).not.mp hnot
  rw [not_and_or] at hspell
  rcases hspell with hspell | hsame
  · push Not at hspell
    obtain ⟨x, y, hx, hy, data, hdata, r, hr, heq⟩ := hspell
    exact ⟨E, x, y, hx, hy, hnot, data, r, hdata, hr, heq⟩
  · refine absurd (fun x y hx hy r r' hr hr' => ?_) hsame
    exact hplain x.call (hcall _ _ hx.1) x.node r hr y.call (hcall _ _ hy.1) y.node r' hr'

end Formshift
