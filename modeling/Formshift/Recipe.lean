/-
Formshift/Recipe.lean

Recipes: what a node computes, unfolded from the graph.

A recipe is a module name and version, parameters up to key order, a draft
flag and, for each input port in manifest order, the bytes bound to it or the
recipe of the source node with the source port.  `HasRecipe` says that a node
of a call has one, `Recipe.key` is the cache key by recursion over it, and
`begun_key_eq` that this is the key `run_node` computes, in every state of
every run.  The key does not see source ports; up to these it determines the
recipe (`forgetPorts_eq_of_key_eq`) as long as it tells the calls apart
(`KeysTell`): no payload spells the canonical text of a node, and no two nodes
differ in what their texts do not show of the parameters alone.
-/
import Formshift.Progress

namespace Formshift

open Py

/-! ### Recipes -/

/-- A node's own part of its recipe; `params` is in canonical form. -/
structure Head where
  name : String
  version : String
  params : Json
  draft : Bool

/-- The inputs of a recipe, in port order. -/
inductive Inputs where
  | nil
  | payload (data : Bytes) (rest : Inputs)
  | port (head : Head) (inputs : Inputs) (port : Str) (rest : Inputs)

structure Recipe where
  head : Head
  inputs : Inputs

/-- The canonical text of a node with these input keys. -/
def Head.text (h : Head) (keys : List String) : String :=
  (recipeJson h.name h.version h.params keys h.draft).dumps

section Keys

variable (blake2b : Bytes → String)

def Inputs.keys : Inputs → List String
  | .nil => []
  | .payload data rest => contentHash blake2b data :: rest.keys
  | .port head inputs _ rest => blake2b (encode (head.text inputs.keys)) :: rest.keys

def Recipe.text (r : Recipe) : String := r.head.text (r.inputs.keys blake2b)

def Recipe.key (r : Recipe) : String := blake2b (encode (r.text blake2b))

end Keys

/-- The inputs with every source port left out. -/
def Inputs.forgetPorts : Inputs → Inputs
  | .nil => .nil
  | .payload data rest => .payload data rest.forgetPorts
  | .port head inputs _ rest => .port head inputs.forgetPorts "" rest.forgetPorts

def Recipe.forgetPorts (r : Recipe) : Recipe := ⟨r.head, r.inputs.forgetPorts⟩

/-- The recipes differ in the parameters of the node itself alone, and these in
nothing a text shows: a character, or the two halves of its pair. -/
structure Recipe.Homograph (r r' : Recipe) : Prop where
  name : r.head.name = r'.head.name
  version : r.head.version = r'.head.version
  draft : r.head.draft = r'.head.draft
  inputs : r.inputs.forgetPorts = r'.inputs.forgetPorts
  shown : shownParams r.head.params = shownParams r'.head.params
  differ : r.head.params ≠ r'.head.params

theorem Inputs.keys_forgetPorts (blake2b : Bytes → String) (inputs : Inputs) :
    inputs.forgetPorts.keys blake2b = inputs.keys blake2b := by
  induction inputs with
  | nil => rfl
  | payload data rest ih => rw [forgetPorts, keys, keys, ih]
  | port head inputs q rest ihsrc ihrest => rw [forgetPorts, keys, keys, ihsrc, ihrest]

/-- Homographs have one key. -/
theorem Recipe.Homograph.key_eq {r r' : Recipe} (h : r.Homograph r') (blake2b : Bytes → String) :
    r.key blake2b = r'.key blake2b := by
  have hkeys : r.inputs.keys blake2b = r'.inputs.keys blake2b := by
    rw [← Inputs.keys_forgetPorts, h.inputs, Inputs.keys_forgetPorts]
  have htext : r.text blake2b = r'.text blake2b :=
    dumps_recipeJson_eq_iff.mpr ⟨h.name, h.version, h.shown, hkeys, h.draft⟩
  rw [key, htext, key]

/-! ### The recipe of a node -/

section HasRecipe

/-- The head of a node of a call. -/
def headOf (call : Call) (n : Node) (m : ModuleManifest) : Head :=
  ⟨m.name, m.version, n.params.toJson.canon, call.draft⟩

/-- These inputs unfold what feeds the ports of `v`. -/
inductive HasInputs (call : Call) : Str → List PortSpec → Inputs → Prop
  | nil {v} : HasInputs call v [] .nil
  | payload {v port ports id p rest} (hfeed : feedOf call (v, port.name) = some (.payload id))
      (hp : call.session.payloads.lookup id = some p) (hrest : HasInputs call v ports rest) :
      HasInputs call v (port :: ports) (.payload p.data rest)
  | port {v port ports u q n m inputs rest}
      (hfeed : feedOf call (v, port.name) = some (.edge u q))
      (hn : call.graph.nodesById.lookup u = some n)
      (hm : call.registry.get n.module = some m)
      (hsrc : HasInputs call u m.inputs inputs) (hrest : HasInputs call v ports rest) :
      HasInputs call v (port :: ports) (.port (headOf call n m) inputs q rest)

/-- `r` is the recipe of node `v`. -/
def HasRecipe (call : Call) (v : Str) (r : Recipe) : Prop :=
  ∃ n m, call.graph.nodesById.lookup v = some n ∧ call.registry.get n.module = some m ∧
    r.head = headOf call n m ∧ HasInputs call v m.inputs r.inputs

variable {host : Host} {call call' : Call} {s : ExecState}

/-- A node has one recipe. -/
theorem HasInputs.unique {v : Str} {ports : List PortSpec} {inputs inputs' : Inputs}
    (h : HasInputs call v ports inputs) (h' : HasInputs call v ports inputs') :
    inputs = inputs' := by
  induction h generalizing inputs' with
  | nil =>
      cases h'
      rfl
  | payload hfeed hp _ ih =>
      cases h' with
      | payload hfeed' hp' hrest' =>
          obtain rfl := Feed.payload.inj (Option.some.inj (hfeed.symm.trans hfeed'))
          obtain rfl := Option.some.inj (hp.symm.trans hp')
          rw [ih hrest']
      | port hfeed' => cases hfeed.symm.trans hfeed'
  | port hfeed hn hm _ _ ihsrc ihrest =>
      cases h' with
      | payload hfeed' => cases hfeed.symm.trans hfeed'
      | port hfeed' hn' hm' hsrc' hrest' =>
          obtain ⟨rfl, rfl⟩ := Feed.edge.inj (Option.some.inj (hfeed.symm.trans hfeed'))
          obtain rfl := Option.some.inj (hn.symm.trans hn')
          obtain rfl := Option.some.inj (hm.symm.trans hm')
          rw [ihsrc hsrc', ihrest hrest']

theorem HasRecipe.unique {v : Str} {r r' : Recipe} (h : HasRecipe call v r)
    (h' : HasRecipe call v r') : r = r' := by
  obtain ⟨head, inputs⟩ := r
  obtain ⟨head', inputs'⟩ := r'
  obtain ⟨n, m, hn, hm, rfl, hin⟩ := h
  obtain ⟨n', m', hn', hm', rfl, hin'⟩ := h'
  obtain rfl := Option.some.inj (hn.symm.trans hn')
  obtain rfl := Option.some.inj (hm.symm.trans hm')
  obtain rfl : inputs = inputs' := hin.unique hin'
  rfl

/-- The loop over some of the ports of `v`, once its sources have recipes. -/
theorem exists_hasInputs (hw : call.Valid) {v : Str} {n : Node} {m : ModuleManifest}
    (hn : call.graph.nodesById.lookup v = some n) (hm : call.registry.get n.module = some m)
    (hsrc : ∀ u ∈ call.deps v, ∃ r, HasRecipe call u r) (ports : List PortSpec)
    (hports : ∀ port ∈ ports, port ∈ m.inputs) : ∃ inputs, HasInputs call v ports inputs := by
  induction ports with
  | nil => exact ⟨.nil, .nil⟩
  | cons port ports ih =>
      obtain ⟨rest, hrest⟩ := ih fun p hp => hports p (List.mem_cons_of_mem _ hp)
      obtain ⟨feed, hfeed⟩ := hw.feedOf hn hm (hports port List.mem_cons_self)
      cases feed with
      | payload id =>
          obtain ⟨b, hb, -, rfl⟩ := binding_of_feedOf hfeed
          obtain ⟨p, hp, -⟩ := hw.binding_typed b hb
          exact ⟨_, .payload hfeed hp hrest⟩
      | edge u q =>
          obtain ⟨r, n', m', hn', hm', -, hin⟩ := hsrc u (mem_deps_of_feedOf hfeed)
          exact ⟨_, .port hfeed hn' hm' hin hrest⟩

/-- Every node of a valid graph has a recipe. -/
theorem exists_hasRecipe (hw : call.Valid) {v : Str} (hv : v ∈ call.graph.nodeIds) :
    ∃ r, HasRecipe call v r := by
  induction v using (feeds_wellFounded hw.acyclic).induction with
  | _ v ih =>
      obtain ⟨n, m, hn, hm⟩ := hw.lookup_node hv
      obtain ⟨inputs, hin⟩ := exists_hasInputs hw hn hm
        (fun u hu => ih u (Call.mem_deps.mp hu) (hw.deps_subset hu).1) m.inputs fun _ => id
      exact ⟨⟨headOf call n m, inputs⟩, n, m, hn, hm, rfl, hin⟩

/-! ### Recipes and keys -/

/-- The keys `run_node` collects are those of the recipe's inputs. -/
theorem keys_of_found {Q : NodeCall → Results → Prop} (hD : DataInv host call Q s) {v : Str}
    {ports : List PortSpec} {inputs : Inputs} (h : HasInputs call v ports inputs)
    {found : List (Str × String × Bytes)}
    (hf : List.Forall₂ (fun port x => x.1 = port.name ∧
      InputIs host call s v port.name x.2.1 x.2.2) ports found) :
    found.map (fun x => x.2.1) = inputs.keys host.blake2b := by
  induction h generalizing found with
  | nil =>
      cases hf
      rfl
  -- the payload of the input contributes its digest
  | payload hfeed hp _ ih =>
      cases hf with
      | cons hx hrest =>
          rw [List.map_cons, Inputs.keys, ih hrest]
          rcases hx.2 with ⟨id, p, hfeed', hp', hkey, -⟩ | ⟨_, _, _, _, hfeed', -⟩
          · obtain rfl := Feed.payload.inj (Option.some.inj (hfeed.symm.trans hfeed'))
            obtain rfl := Option.some.inj (hp.symm.trans hp')
            rw [hkey]
          · cases hfeed.symm.trans hfeed'
  -- the source of the edge contributes its own key, by its recipe
  | port hfeed hn hm _ _ ihsrc ihrest =>
      cases hf with
      | cons hx hrest =>
          rw [List.map_cons, Inputs.keys, ihrest hrest]
          rcases hx.2 with ⟨_, _, hfeed', -⟩ | ⟨u, q, _, _, hfeed', hkey, -⟩
          · cases hfeed.symm.trans hfeed'
          · obtain ⟨rfl, rfl⟩ := Feed.edge.inj (Option.some.inj (hfeed.symm.trans hfeed'))
            obtain ⟨c, _, hc, hck, -⟩ := hD.recorded _ _ hkey
            obtain ⟨found', hn', hm', hf', -, hk⟩ := beginNode_ok_iff.mp hc
            obtain rfl := Option.some.inj (hn.symm.trans hn')
            obtain rfl := Option.some.inj (hm.symm.trans hm')
            rw [← hck, hk, ihsrc hf', recipeKey, recipeText]
            congr 3
            exact dumps_recipeJson_eq_iff.mpr ⟨rfl, rfl, (shownParams_canon _).symm, rfl, rfl⟩

/-- **The cache key of a node is the key of its recipe.** -/
theorem begun_key_eq {Q : NodeCall → Results → Prop} (hD : DataInv host call Q s) {v : Str}
    {c : NodeCall} (hc : beginNode host call s v = .ok c) {r : Recipe} (hr : HasRecipe call v r) :
    c.key = r.key host.blake2b := by
  obtain ⟨found, hn, hm, hf, -, hk⟩ := beginNode_ok_iff.mp hc
  obtain ⟨n, m, hn', hm', hhead, hin⟩ := hr
  obtain rfl := Option.some.inj (hn.symm.trans hn')
  obtain rfl := Option.some.inj (hm.symm.trans hm')
  rw [hk, keys_of_found hD hin hf, recipeKey, Recipe.key, Recipe.text, hhead, recipeText]
  congr 2
  exact dumps_recipeJson_eq_iff.mpr ⟨rfl, rfl, (shownParams_canon _).symm, rfl, rfl⟩

/-- No payload bound in one call spells the canonical text of a node of another. -/
def NoSpelling (host : Host) (S : Call → Prop) : Prop :=
  ∀ call, S call → ∀ v port id p, feedOf call (v, port) = some (.payload id) →
    call.session.payloads.lookup id = some p →
    ∀ call', S call' → ∀ u r, HasRecipe call' u r → p.data ≠ encode (r.text host.blake2b)

/-- No two nodes have one text by the spelling of their parameters. -/
def NoHomographs (S : Call → Prop) : Prop :=
  ∀ call, S call → ∀ v r, HasRecipe call v r →
    ∀ call', S call' → ∀ v' r', HasRecipe call' v' r' → ¬ r.Homograph r'

/-- It takes parameters with two surrogate halves that make a character. -/
theorem noHomographs_of_shown {S : Call → Prop} (h : ∀ call, S call → ∀ n ∈ call.graph.nodes,
    shownParams n.params.toJson = n.params.toJson.canon) : NoHomographs S := by
  rintro call hS v r ⟨n, m, hn, hm, hhead, -⟩ call' hS' v' r' ⟨n', m', hn', hm', hhead', -⟩ hsame
  have hshown := hsame.shown
  have hdiffer := hsame.differ
  rw [hhead, hhead'] at hshown hdiffer
  simp only [headOf, shownParams_canon] at hshown hdiffer
  rw [h call hS n (mem_nodeIds_of_lookup hn).1, h call' hS' n' (mem_nodeIds_of_lookup hn').1]
    at hshown
  exact hdiffer hshown

/-- Keys tell everything in these calls apart but the ports of a node. -/
structure KeysTell (host : Host) (S : Call → Prop) : Prop where
  spelling : NoSpelling host S
  homographs : NoHomographs S

theorem Recipe.head_of_forgetPorts {r r' : Recipe} (h : r.forgetPorts = r'.forgetPorts) :
    r.head = r'.head :=
  (Recipe.mk.inj h).1

/-- What a text shows of a head is the head, where there is no homograph. -/
theorem Recipe.head_eq {r r' : Recipe} (hno : ¬ r.Homograph r') (hname : r.head.name = r'.head.name)
    (hversion : r.head.version = r'.head.version)
    (hshown : shownParams r.head.params = shownParams r'.head.params)
    (hdraft : r.head.draft = r'.head.draft) (hin : r.inputs.forgetPorts = r'.inputs.forgetPorts) :
    r.head = r'.head := by
  have hparams : r.head.params = r'.head.params := by
    by_contra hne
    exact hno ⟨hname, hversion, hdraft, hin, hshown, hne⟩
  obtain ⟨⟨_, _, _, _⟩, _⟩ := r
  obtain ⟨⟨_, _, _, _⟩, _⟩ := r'
  simp only at hname hversion hparams hdraft
  rw [hname, hversion, hparams, hdraft]

/-- Canonical texts determine heads, where the inputs are the same, and keys. -/
theorem head_eq_of_text_eq {S : Call → Prop} (hno : NoHomographs S) (hS : S call) (hS' : S call')
    {v v' : Str} {r r' : Recipe} (h : HasRecipe call v r) (h' : HasRecipe call' v' r')
    {ks ks' : List String} (htext : r.head.text ks = r'.head.text ks')
    (hin : r.inputs.forgetPorts = r'.inputs.forgetPorts) : r.head = r'.head := by
  obtain ⟨hname, hversion, hshown, -, hdraft⟩ := dumps_recipeJson_eq_iff.mp htext
  exact Recipe.head_eq (hno call hS v r h call' hS' v' r' h') hname hversion hshown hdraft hin

theorem keys_eq_of_text_eq {h h' : Head} {ks ks' : List String} (htext : h.text ks = h'.text ks') :
    ks = ks' :=
  (dumps_recipeJson_eq_iff.mp htext).2.2.2.1

theorem forgetPorts_inputs_eq {S : Call → Prop} (hinj : Function.Injective host.blake2b)
    (hno : KeysTell host S) (hS : S call) (hS' : S call') {v v' : Str}
    {ports ports' : List PortSpec} {inputs inputs' : Inputs}
    (h : HasInputs call v ports inputs) (h' : HasInputs call' v' ports' inputs')
    (hkeys : inputs.keys host.blake2b = inputs'.keys host.blake2b) :
    inputs.forgetPorts = inputs'.forgetPorts := by
  induction h generalizing v' ports' inputs' with
  | nil =>
      cases h' with
      | nil => rfl
      | payload | port => cases hkeys
  | payload hfeed hp _ ih =>
      cases h' with
      | nil => cases hkeys
      | payload _ _ hrest' =>
          obtain ⟨hkey, hrest⟩ := List.cons.inj hkeys
          rw [Inputs.forgetPorts, Inputs.forgetPorts, hinj hkey, ih hrest' hrest]
      | port _ hn' hm' hsrc' _ =>
          -- a payload that hashes like a node spells its text
          exact absurd (hinj (List.cons.inj hkeys).1) (hno.spelling call hS _ _ _ _ hfeed hp call'
            hS' _ ⟨_, _⟩ ⟨_, _, hn', hm', rfl, hsrc'⟩)
  | port hfeed hn hm hsrc _ ihsrc ihrest =>
      cases h' with
      | nil => cases hkeys
      | payload hfeed' hp' =>
          exact absurd (hinj (List.cons.inj hkeys).1).symm (hno.spelling call' hS' _ _ _ _ hfeed'
            hp' call hS _ ⟨_, _⟩ ⟨_, _, hn, hm, rfl, hsrc⟩)
      | port _ hn' hm' hsrc' hrest' =>
          obtain ⟨hkey, hrest⟩ := List.cons.inj hkeys
          have htext := encode_injective (hinj hkey)
          -- the inputs of the two sources first: their heads are told apart by these
          have hin := ihsrc hsrc' (keys_eq_of_text_eq htext)
          have hr : HasRecipe call _ ⟨headOf call _ _, _⟩ := ⟨_, _, hn, hm, rfl, hsrc⟩
          have hr' : HasRecipe call' _ ⟨headOf call' _ _, _⟩ := ⟨_, _, hn', hm', rfl, hsrc'⟩
          have hhead : headOf call _ _ = headOf call' _ _ :=
            head_eq_of_text_eq hno.homographs hS hS' hr hr' htext hin
          rw [Inputs.forgetPorts, Inputs.forgetPorts, hhead, hin, ihrest hrest' hrest]

/-- **Where keys tell calls apart, the key is the recipe but for the ports its
inputs read.** -/
theorem forgetPorts_eq_of_key_eq {S : Call → Prop} (hinj : Function.Injective host.blake2b)
    (hno : KeysTell host S) (hS : S call) (hS' : S call') {v v' : Str} {r r' : Recipe}
    (h : HasRecipe call v r) (h' : HasRecipe call' v' r')
    (hkey : r.key host.blake2b = r'.key host.blake2b) : r.forgetPorts = r'.forgetPorts := by
  have htext := encode_injective (hinj hkey)
  obtain ⟨n, m, hn, hm, hhead, hin⟩ := id h
  obtain ⟨n', m', hn', hm', hhead', hin'⟩ := id h'
  have hinputs := forgetPorts_inputs_eq hinj hno hS hS' hin hin' (keys_eq_of_text_eq htext)
  rw [Recipe.forgetPorts, Recipe.forgetPorts, hinputs,
    head_eq_of_text_eq hno.homographs hS hS' h h' htext hinputs]

end HasRecipe

end Formshift
