/-
Formshift/Gate.lean

`on_output` and the gate of `JobManager._run` (`jobs.py`).

Worker threads hand requested outputs over in any order.  An output of a
pinned group is put into the group's buffer under the gate's lock, and the
thread that holds the lock emits whatever has its turn; every other output is
emitted by the thread that brings it.  Emitting is three steps on what the
session shares: store the payload, append to `job.outputs`, append the event.

`GateInv` is the invariant of all interleavings; `pinned_groups_in_order` says
what it means for the log.  A call that waits for the lock has not handed its
output over yet.
-/
import Formshift.Lib.Sequencer
import Formshift.Executor
import Formshift.Events

namespace Formshift

open Py Steps

/-! ### The groups of a graph -/

/-- The key that `group_orders[ref.group]` does not have. -/
inductive GroupFault where
  | groupOrders (group : Str)
  deriving DecidableEq

structure Groups where
  groupOf : Dict (Str × Str) (Option Str)
  pinnedSequence : Dict Str (List (Str × Str))

/-- `{g.id: g.order for g in graph.groups}`. -/
def groupOrders (g : Graph) : Dict Str Str :=
  Dict.ofPairs (g.groups.map fun x => (x.id, x.order))

/-- One output of the loop that fills `group_of` and `pinned_sequence`. -/
def Groups.add (orders : Dict Str Str) (gs : Groups) (ref : OutputRef) :
    Except GroupFault Groups :=
  let gs := { gs with groupOf := gs.groupOf.insert ref.key ref.group }
  match ref.group with
  | none => .ok gs
  | some group =>
    match orders.lookup group with
    | none => .error (.groupOrders group)
    | some order =>
      if order = "pinned" then .ok { gs with
        pinnedSequence := gs.pinnedSequence.insert group
          ((gs.pinnedSequence.lookup group).getD [] ++ [ref.key]) }
      else .ok gs

/-- What `_run` looks up before its `try` block. -/
def buildGroups (g : Graph) : Except GroupFault Groups :=
  g.outputs.foldlM (Groups.add (groupOrders g)) ⟨∅, ∅⟩

/-- A declared group with order `pinned`. -/
def Pinned (g : Graph) (group : Str) : Prop := ∃ x ∈ g.groups, x.id = group ∧ x.order = "pinned"

instance (g : Graph) (group : Str) : Decidable (Pinned g group) :=
  inferInstanceAs (Decidable (∃ x ∈ g.groups, x.id = group ∧ x.order = "pinned"))

/-- The outputs of a group, in the order `graph.outputs` lists them. -/
def membersOf (refs : List OutputRef) (group : Str) : List (Str × Str) :=
  (refs.filter fun o => o.group = some group).map OutputRef.key

def Graph.members (g : Graph) (group : Str) : List (Str × Str) := membersOf g.outputs group

/-- What the loop has found after some of the outputs. -/
structure GroupsOk (g : Graph) (refs : List OutputRef) (gs : Groups) : Prop where
  groupOf : ∀ o ∈ refs, gs.groupOf.lookup o.key = some o.group
  pinned : ∀ group, gs.pinnedSequence.lookup group =
    if Pinned g group ∧ membersOf refs group ≠ [] then some (membersOf refs group) else none

section Groups

variable {g : Graph} {reg : ModuleRegistry} {session : Session}

/-- A declared group has the order it was declared with. -/
theorem lookup_groupOrders (hw : WellFormed g reg session) {x : OutputGroup} (hx : x ∈ g.groups) :
    (groupOrders g).lookup x.id = some x.order := by
  apply Dict.lookup_ofPairs
  · rw [List.map_map]
    exact hw.groups_nodup
  · exact List.mem_map.mpr ⟨x, hx, rfl⟩

theorem pinned_iff (hw : WellFormed g reg session) {group order : Str}
    (h : (groupOrders g).lookup group = some order) : Pinned g group ↔ order = "pinned" := by
  constructor
  · rintro ⟨x, hx, rfl, horder⟩
    rw [lookup_groupOrders hw hx] at h
    rw [← Option.some.inj h, horder]
  · rintro rfl
    obtain ⟨x, hx, heq⟩ := List.mem_map.mp (Dict.mem_of_lookup_ofPairs h)
    obtain ⟨rfl, horder⟩ := Prod.mk.inj heq
    exact ⟨x, hx, rfl, horder⟩

theorem membersOf_concat {refs : List OutputRef} {o : OutputRef} {group : Str}
    (h : o.group = some group) : membersOf (refs ++ [o]) group = membersOf refs group ++ [o.key] := by
  simp [membersOf, h]

theorem membersOf_concat_other {refs : List OutputRef} {o : OutputRef} {group : Str}
    (h : o.group ≠ some group) : membersOf (refs ++ [o]) group = membersOf refs group := by
  simp [membersOf, h]

/-- One output more. -/
theorem GroupsOk.add (hw : WellFormed g reg session) {refs : List OutputRef} {o : OutputRef}
    {gs : Groups} (h : GroupsOk g refs gs) (ho : o ∈ g.outputs)
    (hnew : o.key ∉ refs.map OutputRef.key) :
    ∃ gs', Groups.add (groupOrders g) gs o = .ok gs' ∧ GroupsOk g (refs ++ [o]) gs' := by
  have hgroupOf : ∀ x ∈ refs ++ [o],
      (gs.groupOf.insert o.key o.group).lookup x.key = some x.group := by
    intro x hx
    rw [Dict.lookup_insert_ite]
    rcases List.mem_append.mp hx with hx | hx
    -- the earlier references are of other ports
    · have hne : x.key ≠ o.key := fun e => hnew (e ▸ List.mem_map.mpr ⟨x, hx, rfl⟩)
      rw [if_neg hne, h.groupOf x hx]
    · rw [List.mem_singleton.mp hx, if_pos rfl]
  cases hgroup : o.group with
  -- no group: no sequence changes
  | none =>
      refine ⟨{ gs with groupOf := gs.groupOf.insert o.key o.group }, ?_, hgroupOf, ?_⟩
      · simp [Groups.add, hgroup]
      · intro group
        rw [membersOf_concat_other (by simp [hgroup])]
        exact h.pinned group
  | some group =>
      obtain ⟨x, hx, rfl⟩ := List.mem_map.mp (hw.output_group o ho group hgroup)
      have horder := lookup_groupOrders hw hx
      have hpin := pinned_iff hw horder
      by_cases hpinned : x.order = "pinned"
      -- the sequence of the group is one longer, and begins if it was empty
      · refine ⟨{ groupOf := gs.groupOf.insert o.key o.group,
                  pinnedSequence := gs.pinnedSequence.insert x.id
                    ((gs.pinnedSequence.lookup x.id).getD [] ++ [o.key]) }, ?_, hgroupOf, ?_⟩
        · simp [Groups.add, hgroup, horder, hpinned]
        · intro group
          show (gs.pinnedSequence.insert x.id _).lookup group = _
          rw [Dict.lookup_insert_ite]
          by_cases hsame : group = x.id
          · subst hsame
            have hget : (gs.pinnedSequence.lookup x.id).getD [] = membersOf refs x.id := by
              rw [h.pinned]
              split
              · rfl
              · rename_i hnot
                have hnil : membersOf refs x.id = [] := by
                  by_contra hne
                  exact hnot ⟨hpin.mpr hpinned, hne⟩
                rw [hnil]
                rfl
            rw [if_pos rfl, hget, membersOf_concat hgroup, if_pos ⟨hpin.mpr hpinned, by simp⟩]
          · rw [if_neg hsame, membersOf_concat_other fun e => hsame (by simpa [hgroup] using e.symm)]
            exact h.pinned group
      -- the group is not pinned and has no sequence
      · refine ⟨{ gs with groupOf := gs.groupOf.insert o.key o.group }, ?_, hgroupOf, ?_⟩
        · simp [Groups.add, hgroup, horder, hpinned]
        · intro group
          by_cases hsame : group = x.id
          · subst hsame
            have hnot : ¬ Pinned g x.id := fun hp => hpinned (hpin.mp hp)
            rw [h.pinned, if_neg fun hp => hnot hp.1, if_neg fun hp => hnot hp.1]
          · rw [membersOf_concat_other fun e => hsame (by simpa [hgroup] using e.symm)]
            exact h.pinned group

/-- **The group lookups before the `try` block never fail on a valid graph**,
and give every output its group and every pinned group its members. -/
theorem buildGroups_ok (hw : WellFormed g reg session) :
    ∃ gs, buildGroups g = .ok gs ∧ GroupsOk g g.outputs gs := by
  -- over the references that are left, from those that are done
  have hloop : ∀ refs done gs, g.outputs = done ++ refs → GroupsOk g done gs →
      ∃ gs', refs.foldlM (Groups.add (groupOrders g)) gs = .ok gs' ∧ GroupsOk g g.outputs gs' := by
    intro refs
    induction refs with
    | nil =>
        intro done gs hsplit h
        rw [List.append_nil] at hsplit
        exact ⟨gs, rfl, hsplit ▸ h⟩
    | cons o refs ih =>
        intro done gs hsplit h
        have hnd := hw.outputs_nodup
        rw [hsplit, List.map_append, List.map_cons] at hnd
        have hnew : o.key ∉ done.map OutputRef.key := fun hin =>
          (List.nodup_append.mp hnd).2.2 _ hin _ List.mem_cons_self rfl
        obtain ⟨gs', hadd, h'⟩ := h.add hw (by rw [hsplit]; simp) hnew
        obtain ⟨gs'', hrest, h''⟩ := ih (done ++ [o]) gs' (by rw [hsplit]; simp) h'
        refine ⟨gs'', ?_, h''⟩
        rw [List.foldlM_cons, hadd]
        exact hrest
  refine hloop g.outputs [] _ rfl ⟨by simp, fun group => ?_⟩
  rw [if_neg fun h => h.2 rfl]
  rfl

theorem members_nodup (hw : WellFormed g reg session) (group : Str) :
    (g.members group).Nodup := by
  have hsub : (g.members group).Sublist (g.outputs.map OutputRef.key) :=
    List.filter_sublist.map _
  exact hw.outputs_nodup.sublist hsub

theorem mem_members {group : Str} {key : Str × Str} :
    key ∈ g.members group ↔ ∃ o ∈ g.outputs, o.key = key ∧ o.group = some group := by
  simp only [Graph.members, membersOf, List.mem_map, List.mem_filter, decide_eq_true_eq]
  constructor
  · rintro ⟨o, ⟨ho, hgroup⟩, hkey⟩
    exact ⟨o, ho, hkey, hgroup⟩
  · rintro ⟨o, ho, hkey, hgroup⟩
    exact ⟨o, ⟨ho, hgroup⟩, hkey⟩

/-- An output is declared once. -/
theorem ref_unique (hw : WellFormed g reg session) {o o' : OutputRef} (ho : o ∈ g.outputs)
    (ho' : o' ∈ g.outputs) (hkey : o.key = o'.key) : o = o' :=
  List.inj_on_of_nodup_map hw.outputs_nodup ho ho' hkey

end Groups

/-! ### Calls of `on_output` -/

def ExecutionOutput.key (o : ExecutionOutput) : Str × Str := (o.node, o.port)

/-- Where `emit_output` stands; the payload id is known once it is stored. -/
inductive EmitStep where
  | add
  | record (payload : Str)
  | announce (payload : Str)

/-- Where a thread's call of `on_output` stands. -/
inductive Handling where
  | idle
  | emitting (output : ExecutionOutput) (group : Option Str) (gated : Bool) (step : EmitStep)
  | flushing (group : Str)
  | returning

/-- The pinned group a thread holds the gate for. -/
def Handling.flushes : Handling → Option Str
  | .flushing group => some group
  | .emitting _ group true _ => group
  | _ => none

/-- The record `emit_output` makes. -/
def ExecutionOutput.record (o : ExecutionOutput) (payload : Str) (group : Option Str) :
    OutputRecord :=
  ⟨o.node, o.port, o.type, payload, group⟩

/-- What the calls of one job share besides the session.  `held[group]` and
`next_index[group]` are the buffer of the group; the source looks them up for
pinned groups only, which both have.  `handed` is history: who brought what. -/
structure GateState where
  buffers : Str → Sequencer (Str × Str) ExecutionOutput
  gate : Option Nat
  calls : Nat → Handling
  outputs : List OutputRecord
  handed : List ((Str × Str) × Nat)

def GateState.init : GateState := ⟨fun _ => .empty, none, fun _ => .idle, [], []⟩

inductive GateAct where
  /-- A thread calls `on_output`; for a pinned group it takes the gate. -/
  | call (t : Nat) (output : ExecutionOutput)
  /-- `session.add_payload`, which draws this id. -/
  | add (t : Nat) (id : Str)
  /-- `job.outputs.append`. -/
  | record (t : Nat)
  /-- `events.append`. -/
  | announce (t : Nat)
  /-- The head of the loop that flushes a group; at its end the gate is left. -/
  | flush (t : Nat)
  /-- `on_output` returns. -/
  | ret (t : Nat)

/-- Whose step it is. -/
def GateAct.thread : GateAct → Nat
  | .call t _ | .add t _ | .record t | .announce t | .flush t | .ret t => t

namespace GateState

def setCall (s : GateState) (t : Nat) (c : Handling) : GateState :=
  { s with calls := Function.update s.calls t c }

def setBuffer (s : GateState) (group : Str)
    (b : Sequencer (Str × Str) ExecutionOutput) : GateState :=
  { s with buffers := Function.update s.buffers group b }

end GateState

section Step

variable (groups : Groups) (job : Str)

/-- `pinned_sequence[group]`. -/
def Groups.sequence (group : Str) : List (Str × Str) :=
  (groups.pinnedSequence.lookup group).getD []

/-- The group of an output, if it is a pinned one. -/
def Groups.pinnedGroup (key : Str × Str) : Option Str :=
  (groups.groupOf.lookup key).join.filter fun group => group ∈ groups.pinnedSequence

def gateStep (x : SessionState × GateState) : GateAct → Option (SessionState × GateState)
  | .call t output =>
    match x.2.calls t with
    | .idle =>
      let s := { x.2 with handed := x.2.handed ++ [(output.key, t)] }
      match groups.pinnedGroup output.key with
      | none =>
        let group := (groups.groupOf.lookup output.key).join
        some (x.1, s.setCall t (.emitting output group false .add))
      | some group =>
        if x.2.gate = none then
          some (x.1, ({ s with gate := some t }.setBuffer group
            ((x.2.buffers group).offer output.key output)).setCall t (.flushing group))
        else none
    | _ => none
  | .add t id =>
    match x.2.calls t with
    | .emitting output group gated .add =>
      some (x.1.addPayload id output.type output.data,
        x.2.setCall t (.emitting output group gated (.record id)))
    | _ => none
  | .record t =>
    match x.2.calls t with
    | .emitting output group gated (.record id) =>
      some (x.1, { x.2 with outputs := x.2.outputs ++ [output.record id group] }.setCall t
        (.emitting output group gated (.announce id)))
    | _ => none
  | .announce t =>
    match x.2.calls t with
    | .emitting output group gated (.announce id) =>
      let log := x.1.log job (.jobOutput (output.record id group))
      match gated, group with
      | true, some group =>
        some (log, (x.2.setBuffer group (x.2.buffers group).advance).setCall t (.flushing group))
      | _, _ => some (log, x.2.setCall t .returning)
    | _ => none
  | .flush t =>
    match x.2.calls t with
    | .flushing group =>
      match (x.2.buffers group).ready (groups.sequence group) with
      | some (key, output) =>
        some (x.1, (x.2.setBuffer group ((x.2.buffers group).drop key)).setCall t
          (.emitting output (some group) true .add))
      | none => some (x.1, { x.2 with gate := none }.setCall t .returning)
    | _ => none
  | .ret t =>
    match x.2.calls t with
    | .returning => some (x.1, x.2.setCall t .idle)
    | _ => none

/-- Each declared output is handed over at most once, and payload ids are new. -/
def GateOk (g : Graph) (x : SessionState × GateState) : GateAct → Prop
  | .call _ output => output.key ∈ g.outputs.map OutputRef.key ∧
      output.key ∉ x.2.handed.map Prod.fst
  | .add _ id => id ∉ x.1.session.payloads
  | _ => True

/-- A step of the calls, or something others do to the session. -/
def GateSteps (g : Graph) (x y : SessionState × GateState) : Prop :=
  Fires (gateStep groups job) (GateOk g) x y ∨ (y.2 = x.2 ∧ x.1.Interferes job y.1)

/-- What a step of the calls can do. -/
inductive GateMove (x : SessionState × GateState) :
    GateAct → SessionState × GateState → Prop
  | direct {t output group} (hcall : x.2.calls t = .idle)
      (hpin : groups.pinnedGroup output.key = none)
      (hgroup : group = (groups.groupOf.lookup output.key).join) :
      GateMove x (.call t output)
        (x.1, { x.2 with handed := x.2.handed ++ [(output.key, t)] }.setCall t
          (.emitting output group false .add))
  | enter {t output group} (hcall : x.2.calls t = .idle)
      (hpin : groups.pinnedGroup output.key = some group) (hgate : x.2.gate = none) :
      GateMove x (.call t output)
        (x.1, ({ x.2 with
            handed := x.2.handed ++ [(output.key, t)]
            gate := some t }.setBuffer group
          ((x.2.buffers group).offer output.key output)).setCall t (.flushing group))
  | add {t id output group gated} (hcall : x.2.calls t = .emitting output group gated .add) :
      GateMove x (.add t id)
        (x.1.addPayload id output.type output.data,
          x.2.setCall t (.emitting output group gated (.record id)))
  | record {t id output group gated}
      (hcall : x.2.calls t = .emitting output group gated (.record id)) :
      GateMove x (.record t)
        (x.1, { x.2 with outputs := x.2.outputs ++ [output.record id group] }.setCall t
          (.emitting output group gated (.announce id)))
  | announceGated {t id output group}
      (hcall : x.2.calls t = .emitting output (some group) true (.announce id)) :
      GateMove x (.announce t)
        (x.1.log job (.jobOutput (output.record id (some group))),
          (x.2.setBuffer group (x.2.buffers group).advance).setCall t (.flushing group))
  | announce {t id output group gated}
      (hcall : x.2.calls t = .emitting output group gated (.announce id))
      (hfree : gated = false ∨ group = none) :
      GateMove x (.announce t)
        (x.1.log job (.jobOutput (output.record id group)), x.2.setCall t .returning)
  | next {t group key output} (hcall : x.2.calls t = .flushing group)
      (hready : (x.2.buffers group).ready (groups.sequence group) = some (key, output)) :
      GateMove x (.flush t)
        (x.1, (x.2.setBuffer group ((x.2.buffers group).drop key)).setCall t
          (.emitting output (some group) true .add))
  | leave {t group} (hcall : x.2.calls t = .flushing group)
      (hready : (x.2.buffers group).ready (groups.sequence group) = none) :
      GateMove x (.flush t) (x.1, { x.2 with gate := none }.setCall t .returning)
  | ret {t} (hcall : x.2.calls t = .returning) : GateMove x (.ret t) (x.1, x.2.setCall t .idle)

theorem gateStep_move {x y : SessionState × GateState} {a : GateAct}
    (h : gateStep groups job x a = some y) : GateMove groups job x a y := by
  cases a with
  -- the output of a pinned group waits for the gate, any other goes on at once
  | call t output =>
      simp only [gateStep] at h
      split at h
      · rename_i hcall
        split at h
        · rename_i hpin
          obtain rfl := Option.some.inj h
          exact .direct hcall hpin rfl
        · rename_i group hpin
          split at h
          · rename_i hgate
            obtain rfl := Option.some.inj h
            exact .enter hcall hpin hgate
          · cases h
      · cases h
  | add t id =>
      simp only [gateStep] at h
      split at h
      · rename_i hcall
        obtain rfl := Option.some.inj h
        exact .add hcall
      · cases h
  | record t =>
      simp only [gateStep] at h
      split at h
      · rename_i hcall
        obtain rfl := Option.some.inj h
        exact .record hcall
      · cases h
  -- from the gate the cursor moves on
  | announce t =>
      simp only [gateStep] at h
      split at h
      · rename_i output group gated id hcall
        split at h
        · obtain rfl := Option.some.inj h
          exact .announceGated hcall
        · rename_i hnot
          obtain rfl := Option.some.inj h
          refine .announce hcall ?_
          cases gated with
          | false => exact Or.inl rfl
          | true =>
              cases group with
              | none => exact Or.inr rfl
              | some group => exact absurd rfl (hnot group rfl)
      · cases h
  -- the next one in turn is out, or the gate is left
  | flush t =>
      simp only [gateStep] at h
      split at h
      · rename_i hcall
        split at h
        · rename_i hready
          obtain rfl := Option.some.inj h
          exact .next hcall hready
        · rename_i hready
          obtain rfl := Option.some.inj h
          exact .leave hcall hready
      · cases h
  | ret t =>
      simp only [gateStep] at h
      split at h
      · rename_i hcall
        obtain rfl := Option.some.inj h
        exact .ret hcall
      · cases h

end Step

end Formshift
