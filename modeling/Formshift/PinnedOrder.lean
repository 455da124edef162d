/-
Formshift/PinnedOrder.lean

Pinned groups are announced in order.

`GateInv` ties the log, `job.outputs`, the buffers and the threads' calls of
`on_output` together and survives every step (`GateInv.steps`).  Main result:
whenever no thread holds the gate, a pinned group has emitted exactly the
longest prefix of its members that has been handed over
(`pinned_groups_in_order`).
-/
import Formshift.Gate
import Formshift.Progress

namespace Formshift

open Py Steps

/-! ### Groups, looked up -/

section Lookup

variable {g : Graph} {reg : ModuleRegistry} {session : Session} {groups : Groups}

theorem mem_pinnedSequence (hg : GroupsOk g g.outputs groups) {o : OutputRef} (ho : o ∈ g.outputs)
    {group : Str} (hgroup : o.group = some group) :
    group ∈ groups.pinnedSequence ↔ Pinned g group := by
  have hne : g.members group ≠ [] :=
    List.ne_nil_of_mem (mem_members.mpr ⟨o, ho, rfl, hgroup⟩)
  rw [← AList.lookup_isSome, hg.pinned]
  by_cases hp : Pinned g group
  · rw [if_pos ⟨hp, hne⟩]
    exact iff_of_true rfl hp
  · rw [if_neg fun h => hp h.1]
    exact iff_of_false (by simp) hp

theorem groupOf_eq (hg : GroupsOk g g.outputs groups) {o : OutputRef} (ho : o ∈ g.outputs) :
    (groups.groupOf.lookup o.key).join = o.group := by
  rw [hg.groupOf o ho]
  rfl

theorem pinnedGroup_eq_some (hg : GroupsOk g g.outputs groups) {o : OutputRef}
    (ho : o ∈ g.outputs) {group : Str} (h : groups.pinnedGroup o.key = some group) :
    o.group = some group ∧ Pinned g group := by
  rw [Groups.pinnedGroup, groupOf_eq hg ho, Option.filter_eq_some_iff] at h
  obtain ⟨hgroup, hmem⟩ := h
  exact ⟨hgroup, (mem_pinnedSequence hg ho hgroup).mp (by simpa using hmem)⟩

theorem pinnedGroup_eq_none (hg : GroupsOk g g.outputs groups) {o : OutputRef}
    (ho : o ∈ g.outputs) (h : groups.pinnedGroup o.key = none) {group : Str}
    (hgroup : o.group = some group) : ¬ Pinned g group := by
  intro hp
  rw [Groups.pinnedGroup, groupOf_eq hg ho, hgroup] at h
  simp [(mem_pinnedSequence hg ho hgroup).mpr hp] at h

theorem sequence_eq (hg : GroupsOk g g.outputs groups) {group : Str} (hp : Pinned g group) :
    groups.sequence group = g.members group := by
  rw [Groups.sequence, hg.pinned]
  by_cases hne : membersOf g.outputs group = []
  · rw [if_neg fun h => h.2 hne, Graph.members, hne]
    rfl
  · rw [if_pos ⟨hp, hne⟩]
    rfl

end Lookup

/-! ### The invariant -/

/-- The records announced in the log, in order. -/
def announced (job : Str) (x : SessionState × GateState) : List OutputRecord :=
  outputsOf (x.1.events.ofJob job)

/-- The keys of the records of one group. -/
def keysOf (group : Str) (records : List OutputRecord) : List (Str × Str) :=
  (records.filter fun r => r.group = some group).map OutputRecord.key

theorem keysOf_concat {group : Str} {records : List OutputRecord} {r : OutputRecord}
    (h : r.group = some group) : keysOf group (records ++ [r]) = keysOf group records ++ [r.key] := by
  simp [keysOf, h]

theorem keysOf_concat_other {group : Str} {records : List OutputRecord} {r : OutputRecord}
    (h : r.group ≠ some group) : keysOf group (records ++ [r]) = keysOf group records := by
  simp [keysOf, h]

/-- The member of a group the thread at the gate is emitting. -/
def Handling.out (c : Handling) (group : Str) : Option (Str × Str) :=
  match c with
  | .emitting o (some group') true _ => if group' = group then some o.key else none
  | _ => none

/-- The same, once it is among `job.outputs`. -/
def Handling.recorded (c : Handling) (group : Str) : Option (Str × Str) :=
  match c with
  | .emitting o (some group') true (.announce _) => if group' = group then some o.key else none
  | _ => none

def GateState.out (s : GateState) (group : Str) : Option (Str × Str) :=
  s.gate.bind fun t => (s.calls t).out group

def GateState.recorded (s : GateState) (group : Str) : Option (Str × Str) :=
  s.gate.bind fun t => (s.calls t).recorded group

/-- The record a call is about to announce. -/
def Handling.announces (c : Handling) (r : OutputRecord) : Prop :=
  ∃ o group gated id, c = .emitting o group gated (.announce id) ∧ o.record id group = r

/-- The call is emitting this output without the gate. -/
def Handling.EmitsDirectly (c : Handling) (key : Str × Str) : Prop :=
  ∃ o group step, c = .emitting o group false step ∧ o.key = key

/-- This output waits for nobody. -/
def Direct (g : Graph) (key : Str × Str) : Prop :=
  ∀ ref ∈ g.outputs, ref.key = key → ∀ group, ref.group = some group → ¬ Pinned g group

section Inv

variable (g : Graph) (job : Str)

/-- What a thread may hold, by where its call stands. -/
def CallOk (x : SessionState × GateState) (t : Nat) : Handling → Prop
  | .idle | .returning => True
  | .flushing group => x.2.gate = some t ∧ Pinned g group
  | .emitting o group gated step =>
    (∃ ref ∈ g.outputs, ref.key = o.key ∧ ref.group = group) ∧
    (match gated with
      | true => x.2.gate = some t ∧ ∃ name, group = some name ∧ Pinned g name
      | false => (o.key, t) ∈ x.2.handed ∧ Direct g o.key) ∧
    match step with
      | .add | .record _ => o.key ∉ x.2.outputs.map OutputRecord.key
      | .announce id => o.record id group ∈ x.2.outputs ∧ o.record id group ∉ announced job x

structure GateInv (x : SessionState × GateState) : Prop where
  handed_nodup : (x.2.handed.map Prod.fst).Nodup
  handed_declared : ∀ k ∈ x.2.handed.map Prod.fst, k ∈ g.outputs.map OutputRef.key
  lock : ∀ t, x.2.gate = some t → (x.2.calls t).flushes ≠ none
  threads : ∀ t, CallOk g job x t (x.2.calls t)
  buffers : ∀ group, Pinned g group → Sequencer.Ok (g.members group) (x.2.buffers group)
    (x.2.handed.map Prod.fst) (x.2.out group)
  held_key : ∀ group k o, (x.2.buffers group).held.lookup k = some o → o.key = k
  settled : ∀ group, Pinned g group →
    (∀ t, x.2.gate = some t → (x.2.calls t).flushes ≠ some group) →
      (x.2.buffers group).ready (g.members group) = none
  order : ∀ group, Pinned g group →
    keysOf group (announced job x) = (g.members group).take (x.2.buffers group).cursor
  outputs_order : ∀ group, Pinned g group → keysOf group x.2.outputs =
    (g.members group).take (x.2.buffers group).cursor ++ (x.2.recorded group).toList
  outputs_nodup : (x.2.outputs.map OutputRecord.key).Nodup
  outputs_ref : ∀ r ∈ x.2.outputs, ∃ ref ∈ g.outputs, ref.key = r.key ∧ ref.group = r.group
  outputs_handed : ∀ r ∈ x.2.outputs, r.key ∈ x.2.handed.map Prod.fst
  announced_iff : ∀ r, r ∈ announced job x ↔
    r ∈ x.2.outputs ∧ ∀ t, ¬ (x.2.calls t).announces r
  announced_nodup : (announced job x).Nodup
  direct : ∀ k t, (k, t) ∈ x.2.handed → Direct g k →
    k ∈ x.2.outputs.map OutputRecord.key ∨ (x.2.calls t).EmitsDirectly k

variable {g job} {groups : Groups}

theorem GateInv.init {x : SessionState} (hnew : outputsOf (x.events.ofJob job) = []) :
    GateInv g job (x, GateState.init) := by
  constructor
  case buffers => exact fun group _ => Sequencer.ok_empty _
  case settled => intro group _ _; simp [GateState.init, Sequencer.ready, Sequencer.empty]
  all_goals simp [announced, hnew, GateState.init, CallOk, keysOf, GateState.recorded, Sequencer.empty]

/-- The invariant reads of the session only what has been announced. -/
theorem GateInv.of_announced {x y : SessionState × GateState} (h : GateInv g job x)
    (hsame : y.2 = x.2) (hann : announced job y = announced job x) : GateInv g job y := by
  obtain ⟨k, s⟩ := x
  obtain ⟨k', s'⟩ := y
  obtain rfl : s' = s := hsame
  have hcalls : ∀ t c, CallOk g job (k, s') t c → CallOk g job (k', s') t c := by
    intro t c hc
    cases c with
    | idle | returning => trivial
    | flushing group => exact hc
    | emitting o group gated step =>
        refine ⟨hc.1, hc.2.1, ?_⟩
        have hstep := hc.2.2
        cases step with
        | add | record id => exact hstep
        | announce id => exact ⟨hstep.1, hann ▸ hstep.2⟩
  exact { h with
    threads := fun t => hcalls t _ (h.threads t)
    order := fun group hp => hann ▸ h.order group hp
    announced_iff := fun r => hann ▸ h.announced_iff r
    announced_nodup := hann ▸ h.announced_nodup }

/-- What others do to the session does not touch the gate. -/
theorem GateInv.interferes {x y : SessionState × GateState} (h : GateInv g job x)
    (hsame : y.2 = x.2) (hint : x.1.Interferes job y.1) : GateInv g job y :=
  h.of_announced hsame (by rw [announced, announced, hint.events])

section Facts

variable {x : SessionState × GateState} (h : GateInv g job x)
include h

/-- Two threads do not emit one output. -/
theorem GateInv.distinct {t t' : Nat} {o o' group group'} {gated gated' : Bool}
    {step step' : EmitStep} (hne : t ≠ t') (hc : x.2.calls t = .emitting o group gated step)
    (hc' : x.2.calls t' = .emitting o' group' gated' step') : o.key ≠ o'.key := by
  intro hkey
  have hok := h.threads t
  have hok' := h.threads t'
  rw [hc] at hok
  rw [hc'] at hok'
  obtain ⟨⟨ref, href, hrk, hrg⟩, hhow, -⟩ := hok
  obtain ⟨⟨ref', href', hrk', hrg'⟩, hhow', -⟩ := hok'
  cases gated with
  | true =>
      obtain ⟨hgate, name, rfl, hp⟩ := hhow
      cases gated' with
      | true => exact hne (Option.some.inj (hgate.symm.trans hhow'.1))
      | false => exact hhow'.2 ref href (hrk.trans hkey) name hrg hp
  | false =>
      cases gated' with
      | true =>
          obtain ⟨-, name, rfl, hp⟩ := hhow'
          exact hhow.2 ref' href' (hrk'.trans hkey.symm) name hrg' hp
      | false =>
          -- one output is handed over by one thread
          have hpair : (o.key, t) = (o'.key, t') :=
            List.inj_on_of_nodup_map h.handed_nodup hhow.1 hhow'.1 hkey
          exact hne (Prod.mk.inj hpair).2

/-- What is being emitted has been handed over. -/
theorem GateInv.emitting_handed {t : Nat} {o group} {gated : Bool} {step : EmitStep}
    (hc : x.2.calls t = .emitting o group gated step) : o.key ∈ x.2.handed.map Prod.fst := by
  have hok := h.threads t
  rw [hc] at hok
  cases gated with
  | false => exact List.mem_map.mpr ⟨_, hok.2.1.1, rfl⟩
  | true =>
      obtain ⟨hgate, name, rfl, hp⟩ := hok.2.1
      have hout : x.2.out name = some o.key := by
        simp [GateState.out, hgate, hc, Handling.out]
      exact ((h.buffers name hp).out _ hout).2

end Facts

/-! ### Steps -/

section Step

variable {k : SessionState} {s u : GateState} {reg : ModuleRegistry} {session : Session} {t : Nat}
  {c : Handling}

/-! What a call is about to announce, and what it emits directly. -/

@[simp] theorem Handling.announces_emitting {o : ExecutionOutput} {group : Option Str}
    {gated : Bool} {step : EmitStep} {r : OutputRecord} :
    (Handling.emitting o group gated step).announces r ↔
      ∃ id, step = .announce id ∧ o.record id group = r := by
  constructor
  · rintro ⟨_, _, _, id, hc, hr⟩
    cases hc
    exact ⟨id, rfl, hr⟩
  · rintro ⟨id, rfl, hr⟩
    exact ⟨o, group, gated, id, rfl, hr⟩

@[simp] theorem Handling.not_announces_idle (r : OutputRecord) : ¬ Handling.idle.announces r := by
  rintro ⟨_, _, _, _, hc, -⟩
  cases hc

@[simp] theorem Handling.not_announces_flushing (group : Str) (r : OutputRecord) :
    ¬ (Handling.flushing group).announces r := by
  rintro ⟨_, _, _, _, hc, -⟩
  cases hc

@[simp] theorem Handling.not_announces_returning (r : OutputRecord) :
    ¬ Handling.returning.announces r := by
  rintro ⟨_, _, _, _, hc, -⟩
  cases hc

@[simp] theorem Handling.emitsDirectly_emitting {o : ExecutionOutput} {group : Option Str}
    {gated : Bool} {step : EmitStep} {key : Str × Str} :
    (Handling.emitting o group gated step).EmitsDirectly key ↔ gated = false ∧ o.key = key := by
  constructor
  · rintro ⟨_, _, _, hc, hkey⟩
    cases hc
    exact ⟨rfl, hkey⟩
  · rintro ⟨rfl, hkey⟩
    exact ⟨o, group, step, rfl, hkey⟩

@[simp] theorem Handling.not_emitsDirectly_idle (key : Str × Str) :
    ¬ Handling.idle.EmitsDirectly key := by
  rintro ⟨_, _, _, hc, -⟩
  cases hc

@[simp] theorem Handling.not_emitsDirectly_flushing (group : Str) (key : Str × Str) :
    ¬ (Handling.flushing group).EmitsDirectly key := by
  rintro ⟨_, _, _, hc, -⟩
  cases hc

@[simp] theorem Handling.not_emitsDirectly_returning (key : Str × Str) :
    ¬ Handling.returning.EmitsDirectly key := by
  rintro ⟨_, _, _, hc, -⟩
  cases hc

/-! A step of thread `t` takes `s` to `u`, and its call is then `c`. -/

theorem calls_setCall_ne {t' : Nat} (hne : t' ≠ t) (c : Handling) :
    (s.setCall t c).calls t' = s.calls t' := Function.update_of_ne hne _ _

theorem calls_setCall_self (t : Nat) (c : Handling) : (s.setCall t c).calls t = c := by
  simp [GateState.setCall]

theorem flushes_update (hc : c.flushes = (s.calls t).flushes) (t' : Nat) :
    (Function.update s.calls t c t').flushes = (s.calls t').flushes := by
  by_cases ht : t' = t
  · rw [ht, Function.update_self, hc]
  · rw [Function.update_of_ne ht]

/-- What is seen of the call at the gate does not change while that call does not. -/
theorem atGate_update {α : Type} (f : Handling → Option α)
    (hsame : s.gate = some t → f c = f (s.calls t)) :
    (s.gate.bind fun t' => f (Function.update s.calls t c t')) =
      s.gate.bind fun t' => f (s.calls t') := by
  cases hg : s.gate with
  | none => rfl
  | some t' =>
      by_cases ht : t' = t
      · subst ht
        rw [Option.bind_some, Option.bind_some, Function.update_self, hsame hg]
      · rw [Option.bind_some, Option.bind_some, Function.update_of_ne ht]

/-- What is out does not change while the thread at the gate stands still. -/
theorem out_other (hgate : u.gate = s.gate) (hcalls : u.calls = Function.update s.calls t c)
    (hnot : s.gate ≠ some t) (group : Str) :
    u.out group = s.out group ∧ u.recorded group = s.recorded group := by
  rw [GateState.out, GateState.recorded, hgate, hcalls]
  exact ⟨atGate_update (fun c => c.out group) fun h => absurd h hnot,
    atGate_update (fun c => c.recorded group) fun h => absurd h hnot⟩

/-- While a thread is at the gate, what is out is its call's. -/
theorem out_self (hgate : u.gate = some t) (hcall : u.calls t = c) (group : Str) :
    u.out group = c.out group ∧ u.recorded group = c.recorded group := by
  simp [GateState.out, GateState.recorded, hgate, hcall]

theorem cursor_update (s : GateState) (group : Str) {b : Sequencer (Str × Str) ExecutionOutput}
    (hb : b.cursor = (s.buffers group).cursor) (name : Str) :
    (Function.update s.buffers group b name).cursor = (s.buffers name).cursor := by
  by_cases hn : name = group
  · rw [hn, Function.update_self, hb]
  · rw [Function.update_of_ne hn]

/-- What a thread may hold survives changes made for others. -/
theorem CallOk.mono {x y : SessionState × GateState} (h : CallOk g job x t c)
    (hgate : x.2.gate = some t → y.2.gate = some t)
    (hhanded : ∀ p ∈ x.2.handed, p ∈ y.2.handed) (houtputs : ∀ r ∈ x.2.outputs, r ∈ y.2.outputs)
    (hfresh : ∀ o group gated step, c = .emitting o group gated step →
      o.key ∉ x.2.outputs.map OutputRecord.key → o.key ∉ y.2.outputs.map OutputRecord.key)
    (hann : ∀ r, c.announces r → r ∉ announced job x → r ∉ announced job y) :
    CallOk g job y t c := by
  cases c with
  | idle | returning => trivial
  | flushing group => exact ⟨hgate h.1, h.2⟩
  | emitting o group gated step =>
      obtain ⟨href, hhow, hstep⟩ := h
      refine ⟨href, ?_, ?_⟩
      · cases gated with
        | true => exact ⟨hgate hhow.1, hhow.2⟩
        | false => exact ⟨hhanded _ hhow.1, hhow.2⟩
      · cases step with
        | add | record id => exact hfresh o group gated _ rfl hstep
        | announce id =>
            exact ⟨houtputs _ hstep.1, hann _ ⟨o, group, gated, id, rfl, rfl⟩ hstep.2⟩

/-- A member of a pinned group is emitted at the gate. -/
theorem CallOk.gated {x : SessionState × GateState} {o : ExecutionOutput} {group : Str}
    {gated : Bool} {step : EmitStep} (h : CallOk g job x t (.emitting o (some group) gated step))
    (hp : Pinned g group) : gated = true := by
  cases gated with
  | true => rfl
  | false =>
      obtain ⟨⟨ref, href, hkey, hgroup⟩, hhow, -⟩ := h
      exact absurd hp (hhow.2 ref href hkey group hgroup)

/-- The threads but one, after a step of that one. -/
theorem threads_update {x y : SessionState × GateState}
    (hcalls : y.2.calls = Function.update x.2.calls t c) (hc : CallOk g job y t c)
    (hother : ∀ t' ≠ t, CallOk g job y t' (x.2.calls t')) (t' : Nat) :
    CallOk g job y t' (y.2.calls t') := by
  by_cases ht : t' = t
  · subst ht
    rwa [hcalls, Function.update_self]
  · rw [hcalls, Function.update_of_ne ht]
    exact hother t' ht

section Keeps

variable (h : GateInv g job (k, s))
include h

/-- The lock is kept by a step that flushes what it has flushed before. -/
theorem GateInv.lock_keeps (hflushes : c.flushes = (s.calls t).flushes) (t' : Nat)
    (ht' : s.gate = some t') : (Function.update s.calls t c t').flushes ≠ none := by
  rw [flushes_update hflushes]
  exact h.lock t' ht'

/-- So is a settled group. -/
theorem GateInv.settled_keeps (hflushes : c.flushes = (s.calls t).flushes) {group : Str}
    (hp : Pinned g group)
    (hfree : ∀ t', s.gate = some t' → (Function.update s.calls t c t').flushes ≠ some group) :
    (s.buffers group).ready (g.members group) = none := by
  refine h.settled group hp fun t' ht' => ?_
  have hf := hfree t' ht'
  rwa [flushes_update hflushes] at hf

/-- A call that neither was nor is about to announce changes nothing others see. -/
theorem GateInv.announced_keeps (hold : ∀ r, ¬ (s.calls t).announces r)
    (hnew : ∀ r, ¬ c.announces r) (r : OutputRecord) :
    r ∈ announced job (k, s) ↔
      r ∈ s.outputs ∧ ∀ t', ¬ (Function.update s.calls t c t').announces r := by
  rw [h.announced_iff r]
  refine and_congr_right fun _ => forall_congr' fun t' => not_congr ?_
  by_cases ht : t' = t
  · subst ht
    rw [Function.update_self]
    exact iff_of_false (hold r) (hnew r)
  · rw [Function.update_of_ne ht]

/-- What the calls emit directly they go on emitting, or it is recorded. -/
theorem GateInv.direct_keeps (hkeep : ∀ key, (s.calls t).EmitsDirectly key →
      c.EmitsDirectly key ∨ key ∈ s.outputs.map OutputRecord.key) (key : Str × Str) (t' : Nat)
    (hmem : (key, t') ∈ s.handed) (hdirect : Direct g key) :
    key ∈ s.outputs.map OutputRecord.key ∨
      (Function.update s.calls t c t').EmitsDirectly key := by
  rcases h.direct key t' hmem hdirect with hout | hemit
  · exact Or.inl hout
  · by_cases ht : t' = t
    · subst ht
      rw [Function.update_self]
      exact (hkeep key hemit).symm
    · rw [Function.update_of_ne ht]
      exact Or.inr hemit

end Keeps

/-- An update of one buffer keeps its values under their keys. -/
theorem GateInv.held_key_update (h : GateInv g job (k, s)) {group : Str}
    {b : Sequencer (Str × Str) ExecutionOutput}
    (hb : ∀ key o, b.held.lookup key = some o → o.key = key) (name : Str) (key : Str × Str)
    (o : ExecutionOutput)
    (hlook : (Function.update s.buffers group b name).held.lookup key = some o) : o.key = key := by
  by_cases hn : name = group
  · rw [hn, Function.update_self] at hlook
    exact hb key o hlook
  · rw [Function.update_of_ne hn] at hlook
    exact h.held_key name key o hlook

/-! ### Handing over -/

theorem GateInv.handed_nodup_concat (h : GateInv g job (k, s)) {key : Str × Str}
    (hnew : key ∉ s.handed.map Prod.fst) (t : Nat) :
    ((s.handed ++ [(key, t)]).map Prod.fst).Nodup := by
  rw [List.map_append, List.map_singleton]
  refine List.nodup_append.mpr ⟨h.handed_nodup, List.nodup_singleton _, ?_⟩
  rintro _ hold _ hlast rfl
  rw [List.mem_singleton.mp hlast] at hold
  exact hnew hold

theorem GateInv.handed_declared_concat (h : GateInv g job (k, s)) {key : Str × Str}
    (hdecl : key ∈ g.outputs.map OutputRef.key) (t : Nat) :
    ∀ key' ∈ (s.handed ++ [(key, t)]).map Prod.fst, key' ∈ g.outputs.map OutputRef.key := by
  rw [List.map_append, List.map_singleton]
  intro key' hkey
  rcases List.mem_append.mp hkey with hkey | hkey
  · exact h.handed_declared key' hkey
  · rw [List.mem_singleton.mp hkey]
    exact hdecl

theorem GateInv.outputs_handed_concat (h : GateInv g job (k, s)) (p : (Str × Str) × Nat)
    {r : OutputRecord} (hr : r ∈ s.outputs) : r.key ∈ (s.handed ++ [p]).map Prod.fst := by
  rw [List.map_append]
  exact List.mem_append_left _ (h.outputs_handed r hr)

/-- An output that is emitted by its own call. -/
theorem GateInv.direct_call (h : GateInv g job (k, s)) (hg : GroupsOk g g.outputs groups)
    {output : ExecutionOutput} (hdecl : output.key ∈ g.outputs.map OutputRef.key)
    (hnew : output.key ∉ s.handed.map Prod.fst) (hcall : s.calls t = .idle)
    (hpin : groups.pinnedGroup output.key = none) :
    GateInv g job (k, { s with handed := s.handed ++ [(output.key, t)] }.setCall t
      (.emitting output (groups.groupOf.lookup output.key).join false .add)) := by
  obtain ⟨ref, href, hkey⟩ := List.mem_map.mp hdecl
  have hdirect : Direct g output.key := by
    intro ref' href' hkey' group hgroup
    rw [← hkey'] at hpin
    exact pinnedGroup_eq_none hg href' hpin hgroup
  have hgate : s.gate ≠ some t := fun e => h.lock t e (by rw [hcall]; rfl)
  have hflushes : (Handling.emitting output (groups.groupOf.lookup output.key).join false
      .add).flushes = (s.calls t).flushes := by rw [hcall]; rfl
  have hnotin : output.key ∉ s.outputs.map OutputRecord.key := fun hin => by
    obtain ⟨r, hr, hrk⟩ := List.mem_map.mp hin
    exact hnew (hrk ▸ h.outputs_handed r hr)
  have hout : ∀ group, _ ∧ _ := fun group => out_other (s := s)
    (u := { s with handed := s.handed ++ [(output.key, t)] }.setCall t
      (.emitting output (groups.groupOf.lookup output.key).join false .add)) rfl rfl hgate group
  exact { h with
    handed_nodup := h.handed_nodup_concat hnew t
    handed_declared := h.handed_declared_concat hdecl t
    lock := h.lock_keeps hflushes
    threads := by
      apply threads_update (x := (k, s)) rfl
      · refine ⟨⟨ref, href, hkey, ?_⟩, ⟨List.mem_append_right _ List.mem_cons_self, hdirect⟩,
          hnotin⟩
        rw [← hkey, groupOf_eq hg href]
      · intro t' _
        exact (h.threads t').mono id (fun p hp => List.mem_append_left _ hp) (fun _ => id)
          (fun _ _ _ _ _ => id) fun _ _ => id
    buffers := by
      intro group hp
      rw [(hout group).1]
      show Sequencer.Ok _ _ ((s.handed ++ [(output.key, t)]).map Prod.fst) _
      rw [List.map_append, List.map_singleton]
      -- the output is no member of a pinned group
      refine (h.buffers group hp).other fun hmem => ?_
      obtain ⟨o, ho, hok, hog⟩ := mem_members.mp hmem
      exact hdirect o ho hok group hog hp
    settled := fun group hp => h.settled_keeps hflushes hp
    outputs_order := fun group hp => (hout group).2.symm ▸ h.outputs_order group hp
    outputs_handed := fun r hr => h.outputs_handed_concat _ hr
    announced_iff := h.announced_keeps (by simp [hcall]) (by simp)
    direct := by
      intro key t' hmem hd
      rcases List.mem_append.mp hmem with hmem | hmem
      · exact h.direct_keeps (by simp [hcall]) key t' hmem hd
      · -- the new one is emitted by its own call
        obtain ⟨rfl, rfl⟩ := Prod.mk.inj (List.mem_singleton.mp hmem)
        rw [calls_setCall_self]
        exact Or.inr (Handling.emitsDirectly_emitting.mpr ⟨rfl, rfl⟩) }

/-- An output that goes into the buffer of its group. -/
theorem GateInv.enter_call (h : GateInv g job (k, s)) (hw : WellFormed g reg session)
    (hg : GroupsOk g g.outputs groups) {output : ExecutionOutput} {group : Str}
    (hdecl : output.key ∈ g.outputs.map OutputRef.key)
    (hnew : output.key ∉ s.handed.map Prod.fst) (hcall : s.calls t = .idle)
    (hpin : groups.pinnedGroup output.key = some group) (hfree : s.gate = none) :
    GateInv g job (k, ({ s with
        handed := s.handed ++ [(output.key, t)]
        gate := some t }.setBuffer group
      ((s.buffers group).offer output.key output)).setCall t (.flushing group)) := by
  obtain ⟨ref, href, hkey⟩ := List.mem_map.mp hdecl
  obtain ⟨hrefgroup, hp⟩ := pinnedGroup_eq_some hg href (hkey ▸ hpin)
  -- nobody was at the gate, so nothing was out, and nothing is now
  have hnobody : ∀ t', s.gate ≠ some t' := fun t' e => by
    rw [hfree] at e
    cases e
  have hout : ∀ name, s.out name = none ∧ s.recorded name = none := by
    intro name
    simp [GateState.out, GateState.recorded, hfree]
  have hout' : ∀ name, _ ∧ _ := out_self (u := ({ s with
        handed := s.handed ++ [(output.key, t)]
        gate := some t }.setBuffer group
      ((s.buffers group).offer output.key output)).setCall t (.flushing group)) rfl
    (calls_setCall_self _ _)
  have hcursor := @cursor_update s group ((s.buffers group).offer output.key output) rfl
  exact { h with
    handed_nodup := h.handed_nodup_concat hnew t
    handed_declared := h.handed_declared_concat hdecl t
    lock := by
      intro t' ht'
      obtain rfl : t = t' := Option.some.inj ht'
      rw [calls_setCall_self]
      exact Option.some_ne_none _
    threads := by
      apply threads_update (x := (k, s)) rfl
      · exact ⟨rfl, hp⟩
      · intro t' _
        exact (h.threads t').mono (fun e => absurd e (hnobody t'))
          (fun p hp => List.mem_append_left _ hp) (fun _ => id) (fun _ _ _ _ _ => id) fun _ _ => id
    buffers := by
      intro name hpn
      rw [(hout' name).1]
      show Sequencer.Ok _ (Function.update s.buffers group _ name)
        ((s.handed ++ [(output.key, t)]).map Prod.fst) none
      have hold := h.buffers name hpn
      rw [(hout name).1] at hold
      rw [List.map_append, List.map_singleton]
      by_cases hn : name = group
      · subst hn
        rw [Function.update_self]
        exact hold.offer (mem_members.mpr ⟨ref, href, hkey, hrefgroup⟩) hnew
      · -- an output has one group
        rw [Function.update_of_ne hn]
        refine hold.other fun hmem => hn ?_
        obtain ⟨o, ho, hok, hog⟩ := mem_members.mp hmem
        obtain rfl := ref_unique hw ho href (hok.trans hkey.symm)
        exact Option.some.inj (hog.symm.trans hrefgroup)
    held_key := by
      refine h.held_key_update fun key o hlook => ?_
      rw [Sequencer.offer, Dict.lookup_insert_ite] at hlook
      split at hlook
      · rename_i hk
        rw [hk, ← Option.some.inj hlook]
      · exact h.held_key group key o hlook
    settled := by
      intro name hpn hother
      have hn : name ≠ group := fun e => by
        have hflushes := hother t rfl
        rw [calls_setCall_self, e] at hflushes
        exact hflushes rfl
      show Sequencer.ready _ (Function.update s.buffers group _ name) = none
      rw [Function.update_of_ne hn]
      exact h.settled name hpn fun t' ht' => absurd ht' (hnobody t')
    order := by
      intro name hpn
      show _ = (g.members name).take (Function.update s.buffers group _ name).cursor
      rw [hcursor]
      exact h.order name hpn
    outputs_order := by
      intro name hpn
      rw [(hout' name).2]
      show _ = (g.members name).take (Function.update s.buffers group _ name).cursor ++ []
      rw [hcursor]
      have hold := h.outputs_order name hpn
      rwa [(hout name).2] at hold
    outputs_handed := fun r hr => h.outputs_handed_concat _ hr
    announced_iff := h.announced_keeps (by simp [hcall]) (by simp)
    direct := by
      intro key t' hmem hd
      rcases List.mem_append.mp hmem with hmem | hmem
      · exact h.direct_keeps (by simp [hcall]) key t' hmem hd
      · -- a member of a pinned group is not direct
        obtain ⟨rfl, rfl⟩ := Prod.mk.inj (List.mem_singleton.mp hmem)
        exact absurd hp (hd ref href hkey group hrefgroup) }

/-! ### Emitting -/

/-- The payload is stored. -/
theorem GateInv.add_call (h : GateInv g job (k, s)) {id : Str} {output : ExecutionOutput}
    {group : Option Str} {gated : Bool} (hcall : s.calls t = .emitting output group gated .add) :
    GateInv g job (k.addPayload id output.type output.data,
      s.setCall t (.emitting output group gated (.record id))) := by
  have hok := h.threads t
  rw [hcall] at hok
  have hflushes : (Handling.emitting output group gated (.record id)).flushes =
      (s.calls t).flushes := by
    rw [hcall]
    cases gated <;> rfl
  -- what is out does not depend on how far the output has come
  have hout : ∀ name, (s.setCall t (.emitting output group gated (.record id))).out name =
      s.out name := by
    intro name
    show (s.gate.bind fun t' => (Function.update s.calls t _ t').out name) = _
    refine atGate_update (fun c => c.out name) fun _ => ?_
    rw [hcall]
    cases group <;> cases gated <;> rfl
  -- and it is recorded only with the next step
  have hrecorded : ∀ name, (s.setCall t (.emitting output group gated (.record id))).recorded name =
      s.recorded name := by
    intro name
    show (s.gate.bind fun t' => (Function.update s.calls t _ t').recorded name) = _
    refine atGate_update (fun c => c.recorded name) fun _ => ?_
    rw [hcall]
    cases group <;> cases gated <;> rfl
  exact { h with
    lock := h.lock_keeps hflushes
    threads := by
      apply threads_update (x := (k, s)) rfl
      · exact hok
      · intro t' _
        exact (h.threads t').mono (fun e => e) (fun _ => fun e => e) (fun _ => fun e => e)
          (fun _ _ _ _ _ => fun e => e) fun _ _ => fun e => e
    buffers := fun name hp => (hout name).symm ▸ h.buffers name hp
    settled := fun name hp => h.settled_keeps hflushes hp
    outputs_order := fun name hp => (hrecorded name).symm ▸ h.outputs_order name hp
    announced_iff := h.announced_keeps (by simp [hcall]) (by simp)
    direct := h.direct_keeps (by simp +contextual [hcall]) }

section Record

variable (h : GateInv g job (k, s)) {id : Str} {output : ExecutionOutput} {group : Option Str}
  {gated : Bool} (hcall : s.calls t = .emitting output group gated (.record id))
include h hcall

/-- The new record stands behind those of its group, if that is pinned. -/
theorem GateInv.outputs_order_record {name : Str} (hp : Pinned g name) :
    keysOf name (s.outputs ++ [output.record id group]) =
      (g.members name).take (s.buffers name).cursor ++ (GateState.recorded ({ s with
        outputs := s.outputs ++ [output.record id group] }.setCall t
          (.emitting output group gated (.announce id))) name).toList := by
  have hok := h.threads t
  rw [hcall] at hok
  have hold := h.outputs_order name hp
  by_cases hgroup : group = some name
  · -- it is at the gate, and nothing of the group was recorded but not announced
    subst hgroup
    obtain rfl := hok.gated hp
    have hgate : s.gate = some t := hok.2.1.1
    have hnone : s.recorded name = none := (out_self hgate hcall name).2
    have hself := out_self (u := { s with
      outputs := s.outputs ++ [output.record id (some name)] }.setCall t
        (.emitting output (some name) true (.announce id))) hgate (calls_setCall_self _ _) name
    rw [keysOf_concat rfl, hold, hnone, hself.2, Handling.recorded, if_pos rfl, Option.toList_none,
      List.append_nil]
    rfl
  -- the output is of another group
  · rw [keysOf_concat_other hgroup, hold]
    congr 2
    show s.recorded name =
      s.gate.bind fun t' => (Function.update s.calls t _ t').recorded name
    refine (atGate_update (fun c => c.recorded name) fun _ => ?_).symm
    rw [hcall]
    cases group with
    | none => cases gated <;> rfl
    | some group =>
        have hne : group ≠ name := fun e => hgroup (by rw [e])
        cases gated with
        | false => rfl
        | true => exact if_neg hne

/-- The new record is the one that is about to be announced. -/
theorem GateInv.announced_record (r : OutputRecord) :
    r ∈ announced job (k, s) ↔ r ∈ s.outputs ++ [output.record id group] ∧
      ∀ t', ¬ (Function.update s.calls t (.emitting output group gated (.announce id))
        t').announces r := by
  have hfresh : output.record id group ∉ s.outputs := fun hin => by
    have hok := h.threads t
    rw [hcall] at hok
    exact hok.2.2 (List.mem_map.mpr ⟨_, hin, rfl⟩)
  by_cases hr : r = output.record id group
  -- the new record is not announced, its own call is about to do so
  · subst hr
    refine iff_of_false (fun hin => hfresh ((h.announced_iff _).mp hin).1) fun hand => hand.2 t ?_
    rw [Function.update_self]
    exact Handling.announces_emitting.mpr ⟨id, rfl, rfl⟩
  -- of the others nothing has changed
  · have hmem : r ∈ s.outputs ++ [output.record id group] ↔ r ∈ s.outputs := by simp [hr]
    rw [h.announced_iff r, hmem]
    refine and_congr_right fun _ => forall_congr' fun t' => not_congr ?_
    by_cases ht : t' = t
    · subst ht
      rw [Function.update_self]
      show (s.calls t').announces r ↔ _
      rw [hcall]
      exact iff_of_false (by simp) fun hann => by
        obtain ⟨_, hid, rfl⟩ := Handling.announces_emitting.mp hann
        obtain rfl := EmitStep.announce.inj hid
        exact hr rfl
    · rw [Function.update_of_ne ht]

end Record

/-- The record goes into `job.outputs`. -/
theorem GateInv.record_call (h : GateInv g job (k, s)) {id : Str} {output : ExecutionOutput}
    {group : Option Str} {gated : Bool}
    (hcall : s.calls t = .emitting output group gated (.record id)) :
    GateInv g job (k, { s with outputs := s.outputs ++ [output.record id group] }.setCall t
      (.emitting output group gated (.announce id))) := by
  have hok := h.threads t
  rw [hcall] at hok
  obtain ⟨href, hhow, hfresh⟩ := hok
  have hkeys : (s.outputs ++ [output.record id group]).map OutputRecord.key =
      s.outputs.map OutputRecord.key ++ [output.key] := List.map_append
  have hflushes : (Handling.emitting output group gated (.announce id)).flushes =
      (s.calls t).flushes := by
    rw [hcall]
    cases gated <;> rfl
  have hout : ∀ name, GateState.out ({ s with
      outputs := s.outputs ++ [output.record id group] }.setCall t
        (.emitting output group gated (.announce id))) name = s.out name := by
    intro name
    show (s.gate.bind fun t' => (Function.update s.calls t _ t').out name) = _
    refine atGate_update (fun c => c.out name) fun _ => ?_
    rw [hcall]
    cases group <;> cases gated <;> rfl
  exact { h with
    lock := h.lock_keeps hflushes
    threads := by
      apply threads_update (x := (k, s)) rfl
      · -- what is not in `job.outputs` has not been announced
        refine ⟨href, hhow, List.mem_append_right _ List.mem_cons_self, fun hin => hfresh ?_⟩
        exact List.mem_map.mpr ⟨_, ((h.announced_iff _).mp hin).1, rfl⟩
      · intro t' ht'
        refine (h.threads t').mono (fun e => e) (fun _ => fun e => e)
          (fun r hr => List.mem_append_left _ hr) ?_ fun _ _ => fun e => e
        intro o group' gated' step hc hnot
        show _ ∉ (s.outputs ++ [output.record id group]).map OutputRecord.key
        rw [hkeys]
        intro hin
        rcases List.mem_append.mp hin with hin | hin
        · exact hnot hin
        · exact h.distinct ht' hc hcall (List.mem_singleton.mp hin)
    buffers := fun name hp => (hout name).symm ▸ h.buffers name hp
    settled := fun name hp => h.settled_keeps hflushes hp
    outputs_order := fun name hp => h.outputs_order_record hcall hp
    outputs_nodup := by
      show ((s.outputs ++ [output.record id group]).map OutputRecord.key).Nodup
      rw [hkeys]
      exact List.nodup_append.mpr ⟨h.outputs_nodup, List.nodup_singleton _, fun a ha b hb e =>
        hfresh (List.mem_singleton.mp hb ▸ e ▸ ha)⟩
    outputs_ref := by
      intro r hr
      rcases List.mem_append.mp hr with hr | hr
      · exact h.outputs_ref r hr
      · exact List.mem_singleton.mp hr ▸ href
    outputs_handed := by
      intro r hr
      rcases List.mem_append.mp hr with hr | hr
      · exact h.outputs_handed r hr
      · rw [List.mem_singleton.mp hr]
        exact h.emitting_handed hcall
    announced_iff := h.announced_record hcall
    direct := by
      intro key t' hmem hd
      show key ∈ (s.outputs ++ [output.record id group]).map OutputRecord.key ∨ _
      rw [hkeys]
      refine (h.direct_keeps (by simp +contextual [hcall]) key t' hmem hd).imp_left fun hin => ?_
      exact List.mem_append_left _ hin }

/-! ### Announcing -/

section Announce

variable (h : GateInv g job (k, s)) {id : Str} {output : ExecutionOutput} {group : Option Str}
  {gated : Bool} (hcall : s.calls t = .emitting output group gated (.announce id))
include h hcall

/-- Nobody else is about to announce what this thread announces. -/
theorem GateInv.announces_unique {t' : Nat} (hne : t' ≠ t) :
    ¬ (s.calls t').announces (output.record id group) := by
  rintro ⟨o, group', gated', id', hc, heq⟩
  refine h.distinct hne hc hcall ?_
  have hkey : (o.record id' group').key = (output.record id group).key := by rw [heq]
  exact hkey

/-- The log, and who is about to announce, after an announcement. -/
theorem GateInv.announced_log (hc : ∀ r, ¬ c.announces r) (r : OutputRecord) :
    r ∈ announced job (k, s) ++ [output.record id group] ↔
      r ∈ s.outputs ∧ ∀ t', ¬ (Function.update s.calls t c t').announces r := by
  have hok := h.threads t
  rw [hcall] at hok
  by_cases hr : r = output.record id group
  -- this record is announced now, and by this call only
  · subst hr
    refine iff_of_true (by simp) ⟨hok.2.2.1, fun t' => ?_⟩
    by_cases ht : t' = t
    · subst ht
      rw [Function.update_self]
      exact hc _
    · rw [Function.update_of_ne ht]
      exact h.announces_unique hcall ht
  -- of the others nothing has changed
  · have hmem : r ∈ announced job (k, s) ++ [output.record id group] ↔
        r ∈ announced job (k, s) := by simp [hr]
    rw [hmem, h.announced_iff r]
    refine and_congr_right fun _ => forall_congr' fun t' => not_congr ?_
    by_cases ht : t' = t
    · subst ht
      rw [Function.update_self]
      show (s.calls t').announces r ↔ _
      rw [hcall]
      refine iff_of_false (fun hann => ?_) (hc r)
      obtain ⟨_, hid, rfl⟩ := Handling.announces_emitting.mp hann
      obtain rfl := EmitStep.announce.inj hid
      exact hr rfl
    · rw [Function.update_of_ne ht]

theorem GateInv.announced_nodup_concat :
    (announced job (k, s) ++ [output.record id group]).Nodup := by
  have hok := h.threads t
  rw [hcall] at hok
  exact List.nodup_append.mpr ⟨h.announced_nodup, List.nodup_singleton _, fun a ha b hb e =>
    hok.2.2.2 (List.mem_singleton.mp hb ▸ e ▸ ha)⟩

/-- The other threads do not wait for this announcement. -/
theorem GateInv.threads_announce {y : SessionState × GateState} (hgate : y.2.gate = s.gate)
    (hhanded : y.2.handed = s.handed) (houtputs : y.2.outputs = s.outputs)
    (hann : announced job y = announced job (k, s) ++ [output.record id group]) {t' : Nat}
    (ht' : t' ≠ t) : CallOk g job y t' (s.calls t') := by
  refine (h.threads t').mono (fun e => hgate ▸ e) (fun _ hp => hhanded ▸ hp)
    (fun _ hr => houtputs ▸ hr) (fun _ _ _ _ _ hnot => houtputs ▸ hnot) ?_
  intro r hr hnot
  rw [hann]
  intro hmem
  rcases List.mem_append.mp hmem with hmem | hmem
  · exact hnot hmem
  · exact h.announces_unique hcall ht' (List.mem_singleton.mp hmem ▸ hr)

end Announce

/-- The event of an output that is emitted by its own call. -/
theorem GateInv.announce_call (h : GateInv g job (k, s)) {id : Str} {output : ExecutionOutput}
    {group : Option Str} {gated : Bool}
    (hcall : s.calls t = .emitting output group gated (.announce id))
    (hfree : gated = false ∨ group = none) :
    GateInv g job (k.log job (.jobOutput (output.record id group)), s.setCall t .returning) := by
  have hok := h.threads t
  rw [hcall] at hok
  have hgated : gated = false := by
    rcases hfree with hfree | hfree
    · exact hfree
    · cases gated with
      | false => rfl
      | true =>
          obtain ⟨-, name, hname, -⟩ := hok.2.1
          rw [hfree] at hname
          cases hname
  subst hgated
  have hin : output.record id group ∈ s.outputs := hok.2.2.1
  have hgate : s.gate ≠ some t := fun e => h.lock t e (by rw [hcall]; rfl)
  have hflushes : Handling.returning.flushes = (s.calls t).flushes := by rw [hcall]; rfl
  have hann : announced job (k.log job (.jobOutput (output.record id group)),
      s.setCall t .returning) = announced job (k, s) ++ [output.record id group] := by
    simp [announced, outputsOf, EventBody.output?]
  have hother := fun (name : Str) => out_other (s := s) (u := s.setCall t .returning) rfl rfl
    hgate name
  exact { h with
    lock := h.lock_keeps hflushes
    threads := by
      apply threads_update (x := (k, s)) rfl
      · trivial
      · exact fun t' ht' => h.threads_announce hcall rfl rfl rfl hann ht'
    buffers := fun name hp => (hother name).1.symm ▸ h.buffers name hp
    settled := fun name hp => h.settled_keeps hflushes hp
    order := by
      intro name hp
      -- it is no member of a pinned group: that would be at the gate
      have hne : (output.record id group).group ≠ some name := by
        intro hname
        obtain rfl : group = some name := hname
        cases hok.gated hp
      rw [hann, keysOf_concat_other hne]
      exact h.order name hp
    outputs_order := fun name hp => (hother name).2.symm ▸ h.outputs_order name hp
    announced_iff := hann ▸ h.announced_log hcall (by simp)
    announced_nodup := hann ▸ h.announced_nodup_concat hcall
    direct := by
      refine h.direct_keeps fun key hemit => Or.inr ?_
      rw [hcall] at hemit
      obtain ⟨-, rfl⟩ := Handling.emitsDirectly_emitting.mp hemit
      exact List.mem_map.mpr ⟨_, hin, rfl⟩ }

/-- The event of a member of a pinned group; the cursor moves on. -/
theorem GateInv.announceGated_call (h : GateInv g job (k, s)) {id group : Str}
    {output : ExecutionOutput}
    (hcall : s.calls t = .emitting output (some group) true (.announce id)) :
    GateInv g job (k.log job (.jobOutput (output.record id (some group))),
      (s.setBuffer group (s.buffers group).advance).setCall t (.flushing group)) := by
  have hok := h.threads t
  rw [hcall] at hok
  obtain ⟨href, ⟨hgate, name, hname, hp⟩, -⟩ := hok
  obtain rfl := Option.some.inj hname
  have hgate' : s.gate = some t := hgate
  have hflushes : (Handling.flushing group).flushes = (s.calls t).flushes := by rw [hcall]; rfl
  have hann : announced job (k.log job (.jobOutput (output.record id (some group))),
      (s.setBuffer group (s.buffers group).advance).setCall t (.flushing group)) =
        announced job (k, s) ++ [output.record id (some group)] := by
    simp [announced, outputsOf, EventBody.output?]
  have hout := out_self hgate' hcall
  have hout' := out_self (u := (s.setBuffer group (s.buffers group).advance).setCall t
    (.flushing group)) hgate' (calls_setCall_self _ _)
  have hok : Sequencer.Ok (g.members group) (s.buffers group) (s.handed.map Prod.fst)
      (some output.key) := by
    have hb := h.buffers group hp
    rwa [(hout group).1, Handling.out, if_pos rfl] at hb
  -- the cursor stood at the member that has now been announced
  have htake : (g.members group).take (s.buffers group).advance.cursor =
      (g.members group).take (s.buffers group).cursor ++ [output.key] := by
    show (g.members group).take ((s.buffers group).cursor + 1) = _
    rw [List.take_add_one, (hok.out _ rfl).1]
    rfl
  exact { h with
    lock := h.lock_keeps hflushes
    threads := by
      apply threads_update (x := (k, s)) rfl
      · exact ⟨hgate', hp⟩
      · exact fun t' ht' => h.threads_announce hcall rfl rfl rfl hann ht'
    buffers := by
      intro name hpn
      rw [(hout' name).1]
      show Sequencer.Ok _ (Function.update s.buffers group _ name) _ none
      by_cases hn : name = group
      · subst hn
        rw [Function.update_self]
        exact hok.advance
      · rw [Function.update_of_ne hn]
        have hb := h.buffers name hpn
        rwa [(hout name).1, Handling.out, if_neg fun e => hn e.symm] at hb
    held_key := h.held_key_update (h.held_key group)
    settled := by
      intro name hpn hother
      have hn : name ≠ group := fun e => by
        have hflushing := hother t hgate'
        rw [calls_setCall_self, e] at hflushing
        exact hflushing rfl
      show Sequencer.ready _ (Function.update s.buffers group _ name) = none
      rw [Function.update_of_ne hn]
      exact h.settled_keeps hflushes hpn hother
    order := by
      intro name hpn
      rw [hann]
      show _ = (g.members name).take (Function.update s.buffers group _ name).cursor
      by_cases hn : name = group
      · subst hn
        rw [keysOf_concat rfl, Function.update_self, htake, h.order name hpn]
        rfl
      · rw [keysOf_concat_other fun e => hn (Option.some.inj e).symm, Function.update_of_ne hn]
        exact h.order name hpn
    outputs_order := by
      intro name hpn
      rw [(hout' name).2]
      have hold := h.outputs_order name hpn
      rw [(hout name).2] at hold
      show _ = (g.members name).take (Function.update s.buffers group _ name).cursor ++ _
      by_cases hn : name = group
      · -- what was recorded and not yet announced is now before the cursor
        subst hn
        rw [Handling.recorded, if_pos rfl] at hold
        rw [Function.update_self, htake]
        show keysOf name s.outputs = _
        simpa [Handling.recorded] using hold
      · rw [Handling.recorded, if_neg fun e => hn e.symm] at hold
        rw [Function.update_of_ne hn]
        exact hold
    announced_iff := hann ▸ h.announced_log hcall (by simp)
    announced_nodup := hann ▸ h.announced_nodup_concat hcall
    direct := h.direct_keeps (by simp [hcall]) }

/-! ### Flushing -/

/-- A member whose turn it is has not been recorded. -/
theorem GateInv.turn_not_recorded (h : GateInv g job (k, s)) (hw : WellFormed g reg session)
    {group : Str} {key : Str × Str} {output : ExecutionOutput} (hp : Pinned g group)
    (hout : s.out group = none) (hrecorded : s.recorded group = none)
    (hturn : (g.members group)[(s.buffers group).cursor]? = some key)
    (hheld : (s.buffers group).held.lookup key = some output) :
    key ∉ s.outputs.map OutputRecord.key := by
  have hb := h.buffers group hp
  rw [hout] at hb
  have hnottaken := ((hb.held key).mp (Dict.mem_of_lookup hheld)).2.2.1
  obtain ⟨ref, href, hrk, hrg⟩ := mem_members.mp (List.mem_of_getElem? hturn)
  intro hin
  obtain ⟨r, hr, hk⟩ := List.mem_map.mp hin
  obtain ⟨ref', href', hrk', hrg'⟩ := h.outputs_ref r hr
  have hgroup : r.group = some group := by
    rw [← hrg', ref_unique hw href' href (hrk'.trans (hk.trans hrk.symm)), hrg]
  have hmem : key ∈ keysOf group s.outputs :=
    List.mem_map.mpr ⟨r, List.mem_filter.mpr ⟨hr, by simpa using hgroup⟩, hk⟩
  -- what is in `job.outputs` of the group comes before the cursor
  have horder := h.outputs_order group hp
  rw [hrecorded, Option.toList_none, List.append_nil] at horder
  rw [horder] at hmem
  exact hnottaken hmem

/-- The next member of the group leaves the buffer. -/
theorem GateInv.next_call (h : GateInv g job (k, s)) (hw : WellFormed g reg session)
    (hg : GroupsOk g g.outputs groups) {group : Str} {key : Str × Str}
    {output : ExecutionOutput} (hcall : s.calls t = .flushing group)
    (hready : (s.buffers group).ready (groups.sequence group) = some (key, output)) :
    GateInv g job (k, (s.setBuffer group ((s.buffers group).drop key)).setCall t
      (.emitting output (some group) true .add)) := by
  have hok := h.threads t
  rw [hcall] at hok
  obtain ⟨hgate, hp⟩ := hok
  have hgate' : s.gate = some t := hgate
  rw [sequence_eq hg hp] at hready
  -- the key in turn is held
  obtain ⟨hturn, hheld⟩ := Sequencer.ready_eq_some_iff.mp hready
  obtain rfl : output.key = key := h.held_key group key output hheld
  have hout := out_self hgate' hcall
  have hout' := out_self (u := (s.setBuffer group ((s.buffers group).drop output.key)).setCall t
    (.emitting output (some group) true .add)) hgate' (calls_setCall_self _ _)
  have hflushes : (Handling.emitting output (some group) true .add).flushes =
      (s.calls t).flushes := by rw [hcall]; rfl
  obtain ⟨ref, href, hrk, hrg⟩ := mem_members.mp (List.mem_of_getElem? hturn)
  -- nothing that is held has been recorded
  have hfresh : output.key ∉ s.outputs.map OutputRecord.key :=
    h.turn_not_recorded hw hp (hout group).1 (hout group).2 hturn hheld
  have hcursor := @cursor_update s group ((s.buffers group).drop output.key) rfl
  exact { h with
    lock := h.lock_keeps hflushes
    threads := by
      apply threads_update (x := (k, s)) rfl
      · exact ⟨⟨ref, href, hrk, hrg⟩, ⟨hgate', group, rfl, hp⟩, hfresh⟩
      · intro t' _
        exact (h.threads t').mono (fun e => e) (fun _ => fun e => e) (fun _ => fun e => e)
          (fun _ _ _ _ _ => fun e => e) fun _ _ => fun e => e
    buffers := by
      intro name hpn
      rw [(hout' name).1]
      show Sequencer.Ok _ (Function.update s.buffers group _ name) _ _
      have hold := h.buffers name hpn
      rw [(hout name).1] at hold
      by_cases hn : name = group
      · subst hn
        rw [Function.update_self, Handling.out, if_pos rfl]
        exact hold.drop hready
      · rw [Function.update_of_ne hn, Handling.out, if_neg fun e => hn e.symm]
        exact hold
    -- what is left was held before
    held_key := by
      refine h.held_key_update fun key o hlook => ?_
      by_cases hk : key = output.key
      · rw [hk, Sequencer.drop, AList.lookup_erase] at hlook
        cases hlook
      · rw [Sequencer.drop, AList.lookup_erase_ne hk] at hlook
        exact h.held_key group key o hlook
    -- the thread at the gate flushes this group, the others are settled
    settled := by
      intro name hpn hother
      have hn : name ≠ group := fun e => by
        have hflushing := hother t hgate'
        rw [calls_setCall_self, e] at hflushing
        exact hflushing rfl
      show Sequencer.ready _ (Function.update s.buffers group _ name) = none
      rw [Function.update_of_ne hn]
      exact h.settled_keeps hflushes hpn hother
    order := by
      intro name hpn
      show _ = (g.members name).take (Function.update s.buffers group _ name).cursor
      rw [hcursor]
      exact h.order name hpn
    outputs_order := by
      intro name hpn
      rw [(hout' name).2]
      show _ = (g.members name).take (Function.update s.buffers group _ name).cursor ++ _
      rw [hcursor]
      have hold := h.outputs_order name hpn
      rwa [(hout name).2] at hold
    announced_iff := h.announced_keeps (by simp [hcall]) (by simp)
    direct := h.direct_keeps (by simp [hcall]) }

/-- The group is flushed as far as it goes; the gate is left. -/
theorem GateInv.leave_call (h : GateInv g job (k, s)) (hg : GroupsOk g g.outputs groups)
    {group : Str} (hcall : s.calls t = .flushing group)
    (hready : (s.buffers group).ready (groups.sequence group) = none) :
    GateInv g job (k, { s with gate := none }.setCall t .returning) := by
  have hok := h.threads t
  rw [hcall] at hok
  obtain ⟨hgate, hp⟩ := hok
  have hgate' : s.gate = some t := hgate
  rw [sequence_eq hg hp] at hready
  have hout := out_self hgate' hcall
  have hout' : ∀ name, GateState.out ({ s with gate := none }.setCall t .returning) name = none ∧
      GateState.recorded ({ s with gate := none }.setCall t .returning) name = none :=
    fun name => ⟨rfl, rfl⟩
  exact { h with
    lock := fun t' ht' => by cases ht'
    threads := by
      apply threads_update (x := (k, s)) rfl
      · trivial
      · intro t' ht'
        -- no other thread was at the gate
        refine (h.threads t').mono (fun e => ?_) (fun _ => fun e => e) (fun _ => fun e => e)
          (fun _ _ _ _ _ => fun e => e) fun _ _ => fun e => e
        exact absurd (Option.some.inj (hgate'.symm.trans e)).symm ht'
    buffers := by
      intro name hpn
      rw [(hout' name).1]
      have hold := h.buffers name hpn
      rwa [(hout name).1] at hold
    settled := by
      intro name hpn _
      by_cases hn : name = group
      · rw [hn]
        exact hready
      · refine h.settled name hpn fun t' ht' => ?_
        obtain rfl : t = t' := Option.some.inj (hgate'.symm.trans ht')
        show (s.calls t).flushes ≠ some name
        rw [hcall]
        exact fun e => hn (Option.some.inj e).symm
    outputs_order := by
      intro name hpn
      rw [(hout' name).2]
      have hold := h.outputs_order name hpn
      rwa [(hout name).2] at hold
    announced_iff := h.announced_keeps (by simp [hcall]) (by simp)
    direct := h.direct_keeps (by simp [hcall]) }

theorem GateInv.ret_call (h : GateInv g job (k, s)) (hcall : s.calls t = .returning) :
    GateInv g job (k, s.setCall t .idle) := by
  have hgate : s.gate ≠ some t := fun e => h.lock t e (by rw [hcall]; rfl)
  have hflushes : Handling.idle.flushes = (s.calls t).flushes := by rw [hcall]; rfl
  have hother := fun (name : Str) => out_other (s := s) (u := s.setCall t .idle) rfl rfl hgate
    name
  exact { h with
    lock := h.lock_keeps hflushes
    threads := by
      apply threads_update (x := (k, s)) rfl
      · trivial
      · exact fun t' _ => h.threads t'
    buffers := fun name hp => (hother name).1.symm ▸ h.buffers name hp
    settled := fun name hp => h.settled_keeps hflushes hp
    outputs_order := fun name hp => (hother name).2.symm ▸ h.outputs_order name hp
    announced_iff := h.announced_keeps (by simp [hcall]) (by simp)
    direct := h.direct_keeps (by simp [hcall]) }

/-- **The step lemma.** -/
theorem GateInv.step {x y : SessionState × GateState} (h : GateInv g job x)
    (hw : WellFormed g reg session) (hg : GroupsOk g g.outputs groups) {a : GateAct}
    (hok : GateOk g x a) (hs : gateStep groups job x a = some y) : GateInv g job y := by
  obtain ⟨k, s⟩ := x
  cases gateStep_move groups job hs with
  | direct hcall hpin hgroup =>
      subst hgroup
      exact h.direct_call hg hok.1 hok.2 hcall hpin
  | enter hcall hpin hgate => exact h.enter_call hw hg hok.1 hok.2 hcall hpin hgate
  | add hcall => exact h.add_call hcall
  | record hcall => exact h.record_call hcall
  | announceGated hcall => exact h.announceGated_call hcall
  | announce hcall hfree => exact h.announce_call hcall hfree
  | next hcall hready => exact h.next_call hw hg hcall hready
  | leave hcall hready => exact h.leave_call hg hcall hready
  | ret hcall => exact h.ret_call hcall

/-- **The run lemma**, whatever others do to the session. -/
theorem gate_inv {x y : SessionState × GateState} (hw : WellFormed g reg session)
    (hg : GroupsOk g g.outputs groups) (h : GateInv g job x)
    (hrun : Reaches (GateSteps groups job g) x y) : GateInv g job y := by
  refine Reaches.invariant (fun x y hstep hx => ?_) hrun h
  rcases hstep with ⟨a, hok, hs⟩ | ⟨hsame, hint⟩
  · exact hx.step hw hg hok hs
  · exact hx.interferes hsame hint

end Step

end Inv

/-! ### What the log says -/

/-- The outputs handed to `on_output` so far. -/
def GateState.arrived (s : GateState) : List (Str × Str) := s.handed.map Prod.fst

/-- What pinned, completion and ungrouped outputs look like while a job runs. -/
structure Emits (groups : Groups) (g : Graph) (job : Str) (x : SessionState × GateState) :
    Prop where
  /-- With the gate free, a pinned group's events are the longest prefix of its
  members that has been handed over. -/
  events : x.2.gate = none → ∀ group, Pinned g group →
    keysOf group (announced job x) = (g.members group).takeWhile (· ∈ x.2.arrived)
  /-- So are its entries of `job.outputs`. -/
  outputs : x.2.gate = none → ∀ group, Pinned g group →
    keysOf group x.2.outputs = (g.members group).takeWhile (· ∈ x.2.arrived)
  events_nodup : ((announced job x).map OutputRecord.key).Nodup
  outputs_nodup : (x.2.outputs.map OutputRecord.key).Nodup
  /-- A member is held for an earlier member of its own group only. -/
  held : x.2.gate = none → ∀ group, Pinned g group → ∀ key ∈ (x.2.buffers group).held,
    ∃ earlier ∈ (g.members group).takeWhile (· ≠ key), earlier ∉ x.2.arrived
  /-- An output outside the pinned groups is out already, or its own call is
  emitting it without the gate. -/
  direct : ∀ key t, (key, t) ∈ x.2.handed → Direct g key →
    key ∈ (announced job x).map OutputRecord.key ∨ (x.2.calls t).EmitsDirectly key
  /-- Such a call can be made whoever holds the gate, -/
  direct_call : ∀ t output, x.2.calls t = .idle → output.key ∈ g.outputs.map OutputRef.key →
    Direct g output.key →
    ∃ y, gateStep groups job x (.call t output) = some y ∧ (y.2.calls t).EmitsDirectly output.key
  /-- and its next step can always be taken. -/
  direct_moves : ∀ t key, (x.2.calls t).EmitsDirectly key →
    ∃ a y, a.thread = t ∧ GateOk g x a ∧ gateStep groups job x a = some y
  /-- Once everything has been handed over nothing is held. -/
  nothing_held : x.2.gate = none → (∀ o ∈ g.outputs, o.key ∈ x.2.arrived) →
    ∀ group, Pinned g group → ∀ key, key ∉ (x.2.buffers group).held

section Emits

variable {g : Graph} {job : Str} {groups : Groups} {x : SessionState × GateState}
  {reg : ModuleRegistry} {session : Session}

theorem GateInv.out_of_free (hgate : x.2.gate = none) (group : Str) :
    x.2.out group = none ∧ x.2.recorded group = none := by
  simp [GateState.out, GateState.recorded, hgate]

theorem GateInv.settled_of_free (h : GateInv g job x) (hgate : x.2.gate = none) {group : Str}
    (hp : Pinned g group) : (x.2.buffers group).ready (g.members group) = none := by
  apply h.settled group hp
  intro t ht
  rw [hgate] at ht
  cases ht

/-- With the gate free the cursor stands behind the longest prefix. -/
theorem GateInv.take_eq (h : GateInv g job x) (hw : WellFormed g reg session)
    (hgate : x.2.gate = none) {group : Str} (hp : Pinned g group) :
    (g.members group).take (x.2.buffers group).cursor =
      (g.members group).takeWhile (· ∈ x.2.arrived) := by
  have hok := h.buffers group hp
  rw [(GateInv.out_of_free hgate group).1] at hok
  convert hok.take_eq (members_nodup hw group) (h.settled_of_free hgate hp)
  rfl

theorem GateInv.announced_keys (h : GateInv g job x) :
    ((announced job x).map OutputRecord.key).Nodup := by
  refine h.announced_nodup.map_on fun r hr r' hr' hkey => ?_
  have hout := ((h.announced_iff r).mp hr).1
  have hout' := ((h.announced_iff r').mp hr').1
  exact List.inj_on_of_nodup_map h.outputs_nodup hout hout' hkey

theorem GateInv.direct_emitted (h : GateInv g job x) {key : Str × Str} {t : Nat}
    (hmem : (key, t) ∈ x.2.handed) (hd : Direct g key) :
    key ∈ (announced job x).map OutputRecord.key ∨ (x.2.calls t).EmitsDirectly key := by
  rcases h.direct key t hmem hd with hout | hemit
  · obtain ⟨r, hr, rfl⟩ := List.mem_map.mp hout
    by_cases hann : r ∈ announced job x
    · exact Or.inl (List.mem_map.mpr ⟨r, hann, rfl⟩)
    · -- recorded and not announced: some call is about to announce it
      obtain ⟨t', o, group, gated, id, hcall, rfl⟩ : ∃ t', (x.2.calls t').announces r := by
        by_contra hno
        exact hann ((h.announced_iff r).mpr ⟨hr, not_exists.mp hno⟩)
      have hok := h.threads t'
      rw [hcall] at hok
      obtain ⟨⟨ref, href, hkey, hgroup⟩, hhow, -⟩ := hok
      cases gated with
      -- not from the gate: its group is not pinned
      | true =>
          obtain ⟨-, name, rfl, hp⟩ := hhow
          exact absurd hp (hd ref href hkey name hgroup)
      | false =>
          have hpair : (o.key, t') = (o.key, t) :=
            List.inj_on_of_nodup_map h.handed_nodup hhow.1 hmem rfl
          obtain rfl := (Prod.mk.inj hpair).2
          exact Or.inr ⟨o, group, _, hcall, rfl⟩
  · exact Or.inr hemit

theorem pinnedGroup_of_direct (hg : GroupsOk g g.outputs groups) {key : Str × Str}
    (hkey : key ∈ g.outputs.map OutputRef.key) (hd : Direct g key) :
    groups.pinnedGroup key = none := by
  obtain ⟨o, ho, rfl⟩ := List.mem_map.mp hkey
  cases hpin : groups.pinnedGroup o.key with
  | none => rfl
  | some group =>
      obtain ⟨hgroup, hp⟩ := pinnedGroup_eq_some hg ho hpin
      exact absurd hp (hd o ho rfl group hgroup)

theorem direct_call_enabled (hg : GroupsOk g g.outputs groups) {t : Nat} {output : ExecutionOutput}
    (hidle : x.2.calls t = .idle) (hkey : output.key ∈ g.outputs.map OutputRef.key)
    (hd : Direct g output.key) :
    ∃ y, gateStep groups job x (.call t output) = some y ∧
      (y.2.calls t).EmitsDirectly output.key := by
  obtain ⟨y, hy⟩ : ∃ y, gateStep groups job x (.call t output) = some y :=
    Option.isSome_iff_exists.mp (by simp [gateStep, hidle, pinnedGroup_of_direct hg hkey hd])
  refine ⟨y, hy, ?_⟩
  cases gateStep_move groups job hy with
  | direct => exact ⟨output, _, .add, calls_setCall_self t _, rfl⟩
  | enter _ hpin =>
      rw [pinnedGroup_of_direct hg hkey hd] at hpin
      cases hpin

theorem direct_step_enabled {t : Nat} {key : Str × Str}
    (hemit : (x.2.calls t).EmitsDirectly key) :
    ∃ a y, a.thread = t ∧ GateOk g x a ∧ gateStep groups job x a = some y := by
  obtain ⟨o, group, step, hcall, -⟩ := hemit
  have hsome : ∃ a : GateAct, a.thread = t ∧ GateOk g x a ∧ (gateStep groups job x a).isSome := by
    cases step with
    | add =>
        obtain ⟨id, hid⟩ := Dict.exists_fresh x.1.session.payloads
        exact ⟨.add t id, rfl, hid, by simp [gateStep, hcall]⟩
    | record id => exact ⟨.record t, rfl, trivial, by simp [gateStep, hcall]⟩
    | announce id => exact ⟨.announce t, rfl, trivial, by simp [gateStep, hcall]⟩
  obtain ⟨a, hthread, hok, hs⟩ := hsome
  obtain ⟨y, hy⟩ := Option.isSome_iff_exists.mp hs
  exact ⟨a, y, hthread, hok, hy⟩

/-- **Pinned groups come out in order, everything else at once**: in every
state of every run of a valid graph's calls of `on_output`. -/
theorem pinned_groups_in_order (hvalid : validateGraph g reg session = [])
    (hgroups : buildGroups g = .ok groups) {k : SessionState}
    (hnew : outputsOf (k.events.ofJob job) = [])
    (hrun : Reaches (GateSteps groups job g) (k, GateState.init) x) : Emits groups g job x := by
  have hw := validateGraph_nil_iff.mp hvalid
  obtain ⟨groups', hbuild, hg⟩ := buildGroups_ok hw
  obtain rfl := Except.ok.inj (hgroups.symm.trans hbuild)
  have h := gate_inv hw hg (GateInv.init hnew) hrun
  constructor
  -- with the gate free all up to the cursor is announced
  case events =>
    intro hgate group hp
    rw [h.order group hp, h.take_eq hw hgate hp]
  case outputs =>
    intro hgate group hp
    rw [h.outputs_order group hp, (GateInv.out_of_free hgate group).2, h.take_eq hw hgate hp]
    exact List.append_nil _
  case events_nodup => exact h.announced_keys
  case outputs_nodup => exact h.outputs_nodup
  -- what is held is behind an output that has not come
  case held =>
    intro hgate group hp key hkey
    have hok := h.buffers group hp
    rw [(GateInv.out_of_free hgate group).1] at hok
    exact hok.held_behind (members_nodup hw group) (h.settled_of_free hgate hp) hkey
  case direct => exact fun key t hmem hd => h.direct_emitted hmem hd
  case direct_call => exact fun t output hidle hkey hd => direct_call_enabled hg hidle hkey hd
  case direct_moves => exact fun t key hemit => direct_step_enabled hemit
  case nothing_held =>
    intro hgate hall group hp key
    have hok := h.buffers group hp
    rw [(GateInv.out_of_free hgate group).1] at hok
    refine hok.held_none (members_nodup hw group) (h.settled_of_free hgate hp) ?_ key
    intro member hmember
    obtain ⟨o, ho, rfl, -⟩ := mem_members.mp hmember
    exact hall o ho

/-! ### Two members, the second first -/

/-- `split` with both ports in one pinned group. -/
def pinnedGraph : Graph where
  nodes := [{ id := "s", module := "split" }]
  edges := []
  bindings := []
  groups := [{ id := "layers", order := "pinned" }]
  outputs := [{ node := "s", port := "a", group := some "layers" },
    { node := "s", port := "b", group := some "layers" }]

/-- Thread 1 brings `b`, which is held, and thread 0 then `a`, which lets both
out. -/
def pinnedActs : List GateAct :=
  [.call 1 ⟨"s", "b", "text", encode "b"⟩, .flush 1, .ret 1,
    .call 0 ⟨"s", "a", "text", encode "a"⟩, .flush 0, .add 0 "p0", .record 0, .announce 0,
    .flush 0, .add 0 "p1", .record 0, .announce 0, .flush 0, .ret 0]

instance (g : Graph) (x : SessionState × GateState) (a : GateAct) : Decidable (GateOk g x a) :=
  match a with
  | .call _ output => inferInstanceAs (Decidable (output.key ∈ g.outputs.map OutputRef.key ∧
      output.key ∉ x.2.handed.map Prod.fst))
  | .add _ id => inferInstanceAs (Decidable (id ∉ x.1.session.payloads))
  | .record _ | .announce _ | .flush _ | .ret _ => isTrue trivial

theorem pinned_groups_in_order_reversed : ∃ (groups : Groups) (x : SessionState × GateState),
    Reaches (GateSteps groups "job" pinnedGraph) (⟨⟨"session", ∅⟩, []⟩, GateState.init) x ∧
      x.2.arrived = ([("s", "b"), ("s", "a")] : List (Str × Str)) ∧
      keysOf "layers" (announced "job" x) = ([("s", "a"), ("s", "b")] : List (Str × Str)) := by
  have hvalid : validateGraph pinnedGraph sampleRegistry ⟨"session", ∅⟩ = [] := by decide +kernel
  obtain ⟨groups, hgroups, -⟩ := buildGroups_ok (validateGraph_nil_iff.mp hvalid)
  have hcheck : (buildGroups pinnedGraph).toOption.bind (fun groups =>
      (runActs (guarded (gateStep groups "job") (GateOk pinnedGraph)) pinnedActs
        (⟨⟨"session", ∅⟩, []⟩, GateState.init)).map fun x => (x.2.gate, x.2.arrived)) =
      some (none, ([("s", "b"), ("s", "a")] : List (Str × Str))) := by
    decide +kernel
  rw [hgroups] at hcheck
  obtain ⟨x, hx, hstate⟩ := Option.map_eq_some_iff.mp hcheck
  obtain ⟨hgate, harrived⟩ := Prod.mk.inj hstate
  have hrun : Reaches (GateSteps groups "job" pinnedGraph)
      (⟨⟨"session", ∅⟩, []⟩, GateState.init) x := by
    refine (reaches_of_guarded hx).lift id fun u v h => ?_
    exact Or.inl h
  have hemits := @pinned_groups_in_order _ "job" _ _ _ _ hvalid hgroups _ rfl hrun
  refine ⟨groups, x, hrun, harrived, ?_⟩
  rw [hemits.events hgate "layers" (by decide), harrived]
  decide +kernel

end Emits

end Formshift
