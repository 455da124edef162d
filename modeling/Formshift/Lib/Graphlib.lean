/-
Formshift/Lib/Graphlib.lean

Python's `graphlib.TopologicalSorter`, as far as `static_order` needs it.

The sorter holds its nodes in the order they were first mentioned and one arc
for every predecessor given.  `prepare`, `get_ready` and `done` work in rounds,
but a round is released strictly in the order of the one before it, so the
rounds laid end to end are the states of one first-in first-out queue: `drain`.

Main results: an order that is returned ranks every arc upwards
(`staticOrder_rank`), and an order is returned exactly when no node reaches
itself (`staticOrder_isSome_iff`), which is where `CycleError` is raised
otherwise.
-/
import Mathlib

namespace Py

variable {α : Type*} [DecidableEq α]

/-- The nodes in insertion order, and the pairs (predecessor, node). -/
structure TopologicalSorter (α : Type*) where
  nodes : List α
  arcs : List (α × α)

namespace TopologicalSorter

def empty : TopologicalSorter α := ⟨[], []⟩

def addNode (nodes : List α) (n : α) : List α := if n ∈ nodes then nodes else nodes ++ [n]

/-- `sorter.add(node, *predecessors)`. -/
def add (s : TopologicalSorter α) (node : α) (predecessors : List α) : TopologicalSorter α where
  nodes := predecessors.foldl addNode (addNode s.nodes node)
  arcs := s.arcs ++ predecessors.map fun p => (p, node)

/-- Every predecessor of `v` is done. -/
def Free (arcs : List (α × α)) (done : List α) (v : α) : Prop :=
  ∀ a ∈ arcs, a.2 = v → a.1 ∈ done

instance (arcs : List (α × α)) (done : List α) (v : α) : Decidable (Free arcs done v) :=
  inferInstanceAs (Decidable (∀ a ∈ arcs, a.2 = v → a.1 ∈ done))

/-- The successors of `u`, each at its last mention: there its count of missing
predecessors reaches zero, if it does. -/
def successors (arcs : List (α × α)) (u : α) : List α :=
  ((arcs.filter fun a => a.1 = u).map Prod.snd).dedup

/-- Mark the nodes of the queue done one after the other, each releasing the
successors it was the last to block. -/
def drain (arcs : List (α × α)) : Nat → List α → List α → List α
  | 0, _, done => done
  | _ + 1, [], done => done
  | n + 1, u :: queue, done =>
      drain arcs n
        (queue ++ (successors arcs u).filter fun v => Free arcs (done ++ [u]) v) (done ++ [u])

/-- `list(sorter.static_order())`; `none` is `CycleError`. -/
def staticOrder (s : TopologicalSorter α) : Option (List α) :=
  let order := drain s.arcs s.nodes.length (s.nodes.filter fun v => Free s.arcs [] v) []
  if order.length = s.nodes.length then some order else none

/-! ### The queue invariant -/

theorem mem_successors {arcs : List (α × α)} {u v : α} :
    v ∈ successors arcs u ↔ (u, v) ∈ arcs := by
  simp [successors]

/-- `done` lists every arc's source before its target. -/
def Ordered (arcs : List (α × α)) (done : List α) : Prop :=
  ∀ a ∈ arcs, a.2 ∈ done → a.1 ∈ done ∧ done.idxOf a.1 < done.idxOf a.2

/-- What holds between two nodes of the queue: the released nodes are exactly
those with nothing left to wait for. -/
structure Inv (s : TopologicalSorter α) (queue done : List α) : Prop where
  nodup : (done ++ queue).Nodup
  mem_iff : ∀ v, v ∈ done ++ queue ↔ v ∈ s.nodes ∧ Free s.arcs done v
  ordered : Ordered s.arcs done

theorem Inv.init {s : TopologicalSorter α} (hs : s.nodes.Nodup) :
    Inv s (s.nodes.filter fun v => Free s.arcs [] v) [] where
  nodup := by simpa using hs.filter _
  mem_iff := by simp
  ordered := by intro a _ h; cases h

theorem Ordered.concat {arcs : List (α × α)} {done : List α} {u : α} (h : Ordered arcs done)
    (hu : u ∉ done) (hfree : Free arcs done u) : Ordered arcs (done ++ [u]) := by
  intro a ha hmem
  rw [List.mem_append, List.mem_singleton] at hmem
  rcases hmem with hmem | rfl
  · obtain ⟨h₁, h₂⟩ := h a ha hmem
    refine ⟨List.mem_append_left _ h₁, ?_⟩
    rwa [List.idxOf_append_of_mem h₁, List.idxOf_append_of_mem hmem]
  · have h₁ : a.1 ∈ done := hfree a ha rfl
    refine ⟨List.mem_append_left _ h₁, ?_⟩
    rw [List.idxOf_append_of_mem h₁, List.idxOf_append_of_notMem hu]
    have := List.idxOf_lt_length_of_mem h₁
    omega

theorem Inv.step {s : TopologicalSorter α} {u : α} {queue done : List α}
    (hclosed : ∀ a ∈ s.arcs, a.2 ∈ s.nodes) (h : Inv s (u :: queue) done) :
    Inv s (queue ++ (successors s.arcs u).filter fun v => Free s.arcs (done ++ [u]) v)
      (done ++ [u]) := by
  have hu : u ∉ done := by
    have := List.nodup_append.mp h.nodup
    exact fun hmem => this.2.2 u hmem u (by simp) rfl
  have hfree : Free s.arcs done u := ((h.mem_iff u).mp (by simp)).2
  have hold : ∀ v, v ∈ done ++ u :: queue → v ∉ (successors s.arcs u) := by
    -- a released node waits for nothing, while `u` was not done yet
    intro v hv hsucc
    exact hu (((h.mem_iff v).mp hv).2 (u, v) (mem_successors.mp hsucc) rfl)
  refine ⟨?_, ?_, h.ordered.concat hu hfree⟩
  · rw [← List.append_assoc, List.append_assoc done, List.singleton_append, List.nodup_append]
    refine ⟨h.nodup, (List.nodup_dedup _).filter _, ?_⟩
    rintro v hv w hw rfl
    exact hold v hv (List.mem_filter.mp hw).1
  · intro v
    rw [← List.append_assoc, List.append_assoc done, List.singleton_append, List.mem_append,
      List.mem_filter, decide_eq_true_eq]
    constructor
    · rintro (hv | ⟨hsucc, hv⟩)
      · obtain ⟨hn, hf⟩ := (h.mem_iff v).mp hv
        exact ⟨hn, fun a ha hav => List.mem_append_left _ (hf a ha hav)⟩
      · exact ⟨hclosed _ (mem_successors.mp hsucc), hv⟩
    · rintro ⟨hn, hf⟩
      by_cases hsucc : v ∈ successors s.arcs u
      · exact Or.inr ⟨hsucc, hf⟩
      · refine Or.inl ((h.mem_iff v).mpr ⟨hn, fun a ha hav => ?_⟩)
        have hne : a.1 ≠ u := by
          rintro rfl
          exact hsucc (mem_successors.mpr (by rw [← hav]; exact ha))
        have := hf a ha hav
        simpa [hne] using this

/-- The queue runs dry, or every unit of fuel has put a node among the done. -/
theorem drain_spec {s : TopologicalSorter α} (hclosed : ∀ a ∈ s.arcs, a.2 ∈ s.nodes) :
    ∀ (fuel : Nat) (queue done : List α), Inv s queue done →
      ∃ rest, Inv s rest (drain s.arcs fuel queue done) ∧
        (rest = [] ∨ (drain s.arcs fuel queue done).length = done.length + fuel) := by
  intro fuel
  induction fuel with
  | zero => exact fun queue done h => ⟨queue, h, Or.inr rfl⟩
  | succ fuel ih =>
      intro queue done h
      cases queue with
      | nil => exact ⟨[], h, Or.inl rfl⟩
      | cons u queue =>
          obtain ⟨rest, hinv, hend⟩ := ih _ _ (h.step hclosed)
          refine ⟨rest, hinv, hend.imp_right fun hlen => ?_⟩
          rw [drain, hlen, List.length_append, List.length_singleton]
          omega

theorem Inv.length_le {s : TopologicalSorter α} {queue done : List α} (h : Inv s queue done) :
    (done ++ queue).length ≤ s.nodes.length :=
  (List.subperm_of_subset h.nodup fun v hv => ((h.mem_iff v).mp hv).1).length_le

/-! ### Orders and cycles -/

/-- `u` is an immediate predecessor of `v`. -/
def Arc (s : TopologicalSorter α) (u v : α) : Prop := (u, v) ∈ s.arcs

/-- The order has every node once, and every arc goes upwards in it. -/
theorem staticOrder_rank {s : TopologicalSorter α} (hs : s.nodes.Nodup)
    (hclosed : ∀ a ∈ s.arcs, a.2 ∈ s.nodes) {order : List α}
    (h : s.staticOrder = some order) :
    order.Perm s.nodes ∧ ∀ u v, s.Arc u v → order.idxOf u < order.idxOf v := by
  obtain ⟨rest, hinv, -⟩ := drain_spec hclosed s.nodes.length _ _ (Inv.init hs)
  simp only [staticOrder] at h
  split at h
  · rename_i hlen
    obtain rfl := Option.some.inj h
    have hsub : drain s.arcs s.nodes.length (s.nodes.filter fun v => Free s.arcs [] v) []
        ⊆ s.nodes :=
      fun v hv => ((hinv.mem_iff v).mp (List.mem_append_left _ hv)).1
    have hperm := (List.subperm_of_subset (List.nodup_append.mp hinv.nodup).1
      hsub).perm_of_length_le hlen.ge
    refine ⟨hperm, fun u v huv => ?_⟩
    exact (hinv.ordered (u, v) huv (hperm.symm.subset (hclosed _ huv))).2
  · cases h

omit [DecidableEq α] in
/-- Upward arcs close no cycle. -/
theorem not_cycle_of_rank {s : TopologicalSorter α} {rank : α → Nat}
    (hrank : ∀ u v, s.Arc u v → rank u < rank v) (v : α) : ¬ Relation.TransGen s.Arc v v := by
  intro h
  have hlt : ∀ {u w}, Relation.TransGen s.Arc u w → rank u < rank w := by
    intro u w huw
    induction huw with
    | single huw => exact hrank _ _ huw
    | tail _ hvw ih => exact ih.trans (hrank _ _ hvw)
  exact lt_irrefl _ (hlt h)

/-- Without a cycle, a queue that has run dry has released every node. -/
theorem mem_done_of_acyclic {s : TopologicalSorter α} (hends : ∀ a ∈ s.arcs, a.1 ∈ s.nodes)
    (hacyc : ∀ v, ¬ Relation.TransGen s.Arc v v) {done : List α} (h : Inv s [] done) :
    ∀ v ∈ s.nodes, v ∈ done := by
  let r : {v // v ∈ s.nodes} → {v // v ∈ s.nodes} → Prop :=
    fun u v => Relation.TransGen s.Arc u.1 v.1
  have : IsTrans _ r := ⟨fun _ _ _ => Relation.TransGen.trans⟩
  have : Std.Irrefl r := ⟨fun v => hacyc v.1⟩
  have hwf : WellFounded r := Finite.wellFounded_of_trans_of_irrefl r
  intro v hv
  refine hwf.induction (C := fun v => v.1 ∈ done) ⟨v, hv⟩ ?_
  rintro ⟨v, hv⟩ ih
  have := (h.mem_iff v).mpr ⟨hv, fun a ha hav => ?_⟩
  · simpa using this
  · subst hav
    exact ih ⟨a.1, hends a ha⟩ (Relation.TransGen.single ha)

/-- **`CycleError` means a cycle**: the sorter returns an order exactly when no
node reaches itself. -/
theorem staticOrder_isSome_iff {s : TopologicalSorter α} (hs : s.nodes.Nodup)
    (hends : ∀ a ∈ s.arcs, a.1 ∈ s.nodes) (hclosed : ∀ a ∈ s.arcs, a.2 ∈ s.nodes) :
    s.staticOrder.isSome ↔ ∀ v, ¬ Relation.TransGen s.Arc v v := by
  constructor
  · intro h
    obtain ⟨order, horder⟩ := Option.isSome_iff_exists.mp h
    exact not_cycle_of_rank (staticOrder_rank hs hclosed horder).2
  · intro hacyc
    obtain ⟨rest, hinv, hend⟩ := drain_spec hclosed s.nodes.length _ _ (Inv.init hs)
    have hle := hinv.length_le
    have hlen : (drain s.arcs s.nodes.length (s.nodes.filter fun v => Free s.arcs [] v)
        []).length = s.nodes.length := by
      rcases hend with rfl | hlen
      · have hsub := List.subperm_of_subset hs (mem_done_of_acyclic hends hacyc hinv)
        rw [List.append_nil] at hle
        exact le_antisymm hle hsub.length_le
      · simpa using hlen
    simp [staticOrder, hlen]

/-! ### Nodes and arcs of a sorter that was built by `add` -/

theorem mem_addNode {nodes : List α} {n v : α} : v ∈ addNode nodes n ↔ v ∈ nodes ∨ v = n := by
  unfold addNode
  split
  · constructor
    · exact Or.inl
    · rintro (h | rfl) <;> assumption
  · simp

theorem nodup_addNode {nodes : List α} (h : nodes.Nodup) (n : α) : (addNode nodes n).Nodup := by
  unfold addNode
  split
  · exact h
  · rename_i hn
    rw [List.nodup_append]
    refine ⟨h, List.nodup_singleton n, ?_⟩
    rintro a ha b hb rfl
    exact hn (List.mem_singleton.mp hb ▸ ha)

theorem mem_foldl_addNode {ps nodes : List α} {v : α} :
    v ∈ ps.foldl addNode nodes ↔ v ∈ nodes ∨ v ∈ ps := by
  induction ps generalizing nodes with
  | nil => simp
  | cons p ps ih => rw [List.foldl_cons, ih, mem_addNode, List.mem_cons, or_assoc]

theorem nodup_foldl_addNode {ps nodes : List α} (h : nodes.Nodup) :
    (ps.foldl addNode nodes).Nodup := by
  induction ps generalizing nodes with
  | nil => exact h
  | cons p ps ih => exact ih (nodup_addNode h p)

/-- What `add` keeps: nodes are listed once, and arcs join listed nodes. -/
structure WellFormed (s : TopologicalSorter α) : Prop where
  nodup : s.nodes.Nodup
  source_mem : ∀ a ∈ s.arcs, a.1 ∈ s.nodes
  target_mem : ∀ a ∈ s.arcs, a.2 ∈ s.nodes

omit [DecidableEq α] in
theorem wellFormed_empty : (empty : TopologicalSorter α).WellFormed :=
  ⟨List.nodup_nil, by simp [empty], by simp [empty]⟩

theorem WellFormed.add {s : TopologicalSorter α} (h : s.WellFormed) (node : α) (ps : List α) :
    (s.add node ps).WellFormed where
  nodup := nodup_foldl_addNode (nodup_addNode h.nodup node)
  source_mem := by
    intro a ha
    rw [TopologicalSorter.add, mem_foldl_addNode, mem_addNode]
    rcases List.mem_append.mp ha with ha | ha
    · exact Or.inl (Or.inl (h.source_mem a ha))
    · obtain ⟨p, hp, rfl⟩ := List.mem_map.mp ha
      exact Or.inr hp
  target_mem := by
    intro a ha
    rw [TopologicalSorter.add, mem_foldl_addNode, mem_addNode]
    rcases List.mem_append.mp ha with ha | ha
    · exact Or.inl (Or.inl (h.target_mem a ha))
    · obtain ⟨p, hp, rfl⟩ := List.mem_map.mp ha
      exact Or.inl (Or.inr rfl)

theorem mem_nodes_add {s : TopologicalSorter α} {node v : α} {ps : List α} :
    v ∈ (s.add node ps).nodes ↔ v ∈ s.nodes ∨ v = node ∨ v ∈ ps := by
  rw [add, mem_foldl_addNode, mem_addNode, or_assoc]

theorem arc_add {s : TopologicalSorter α} {node : α} {ps : List α} {u v : α} :
    (s.add node ps).Arc u v ↔ s.Arc u v ∨ u ∈ ps ∧ v = node := by
  simp only [Arc, add, List.mem_append, List.mem_map, Prod.mk.injEq]
  constructor
  · rintro (h | ⟨p, hp, rfl, rfl⟩)
    · exact Or.inl h
    · exact Or.inr ⟨hp, rfl⟩
  · rintro (h | ⟨hu, rfl⟩)
    · exact Or.inl h
    · exact Or.inr ⟨u, hu, rfl, rfl⟩

end TopologicalSorter
end Py
