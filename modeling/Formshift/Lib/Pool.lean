/-
Formshift/Lib/Pool.lean

Many programs at work on one store.

A pool is a store and a growing list of members, each a program with its own
local state; a step starts a new member or lets one member take a step, which
may change the store.  `PoolInv` is an invariant of the store together with
one of each member, and the rule `PoolInv.reaches` derives it for whole runs
from what a single member's step preserves and guarantees: what a member may
rely on is the store's invariant and the guarantee, never the other members.
-/
import Formshift.Lib.Steps

namespace Steps

variable {μ κ σ α : Type*}

structure Pool (μ κ σ : Type*) where
  store : κ
  members : List (μ × σ)

inductive PoolAct (μ α : Type*) where
  | spawn (m : μ)
  | act (i : Nat) (a : α)

section Step

variable (start : μ → σ) (step : μ → κ × σ → α → Option (κ × σ))
  (S : μ → Prop) (ok : μ → κ × σ → α → Prop)

def poolStep (p : Pool μ κ σ) : PoolAct μ α → Option (Pool μ κ σ)
  | .spawn m => some { p with members := p.members ++ [(m, start m)] }
  | .act i a =>
    match p.members[i]? with
    | some (m, s) => (step m (p.store, s) a).map fun x => ⟨x.1, p.members.set i (m, x.2)⟩
    | none => none

/-- Only programs of `S` are started, and each takes permitted actions only. -/
def PoolOk (p : Pool μ κ σ) : PoolAct μ α → Prop
  | .spawn m => S m
  | .act i a => ∀ m s, p.members[i]? = some (m, s) → ok m (p.store, s) a

/-- The runs of a pool. -/
abbrev PoolReaches : Pool μ κ σ → Pool μ κ σ → Prop :=
  Reaches (Fires (poolStep start step) (PoolOk S ok))

/-- Where member `i`, a program `m`, stands: at its start until it is spawned. -/
def Pool.stateOf (p : Pool μ κ σ) (i : Nat) (m : μ) : σ := (p.members[i]?).elim (start m) Prod.snd

/-- A step of the program `m`, or something others do to the store. -/
def Among (R : κ → κ → Prop) (m : μ) (x y : κ × σ) : Prop :=
  Fires (step m) (ok m) x y ∨ (y.2 = x.2 ∧ R x.1 y.1)

variable {start step S ok}

/-- A pool step starts a member or moves one. -/
theorem poolStep_cases {p q : Pool μ κ σ} {a : PoolAct μ α} (h : poolStep start step p a = some q) :
    (∃ m, a = .spawn m ∧ q = { p with members := p.members ++ [(m, start m)] }) ∨
    ∃ i b m s x, a = .act i b ∧ p.members[i]? = some (m, s) ∧ step m (p.store, s) b = some x ∧
      q = ⟨x.1, p.members.set i (m, x.2)⟩ := by
  cases a with
  | spawn m => exact Or.inl ⟨m, rfl, (Option.some.inj h).symm⟩
  | act i b =>
      simp only [poolStep] at h
      split at h
      · rename_i m s hm
        obtain ⟨x, hx, rfl⟩ := Option.map_eq_some_iff.mp h
        exact Or.inr ⟨i, b, m, s, x, rfl, hm, hx, rfl⟩
      · cases h

theorem getElem?_set_some {l : List (μ × σ)} {i j : Nat} {x y : μ × σ}
    (h : (l.set i x)[j]? = some y) : (j = i ∧ y = x) ∨ (j ≠ i ∧ l[j]? = some y) := by
  rw [List.getElem?_set] at h
  by_cases hij : i = j
  · rw [if_pos hij] at h
    split at h
    · exact Or.inl ⟨hij.symm, (Option.some.inj h).symm⟩
    · cases h
  · rw [if_neg hij] at h
    exact Or.inr ⟨fun e => hij e.symm, h⟩

/-- A sum over the members, where one of them has changed. -/
theorem sum_map_set {γ : Type*} {f : γ → Nat} {l : List γ} {i : Nat} {x y : γ}
    (h : l[i]? = some x) : ((l.set i y).map f).sum + f x = (l.map f).sum + f y := by
  induction l generalizing i with
  | nil => cases h
  | cons z zs ih =>
      cases i with
      | zero =>
          obtain rfl := Option.some.inj h
          simp only [List.set_cons_zero, List.map_cons, List.sum_cons]
          omega
      | succ i =>
          have hi := ih h
          simp only [List.set_cons_succ, List.map_cons, List.sum_cons]
          omega

/-- The store has `C`, and member `i` is a program of `S` in a state with `I i`. -/
structure PoolInv (S : μ → Prop) (C : κ → Prop) (I : Nat → μ → κ → σ → Prop) (p : Pool μ κ σ) :
    Prop where
  store : C p.store
  members : ∀ i m s, p.members[i]? = some (m, s) → S m ∧ I i m p.store s

/-- **The pool rule**, by rely and guarantee: every start establishes `I`,
every member's step preserves it and changes the store by `G` only, and `I`
bears such changes made by others. -/
theorem PoolInv.fires {C : κ → Prop} {I : Nat → μ → κ → σ → Prop} {G : κ → κ → Prop}
    (hstart : ∀ i m k, S m → C k → I i m k (start m))
    (hstep : ∀ i m x a y, S m → ok m x a → step m x a = some y → C x.1 → I i m x.1 x.2 →
      C y.1 ∧ I i m y.1 y.2 ∧ G x.1 y.1)
    (hstable : ∀ i m k k' s, S m → G k k' → I i m k s → I i m k' s)
    {p q : Pool μ κ σ} (hfire : Fires (poolStep start step) (PoolOk S ok) p q)
    (h : PoolInv S C I p) : PoolInv S C I q := by
  obtain ⟨a, hok, hs⟩ := hfire
  rcases poolStep_cases hs with ⟨m, rfl, rfl⟩ | ⟨i, b, m, s, x, rfl, hm, hx, rfl⟩
  · refine ⟨h.store, fun j m' s' hj => ?_⟩
    rcases Nat.lt_or_ge j p.members.length with hlt | hge
    · rw [List.getElem?_append_left hlt] at hj
      exact h.members j m' s' hj
    · rw [List.getElem?_append_right hge, List.getElem?_singleton] at hj
      split at hj
      · obtain ⟨rfl, rfl⟩ := Prod.mk.inj (Option.some.inj hj)
        exact ⟨hok, hstart j m _ hok h.store⟩
      · cases hj
  · obtain ⟨hSm, hI⟩ := h.members i m s hm
    obtain ⟨hC, hI', hG⟩ := hstep i m (p.store, s) b x hSm (hok m s hm) hx h.store hI
    refine ⟨hC, fun j m' s' hj => ?_⟩
    rcases getElem?_set_some hj with ⟨rfl, heq⟩ | ⟨-, hj⟩
    · obtain ⟨rfl, rfl⟩ := Prod.mk.inj heq
      exact ⟨hSm, hI'⟩
    · obtain ⟨hSm', hIj⟩ := h.members j m' s' hj
      exact ⟨hSm', hstable j m' _ _ s' hSm' hG hIj⟩

theorem PoolInv.reaches {C : κ → Prop} {I : Nat → μ → κ → σ → Prop} {G : κ → κ → Prop}
    (hstart : ∀ i m k, S m → C k → I i m k (start m))
    (hstep : ∀ i m x a y, S m → ok m x a → step m x a = some y → C x.1 → I i m x.1 x.2 →
      C y.1 ∧ I i m y.1 y.2 ∧ G x.1 y.1)
    (hstable : ∀ i m k k' s, S m → G k k' → I i m k s → I i m k' s)
    {p q : Pool μ κ σ} (hrun : PoolReaches start step S ok p q) (h : PoolInv S C I p) :
    PoolInv S C I q :=
  Reaches.invariant (I := PoolInv S C I)
    (fun _ _ hfire => PoolInv.fires hstart hstep hstable hfire) hrun h

/-- A member keeps its place and its program. -/
theorem members_grow {p q : Pool μ κ σ} (hrun : PoolReaches start step S ok p q) :
    p.members.map Prod.fst <+: q.members.map Prod.fst := by
  induction hrun with
  | refl => exact List.prefix_rfl
  | tail _ hfire ih =>
      refine ih.trans ?_
      obtain ⟨a, -, hs⟩ := hfire
      rcases poolStep_cases hs with ⟨m, rfl, rfl⟩ | ⟨i, b, m, s, x, rfl, hm, -, rfl⟩
      · rw [List.map_append]
        exact List.prefix_append _ _
      · have hsame : ∀ l : List (μ × σ), l[i]? = some (m, s) →
            (l.set i (m, x.2)).map Prod.fst = l.map Prod.fst := by
          intro l hm
          refine List.ext_getElem? fun j => ?_
          rw [List.getElem?_map, List.getElem?_map, List.getElem?_set]
          split
          · rename_i hij
            subst hij
            rw [if_pos (List.getElem?_eq_some_iff.mp hm).1, hm]
            rfl
          · rfl
        rw [hsame _ hm]

/-- A run is a run of the programs it ends up with. -/
theorem PoolReaches.restrict {p q : Pool μ κ σ} (hrun : PoolReaches start step S ok p q)
    {S' : μ → Prop} (hS' : ∀ m ∈ q.members.map Prod.fst, S' m) :
    PoolReaches start step S' ok p q := by
  induction hrun using Relation.ReflTransGen.head_induction_on with
  | refl => exact Relation.ReflTransGen.refl
  | head hfire hrest ih =>
      obtain ⟨a, hok, hs⟩ := hfire
      refine ih.head ⟨a, ?_, hs⟩
      cases a with
      | act i b => exact hok
      | spawn m =>
          refine hS' m ((members_grow hrest).subset ?_)
          rw [← Option.some.inj hs]
          simp

/-- A member's own run, with the others standing still. -/
theorem PoolReaches.of_member {k k' : κ} {s s' : σ} {m : μ} {l : List (μ × σ)} {i : Nat}
    (hm : l[i]? = some (m, s))
    (hrun : Reaches (Fires (step m) (ok m)) (k, s) (k', s')) :
    PoolReaches start step S ok ⟨k, l⟩ ⟨k', l.set i (m, s')⟩ := by
  have hlt : i < l.length := (List.getElem?_eq_some_iff.mp hm).1
  generalize hx : (k, s) = x at hrun
  generalize hy : (k', s') = y at hrun
  induction hrun generalizing k' s' with
  | refl =>
      obtain ⟨rfl, rfl⟩ := Prod.mk.inj (hx.trans hy.symm)
      rw [← (List.getElem?_eq_some_iff.mp hm).2, List.set_getElem_self]
  | @tail z w _ hfire ih =>
      subst hy
      obtain ⟨a, hok, hs⟩ := hfire
      have hat : (l.set i (m, z.2))[i]? = some (m, z.2) := List.getElem?_set_self hlt
      refine (ih rfl).tail ⟨.act i a, ?_, ?_⟩
      · intro m' t hmt
        obtain ⟨rfl, rfl⟩ := Prod.mk.inj (Option.some.inj (hat.symm.trans hmt))
        exact hok
      · simp only [poolStep, hat, hs, Option.map_some, List.set_set]

/-- **A member's view of a run**: its own steps, and in between what the other
programs of the pool may do to the store. -/
theorem PoolReaches.member_view {p q : Pool μ κ σ} (hrun : PoolReaches start step S ok p q)
    {i : Nat} {m : μ} {R : κ → κ → Prop} (hi : (q.members.map Prod.fst)[i]? = some m)
    (hothers : ∀ j m' x a y, j ≠ i → (q.members.map Prod.fst)[j]? = some m' → ok m' x a →
      step m' x a = some y → R x.1 y.1) :
    Reaches (Among step ok R m) (p.store, p.stateOf start i m)
      (q.store, q.stateOf start i m) := by
  induction hrun using Relation.ReflTransGen.head_induction_on with
  | refl => exact Relation.ReflTransGen.refl
  | @head p r hfire hrest ih =>
      have hkeep : ∀ (j : Nat) (m' : μ), (r.members.map Prod.fst)[j]? = some m' →
          (q.members.map Prod.fst)[j]? = some m' := by
        intro j m' hj
        obtain ⟨hlt, rfl⟩ := List.getElem?_eq_some_iff.mp hj
        exact List.prefix_iff_getElem?.mp (members_grow hrest) j hlt
      obtain ⟨a, hok, hs⟩ := hfire
      rcases poolStep_cases hs with ⟨m', rfl, rfl⟩ | ⟨j, b, m', s, x, rfl, hm, hx, rfl⟩
      · -- the newcomer starts where `stateOf` had it already
        have hsame : Pool.stateOf start { p with members := p.members ++ [(m', start m')] } i m =
            p.stateOf start i m := by
          unfold Pool.stateOf
          rcases Nat.lt_trichotomy i p.members.length with hlt | heq | hgt
          · rw [List.getElem?_append_left hlt]
          · have hnew := hkeep i m' (by simp [heq])
            obtain rfl : m = m' := Option.some.inj (hi.symm.trans hnew)
            simp [heq]
          · rw [List.getElem?_eq_none (by simp; omega), List.getElem?_eq_none (by omega)]
        rw [hsame] at ih
        exact ih
      · have hlt : j < p.members.length := (List.getElem?_eq_some_iff.mp hm).1
        have hprog : (q.members.map Prod.fst)[j]? = some m' := by
          refine hkeep j m' ?_
          rw [List.getElem?_map, List.getElem?_set_self hlt]
          rfl
        by_cases hji : j = i
        · subst hji
          obtain rfl : m = m' := Option.some.inj (hi.symm.trans hprog)
          refine ih.head (Or.inl ⟨b, ?_, ?_⟩)
          · simpa [Pool.stateOf, hm] using hok m s hm
          · simpa [Pool.stateOf, hm, List.getElem?_set_self hlt] using hx
        · have hsame : Pool.stateOf start ⟨x.1, p.members.set j (m', x.2)⟩ i m =
              p.stateOf start i m := by
            unfold Pool.stateOf
            rw [List.getElem?_set_ne hji]
          rw [hsame] at ih
          have hother : Among step ok R m (p.store, p.stateOf start i m)
              (x.1, p.stateOf start i m) :=
            Or.inr ⟨rfl, hothers j m' (p.store, s) b x hji hprog (hok m' s hm) hx⟩
          exact ih.head hother
end Step

end Steps
