/-
Formshift/Lib/Except.lean

Python's partial operations as `Except`: a loop that may raise is `List.mapM`.

`mapM_ok_iff` reads a loop that ran to its end element by element, and
`exists_mapM_ok` runs one none of whose elements raises.  `Within P x` says that
`x` raises nothing outside `P`; a sequence does so when its parts do
(`within_bind_iff`).
-/
import Mathlib

namespace Py

variable {α β ε : Type}

/-- A sequence of two operations that went through. -/
theorem bind_ok_iff {x : Except ε α} {g : α → Except ε β} {y : β} :
    x >>= g = .ok y ↔ ∃ a, x = .ok a ∧ g a = .ok y := by
  cases x <;> simp [bind, Except.bind]

/-- A loop that ran to its end did so on every element. -/
theorem mapM_ok_iff {f : α → Except ε β} {xs : List α} {ys : List β} :
    xs.mapM f = .ok ys ↔ List.Forall₂ (fun x y => f x = .ok y) xs ys := by
  induction xs generalizing ys with
  | nil => simp [pure, Except.pure, eq_comm]
  | cons x xs ih =>
      rw [List.mapM_cons, List.forall₂_cons_left_iff]
      cases hx : f x with
      | error e => simp [bind, Except.bind]
      | ok y =>
          cases hxs : xs.mapM f with
          | error e => simp [bind, Except.bind, ← ih, hxs]
          | ok zs => simp [bind, Except.bind, pure, Except.pure, ← ih, hxs, eq_comm]

/-- The same for a loop that may stop with nothing. -/
theorem mapM_some_iff {f : α → Option β} {xs : List α} {ys : List β} :
    xs.mapM f = some ys ↔ List.Forall₂ (fun x y => f x = some y) xs ys := by
  induction xs generalizing ys with
  | nil => simp [pure, eq_comm]
  | cons x xs ih =>
      rw [List.mapM_cons, List.forall₂_cons_left_iff]
      cases hx : f x with
      | none => simp
      | some y =>
          cases hxs : xs.mapM f with
          | none => simp [← ih, hxs]
          | some zs => simp [← ih, hxs, eq_comm]

/-- A loop none of whose elements raises runs to its end. -/
theorem exists_mapM_ok {f : α → Except ε β} {xs : List α} (h : ∀ x ∈ xs, ∃ y, f x = .ok y) :
    ∃ ys, xs.mapM f = .ok ys := by
  induction xs with
  | nil => exact ⟨[], rfl⟩
  | cons x xs ih =>
      obtain ⟨y, hy⟩ := h x List.mem_cons_self
      obtain ⟨ys, hys⟩ := ih fun z hz => h z (List.mem_cons_of_mem _ hz)
      exact ⟨y :: ys, mapM_ok_iff.mpr (.cons hy (mapM_ok_iff.mp hys))⟩

/-- Elements that are related to something one by one are so together. -/
theorem forall₂_exists_iff {R : α → β → Prop} {xs : List α} :
    (∃ ys, List.Forall₂ R xs ys) ↔ ∀ x ∈ xs, ∃ y, R x y := by
  constructor
  · rintro ⟨ys, hall⟩ x hx
    induction hall with
    | nil => cases hx
    | cons hxy _ ih =>
        rcases List.mem_cons.mp hx with rfl | hx
        · exact ⟨_, hxy⟩
        · exact ih hx
  · intro h
    induction xs with
    | nil => exact ⟨[], .nil⟩
    | cons x xs ih =>
        obtain ⟨y, hy⟩ := h x List.mem_cons_self
        obtain ⟨ys, hys⟩ := ih fun z hz => h z (List.mem_cons_of_mem _ hz)
        exact ⟨y :: ys, .cons hy hys⟩

/-- A loop that raises does so at one of its elements, behind those that did not. -/
theorem mapM_error_iff {f : α → Except ε β} {xs : List α} {e : ε} :
    xs.mapM f = .error e ↔
      ∃ before x behind, xs = before ++ x :: behind ∧ (∀ p ∈ before, ∃ y, f p = .ok y) ∧
        f x = .error e := by
  induction xs with
  | nil => simp [pure, Except.pure]
  | cons a xs ih =>
      rw [List.mapM_cons]
      cases ha : f a with
      | error e' =>
          constructor
          · intro h
            obtain rfl := Except.error.inj h
            exact ⟨[], a, xs, rfl, by simp, ha⟩
          · rintro ⟨before, x, behind, hxs, hbefore, hx⟩
            cases before with
            | nil =>
                obtain ⟨rfl, -⟩ := List.cons.inj hxs
                rw [Except.error.inj (ha.symm.trans hx)]
                rfl
            | cons b before =>
                obtain ⟨rfl, -⟩ := List.cons.inj hxs
                obtain ⟨y, hy⟩ := hbefore a List.mem_cons_self
                rw [ha] at hy
                cases hy
      | ok y =>
          have hrest : (Except.ok y >>= fun y => xs.mapM f >>= fun ys => pure (y :: ys)) = .error e ↔
              xs.mapM f = .error e := by
            cases xs.mapM f <;> simp [bind, Except.bind, pure, Except.pure]
          rw [hrest, ih]
          constructor
          · rintro ⟨before, x, behind, rfl, hbefore, hx⟩
            exact ⟨a :: before, x, behind, rfl, List.forall_mem_cons.mpr ⟨⟨y, ha⟩, hbefore⟩, hx⟩
          · rintro ⟨before, x, behind, hxs, hbefore, hx⟩
            cases before with
            | nil =>
                obtain ⟨rfl, -⟩ := List.cons.inj hxs
                rw [ha] at hx
                cases hx
            | cons b before =>
                obtain ⟨-, rfl⟩ := List.cons.inj hxs
                exact ⟨before, x, behind, rfl, fun p hp => hbefore p (List.mem_cons_of_mem _ hp),
                  hx⟩

/-! ### What an operation raises -/

/-- What the operation raises is in `P`. -/
def Within (P : ε → Prop) (x : Except ε α) : Prop := ∀ e, x = .error e → P e

section Within

variable {P Q : ε → Prop}

@[simp] theorem within_ok {a : α} : Within P (.ok a) ↔ True := iff_true_intro fun e h => by cases h

@[simp] theorem within_error {e : ε} : Within P (.error e : Except ε α) ↔ P e :=
  ⟨fun h => h e rfl, fun h _ h' => Except.error.inj h' ▸ h⟩

theorem within_and {x : Except ε α} :
    Within (fun e => P e ∧ Q e) x ↔ Within P x ∧ Within Q x :=
  ⟨fun h => ⟨fun e he => (h e he).1, fun e he => (h e he).2⟩, fun h e he => ⟨h.1 e he, h.2 e he⟩⟩

/-- A sequence raises within `P` when its parts do, as far as they are come to. -/
theorem within_bind_iff {x : Except ε α} {f : α → Except ε β} :
    Within P (x >>= f) ↔ Within P x ∧ ∀ a, x = .ok a → Within P (f a) := by
  cases x with
  | error e =>
      show Within P (.error e) ↔ _
      simp
  | ok a =>
      show Within P (f a) ↔ _
      simp

theorem mapError_ok_iff {ε' : Type} {x : Except ε α} {f : ε → ε'} {a : α} :
    x.mapError f = .ok a ↔ x = .ok a := by
  cases x <;> simp [Except.mapError]

theorem within_mapError {ε' : Type} {R : ε' → Prop} {x : Except ε α} {f : ε → ε'} :
    Within R (x.mapError f) ↔ Within (fun e => R (f e)) x := by
  cases x <;> simp [Except.mapError]

theorem Within.bind {x : Except ε α} {f : α → Except ε β} (hx : Within P x)
    (hf : ∀ a, Within P (f a)) : Within P (x >>= f) :=
  within_bind_iff.mpr ⟨hx, fun a _ => hf a⟩

theorem Within.mapM {f : α → Except ε β} (hf : ∀ a, Within P (f a)) (xs : List α) :
    Within P (xs.mapM f) := by
  induction xs with
  | nil => exact within_ok.mpr trivial
  | cons x xs ih =>
      rw [List.mapM_cons]
      exact (hf x).bind fun y => ih.bind fun ys => within_ok.mpr trivial

end Within

end Py
