/-
Formshift/Lib/Grid.lean

Grids of pixels, the minimum filter, and the first index of a minimum.

The filter takes the least value in a square window that is cut off at the
border (`minFilter_le_iff`); a larger window gives smaller values
(`minFilter_anti`).  `firstMin` is the index of a least value, the lowest one
where there are several (`firstMin_le`, `firstMin_lt`).
-/
import Mathlib

/-- A grid with pixels of any kind. -/
abbrev Grid (width height : Nat) (α : Type) : Type := Fin width → Fin height → α

namespace Grid

variable {width height : Nat} {α : Type}

/-! ### The minimum filter -/

/-- At most `r` apart. -/
def Near (r a b : Nat) : Prop := a ≤ b + r ∧ b ≤ a + r

instance (r a b : Nat) : Decidable (Near r a b) :=
  inferInstanceAs (Decidable (a ≤ b + r ∧ b ≤ a + r))

theorem Near.self (r a : Nat) : Near r a a := by
  unfold Near
  omega

theorem Near.mono {r r' a b : Nat} (h : r ≤ r') (hnear : Near r a b) : Near r' a b := by
  unfold Near at *
  omega

theorem Near.eq {a b : Nat} (h : Near 0 a b) : a = b := by
  unfold Near at h
  omega

/-- The square of side `size` around a pixel, as far as it lies in the grid. -/
def window (size : Nat) (x : Fin width) (y : Fin height) : Finset (Fin width × Fin height) :=
  Finset.univ.filter fun p => Near (size / 2) p.1 x ∧ Near (size / 2) p.2 y

theorem mem_window {size : Nat} {x : Fin width} {y : Fin height} {p : Fin width × Fin height} :
    p ∈ window size x y ↔ Near (size / 2) p.1 x ∧ Near (size / 2) p.2 y := by
  simp [window]

theorem self_mem_window (size : Nat) (x : Fin width) (y : Fin height) :
    (x, y) ∈ window size x y :=
  mem_window.mpr ⟨Near.self _ _, Near.self _ _⟩

theorem window_mono {size size' : Nat} (h : size ≤ size') (x : Fin width) (y : Fin height) :
    window size x y ⊆ window size' x y := by
  have hhalf : size / 2 ≤ size' / 2 := Nat.div_le_div_right h
  intro p hp
  obtain ⟨hx, hy⟩ := mem_window.mp hp
  exact mem_window.mpr ⟨hx.mono hhalf, hy.mono hhalf⟩

variable [LinearOrder α]

def minFilter (size : Nat) (g : Grid width height α) : Grid width height α := fun x y =>
  (window size x y).inf' ⟨_, self_mem_window size x y⟩ fun p => g p.1 p.2

theorem minFilter_le_iff {size : Nat} {g : Grid width height α} {x : Fin width} {y : Fin height}
    {a : α} : minFilter size g x y ≤ a ↔ ∃ p ∈ window size x y, g p.1 p.2 ≤ a :=
  Finset.inf'_le_iff ⟨_, self_mem_window size x y⟩

/-- The least value is the value of a pixel. -/
theorem exists_minFilter (size : Nat) (g : Grid width height α) (x : Fin width) (y : Fin height) :
    ∃ x' y', minFilter size g x y = g x' y' := by
  obtain ⟨p, -, hp⟩ := Finset.exists_mem_eq_inf' ⟨_, self_mem_window size x y⟩
    fun p : Fin width × Fin height => g p.1 p.2
  exact ⟨p.1, p.2, hp⟩

theorem minFilter_anti {size size' : Nat} (h : size ≤ size') (g : Grid width height α)
    (x : Fin width) (y : Fin height) : minFilter size' g x y ≤ minFilter size g x y := by
  obtain ⟨p, hp, hle⟩ := minFilter_le_iff.mp (le_refl (minFilter size g x y))
  exact minFilter_le_iff.mpr ⟨p, window_mono h x y hp, hle⟩

/-- A window of one pixel changes nothing. -/
theorem minFilter_one (g : Grid width height α) : minFilter 1 g = g := by
  funext x y
  refine le_antisymm (minFilter_le_iff.mpr ⟨_, self_mem_window 1 x y, le_rfl⟩) ?_
  obtain ⟨⟨x', y'⟩, hp, hle⟩ := minFilter_le_iff.mp (le_refl (minFilter 1 g x y))
  obtain ⟨hx, hy⟩ := mem_window.mp hp
  obtain rfl : x' = x := Fin.ext hx.eq
  obtain rfl : y' = y := Fin.ext hy.eq
  exact hle

end Grid

/-! ### The first minimum -/

section FirstMin

variable {δ : Type} [LinearOrder δ] {n : Nat}

/-- The index of the least value, the first one of several; `0` of none. -/
def firstMin (f : Fin n → δ) : Nat :=
  match (List.finRange n).argmin f with
  | some i => i
  | none => 0

theorem firstMin_eq (f : Fin n → δ) (hn : 0 < n) :
    ∃ i : Fin n, firstMin f = i ∧ i ∈ (List.finRange n).argmin f := by
  unfold firstMin
  cases h : (List.finRange n).argmin f with
  | some i => exact ⟨i, rfl, rfl⟩
  | none =>
      rw [List.argmin_eq_none, List.finRange_eq_nil_iff] at h
      omega

theorem firstMin_lt_length (f : Fin n → δ) (hn : 0 < n) : firstMin f < n := by
  obtain ⟨i, hi, -⟩ := firstMin_eq f hn
  omega

theorem firstMin_le (f : Fin n → δ) (hn : firstMin f < n) (j : Fin n) :
    f ⟨firstMin f, hn⟩ ≤ f j := by
  obtain ⟨i, hi, hmin⟩ := firstMin_eq f (by omega)
  have hfin : (⟨firstMin f, hn⟩ : Fin n) = i := Fin.ext hi
  rw [hfin]
  exact List.le_of_mem_argmin (List.mem_finRange j) hmin

/-- What comes before the first minimum lies above it. -/
theorem firstMin_lt (f : Fin n → δ) (hn : firstMin f < n) {j : Fin n} (hj : j.val < firstMin f) :
    f ⟨firstMin f, hn⟩ < f j := by
  obtain ⟨i, hi, hmin⟩ := firstMin_eq f (by omega)
  have hfin : (⟨firstMin f, hn⟩ : Fin n) = i := Fin.ext hi
  rw [hfin]
  by_contra hle
  have hidx := List.index_of_argmin hmin (List.mem_finRange j) (not_lt.mp hle)
  rw [List.idxOf_finRange, List.idxOf_finRange] at hidx
  omega

end FirstMin
