/-
Formshift/Lib/Digest.lean

Concrete digests without collisions.

A real digest is known at finitely many inputs; `digestOf table` returns the
tabled value there and elsewhere the data itself, spelled one character a byte
behind a letter no hexadecimal digit uses.  It is injective whenever the table
is (`digestOf_injective`), so a statement about injective digests can be
evaluated on inputs whose real digests are tabled.
-/
import Mathlib

namespace Py

/-- `data.decode("latin-1")`. -/
def latin1 (data : List UInt8) : List Char := data.map fun b => Char.ofNat b.toNat

theorem latin1_injective : Function.Injective latin1 := by
  refine Function.Injective.list_map fun a b h => ?_
  have hfin : ∀ n : Fin 256, (Char.ofNat n.val).toNat = n.val := by decide +kernel
  have hnat : ∀ c : UInt8, (Char.ofNat c.toNat).toNat = c.toNat := fun c => hfin ⟨_, c.toNat_lt⟩
  have htoNat : a.toNat = b.toNat := by rw [← hnat a, ← hnat b, h]
  exact UInt8.toNat_inj.mp htoNat

/-- The tabled digest, or the data behind an `x`. -/
def digestOf (table : List (List UInt8 × String)) (data : List UInt8) : String :=
  match table.find? fun p => p.1 = data with
  | some p => p.2
  | none => String.ofList ('x' :: latin1 data)

theorem digestOf_injective {table : List (List UInt8 × String)}
    (hnd : (table.map Prod.snd).Nodup) (hx : ∀ p ∈ table, p.2.toList.head? ≠ some 'x') :
    Function.Injective (digestOf table) := by
  have hfind : ∀ {data p}, table.find? (fun p => p.1 = data) = some p → p ∈ table ∧ p.1 = data :=
    fun h => ⟨List.mem_of_find?_eq_some h, by simpa using List.find?_some h⟩
  intro a b h
  unfold digestOf at h
  split at h
  · rename_i p hp
    obtain ⟨hmem, rfl⟩ := hfind hp
    split at h
    · rename_i q hq
      obtain ⟨hmem', rfl⟩ := hfind hq
      rw [List.inj_on_of_nodup_map hnd hmem hmem' h]
    · exact absurd (by rw [h, String.toList_ofList]; rfl) (hx p hmem)
  · split at h
    · rename_i q hq
      exact absurd (by rw [← h, String.toList_ofList]; rfl) (hx q (hfind hq).1)
    · have htext := congrArg String.toList h
      rw [String.toList_ofList, String.toList_ofList] at htext
      exact latin1_injective (List.cons.inj htext).2

end Py
