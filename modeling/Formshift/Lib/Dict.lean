/-
Formshift/Lib/Dict.lean

Python's `dict`, as Mathlib's association list with distinct keys, and the two
ways a program fills one: key by key, and by a comprehension over a list of
pairs, where the last pair of a key wins.

No program modelled over this library depends on the order in which a dict is
iterated, and `AList.insert` does not keep Python's.
-/
import Mathlib

namespace Py

/-- A Python `dict` with keys in `α` and values in `β`. -/
abbrev Dict (α β : Type*) := AList (fun _ : α => β)

namespace Dict

variable {α β : Type*} [DecidableEq α]

theorem lookup_insert_ite (d : Dict α β) (k j : α) (v : β) :
    (d.insert k v).lookup j = if j = k then some v else d.lookup j := by
  by_cases h : j = k
  · subst h
    rw [if_pos rfl]
    exact AList.lookup_insert d
  · rw [if_neg h]
    exact AList.lookup_insert_ne h

theorem mem_of_lookup {d : Dict α β} {k : α} {v : β} (h : d.lookup k = some v) : k ∈ d :=
  AList.lookup_isSome.mp (by rw [h]; rfl)

theorem exists_lookup_of_mem {d : Dict α β} {k : α} (h : k ∈ d) : ∃ v, d.lookup k = some v :=
  Option.isSome_iff_exists.mp (AList.lookup_isSome.mpr h)

theorem lookup_erase_ite (d : Dict α β) (k j : α) :
    (d.erase k).lookup j = if j = k then none else d.lookup j := by
  by_cases h : j = k
  · subst h
    rw [if_pos rfl]
    exact AList.lookup_erase j d
  · rw [if_neg h]
    exact AList.lookup_erase_ne h

/-- Deleting another key than the one just set. -/
theorem erase_insert_of_ne {d : Dict α β} {k j : α} (h : j ≠ k) (v : β) :
    (d.insert k v).erase j = (d.erase j).insert k v := by
  apply AList.ext
  show List.kerase j (⟨k, v⟩ :: List.kerase k d.entries) = ⟨k, v⟩ :: List.kerase k (d.erase j).entries
  rw [List.kerase_cons_ne h, List.kerase_comm]
  rfl

theorem erase_of_notMem {d : Dict α β} {k : α} (h : k ∉ d) : d.erase k = d :=
  AList.ext (List.kerase_of_notMem_keys fun hin => h (AList.mem_keys.mp hin))

/-- Deleting a key that was set for the first time. -/
theorem erase_insert_of_notMem {d : Dict α β} {k : α} (h : k ∉ d) (v : β) :
    (d.insert k v).erase k = d := by
  apply AList.ext
  show List.kerase k (⟨k, v⟩ :: (d.erase k).entries) = d.entries
  rw [erase_of_notMem h]
  exact List.kerase_cons_eq rfl

/-- There is always a new key to draw. -/
theorem exists_fresh [Infinite α] (d : Dict α β) : ∃ k, k ∉ d := by
  obtain ⟨k, hk⟩ := Infinite.exists_notMem_finset d.keys.toFinset
  exact ⟨k, fun h => hk (List.mem_toFinset.mpr (AList.mem_keys.mp h))⟩

/-- `{k: v for k, v in pairs}`. -/
def ofPairs (pairs : List (α × β)) : Dict α β :=
  pairs.foldl (fun d p => d.insert p.1 p.2) ∅

@[simp] theorem ofPairs_nil : ofPairs ([] : List (α × β)) = ∅ := rfl

theorem ofPairs_concat (pairs : List (α × β)) (p : α × β) :
    ofPairs (pairs ++ [p]) = (ofPairs pairs).insert p.1 p.2 := by
  simp [ofPairs, List.foldl_append]

theorem mem_of_lookup_ofPairs {pairs : List (α × β)} {k : α} {v : β}
    (h : (ofPairs pairs).lookup k = some v) : (k, v) ∈ pairs := by
  induction pairs using List.reverseRecOn with
  | nil => simp at h
  | append_singleton pairs p ih =>
      rw [ofPairs_concat, lookup_insert_ite] at h
      rw [List.mem_append]
      split at h
      · rename_i hk
        obtain rfl := Option.some.inj h
        exact Or.inr (by simp [hk])
      · exact Or.inl (ih h)

theorem mem_ofPairs {pairs : List (α × β)} {k : α} :
    k ∈ ofPairs pairs ↔ k ∈ pairs.map Prod.fst := by
  induction pairs using List.reverseRecOn with
  | nil => simp
  | append_singleton pairs p ih =>
      rw [ofPairs_concat, AList.mem_insert, ih]
      simp [or_comm]

/-- Where no key occurs twice, a comprehension keeps every pair. -/
theorem lookup_ofPairs {pairs : List (α × β)} (hnd : (pairs.map Prod.fst).Nodup) {k : α} {v : β}
    (h : (k, v) ∈ pairs) : (ofPairs pairs).lookup k = some v := by
  obtain ⟨w, hw⟩ := exists_lookup_of_mem
    (mem_ofPairs.mpr (List.mem_map.mpr ⟨(k, v), h, rfl⟩))
  have heq : (k, w) = (k, v) :=
    List.inj_on_of_nodup_map hnd (mem_of_lookup_ofPairs hw) h rfl
  rw [hw, (Prod.mk.inj heq).2]

end Dict
end Py
