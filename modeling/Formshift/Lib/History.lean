/-
Formshift/Lib/History.lean

Histories: lists that only grow at their end.

`Justified P l` says that every entry had what it needs among the entries
before it when it was appended.  It is checked one entry at a time
(`justified_concat`), and where entries do not repeat it orders them
(`Justified.lt`).  An entry stays where it is (`getElem?_concat`).
-/
import Mathlib

namespace Steps

variable {α β : Type*} {P Q : List α → α → Prop} {l : List α} {e : α}

theorem getElem?_concat {k : Nat} (h : l[k]? = some e) (e' : α) : (l ++ [e'])[k]? = some e := by
  rw [List.getElem?_append_left (List.getElem?_eq_some_iff.mp h).1, h]

theorem getElem?_concat_cases {k : Nat} {e' : α} (h : (l ++ [e'])[k]? = some e) :
    l[k]? = some e ∨ k = l.length ∧ e = e' := by
  rcases Nat.lt_trichotomy k l.length with hlt | rfl | hgt
  · rw [List.getElem?_append_left hlt] at h
    exact Or.inl h
  · rw [List.getElem?_concat_length] at h
    exact Or.inr ⟨rfl, (Option.some.inj h).symm⟩
  · rw [List.getElem?_eq_none (by simpa using hgt)] at h
    cases h

/-- Every entry follows from those before it. -/
def Justified (P : List α → α → Prop) (l : List α) : Prop :=
  ∀ before e after, l = before ++ e :: after → P before e

theorem justified_nil : Justified P [] := by
  intro before e after h
  simp at h

theorem justified_concat : Justified P (l ++ [e]) ↔ Justified P l ∧ P l e := by
  constructor
  · intro h
    refine ⟨?_, h l e [] rfl⟩
    rintro before e' after rfl
    exact h before e' (after ++ [e]) (by simp)
  · rintro ⟨h, he⟩ before e' after heq
    rcases List.eq_nil_or_concat after with rfl | ⟨after', last, rfl⟩
    · obtain ⟨rfl, hlast⟩ := List.append_inj' heq rfl
      rw [← List.head_eq_of_cons_eq hlast]
      exact he
    · have hsplit : l ++ [e] = (before ++ e' :: after') ++ [last] := by
        rw [heq]
        simp
      exact h before e' after' (List.append_inj' hsplit rfl).1

theorem Justified.at (h : Justified P l) {k : Nat} (hk : l[k]? = some e) : P (l.take k) e := by
  obtain ⟨hlt, hget⟩ := List.getElem?_eq_some_iff.mp hk
  refine h (l.take k) e (l.drop (k + 1)) ?_
  rw [← hget, List.getElem_cons_drop, List.take_append_drop]

/-- What an entry needs stands before it, if it stands anywhere once. -/
theorem Justified.lt (h : Justified P l) (key : α → Option β) (hnodup : (l.filterMap key).Nodup)
    {i k : Nat} {e' : α} {b : β} (hi : l[i]? = some e') (hk : l[k]? = some e)
    (hb : key e' = some b) (hneeds : P (l.take k) e → b ∈ (l.take k).filterMap key) : i < k := by
  by_contra hle
  have hbefore := hneeds (h.at hk)
  have hafter : b ∈ (l.drop k).filterMap key := by
    refine List.mem_filterMap.mpr ⟨e', List.mem_of_getElem? (i := i - k) ?_, hb⟩
    rw [List.getElem?_drop, Nat.add_sub_cancel' (Nat.le_of_not_lt hle), hi]
  rw [← List.take_append_drop k l, List.filterMap_append] at hnodup
  exact (List.nodup_append.mp hnodup).2.2 b hbefore b hafter rfl

end Steps
