/-
Formshift/Lib/Owners.lean

Things that wait to be seen to, and who sees to them.

`waits` says what a thing waits for, `hands` what each owner has in hand.
`Owned` says that every thing that waits is in the hands of one owner and of
one only, and that owners have nothing else in hand.  It survives the arrival of an
owner (`Owned.arrive`) and an owner's step, which may take a thing up, keep it
waiting for something else or let it go (`Owned.pass`).  When all hands are
empty nothing waits (`Owned.rest`).
-/
import Formshift.Lib.Steps

namespace Steps

variable {ι ω : Type*}

structure Owned (waits : ι → Option ω) (hands : List (Option (ι × ω))) : Prop where
  sound : ∀ (n : Nat) i w, hands[n]? = some (some (i, w)) → waits i = some w
  alone : ∀ (n m : Nat) i w w', hands[n]? = some (some (i, w)) → hands[m]? = some (some (i, w')) → n = m
  owner : ∀ i w, waits i = some w → some (i, w) ∈ hands

namespace Owned

variable {waits : ι → Option ω} {hands : List (Option (ι × ω))}

theorem nil : Owned (fun _ : ι => (none : Option ω)) [] :=
  ⟨by simp, by simp, by simp⟩

/-- An owner with empty hands. -/
theorem arrive (h : Owned waits hands) : Owned waits (hands ++ [none]) := by
  have hold : ∀ {n : Nat} {i w}, (hands ++ [none])[n]? = some (some (i, w)) →
      hands[n]? = some (some (i, w)) := by
    intro n i w hn
    rcases Nat.lt_or_ge n hands.length with hlt | hge
    · rwa [List.getElem?_append_left hlt] at hn
    · rw [List.getElem?_append_right hge, List.getElem?_singleton] at hn
      split at hn <;> cases hn
  refine ⟨fun n i w hn => h.sound n i w (hold hn), ?_, ?_⟩
  · intro n m i w w' hn hm
    exact h.alone n m i w w' (hold hn) (hold hm)
  · intro i w hw
    exact List.mem_append_left _ (h.owner i w hw)

/-- An owner's step: it has the thing `i` in hand, or takes it up, and then `i`
waits for `u`. -/
theorem pass [DecidableEq ι] (h : Owned waits hands) {n : Nat} {o : Option (ι × ω)}
    (hn : hands[n]? = some o) {i : ι} (hhand : ∀ x, o = some x → x.1 = i)
    (hfree : o = none → waits i = none) (u : Option ω) :
    Owned (Function.update waits i u) (hands.set n (u.map fun w => (i, w))) := by
  have hlt : n < hands.length := (List.getElem?_eq_some_iff.mp hn).1
  -- nobody else has `i`
  have hother : ∀ {m : Nat} {i' w}, m ≠ n → hands[m]? = some (some (i', w)) → i' ≠ i := by
    rintro m i' w hmn hm rfl
    cases o with
    | none =>
        have hw := h.sound m i' w hm
        rw [hfree rfl] at hw
        cases hw
    | some x =>
        obtain rfl : x.1 = i' := hhand x rfl
        exact hmn (h.alone m n x.1 w x.2 hm hn)
  have hself : ∀ {i' w}, u.map (fun w => (i, w)) = some (i', w) → i' = i ∧ u = some w := by
    intro i' w hu
    obtain ⟨w', rfl, heq⟩ := Option.map_eq_some_iff.mp hu
    obtain ⟨rfl, rfl⟩ := Prod.mk.inj heq
    exact ⟨rfl, rfl⟩
  refine ⟨fun m i' w hm => ?_, fun m k i' w w' hm hk => ?_, fun i' w hw => ?_⟩
  · by_cases hmn : m = n
    · subst hmn
      rw [List.getElem?_set_self hlt] at hm
      obtain ⟨rfl, rfl⟩ := hself (Option.some.inj hm)
      exact Function.update_self ..
    · rw [List.getElem?_set_ne (Ne.symm hmn)] at hm
      rw [Function.update_of_ne (hother hmn hm)]
      exact h.sound m i' w hm
  · by_cases hmn : m = n
    · subst hmn
      rw [List.getElem?_set_self hlt] at hm
      obtain ⟨rfl, -⟩ := hself (Option.some.inj hm)
      by_contra hmk
      rw [List.getElem?_set_ne hmk] at hk
      exact hother (Ne.symm hmk) hk rfl
    · rw [List.getElem?_set_ne (Ne.symm hmn)] at hm
      by_cases hkn : k = n
      · subst hkn
        rw [List.getElem?_set_self hlt] at hk
        exact absurd (hself (Option.some.inj hk)).1 (hother hmn hm)
      · rw [List.getElem?_set_ne (Ne.symm hkn)] at hk
        exact h.alone m k i' w w' hm hk
  · by_cases hi : i' = i
    · subst hi
      rw [Function.update_self] at hw
      rw [hw]
      exact List.mem_iff_getElem?.mpr ⟨n, List.getElem?_set_self hlt⟩
    · rw [Function.update_of_ne hi] at hw
      obtain ⟨m, hm⟩ := List.mem_iff_getElem?.mp (h.owner i' w hw)
      have hmn : m ≠ n := by
        rintro rfl
        exact hi (hhand (i', w) (Option.some.inj (hn.symm.trans hm)))
      exact List.mem_iff_getElem?.mpr ⟨m, (List.getElem?_set_ne (Ne.symm hmn)).trans hm⟩

/-- With all hands empty nothing waits. -/
theorem rest (h : Owned waits hands) (hempty : ∀ o ∈ hands, o = none) (i : ι) :
    waits i = none := by
  by_contra hw
  obtain ⟨w, hw⟩ := Option.ne_none_iff_exists'.mp hw
  cases hempty _ (h.owner i w hw)

end Owned

end Steps
