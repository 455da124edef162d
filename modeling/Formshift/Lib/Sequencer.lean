/-
Formshift/Lib/Sequencer.lean

A sequencer: items arrive in any order and leave in a fixed one.

The buffer holds what has arrived ahead of its turn, and a cursor into the
sequence of turns.  An item is taken out when it is the cursor's turn, and the
cursor advances once the item has been dealt with; `Ok` is the invariant, with
the item that is out in between.  A settled buffer, one that has nothing for
the cursor's turn, has released exactly the longest prefix of the sequence all
of which has arrived (`Ok.take_eq`).
-/
import Formshift.Lib.Dict

namespace Py

/-- Items held back, and whose turn it is. -/
structure Sequencer (κ ν : Type*) where
  held : Dict κ ν
  cursor : Nat

namespace Sequencer

variable {κ ν : Type*}

def empty : Sequencer κ ν := ⟨∅, 0⟩

variable [DecidableEq κ]

/-- An item arrives. -/
def offer (b : Sequencer κ ν) (k : κ) (v : ν) : Sequencer κ ν :=
  { b with held := b.held.insert k v }

/-- The item whose turn it is, if it is there. -/
def ready (seq : List κ) (b : Sequencer κ ν) : Option (κ × ν) :=
  (seq[b.cursor]?).bind fun k => (b.held.lookup k).map fun v => (k, v)

/-- Take an item out. -/
def drop (b : Sequencer κ ν) (k : κ) : Sequencer κ ν := { b with held := b.held.erase k }

/-- Its turn is over. -/
def advance (b : Sequencer κ ν) : Sequencer κ ν := { b with cursor := b.cursor + 1 }

/-- What holds of a buffer after the items `arrived`, with the item `out` taken
out and its turn not yet over. -/
structure Ok (seq : List κ) (b : Sequencer κ ν) (arrived : List κ) (out : Option κ) : Prop where
  bound : b.cursor ≤ seq.length
  released : ∀ k ∈ seq.take b.cursor, k ∈ arrived
  held : ∀ k, k ∈ b.held ↔ k ∈ arrived ∧ k ∈ seq ∧ k ∉ seq.take b.cursor ∧ out ≠ some k
  out : ∀ k, out = some k → seq[b.cursor]? = some k ∧ k ∈ arrived

variable {seq : List κ} {b : Sequencer κ ν} {arrived : List κ} {out : Option κ}

omit [DecidableEq κ] in
theorem ok_empty (seq : List κ) : Ok seq (empty : Sequencer κ ν) [] none := by
  constructor <;> simp [empty]

theorem ready_eq_some_iff {k : κ} {v : ν} :
    b.ready seq = some (k, v) ↔ seq[b.cursor]? = some k ∧ b.held.lookup k = some v := by
  simp only [ready, Option.bind_eq_some_iff, Option.map_eq_some_iff]
  constructor
  · rintro ⟨k', hk', v', hv', heq⟩
    obtain ⟨rfl, rfl⟩ := Prod.mk.inj heq
    exact ⟨hk', hv'⟩
  · rintro ⟨hk, hv⟩
    exact ⟨k, hk, v, hv, rfl⟩

theorem Ok.offer (h : Ok seq b arrived out) {k : κ} {v : ν} (hk : k ∈ seq) (hnew : k ∉ arrived) :
    Ok seq (b.offer k v) (arrived ++ [k]) out where
  bound := h.bound
  released := fun j hj => List.mem_append_left _ (h.released j hj)
  held := by
    intro j
    have hout : out ≠ some k := fun e => hnew (h.out k e).2
    show j ∈ b.held.insert k v ↔ _
    rw [AList.mem_insert, h.held j, List.mem_append, List.mem_singleton]
    by_cases hj : j = k
    · subst hj
      have hturn : j ∉ seq.take b.cursor := fun hin => hnew (h.released j hin)
      simp [hk, hout, Sequencer.offer, hturn]
    · simp [hj, Sequencer.offer]
  out := fun j hj => ⟨(h.out j hj).1, List.mem_append_left _ (h.out j hj).2⟩

omit [DecidableEq κ] in
/-- An arrival of another sequence changes nothing. -/
theorem Ok.other (h : Ok seq b arrived out) {k : κ} (hk : k ∉ seq) :
    Ok seq b (arrived ++ [k]) out where
  bound := h.bound
  released := fun j hj => List.mem_append_left _ (h.released j hj)
  held := by
    intro j
    rw [h.held j, List.mem_append, List.mem_singleton]
    constructor
    · rintro ⟨ha, hrest⟩
      exact ⟨Or.inl ha, hrest⟩
    · rintro ⟨ha | rfl, hs, hrest⟩
      · exact ⟨ha, hs, hrest⟩
      · exact absurd hs hk
  out := fun j hj => ⟨(h.out j hj).1, List.mem_append_left _ (h.out j hj).2⟩

theorem Ok.drop (h : Ok seq b arrived none) {k : κ} {v : ν} (hready : b.ready seq = some (k, v)) :
    Ok seq (b.drop k) arrived (some k) := by
  obtain ⟨hturn, hv⟩ := ready_eq_some_iff.mp hready
  have hheld := (h.held k).mp (Dict.mem_of_lookup hv)
  constructor
  · exact h.bound
  · exact h.released
  · intro j
    show j ∈ b.held.erase k ↔ _
    rw [AList.mem_erase, h.held j]
    constructor
    · rintro ⟨hne, ha, hs, ht, -⟩
      exact ⟨ha, hs, ht, fun e => hne (Option.some.inj e).symm⟩
    · rintro ⟨ha, hs, ht, hne⟩
      exact ⟨fun e => hne (by rw [e]), ha, hs, ht, nofun⟩
  · intro j hj
    obtain rfl := Option.some.inj hj
    exact ⟨hturn, hheld.1⟩

omit [DecidableEq κ] in
theorem Ok.advance {k : κ} (h : Ok seq b arrived (some k)) : Ok seq b.advance arrived none := by
  obtain ⟨hturn, hk⟩ := h.out k rfl
  have hlt : b.cursor < seq.length := (List.getElem?_eq_some_iff.mp hturn).1
  have htake : seq.take (b.cursor + 1) = seq.take b.cursor ++ [k] := by
    rw [List.take_add_one, hturn]
    rfl
  constructor
  · exact hlt
  · show ∀ j ∈ seq.take (b.cursor + 1), j ∈ arrived
    rw [htake]
    intro j hj
    rcases List.mem_append.mp hj with hj | hj
    · exact h.released j hj
    · exact List.mem_singleton.mp hj ▸ hk
  · intro j
    show j ∈ b.held ↔ j ∈ arrived ∧ j ∈ seq ∧ j ∉ seq.take (b.cursor + 1) ∧ _
    rw [htake, h.held j, List.mem_append, List.mem_singleton]
    constructor
    · rintro ⟨ha, hs, ht, hne⟩
      refine ⟨ha, hs, ?_, nofun⟩
      rintro (hin | rfl)
      · exact ht hin
      · exact hne rfl
    · rintro ⟨ha, hs, ht, -⟩
      exact ⟨ha, hs, fun hin => ht (Or.inl hin), fun e => ht (Or.inr (Option.some.inj e).symm)⟩
  · intro j hj
    cases hj

omit [DecidableEq κ] in
theorem takeWhile_eq_take {p : κ → Bool} {l : List κ} {n : Nat} (hall : ∀ k ∈ l.take n, p k = true)
    (hstop : ∀ k, l[n]? = some k → p k = false) : l.takeWhile p = l.take n := by
  induction l generalizing n with
  | nil => simp
  | cons a l ih =>
      cases n with
      | zero => simp [hstop a rfl]
      | succ n =>
          have ha : p a = true := hall a (by simp)
          rw [List.takeWhile_cons_of_pos ha, List.take_succ_cons,
            ih (fun k hk => hall k (List.mem_cons_of_mem _ hk)) fun k hk => hstop k hk]

/-- **A settled buffer has released the longest prefix that has arrived.** -/
theorem Ok.take_eq (h : Ok seq b arrived none) (hnd : seq.Nodup) (hsettled : b.ready seq = none) :
    seq.take b.cursor = seq.takeWhile (· ∈ arrived) := by
  refine (takeWhile_eq_take (fun k hk => by simpa using h.released k hk) fun k hk => ?_).symm
  -- the cursor's item is not held, and so has not arrived
  have hnot : k ∉ b.held := fun hin => by
    obtain ⟨v, hv⟩ := Dict.exists_lookup_of_mem hin
    rw [ready_eq_some_iff.mpr ⟨hk, hv⟩] at hsettled
    cases hsettled
  by_contra hin
  have hin' : k ∈ arrived := by simpa using hin
  refine hnot ((h.held k).mpr
    ⟨hin', List.mem_of_getElem? hk, fun htake => ?_, nofun⟩)
  obtain ⟨i, hi, hki⟩ := List.mem_take_iff_getElem.mp htake
  have hsame : i = b.cursor := by
    apply (List.getElem?_inj (show i < seq.length by omega) hnd).mp
    rw [hk, List.getElem?_eq_getElem (by omega), hki]
  omega

theorem exists_before {p : κ → Bool} {k : κ} {l : List κ} (hk : k ∈ l)
    (hp : p k = true) (hnot : k ∉ l.takeWhile p) :
    ∃ j ∈ l.takeWhile (· ≠ k), p j = false := by
  induction l with
  | nil => cases hk
  | cons a l ih =>
      cases ha : p a with
      | false =>
          have hne : a ≠ k := fun e => by rw [e, hp] at ha; cases ha
          exact ⟨a, by simp [hne], ha⟩
      | true =>
          rw [List.takeWhile_cons_of_pos ha] at hnot
          obtain ⟨hne, hnot⟩ := not_or.mp (fun h => hnot (List.mem_cons.mpr h))
          have hk' : k ∈ l := (List.mem_cons.mp hk).resolve_left hne
          obtain ⟨j, hj, hpj⟩ := ih hk' hnot
          refine ⟨j, ?_, hpj⟩
          rw [List.takeWhile_cons_of_pos (by simpa using fun e : a = k => hne e.symm)]
          exact List.mem_cons_of_mem _ hj

/-- What a settled buffer holds waits for an item of its own sequence. -/
theorem Ok.held_behind (h : Ok seq b arrived none) (hnd : seq.Nodup)
    (hsettled : b.ready seq = none) {k : κ} (hk : k ∈ b.held) :
    ∃ j ∈ seq.takeWhile (· ≠ k), j ∉ arrived := by
  obtain ⟨harrived, hseq, hnot, -⟩ := (h.held k).mp hk
  rw [h.take_eq hnd hsettled] at hnot
  obtain ⟨j, hj, hp⟩ := exists_before hseq (by simpa using harrived) hnot
  exact ⟨j, hj, by simpa using hp⟩

/-- A settled buffer holds nothing once everything has arrived. -/
theorem Ok.held_none (h : Ok seq b arrived none) (hnd : seq.Nodup)
    (hsettled : b.ready seq = none) (hall : ∀ k ∈ seq, k ∈ arrived) (k : κ) : k ∉ b.held := by
  intro hk
  obtain ⟨j, hj, hnot⟩ := h.held_behind hnd hsettled hk
  exact hnot (hall j ((List.takeWhile_sublist _).subset hj))

end Sequencer

end Py
