/-
Formshift/Pairing.lean

Requests and responses keep together across crashes and hangs.

The channel is an untagged stream, so all rests on one invariant: while nobody
holds the lock, the current process is `Quiet`, with nothing unread and, if it
lives, nothing to answer.  Whoever sends to it is the only one it replies to
(`Replying`), and every way out of `request` leaves it quiet or leaves it for
good.  What a call returns is then what the process wrote in reply to that very
call (`responses_pair_with_requests`).
-/
import Formshift.Lib.History
import Formshift.Workers

namespace Formshift

open Py Steps

/-! ### Lines -/

namespace Process

theorem cutLine_line {line : Text} (h : '\n' ∉ line) (rest : Text) :
    cutLine (line ++ '\n' :: rest) = some (line ++ ['\n'], rest) := by
  induction line with
  | nil => rfl
  | cons c cs ih =>
      rw [List.mem_cons, not_or] at h
      rw [List.cons_append, cutLine, if_neg (Ne.symm h.1), ih h.2]
      rfl

theorem cutLine_none {s : Text} (h : '\n' ∉ s) : cutLine s = none := by
  induction s with
  | nil => rfl
  | cons c cs ih =>
      rw [List.mem_cons, not_or] at h
      rw [cutLine, if_neg (Ne.symm h.1), ih h.2]
      rfl

/-- What has been written of a line has a break only when all of it has. -/
theorem written_cases {line s todo : Text} (hline : '\n' ∉ line) (h : s ++ todo = line ++ ['\n']) :
    (s = line ++ ['\n'] ∧ todo = []) ∨ '\n' ∉ s ∧ s <+: line := by
  rcases List.eq_nil_or_concat todo with rfl | ⟨l, c, rfl⟩
  · exact Or.inl ⟨by simpa using h, rfl⟩
  · rw [List.concat_eq_append, ← List.append_assoc] at h
    obtain ⟨hs, -⟩ := List.append_inj' h rfl
    refine Or.inr ⟨fun hin => hline ?_, l, hs⟩
    rw [← hs]
    exact List.mem_append_left _ hin

/-! ### What a process owes -/

/-- Nothing to read, and nothing to answer if it lives. -/
def Quiet (pr : Process) : Prop :=
  pr.stdout = [] ∧ (pr.alive = true → pr.stdin = [] ∧ pr.todo = [])

/-- The only thing it has been asked and not told is `i`, if it lives to tell. -/
def Replying (i : Nat) (pr : Process) : Prop :=
  (pr.alive = false ∧ pr.stdout = []) ∨
    (∃ payload, pr.stdin = [(i, payload)] ∧ pr.todo = [] ∧ pr.stdout = []) ∨
    ∃ answer v, Answers answer v ∧ pr.stdin = [] ∧ pr.stdout ++ pr.todo = answer ++ ['\n'] ∧
      (i, answer) ∈ pr.replies

/-- Nothing, or the beginning of its reply to `i`. -/
def Heard (i : Nat) (line : Text) (pr : Process) : Prop :=
  line = [] ∨ ∃ answer v, Answers answer v ∧ (i, answer) ∈ pr.replies ∧ line <+: answer ++ ['\n']

/-- The calls whose lines it has got, read or not. -/
def asked (pr : Process) : List Nat := pr.replies.map Prod.fst ++ pr.stdin.map Prod.fst

section Step

variable {pr pr' : Process} {a : ProcessAct} {i : Nat} {line : Text}

theorem connected_of_alive (h : pr.alive = true) : pr.connected = true := by
  simp [connected, h]

/-- **What a process can do**: read its next line, write, die, leave its child or not. -/
theorem step_cases (h : pr.step a = some pr') :
    (∃ answer j payload rest, a = .take answer ∧ pr.alive = true ∧ pr.todo = [] ∧
      pr.stdin = (j, payload) :: rest ∧ pr' = { pr with
        stdin := rest
        todo := answer ++ ['\n']
        replies := pr.replies ++ [(j, answer)] }) ∨
    (∃ c rest, pr.alive = true ∧ pr.todo = c :: rest ∧ pr' = { pr with
      todo := rest
      stdout := pr.stdout ++ [c] }) ∨
    ∃ child, pr' = { pr with
      alive := false
      held := child } := by
  cases a with
  | take answer =>
      simp only [step] at h
      split at h
      · rename_i j payload rest halive htodo hstdin
        exact Or.inl ⟨answer, j, payload, rest, rfl, halive, htodo, hstdin, (Option.some.inj h).symm⟩
      · cases h
  | write =>
      simp only [step] at h
      split at h
      · rename_i c rest halive htodo
        exact Or.inr (Or.inl ⟨c, rest, halive, htodo, (Option.some.inj h).symm⟩)
      · cases h
  | die child =>
      simp only [step] at h
      split at h
      · exact Or.inr (Or.inr ⟨child, (Option.some.inj h).symm⟩)
      · cases h
  | letGo =>
      simp only [step] at h
      split at h
      · rename_i hleft
        simp only [Bool.and_eq_true, Bool.not_eq_true'] at hleft
        refine Or.inr (Or.inr ⟨false, ?_⟩)
        rw [← Option.some.inj h, hleft.1]
      · cases h

theorem asked_step (h : pr.step a = some pr') : pr'.asked = pr.asked := by
  rcases step_cases h with ⟨answer, j, payload, rest, -, -, -, hstdin, rfl⟩ |
    ⟨c, rest, -, -, rfl⟩ | ⟨child, rfl⟩
  · simp [asked, hstdin]
  · rfl
  · rfl

theorem replies_step (h : pr.step a = some pr') : pr.replies ⊆ pr'.replies := by
  rcases step_cases h with ⟨answer, j, payload, rest, -, -, -, -, rfl⟩ |
    ⟨c, rest, -, -, rfl⟩ | ⟨child, rfl⟩
  · exact List.subset_append_left _ _
  · exact List.Subset.refl _
  · exact List.Subset.refl _

theorem Heard.mono (h : Heard i line pr) (hreplies : pr.replies ⊆ pr'.replies) :
    Heard i line pr' := by
  rcases h with rfl | ⟨answer, a, ha, hmem, hpre⟩
  · exact Or.inl rfl
  · exact Or.inr ⟨answer, a, ha, hreplies hmem, hpre⟩

theorem Quiet.step (h : Quiet pr) (hs : pr.step a = some pr') : Quiet pr' := by
  obtain ⟨hout, hidle⟩ := h
  rcases step_cases hs with ⟨answer, j, payload, rest, -, halive, -, hstdin, -⟩ |
    ⟨c, rest, halive, htodo, -⟩ | ⟨child, rfl⟩
  · rw [(hidle halive).1] at hstdin
    cases hstdin
  · rw [(hidle halive).2] at htodo
    cases htodo
  · exact ⟨hout, by simp⟩

theorem Replying.step {p : Nat} (h : Replying i pr) (hok : WorkerOk (.process p a))
    (hs : pr.step a = some pr') : Replying i pr' := by
  rcases step_cases hs with ⟨answer, j, payload, rest, rfl, halive, htodo, hstdin, rfl⟩ |
    ⟨c, rest, halive, htodo, rfl⟩ | ⟨child, rfl⟩
  -- it takes the request, and no other is waiting
  · rcases h with ⟨hdead, -⟩ | ⟨payload', hin, -, hout⟩ | ⟨answer', a', -, hin, -⟩
    · rw [hdead] at halive
      cases halive
    · rw [hin] at hstdin
      obtain ⟨hhead, rfl⟩ := List.cons.inj hstdin
      obtain ⟨rfl, -⟩ := Prod.mk.inj hhead
      obtain ⟨a, ha⟩ := hok
      exact Or.inr (Or.inr ⟨answer, a, ha, rfl, by simp [hout], by simp⟩)
    · rw [hin] at hstdin
      cases hstdin
  -- it writes on
  · rcases h with ⟨hdead, -⟩ | ⟨payload', hin, hnone, -⟩ | ⟨answer', a', ha, hin, hsplit, hmem⟩
    · rw [hdead] at halive
      cases halive
    · rw [hnone] at htodo
      cases htodo
    · refine Or.inr (Or.inr ⟨answer', a', ha, hin, ?_, hmem⟩)
      rw [← hsplit, htodo]
      simp
  -- it dies, and what it has written stays
  · rcases h with ⟨-, hout⟩ | h
    · exact Or.inl ⟨rfl, hout⟩
    · exact Or.inr h

/-- The call's line is read and heard, and the process is quiet again. -/
theorem Replying.readline (h : Replying i pr) (hread : pr.readline = some (line, pr')) :
    Heard i line pr' ∧ Quiet pr' ∧ pr'.asked = pr.asked ∧ pr'.replies = pr.replies := by
  unfold Process.readline at hread
  rcases h with ⟨-, hout⟩ | ⟨payload, hin, htodo, hout⟩ | ⟨answer, a, ha, hin, hsplit, hmem⟩
  -- where it has written nothing, it is dead and its child gone
  iterate 2
    rw [hout, show cutLine [] = none from rfl] at hread
    simp only at hread
    split at hread
    · cases hread
    · rename_i hclosed
      obtain ⟨rfl, rfl⟩ := Prod.mk.inj (Option.some.inj hread)
      exact ⟨Or.inl rfl, ⟨rfl, fun halive => absurd (connected_of_alive halive) hclosed⟩, rfl, rfl⟩
  · rcases written_cases ha.1 hsplit with ⟨hall, htodo⟩ | ⟨hnone, hpre⟩
    · rw [hall, cutLine_line ha.1 []] at hread
      obtain ⟨rfl, rfl⟩ := Prod.mk.inj (Option.some.inj hread)
      exact ⟨Or.inr ⟨answer, a, ha, hmem, List.prefix_rfl⟩, ⟨rfl, fun _ => ⟨hin, htodo⟩⟩, rfl, rfl⟩
    · rw [cutLine_none hnone] at hread
      simp only at hread
      split at hread
      · cases hread
      · rename_i hclosed
        obtain ⟨rfl, rfl⟩ := Prod.mk.inj (Option.some.inj hread)
        refine ⟨Or.inr ⟨answer, a, ha, hmem, hpre.trans (List.prefix_append _ _)⟩,
          ⟨rfl, fun halive => absurd (connected_of_alive halive) hclosed⟩, rfl, rfl⟩

end Step

end Process

/-- What is heard of an answer reads as the answer or not at all. -/
theorem Process.Heard.loads {i : Nat} {line : Text} {pr : Process} {v : Json}
    (h : pr.Heard i line) (hloads : Json.loads line = some v) :
    ∃ answer, Answers answer v ∧ (i, answer) ∈ pr.replies := by
  rcases h with rfl | ⟨answer, v', ha, hmem, hpre⟩
  · cases hloads
  · obtain ⟨hbreak, hreturn, ⟨fields, rfl⟩, hwhole⟩ := ha
    have hv : v = .obj fields :=
      Json.loads_of_prefix (Json.loads_append_blank hwhole (c := '\n') rfl) hpre hloads
    subst hv
    exact ⟨answer, ⟨hbreak, hreturn, ⟨fields, rfl⟩, hwhole⟩, hmem⟩

/-! ### The invariant -/

namespace Worker

variable (W : Worker)

/-- This process owes nothing. -/
def QuietAt (p : Nat) : Prop := ∃ pr, W.processes[p]? = some pr ∧ pr.Quiet

/-- This process answers the call at `i` and no other. -/
def ReplyingAt (p i : Nat) : Prop := ∃ pr, W.processes[p]? = some pr ∧ pr.Replying i

/-- The next call finds a clean channel. -/
def Idle : Prop := ∀ p, W.current = some p → W.QuietAt p

/-- No other process is the current one. -/
def AtMost (p : Nat) : Prop := ∀ q, W.current = some q → q = p

/-- A call that does not hold the lock. -/
def Outside (r : WorkerRequest) : Prop :=
  match r.stage with
  | .waiting => r.process = none ∧ r.line = none
  | .returned _ => True
  | _ => False

/-- The call that holds the lock. -/
def Inside (i : Nat) (r : WorkerRequest) : Prop :=
  match r.stage with
  | .entered => r.process = none ∧ r.line = none ∧ W.Idle
  | .chosen p | .armed p => r.process = some p ∧ r.line = none ∧ W.AtMost p ∧ W.QuietAt p
  | .sent p => r.process = some p ∧ r.line = none ∧ W.AtMost p ∧ W.ReplyingAt p i
  | .received p line | .settled p line =>
      r.process = some p ∧ r.line = some line ∧ W.AtMost p ∧ W.QuietAt p
  | .failing _ => True
  | .stopping _ _ => W.current = none
  | .waiting | .returned _ => False

/-- What a call has read comes from its own process and is its own; what it
has returned is what it has read. -/
def Told (i : Nat) (r : WorkerRequest) : Prop :=
  (∀ line, r.line = some line →
    ∃ p pr, r.process = some p ∧ W.processes[p]? = some pr ∧ pr.Heard i line) ∧
  ∀ v, r.stage = .returned (.ok v) → ∃ line, r.line = some line ∧ Json.loads line = some v

/-- Its watchdog has killed the process the call waits for, or is about to. -/
def Watched (i : Nat) (r : WorkerRequest) : Prop :=
  ∀ p, r.stage = .armed p ∨ r.stage = .sent p →
    r.watchdog = .running ∨ r.watchdog = .fired ∨ r.watchdog = .flagged ∨ (i, p) ∈ W.kills

/-- Nothing has been sent yet. -/
def Unsent (r : WorkerRequest) : Prop :=
  match r.stage with
  | .waiting | .entered | .chosen _ | .armed _ => True
  | _ => False

/-- A call sends to its own process, and once. -/
def Asked (p : Nat) (pr : Process) : Prop :=
  pr.asked.Nodup ∧ ∀ i ∈ pr.asked, ∃ r, W.requests[i]? = some r ∧ r.process = some p ∧ ¬ Unsent r

end Worker

open Worker

/-- **Between calls the channel is clean**, and inside a call it carries
nothing but that call's line and the reply to it. -/
structure WorkerInv (W : Worker) : Prop where
  free : W.holder = none → W.Idle
  inside : ∀ i, W.holder = some i → ∃ r, W.requests[i]? = some r ∧ W.Inside i r
  outside : ∀ i r, W.requests[i]? = some r → W.holder ≠ some i → Outside r
  told : ∀ i r, W.requests[i]? = some r → W.Told i r
  watched : ∀ i r, W.requests[i]? = some r → W.Watched i r
  asked : ∀ p pr, W.processes[p]? = some pr → W.Asked p pr
  kills : ∀ k ∈ W.kills, ∃ r, W.requests[k.1]? = some r ∧ r.process = some k.2

theorem WorkerInv.start : WorkerInv Worker.start where
  free _ p h := by cases h
  inside i h := by cases h
  outside i r h := by simp [Worker.start] at h
  told i r h := by simp [Worker.start] at h
  watched i r h := by simp [Worker.start] at h
  asked p pr h := by simp [Worker.start] at h
  kills k h := by cases h

/-- A call that is under way holds the lock. -/
theorem WorkerInv.holds {W : Worker} {i : Nat} {r : WorkerRequest} (h : WorkerInv W)
    (hr : W.requests[i]? = some r) (hr' : ¬ Outside r) : W.holder = some i ∧ W.Inside i r := by
  by_cases hi : W.holder = some i
  · obtain ⟨r', hat, hin⟩ := h.inside i hi
    rw [hr] at hat
    cases hat
    exact ⟨hi, hin⟩
  · exact absurd (h.outside i r hr hi) hr'

/-! ### What the others see -/

section Frame

variable {W W' : Worker} {i p : Nat} {r r' : WorkerRequest} {pr pr' : Process}

namespace Worker

theorem setProcess_same (hpr : W.processes[p]? = some pr) :
    (W.setProcess p pr').processes[p]? = some pr' :=
  List.getElem?_set_self (List.getElem?_eq_some_iff.mp hpr).1

theorem setProcess_other {q : Nat} (hq : q ≠ p) :
    (W.setProcess p pr').processes[q]? = W.processes[q]? :=
  List.getElem?_set_ne (Ne.symm hq)

theorem setProcess_cases {q : Nat} {pr₀ : Process} (hpr : W.processes[p]? = some pr)
    (h : (W.setProcess p pr').processes[q]? = some pr₀) :
    (q = p ∧ pr₀ = pr') ∨ (q ≠ p ∧ W.processes[q]? = some pr₀) := by
  by_cases hq : q = p
  · subst hq
    exact Or.inl ⟨rfl, Option.some.inj (h.symm.trans (setProcess_same hpr))⟩
  · exact Or.inr ⟨hq, (setProcess_other hq).symm.trans h⟩

/-- The processes are there and have not taken back what they wrote. -/
def Keeps (W W' : Worker) : Prop :=
  ∀ (p : Nat) (pr : Process), W.processes[p]? = some pr →
    ∃ pr', W'.processes[p]? = some pr' ∧ pr.replies ⊆ pr'.replies

theorem Keeps.of_eq (h : W'.processes = W.processes) : W.Keeps W' := fun p pr hpr =>
  ⟨pr, by rw [h]; exact hpr, List.Subset.refl _⟩

theorem Keeps.setProcess (hpr : W.processes[p]? = some pr) (h : pr.replies ⊆ pr'.replies) :
    W.Keeps (W.setProcess p pr') := by
  intro q pr₀ hpr₀
  by_cases hq : q = p
  · subst hq
    rw [hpr] at hpr₀
    cases hpr₀
    exact ⟨pr', setProcess_same hpr, h⟩
  · exact ⟨pr₀, by rw [setProcess_other hq]; exact hpr₀, List.Subset.refl _⟩

/-- The processes are as clean as they were, and no other is current. -/
theorem Inside.mono (h : W.Inside i r) (hcurrent : ∀ q, W'.current = some q → W.current = some q)
    (hquiet : ∀ q, W.QuietAt q → W'.QuietAt q)
    (hreplying : ∀ q, W.ReplyingAt q i → W'.ReplyingAt q i) : W'.Inside i r := by
  have hmost : ∀ p, W.AtMost p → W'.AtMost p := fun p hp q hq => hp q (hcurrent q hq)
  unfold Inside at h ⊢
  cases hstage : r.stage with
  | entered =>
      rw [hstage] at h
      exact ⟨h.1, h.2.1, fun q hq => hquiet q (h.2.2 q (hcurrent q hq))⟩
  | chosen p | armed p =>
      rw [hstage] at h
      exact ⟨h.1, h.2.1, hmost p h.2.2.1, hquiet p h.2.2.2⟩
  | received p line | settled p line =>
      rw [hstage] at h
      exact ⟨h.1, h.2.1, hmost p h.2.2.1, hquiet p h.2.2.2⟩
  -- the request is with the process, which is replying
  | sent p =>
      rw [hstage] at h
      exact ⟨h.1, h.2.1, hmost p h.2.2.1, hreplying p h.2.2.2⟩
  | failing e => trivial
  | stopping q e =>
      rw [hstage] at h
      cases hc : W'.current with
      | none => rfl
      | some q => exact absurd (h.symm.trans (hcurrent q hc)) (by simp)
  | waiting | returned v =>
      rw [hstage] at h
      exact h

theorem Told.mono (h : W.Told i r) (hkeeps : W.Keeps W') : W'.Told i r := by
  refine ⟨fun line hline => ?_, h.2⟩
  obtain ⟨p, pr, hp, hpr, hheard⟩ := h.1 line hline
  obtain ⟨pr', hpr', hreplies⟩ := hkeeps p pr hpr
  exact ⟨p, pr', hp, hpr', hheard.mono hreplies⟩

/-- The call has moved on from `r` to `r'`. -/
def Onward (r r' : WorkerRequest) : Prop :=
  (∀ p, r.process = some p → r'.process = some p) ∧ (Unsent r' → Unsent r)

theorem Onward.keeps (h : Onward r r') {reqs : List WorkerRequest} (hr : reqs[i]? = some r) {j q : Nat}
    {P : WorkerRequest → Prop} (hP : P r → P r')
    (hj : ∃ r, reqs[j]? = some r ∧ r.process = some q ∧ P r) :
    ∃ r, (reqs.set i r')[j]? = some r ∧ r.process = some q ∧ P r := by
  obtain ⟨r₀, hr₀, hq, hp⟩ := hj
  by_cases hji : j = i
  · subst hji
    rw [hr] at hr₀
    cases hr₀
    exact ⟨r', List.getElem?_set_self (List.getElem?_eq_some_iff.mp hr).1, h.1 q hq, hP hp⟩
  · exact ⟨r₀, (List.getElem?_set_ne (Ne.symm hji)).trans hr₀, hq, hp⟩

theorem Onward.kills (h : Onward r r') {reqs : List WorkerRequest} (hr : reqs[i]? = some r)
    {k : Nat × Nat} (hk : ∃ r, reqs[k.1]? = some r ∧ r.process = some k.2) :
    ∃ r, (reqs.set i r')[k.1]? = some r ∧ r.process = some k.2 := by
  obtain ⟨r₀, hr₀, hp⟩ := hk
  obtain ⟨r₁, hr₁, hp₁, -⟩ :=
    h.keeps hr (P := fun _ => True) (fun _ => trivial) ⟨r₀, hr₀, hp, trivial⟩
  exact ⟨r₁, hr₁, hp₁⟩

theorem Asked.onward (h : W.Asked p pr) (hr : W.requests[i]? = some r) (hon : Onward r r')
    (hreqs : W'.requests = W.requests.set i r') (hasked : pr'.asked = pr.asked) :
    W'.Asked p pr' := by
  unfold Asked
  rw [hasked, hreqs]
  exact ⟨h.1, fun j hj => hon.keeps hr (fun hns hs => hns (hon.2 hs)) (h.2 j hj)⟩

/-- The process has got the line of one more call. -/
theorem Asked.sends (h : W.Asked p pr) (hr : W.requests[i]? = some r) (hon : Onward r r')
    (hreqs : W'.requests = W.requests.set i r') (hprocess : r'.process = some p)
    (hs : Unsent r) (hs' : ¬ Unsent r') (payload : Json) :
    W'.Asked p { pr with stdin := pr.stdin ++ [(i, payload)] } := by
  have hasked : Process.asked { pr with stdin := pr.stdin ++ [(i, payload)] } =
      pr.asked ++ [i] := by
    simp [Process.asked]
  unfold Asked
  rw [hasked, hreqs]
  refine ⟨List.nodup_append.mpr ⟨h.1, List.nodup_singleton _, ?_⟩, fun j hj => ?_⟩
  · -- it has not sent before
    rintro j hj k hk rfl
    obtain rfl := List.mem_singleton.mp hk
    obtain ⟨r₀, hr₀, -, hns⟩ := h.2 j hj
    rw [hr] at hr₀
    cases hr₀
    exact hns hs
  · rcases List.mem_append.mp hj with hold | hnew
    · exact hon.keeps hr (fun hns hs => hns (hon.2 hs)) (h.2 j hold)
    · obtain rfl := List.mem_singleton.mp hnew
      exact ⟨r', List.getElem?_set_self (List.getElem?_eq_some_iff.mp hr).1, hprocess, hs'⟩

end Worker

/-- **The rule of turns.**  The call at `i` moves on under the lock, or leaves
it with a clean channel; what the processes have got is accounted for. -/
theorem WorkerInv.turn (h : WorkerInv W) (hr : W.requests[i]? = some r) (r' : WorkerRequest)
    (hmine : ∀ j, W.holder = some j → j = i) (hon : Onward r r')
    (hreqs : W'.requests = W.requests.set i r') (hkills : W'.kills = W.kills)
    (hkeeps : W.Keeps W') (hasked : ∀ p pr, W'.processes[p]? = some pr → W'.Asked p pr)
    (htold : W'.Told i r') (hwatched : W'.Watched i r')
    (hlock : (W'.holder = some i ∧ W'.Inside i r') ∨
      (W'.holder = none ∧ Outside r' ∧ W'.Idle)) : WorkerInv W' := by
  have hat : W'.requests[i]? = some r' := by
    rw [hreqs]
    exact List.getElem?_set_self (List.getElem?_eq_some_iff.mp hr).1
  -- the other calls have not moved
  have helse : ∀ j, j ≠ i → W'.requests[j]? = W.requests[j]? := fun j hj => by
    rw [hreqs]
    exact List.getElem?_set_ne (Ne.symm hj)
  refine ⟨fun hnone => ?_, fun j hj => ?_, fun j r₀ hr₀ hj => ?_, fun j r₀ hr₀ => ?_,
    fun j r₀ hr₀ => ?_, hasked, fun k hk => ?_⟩
  -- the lock is kept, or given back with the process idle
  · rcases hlock with ⟨hhold, -⟩ | ⟨-, -, hidle⟩
    · rw [hhold] at hnone
      cases hnone
    · exact hidle
  · rcases hlock with ⟨hhold, hin⟩ | ⟨hhold, -⟩
    · rw [hhold] at hj
      cases hj
      exact ⟨r', hat, hin⟩
    · rw [hhold] at hj
      cases hj
  · by_cases hji : j = i
    · subst hji
      rcases hlock with ⟨hhold, -⟩ | ⟨-, hout, -⟩
      · exact absurd hhold hj
      · rw [hat] at hr₀
        cases hr₀
        exact hout
    · rw [helse j hji] at hr₀
      exact h.outside j r₀ hr₀ fun hhold => hji (hmine j hhold)
  · by_cases hji : j = i
    · subst hji
      rw [hat] at hr₀
      cases hr₀
      exact htold
    · rw [helse j hji] at hr₀
      exact (h.told j r₀ hr₀).mono hkeeps
  · by_cases hji : j = i
    · subst hji
      rw [hat] at hr₀
      cases hr₀
      exact hwatched
    · rw [helse j hji] at hr₀
      unfold Watched
      rw [hkills]
      exact h.watched j r₀ hr₀
  · rw [hkills] at hk
    rw [hreqs]
    exact hon.kills hr (h.kills k hk)

/-- The same when no process is touched. -/
theorem WorkerInv.turn_quietly (h : WorkerInv W) (hr : W.requests[i]? = some r) (r' : WorkerRequest)
    (hmine : ∀ j, W.holder = some j → j = i) (hon : Onward r r')
    (hreqs : W'.requests = W.requests.set i r') (hkills : W'.kills = W.kills)
    (hprocesses : W'.processes = W.processes) (htold : W'.Told i r') (hwatched : W'.Watched i r')
    (hlock : (W'.holder = some i ∧ W'.Inside i r') ∨
      (W'.holder = none ∧ Outside r' ∧ W'.Idle)) : WorkerInv W' := by
  refine h.turn hr r' hmine hon hreqs hkills (Keeps.of_eq hprocesses) (fun p pr hpr => ?_) htold
    hwatched hlock
  rw [hprocesses] at hpr
  exact (h.asked p pr hpr).onward hr hon hreqs rfl

/-! ### Every step -/

/-- Give the lock back with an error. -/
theorem WorkerInv.gives_up (h : WorkerInv W) (hr : W.requests[i]? = some r)
    (hmine : ∀ j, W.holder = some j → j = i) (hidle : W.Idle) (watchdog : Watchdog)
    (e : WorkerError) :
    WorkerInv (W.release i { r with watchdog := watchdog } (.error e)) := by
  refine h.turn_quietly hr { r with
    watchdog := watchdog
    stage := .returned (.error e) } hmine ⟨fun p hp => hp, False.elim⟩ rfl rfl rfl
    ⟨fun line hline => ?_, fun v hv => ?_⟩ (fun p hp => ?_) (Or.inr ⟨rfl, trivial, hidle⟩)
  · exact (h.told i r hr).1 line hline
  · cases hv
  · rcases hp with hp | hp <;> cases hp

/-- Move on inside the lock, with the process and the line as they are. -/
theorem WorkerInv.moves (h : WorkerInv W) (hr : W.requests[i]? = some r)
    (hmine : W.holder = some i) (stage : RequestStage) (watchdog : Watchdog)
    (hon : Unsent { r with stage := stage } → Unsent r)
    (hstage : ∀ v, stage ≠ .returned v)
    (hwatched : ∀ p, stage = .armed p ∨ stage = .sent p → watchdog = .running)
    (hin : W.Inside i { r with
      stage := stage
      watchdog := watchdog }) :
    WorkerInv (W.setRequest i { r with
      stage := stage
      watchdog := watchdog }) := by
  refine h.turn_quietly hr { r with
    stage := stage
    watchdog := watchdog } (fun j hj => ?_) ⟨fun p hp => hp, hon⟩ rfl rfl rfl
    ⟨fun line hline => ?_, fun v hv => ?_⟩ (fun p hp => Or.inl (hwatched p hp))
    (Or.inl ⟨hmine, hin⟩)
  · rw [hmine] at hj
    exact (Option.some.inj hj).symm
  · exact (h.told i r hr).1 line hline
  · exact absurd hv (hstage _)

/-- `_ensure_started` hands a process to the call. -/
theorem WorkerInv.chooses (h : WorkerInv W) (hr : W.requests[i]? = some r)
    (hmine : W.holder = some i) (hprocess : r.process = none) (hline : r.line = none)
    (hs : r.stage = .entered) (hreqs : W'.requests = W.requests.set i { r with
      stage := .chosen p
      process := some p })
    (hholder : W'.holder = W.holder) (hkills : W'.kills = W.kills) (hkeeps : W.Keeps W')
    (hasked : ∀ (q : Nat) (pr : Process), W'.processes[q]? = some pr →
      W.processes[q]? = some pr ∨ pr.asked = [])
    (hcurrent : W'.AtMost p) (hquiet : W'.QuietAt p) : WorkerInv W' := by
  -- the call had no process before
  have hon : Onward r { r with
      stage := .chosen p
      process := some p } :=
    ⟨fun q hq => absurd (hprocess.symm.trans hq) (by simp), fun _ => by simp [Unsent, hs]⟩
  refine h.turn hr _ (fun j hj => ?_) hon hreqs hkills hkeeps (fun q pr hpr => ?_)
    ⟨fun line hl => ?_, fun v hv => ?_⟩ (fun q hq => ?_)
    (Or.inl ⟨hholder.trans hmine, rfl, hline, hcurrent, hquiet⟩)
  · rw [hmine] at hj
    exact (Option.some.inj hj).symm
  · rcases hasked q pr hpr with hold | hnew
    · exact (h.asked q pr hold).onward hr hon hreqs rfl
    · exact ⟨by rw [hnew]; exact List.nodup_nil, by rw [hnew]; simp⟩
  · rw [show ({ r with
      stage := .chosen p
      process := some p } : WorkerRequest).line = r.line from rfl, hline] at hl
    cases hl
  · cases hv
  · rcases hq with hq | hq <;> cases hq

theorem WorkerInv.spawn (h : WorkerInv W) (hr : W.requests[i]? = some r)
    (hs : threadStep W i r .spawn = some W') : WorkerInv W' := by
  simp only [threadStep] at hs
  split at hs
  · rename_i hstage hgone
    obtain ⟨hmine, hin⟩ := h.holds hr (by rw [Outside, hstage]; exact id)
    rw [Inside, hstage] at hin
    obtain ⟨hprocess, hline, -⟩ := hin
    cases hs
    refine h.chooses hr hmine hprocess hline hstage rfl rfl rfl (fun q pr hpr => ?_)
      (fun q pr hpr => ?_) (fun q hq => (Option.some.inj hq).symm) ⟨.start, ?_, rfl, fun _ => ⟨rfl, rfl⟩⟩
    · exact ⟨pr, getElem?_concat hpr _, List.Subset.refl _⟩
    · rcases getElem?_concat_cases hpr with hold | ⟨-, rfl⟩
      · exact Or.inl hold
      · exact Or.inr rfl
    · exact List.getElem?_concat_length
  · cases hs

theorem WorkerInv.send (h : WorkerInv W) (hr : W.requests[i]? = some r)
    (hs : threadStep W i r .send = some W') : WorkerInv W' := by
  simp only [threadStep] at hs
  split at hs
  · rename_i p hstage
    obtain ⟨hmine, hin⟩ := h.holds hr (by rw [Outside, hstage]; exact id)
    rw [Inside, hstage] at hin
    obtain ⟨hprocess, hline, hcurrent, pr, hpr, hout, hidle⟩ := hin
    rw [hpr] at hs
    simp only at hs
    split at hs
    · cases hs
      -- the process was quiet, so this is all it has been asked
      have hreplying : Process.Replying i { pr with stdin := pr.stdin ++ [(i, r.payload)] } := by
        by_cases halive : pr.alive = true
        · obtain ⟨hstdin, htodo⟩ := hidle halive
          exact Or.inr (Or.inl ⟨r.payload, by simp [hstdin], htodo, hout⟩)
        · exact Or.inl ⟨by simpa using halive, hout⟩
      have hon : Onward r { r with stage := .sent p } := ⟨fun q hq => hq, False.elim⟩
      refine h.turn hr _ (fun j hj => ?_) hon rfl rfl
        (Keeps.setProcess hpr (List.Subset.refl _)) (fun q pr₀ hpr₀ => ?_)
        ⟨fun line hl => absurd (hline.symm.trans hl) (by simp), fun v hv => ?_⟩ (fun q hq => ?_)
        (Or.inl ⟨hmine, hprocess, hline, hcurrent, _, setProcess_same hpr, hreplying⟩)
      · rw [hmine] at hj
        exact (Option.some.inj hj).symm
      · rcases setProcess_cases hpr hpr₀ with ⟨rfl, rfl⟩ | ⟨-, hold⟩
        -- it has not been asked by this call before
        · refine (h.asked q pr hpr).sends hr hon rfl hprocess ?_ id r.payload
          rw [Unsent, hstage]
          trivial
        · exact (h.asked q pr₀ hold).onward hr hon rfl rfl
      · cases hv
      · rcases hq with hq | hq
        · cases hq
        · cases hq
          exact h.watched i r hr p (Or.inl hstage)
    · cases hs
  · cases hs

theorem WorkerInv.receive (h : WorkerInv W) (hr : W.requests[i]? = some r)
    (hs : threadStep W i r .receive = some W') : WorkerInv W' := by
  simp only [threadStep] at hs
  split at hs
  · rename_i p hstage
    obtain ⟨hmine, hin⟩ := h.holds hr (by rw [Outside, hstage]; exact id)
    rw [Inside, hstage] at hin
    obtain ⟨hprocess, hline, hcurrent, pr, hpr, hreplying⟩ := hin
    rw [hpr] at hs
    split at hs
    · rename_i line pr' hread
      cases hs
      -- the line is the whole answer, or the end of the file
      obtain ⟨hheard, hquiet, hasked, hreplies⟩ := hreplying.readline hread
      have hon : Onward r { r with
          stage := .received p line
          line := some line } := ⟨fun q hq => hq, False.elim⟩
      refine h.turn hr _ (fun j hj => ?_) hon rfl rfl
        (Keeps.setProcess hpr (by rw [hreplies]; exact List.Subset.refl _)) (fun q pr₀ hpr₀ => ?_)
        ⟨fun line' hl => ?_, fun v hv => ?_⟩ (fun q hq => ?_)
        (Or.inl ⟨hmine, hprocess, rfl, hcurrent, pr', setProcess_same hpr, hquiet⟩)
      · rw [hmine] at hj
        exact (Option.some.inj hj).symm
      · rcases setProcess_cases hpr hpr₀ with ⟨rfl, rfl⟩ | ⟨-, hold⟩
        · exact (h.asked q pr hpr).onward hr hon rfl hasked
        · exact (h.asked q pr₀ hold).onward hr hon rfl rfl
      · obtain rfl := Option.some.inj hl
        exact ⟨p, pr', hprocess, setProcess_same hpr, hheard⟩
      · cases hv
      · rcases hq with hq | hq <;> cases hq
    · cases hs
  · cases hs

/-- The call that takes the lock finds the channel clean. -/
theorem WorkerInv.acquire (h : WorkerInv W) (hr : W.requests[i]? = some r)
    (hs : threadStep W i r .acquire = some W') : WorkerInv W' := by
  simp only [threadStep] at hs
  split at hs
  · rename_i hstage hnone
    have hout := h.outside i r hr (by rw [hnone]; simp)
    rw [Outside, hstage] at hout
    cases hs
    refine h.turn_quietly hr { r with stage := .entered } (fun j hj => ?_)
      ⟨fun q hq => hq, fun _ => ?_⟩ rfl rfl rfl
      ⟨fun line hl => (h.told i r hr).1 line hl, fun v hv => ?_⟩ (fun q hq => ?_)
      (Or.inl ⟨rfl, hout.1, hout.2, h.free hnone⟩)
    · rw [hnone] at hj
      cases hj
    · rw [Unsent, hstage]
      trivial
    · cases hv
    · rcases hq with hq | hq <;> cases hq
  · cases hs

theorem WorkerInv.reuse (h : WorkerInv W) (hr : W.requests[i]? = some r)
    (hs : threadStep W i r .reuse = some W') : WorkerInv W' := by
  simp only [threadStep] at hs
  split at hs
  · rename_i p hstage hcurrent
    obtain ⟨hmine, hin⟩ := h.holds hr (by rw [Outside, hstage]; exact id)
    rw [Inside, hstage] at hin
    obtain ⟨hprocess, hline, hidle⟩ := hin
    cases hs
    refine h.chooses hr hmine hprocess hline hstage rfl rfl rfl (Keeps.of_eq rfl)
      (fun q pr hpr => Or.inl hpr) (fun q hq => ?_) (hidle p hcurrent)
    exact Option.some.inj (hq.symm.trans hcurrent)
  · cases hs

/-- Give up the process, which is stopped next. -/
theorem WorkerInv.fails (h : WorkerInv W) (hr : W.requests[i]? = some r)
    (hmine : W.holder = some i) (e : WorkerError) :
    WorkerInv (W.setRequest i { r with stage := .failing e }) := by
  refine h.moves hr hmine (.failing e) r.watchdog False.elim (fun v hv => ?_) (fun q hq => ?_)
    trivial
  · cases hv
  · rcases hq with hq | hq <;> cases hq

/-- A call ends with an answer, with an exit or without sense. -/
theorem WorkerInv.conclude (h : WorkerInv W) (hr : W.requests[i]? = some r) {code : Option Int}
    (hs : threadStep W i r (.conclude code) = some W') : WorkerInv W' := by
  simp only [threadStep] at hs
  split at hs
  · rename_i p line hstage
    obtain ⟨hmine, hin⟩ := h.holds hr (by rw [Outside, hstage]; exact id)
    rw [Inside, hstage] at hin
    obtain ⟨hprocess, hline, hcurrent, hquiet⟩ := hin
    split at hs
    · cases hs
      exact h.fails hr hmine _
    · split at hs
      · rename_i response hloads
        cases hs
        -- the one way out that leaves the process in place: its answer has been read
        refine h.turn_quietly hr { r with stage := .returned (.ok response) }
          (fun j hj => Option.some.inj (hj.symm.trans hmine))
          ⟨fun q hq => hq, False.elim⟩ rfl rfl rfl
          ⟨fun line hl => (h.told i r hr).1 line hl, fun v hv => ?_⟩ (fun q hq => ?_)
          (Or.inr ⟨rfl, trivial, fun q hq => ?_⟩)
        · cases hv
          exact ⟨line, hline, hloads⟩
        · rcases hq with hq | hq <;> cases hq
        · rw [hcurrent q hq]
          exact hquiet
      · cases hs
        exact h.fails hr hmine _
  · cases hs

theorem WorkerInv.stop (h : WorkerInv W) (hr : W.requests[i]? = some r)
    (hs : threadStep W i r .stop = some W') : WorkerInv W' := by
  simp only [threadStep] at hs
  split at hs
  · rename_i e hstage
    obtain ⟨hmine, -⟩ := h.holds hr (by rw [Outside, hstage]; exact id)
    cases hs
    refine h.turn_quietly hr { r with stage := .stopping W.current e }
      (fun j hj => Option.some.inj (hj.symm.trans hmine))
      ⟨fun q hq => hq, False.elim⟩ rfl rfl rfl
      ⟨fun line hl => (h.told i r hr).1 line hl, fun v hv => ?_⟩ (fun p hp => ?_)
      (Or.inl ⟨hmine, rfl⟩)
    · cases hv
    · rcases hp with hp | hp <;> cases hp
  · cases hs

/-- A stopped process is no longer there, so the channel of the next one is clean. -/
theorem WorkerInv.finish (h : WorkerInv W) (hr : W.requests[i]? = some r)
    (hs : threadStep W i r .finish = some W') : WorkerInv W' := by
  simp only [threadStep] at hs
  split at hs
  · rename_i q e hstage
    obtain ⟨hmine, hin⟩ := h.holds hr (by rw [Outside, hstage]; exact id)
    rw [Inside, hstage] at hin
    split at hs
    · cases hs
      refine h.gives_up hr (fun j hj => Option.some.inj (hj.symm.trans hmine)) (fun p hp => ?_)
        r.watchdog.cancel _
      rw [hin] at hp
      cases hp
    · cases hs
  · cases hs

/-- **What a call does next keeps the channel clean.** -/
theorem WorkerInv.thread (h : WorkerInv W) (hr : W.requests[i]? = some r) {a : ThreadAct}
    (hs : threadStep W i r a = some W') : WorkerInv W' := by
  have hholds := h.holds hr
  rw [Outside, Inside] at hholds
  cases a with
  | acquire => exact h.acquire hr hs
  | reuse => exact h.reuse hr hs
  | spawn => exact h.spawn hr hs
  | send => exact h.send hr hs
  | receive => exact h.receive hr hs
  | conclude code => exact h.conclude hr hs
  | stop => exact h.stop hr hs
  | finish => exact h.finish hr hs
  -- nothing has been chosen, and the lock is given back
  | spawnFails text =>
      simp only [threadStep] at hs
      split at hs
      · rename_i hstage _
        rw [hstage] at hholds
        obtain ⟨hmine, -, -, hidle⟩ := hholds id
        cases hs
        exact h.gives_up hr (fun j hj => Option.some.inj (hj.symm.trans hmine)) hidle r.watchdog _
      · cases hs
  -- the timer is started on the process that was chosen
  | arm =>
      simp only [threadStep] at hs
      split at hs
      · rename_i p hstage
        rw [hstage] at hholds
        obtain ⟨hmine, hin⟩ := hholds id
        cases hs
        refine h.moves hr hmine (.armed p) .running (fun _ => ?_) (fun v hv => ?_)
          (fun q _ => rfl) hin
        · rw [Unsent, hstage]
          trivial
        · cases hv
      · cases hs
  | sendFails text =>
      simp only [threadStep] at hs
      split at hs
      · rename_i p hstage
        rw [hstage] at hholds
        cases hs
        exact h.fails hr (hholds id).1 _
      · cases hs
  | receiveFails text =>
      simp only [threadStep] at hs
      split at hs
      · rename_i p hstage
        rw [hstage] at hholds
        cases hs
        exact h.fails hr (hholds id).1 _
      · cases hs
  -- what has been received stays
  | cancelWatchdog =>
      simp only [threadStep] at hs
      split at hs
      · rename_i p line hstage
        rw [hstage] at hholds
        obtain ⟨hmine, hin⟩ := hholds id
        cases hs
        exact h.moves hr hmine (.settled p line) r.watchdog.cancel False.elim
          (fun v hv => by cases hv) (fun q hq => by rcases hq with hq | hq <;> cases hq) hin
      · cases hs

/-- What a timer does to its call is not what the call goes by; it kills the
process of the call. -/
theorem watchdogStep_cases {a : WatchdogAct} (hs : watchdogStep W i r a = some W') :
    ∃ watchdog timedOut kills, W' = { W.setRequest i { r with
        watchdog := watchdog
        timedOut := timedOut } with kills := kills } ∧
      ((kills = W.kills ∧ (watchdog = .fired ∨ watchdog = .flagged)) ∨
        ∃ p, r.process = some p ∧ kills = W.kills ++ [(i, p)]) := by
  cases a with
  | fire =>
      simp only [watchdogStep] at hs
      split at hs
      · cases hs
        exact ⟨_, r.timedOut, W.kills, rfl, Or.inl ⟨rfl, Or.inl rfl⟩⟩
      · cases hs
  | flag =>
      simp only [watchdogStep] at hs
      split at hs
      · cases hs
        exact ⟨_, _, W.kills, rfl, Or.inl ⟨rfl, Or.inr rfl⟩⟩
      · cases hs
  | kill =>
      simp only [watchdogStep] at hs
      split at hs
      · rename_i p _ hprocess
        cases hs
        exact ⟨_, r.timedOut, _, rfl, Or.inr ⟨p, hprocess, rfl⟩⟩
      · cases hs

theorem WorkerInv.watchdog (h : WorkerInv W) (hr : W.requests[i]? = some r) {a : WatchdogAct}
    (hs : watchdogStep W i r a = some W') : WorkerInv W' := by
  obtain ⟨t, b, kills, rfl, hkills⟩ := watchdogStep_cases hs
  have hlt := (List.getElem?_eq_some_iff.mp hr).1
  -- only the watchdog of this call has changed
  have hback : ∀ j r₀, (W.requests.set i { r with
      watchdog := t
      timedOut := b })[j]? = some r₀ → (j ≠ i ∧ W.requests[j]? = some r₀) ∨
        (j = i ∧ r₀ = { r with
          watchdog := t
          timedOut := b }) := by
    intro j r₀ hj
    by_cases hji : j = i
    · subst hji
      rw [List.getElem?_set_self hlt] at hj
      exact Or.inr ⟨rfl, (Option.some.inj hj).symm⟩
    · rw [List.getElem?_set_ne (Ne.symm hji)] at hj
      exact Or.inl ⟨hji, hj⟩
  have hon : Onward r { r with
      watchdog := t
      timedOut := b } := ⟨fun q hq => hq, fun hu => hu⟩
  -- and at most one more process has been killed
  have hgrow : ∀ k ∈ W.kills, k ∈ kills := fun k hk => by
    rcases hkills with ⟨rfl, -⟩ | ⟨p, -, rfl⟩
    · exact hk
    · exact List.mem_append_left _ hk
  refine ⟨h.free, fun j hj => ?_, fun j r₀ hr₀ hj => ?_, fun j r₀ hr₀ => ?_, fun j r₀ hr₀ => ?_,
    fun q pr hpr => ?_, fun k hk => ?_⟩
  · obtain ⟨r₀, hr₀, hin⟩ := h.inside j hj
    by_cases hji : j = i
    · subst hji
      rw [hr] at hr₀
      cases hr₀
      exact ⟨_, List.getElem?_set_self hlt, hin⟩
    · exact ⟨r₀, (List.getElem?_set_ne (Ne.symm hji)).trans hr₀, hin⟩
  · rcases hback j r₀ hr₀ with ⟨-, hold⟩ | ⟨rfl, rfl⟩
    · exact h.outside j r₀ hold hj
    · exact h.outside j r hr hj
  · rcases hback j r₀ hr₀ with ⟨-, hold⟩ | ⟨rfl, rfl⟩
    · exact h.told j r₀ hold
    · exact h.told j r hr
  · rcases hback j r₀ hr₀ with ⟨-, hold⟩ | ⟨rfl, rfl⟩
    · intro p hp
      rcases h.watched j r₀ hold p hp with hw | hw | hw | hw
      · exact Or.inl hw
      · exact Or.inr (Or.inl hw)
      · exact Or.inr (Or.inr (Or.inl hw))
      · exact Or.inr (Or.inr (Or.inr (hgrow _ hw)))
    · intro p hp
      rcases hkills with ⟨-, ht | ht⟩ | ⟨p', hp', rfl⟩
      · exact Or.inr (Or.inl ht)
      · exact Or.inr (Or.inr (Or.inl ht))
      · -- it has killed the process the call has chosen
        have hin : r.process = some p := by
          have hholds := h.holds hr
          rw [Outside, Inside] at hholds
          rcases hp with hp | hp
          · rw [show r.stage = _ from hp] at hholds
            exact (hholds id).2.1
          · rw [show r.stage = _ from hp] at hholds
            exact (hholds id).2.1
        obtain rfl := Option.some.inj (hp'.symm.trans hin)
        exact Or.inr (Or.inr (Or.inr (List.mem_append_right _ (List.mem_singleton_self _))))
  · exact (h.asked q pr hpr).onward hr hon rfl rfl
  · have hown : ∃ r₀, W.requests[k.1]? = some r₀ ∧ r₀.process = some k.2 := by
      rcases hkills with ⟨rfl, -⟩ | ⟨p, hp, rfl⟩
      · exact h.kills k hk
      · rcases List.mem_append.mp hk with hold | hnew
        · exact h.kills k hold
        · obtain rfl := List.mem_singleton.mp hnew
          exact ⟨r, hr, hp⟩
    exact hon.kills hr hown

/-- A process that does something stays as clean as it was. -/
theorem WorkerInv.process (h : WorkerInv W) (hpr : W.processes[p]? = some pr) {a : ProcessAct}
    (hok : WorkerOk (.process p a)) (hs : pr.step a = some pr') : WorkerInv (W.setProcess p pr') := by
  have hkeeps : W.Keeps (W.setProcess p pr') := Keeps.setProcess hpr (Process.replies_step hs)
  -- a quiet process stays so, whatever it does
  have hquiet : ∀ q, W.QuietAt q → (W.setProcess p pr').QuietAt q := by
    rintro q ⟨pr₀, hpr₀, hq⟩
    by_cases hqp : q = p
    · subst hqp
      rw [hpr] at hpr₀
      cases hpr₀
      exact ⟨pr', setProcess_same hpr, hq.step hs⟩
    · exact ⟨pr₀, (setProcess_other hqp).trans hpr₀, hq⟩
  -- and the idle ones with it
  have hidle : W.Idle → (W.setProcess p pr').Idle := fun hi q hq => hquiet q (hi q hq)
  refine ⟨fun hnone => hidle (h.free hnone), fun j hj => ?_, h.outside,
    fun j r hr => (h.told j r hr).mono hkeeps, h.watched, fun q pr₀ hpr₀ => ?_, h.kills⟩
  · obtain ⟨r, hr, hin⟩ := h.inside j hj
    refine ⟨r, hr, Inside.mono hin (fun q hq => hq) hquiet ?_⟩
    rintro q ⟨pr₀, hpr₀, hq⟩
    by_cases hqp : q = p
    · subst hqp
      rw [hpr] at hpr₀
      cases hpr₀
      exact ⟨pr', setProcess_same hpr, hq.step hok hs⟩
    · exact ⟨pr₀, (setProcess_other hqp).trans hpr₀, hq⟩
  · rcases setProcess_cases hpr hpr₀ with ⟨rfl, rfl⟩ | ⟨-, hold⟩
    · unfold Asked
      rw [Process.asked_step hs]
      exact h.asked q pr hpr
    · exact h.asked q pr₀ hold

/-- **Every step keeps the channel clean between calls.** -/
theorem WorkerInv.step (h : WorkerInv W) {a : ExtensionWorkerAct} (hok : WorkerOk a)
    (hs : extensionWorkerStep W a = some W') : WorkerInv W' := by
  cases a with
  -- a new call waits for the lock, with nothing chosen
  | request payload =>
      cases hs
      refine ⟨h.free, fun j hj => ?_, fun j r hr hj => ?_, fun j r hr => ?_, fun j r hr => ?_,
        fun q pr hpr => ?_, fun k hk => ?_⟩
      · obtain ⟨r, hr, hin⟩ := h.inside j hj
        exact ⟨r, getElem?_concat hr _, hin⟩
      · rcases getElem?_concat_cases hr with hold | ⟨-, rfl⟩
        · exact h.outside j r hold hj
        · exact ⟨rfl, rfl⟩
      · rcases getElem?_concat_cases hr with hold | ⟨-, rfl⟩
        · exact h.told j r hold
        · exact ⟨fun line hl => absurd hl (by simp [WorkerRequest.start]), fun v hv => by cases hv⟩
      · rcases getElem?_concat_cases hr with hold | ⟨-, rfl⟩
        · exact h.watched j r hold
        · intro p hp
          rcases hp with hp | hp <;> cases hp
      · obtain ⟨hnodup, hall⟩ := h.asked q pr hpr
        refine ⟨hnodup, fun j hj => ?_⟩
        obtain ⟨r, hr, hown⟩ := hall j hj
        exact ⟨r, getElem?_concat hr _, hown⟩
      · obtain ⟨r, hr, hp⟩ := h.kills k hk
        exact ⟨r, getElem?_concat hr _, hp⟩
  | thread i a =>
      obtain ⟨r, hr, hs⟩ := Option.bind_eq_some_iff.mp hs
      exact h.thread hr hs
  | watchdog i a =>
      obtain ⟨r, hr, hs⟩ := Option.bind_eq_some_iff.mp hs
      exact h.watchdog hr hs
  | process p a =>
      obtain ⟨pr, hpr, hs⟩ := Option.bind_eq_some_iff.mp hs
      obtain ⟨pr', hpr', rfl⟩ := Option.map_eq_some_iff.mp hs
      exact h.process hpr hok hpr'
  -- the process at hand is forgotten
  | exit =>
      cases hs
      refine ⟨fun _ q hq => absurd hq (by simp), fun j hj => ?_, h.outside, h.told, h.watched,
        h.asked, h.kills⟩
      obtain ⟨r, hr, hin⟩ := h.inside j hj
      exact ⟨r, hr, Inside.mono hin (fun q hq => absurd hq (by simp)) (fun q hq => hq) fun q hq => hq⟩

theorem WorkerInv.run (h : WorkerReaches .start W) : WorkerInv W := by
  refine h.invariant (fun U V hstep hU => ?_) WorkerInv.start
  obtain ⟨a, hok, hs⟩ := hstep
  exact hU.step hok hs

end Frame

/-! ### Responses -/

section Run

variable (repr : Str → String) (b64decode : String → Bytes) (module extension timeout : String)

/-- What `run` is to make of an answer of `serve`. -/
def ServeResponse.outcome : ServeResponse → Except RunError (List (Str × ModuleResult))
  | .outputs ports => .ok (ports.map fun port => (port.1, ⟨port.2.1, b64decode port.2.2⟩))
  | .error text => .error (.moduleError ("module " ++ repr module ++ " failed: " ++ text))

theorem runResponse_json (a : ServeResponse) :
    runResponse repr b64decode module a.json = a.outcome repr b64decode module := by
  cases a with
  | outputs ports =>
      show (ports.map _).mapM (portResult b64decode) = _
      rw [List.mapM_map]
      induction ports with
      | nil => rfl
      | cons port ports ih =>
          rw [List.mapM_cons, ih]
          rfl
  | error text => rfl

/-- A process has one reply to a call at most. -/
theorem Worker.Asked.unique {W : Worker} {p i : Nat} {pr : Process} {answer answer' : Text}
    (h : W.Asked p pr) (ha : (i, answer) ∈ pr.replies) (ha' : (i, answer') ∈ pr.replies) :
    answer' = answer := by
  have hnodup : (pr.replies.map Prod.fst).Nodup := (List.nodup_append.mp h.1).1
  have heq := List.inj_on_of_nodup_map hnodup ha' ha rfl
  exact (Prod.mk.inj heq).2

/-- **A call that returns a response returns the reply to that call**, from
the process it was sent to, the only one there is; any other call raises a
`ModuleError`.  Whatever a call reads is the reply to it or the beginning of
it.  A watchdog kills the process of its own call and no other, and a call that
waits is watched until it has. -/
theorem responses_pair_with_requests {W : Worker} (h : WorkerReaches .start W) {i : Nat}
    {r : WorkerRequest} (hr : W.requests[i]? = some r) :
    (∀ v, r.stage = .returned (.ok v) →
      (∃ p pr answer, r.process = some p ∧ W.processes[p]? = some pr ∧
        (i, answer) ∈ pr.replies ∧ Answers answer v ∧
        ∀ (q : Nat) (pr' : Process) (answer' : Text), W.processes[q]? = some pr' →
          (i, answer') ∈ pr'.replies → q = p ∧ answer' = answer) ∧
      ∀ a : ServeResponse, v = a.json →
        runResult repr b64decode module extension timeout (.ok v) =
          a.outcome repr b64decode module) ∧
    (∀ e, r.stage = .returned (.error e) →
      ∃ message, runResult repr b64decode module extension timeout (.error e) =
        .error (.moduleError message)) ∧
    (∀ line, r.line = some line →
      ∃ p pr, r.process = some p ∧ W.processes[p]? = some pr ∧ pr.Heard i line) ∧
    (∀ p, (i, p) ∈ W.kills → r.process = some p ∧
      ∀ (q : Nat) (pr : Process), W.processes[q]? = some pr → i ∈ pr.asked → q = p) ∧
    ∀ p, r.stage = .sent p → r.watchdog = .running ∨ r.watchdog = .fired ∨
      r.watchdog = .flagged ∨ (i, p) ∈ W.kills := by
  have hinv := WorkerInv.run h
  obtain ⟨hheard, hreturned⟩ := hinv.told i r hr
  -- who has been asked by a call is its process
  have howns : ∀ (q : Nat) (pr : Process), W.processes[q]? = some pr → i ∈ pr.asked →
      r.process = some q := by
    intro q pr hpr hi
    obtain ⟨r₀, hr₀, hq, -⟩ := (hinv.asked q pr hpr).2 i hi
    rw [hr] at hr₀
    cases hr₀
    exact hq
  refine ⟨fun v hv => ⟨?_, ?_⟩, fun e _ => ⟨_, rfl⟩, hheard, fun p hp => ?_,
    fun p hp => hinv.watched i r hr p (Or.inr hp)⟩
  · obtain ⟨line, hline, hloads⟩ := hreturned v hv
    obtain ⟨p, pr, hp, hpr, hpart⟩ := hheard line hline
    obtain ⟨answer, ha, hmem⟩ := hpart.loads hloads
    refine ⟨p, pr, answer, hp, hpr, hmem, ha, fun q pr' answer' hpr' hmem' => ?_⟩
    -- who has answered has been asked
    have hasked : i ∈ pr'.asked :=
      List.mem_append_left _ (List.mem_map.mpr ⟨(i, answer'), hmem', rfl⟩)
    obtain rfl := Option.some.inj (hp.symm.trans (howns q pr' hpr' hasked))
    rw [hpr] at hpr'
    cases hpr'
    exact ⟨rfl, (hinv.asked p pr hpr).unique hmem hmem'⟩
  · rintro a rfl
    exact runResponse_json repr b64decode module a
  · obtain ⟨r₀, hr₀, hp₀⟩ := hinv.kills (i, p) hp
    rw [hr] at hr₀
    cases hr₀
    exact ⟨hp₀, fun q pr hpr hi => Option.some.inj ((howns q pr hpr hi).symm.trans hp₀)⟩

end Run

/-! ### A kill that comes too late -/

/-- What the call at `i` has returned. -/
def Worker.response (W : Worker) (i : Nat) : Option Json :=
  (W.requests[i]?).bind fun r =>
    match r.stage with
    | .returned (.ok v) => some v
    | _ => none

/-- The first call is killed by its watchdog in the middle of the answer, and waits
for a child of its process to let go of the pipe.  The second gets a process of
its own and its answer, and its timer, which has fired by then, kills that
process afterwards. -/
def lateKill : List ExtensionWorkerAct :=
  [.request .null, .request (.bool true),
    .thread 0 .acquire, .thread 0 .spawn, .thread 0 .arm, .thread 0 .send,
    .process 0 (.take ['\x7b', '\x7d']), .process 0 .write,
    .watchdog 0 .fire, .watchdog 0 .flag, .watchdog 0 .kill, .process 0 (.die true),
    .process 0 .letGo, .thread 0 .receive, .thread 0 .cancelWatchdog, .thread 0 (.conclude none),
    .thread 0 .stop, .thread 0 .finish,
    .thread 1 .acquire, .thread 1 .spawn, .thread 1 .arm, .thread 1 .send,
    .process 1 (.take ['\x7b', '\x7d']), .process 1 .write, .process 1 .write, .process 1 .write,
    .watchdog 1 .fire, .thread 1 .receive, .thread 1 .cancelWatchdog, .watchdog 1 .flag,
    .thread 1 (.conclude none), .watchdog 1 .kill, .process 1 (.die false)]

theorem responses_pair_with_requests_late_kill : ∃ (W : Worker) (v : Json) (p : Nat)
    (pr : Process) (answer : Text), WorkerReaches .start W ∧ W.kills = [(0, 0), (1, 1)] ∧
      W.response 1 = some v ∧ W.processes[p]? = some pr ∧ (1, answer) ∈ pr.replies ∧
      Answers answer v := by
  -- the second call is served, and both processes are killed
  have hcheck : (runActs (guarded extensionWorkerStep fun _ => WorkerOk) lateKill .start).map (fun W =>
      (readsObject (W.response 1), W.kills)) = some (true, [(0, 0), (1, 1)]) := by
    decide +kernel
  obtain ⟨W, hW, hcheck⟩ := Option.map_eq_some_iff.mp hcheck
  obtain ⟨hreads, hkills⟩ := Prod.mk.inj hcheck
  have hrun : WorkerReaches .start W := reaches_of_guarded hW
  cases hresponse : W.response 1 with
  | none =>
      rw [hresponse] at hreads
      cases hreads
  | some v =>
      obtain ⟨r, hr, hstage⟩ := Option.bind_eq_some_iff.mp hresponse
      split at hstage
      · rename_i v' hreturned
        cases hstage
        obtain ⟨⟨p, pr, answer, -, hpr, hmem, ha, -⟩, -⟩ :=
          (responses_pair_with_requests (fun _ => "") (fun _ => []) "m" "e" "120" hrun hr).1 v
            hreturned
        exact ⟨W, v, p, pr, answer, hrun, hkills, hresponse, hpr, hmem, ha⟩
      · cases hstage

end Formshift
