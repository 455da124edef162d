/-
Formshift/CallsReturn.lean

Every call of `ExtensionWorker.request` returns.

A process may hang at any point, in the middle of a line or before it, and no
step of a call waits for more of it than its timer allows: a call that reads has a
watchdog that is running, is at its kill or has killed (`WorkerInv.watched`),
and a process that is killed is gone for `stop` and, once no child of it holds
the pipe, for `readline`.  Main result: `calls_return`, no run goes on for ever
and none in which such children end comes to rest with a call that has not
returned.
-/
import Formshift.Lib.Pool
import Formshift.Pairing

namespace Formshift

open Py Steps Worker

/-! ### What is left to do -/

def RequestStage.left : RequestStage → Nat
  | .waiting => 9
  | .entered => 8
  | .chosen _ => 7
  | .armed _ => 6
  | .sent _ => 5
  | .received _ _ => 4
  | .settled _ _ => 3
  | .failing _ => 2
  | .stopping _ _ => 1
  | .returned _ => 0

def Watchdog.left : Watchdog → Nat
  | .idle | .running => 3
  | .fired => 2
  | .flagged => 1
  | .over => 0

/-- A call may start its timer with any of its steps. -/
def WorkerRequest.left (r : WorkerRequest) : Nat := 4 * r.stage.left + r.watchdog.left

/-- Lines to read, a life to lose and a child to end. -/
def Process.left (pr : Process) : Nat :=
  pr.stdin.length + 2 * pr.alive.toNat + pr.held.toNat

/-- The calls first: a call gives a process a line to read, and a line that is
read is an answer to write. -/
def Worker.left (W : Worker) : Nat ×ₗ Nat ×ₗ Nat :=
  toLex ((W.requests.map WorkerRequest.left).sum,
    toLex ((W.processes.map Process.left).sum,
      (W.processes.map fun pr => pr.todo.length).sum))

section Left

variable {W W' : Worker} {i p : Nat} {r : WorkerRequest} {pr pr' : Process}

theorem Watchdog.left_le (t : Watchdog) : t.left ≤ 3 := by
  cases t <;> simp [Watchdog.left]

theorem WorkerRequest.left_lt {r' : WorkerRequest} (h : r'.stage.left < r.stage.left) :
    r'.left < r.left := by
  have htimer := r'.watchdog.left_le
  unfold WorkerRequest.left
  omega

/-- A thread that moves has less to do. -/
theorem threadStep_left {a : ThreadAct} (hs : threadStep W i r a = some W') :
    ∃ r', W'.requests = W.requests.set i r' ∧ r'.left < r.left := by
  have hmoves : ∀ {r' : WorkerRequest}, W'.requests = W.requests.set i r' →
      r'.stage.left < r.stage.left → ∃ r', W'.requests = W.requests.set i r' ∧ r'.left < r.left :=
    fun hreqs hlt => ⟨_, hreqs, WorkerRequest.left_lt hlt⟩
  cases a with
  | arm | sendFails | receiveFails | cancelWatchdog | stop =>
      simp only [threadStep] at hs
      split at hs
      · rename_i hstage
        cases hs
        exact hmoves rfl (by simp [RequestStage.left, hstage])
      · cases hs
  | acquire | reuse | spawn | spawnFails =>
      simp only [threadStep] at hs
      split at hs
      · rename_i hstage _
        cases hs
        exact hmoves rfl (by simp [RequestStage.left, hstage])
      · cases hs
  | send =>
      simp only [threadStep] at hs
      split at hs
      · rename_i hstage
        split at hs
        · split at hs
          · cases hs
            exact hmoves rfl (by simp [RequestStage.left, hstage])
          · cases hs
        · cases hs
      · cases hs
  | receive | finish =>
      simp only [threadStep] at hs
      split at hs
      · rename_i hstage
        split at hs
        · cases hs
          exact hmoves rfl (by simp [RequestStage.left, hstage])
        · cases hs
      · cases hs
  -- the call returns, or stops its process first
  | conclude code =>
      simp only [threadStep] at hs
      split at hs
      · rename_i hstage
        split at hs
        · cases hs
          exact hmoves rfl (by simp [RequestStage.left, hstage])
        · split at hs
          · cases hs
            exact hmoves rfl (by simp [RequestStage.left, hstage])
          · cases hs
            exact hmoves rfl (by simp [RequestStage.left, hstage])
      · cases hs

/-- So has a timer. -/
theorem watchdogStep_left {a : WatchdogAct} (hs : watchdogStep W i r a = some W') :
    ∃ r', W'.requests = W.requests.set i r' ∧ r'.left < r.left := by
  cases a with
  | fire | flag =>
      simp only [watchdogStep] at hs
      split at hs
      · rename_i hstage
        cases hs
        exact ⟨_, rfl, by simp [WorkerRequest.left, Watchdog.left, hstage]⟩
      · cases hs
  | kill =>
      simp only [watchdogStep] at hs
      split at hs
      · rename_i hstage _
        cases hs
        exact ⟨_, rfl, by simp [WorkerRequest.left, Watchdog.left, hstage]⟩
      · cases hs

theorem Worker.left_lt_of_request {r' : WorkerRequest} (hr : W.requests[i]? = some r)
    (hreqs : W'.requests = W.requests.set i r') (hlt : r'.left < r.left) : W'.left < W.left := by
  have hsum := sum_map_set (f := WorkerRequest.left) (y := r') hr
  apply Prod.Lex.toLex_lt_toLex.mpr
  left
  show (W'.requests.map WorkerRequest.left).sum < (W.requests.map WorkerRequest.left).sum
  rw [hreqs]
  omega

/-- A process that moves has fewer lines to read, less to write, or less to lose. -/
theorem Process.step_left {a : ProcessAct} (hs : pr.step a = some pr') :
    pr'.left < pr.left ∨ pr'.left = pr.left ∧ pr'.todo.length < pr.todo.length := by
  cases a with
  | take answer =>
      simp only [step] at hs
      split at hs
      · rename_i hstdin
        cases hs
        exact Or.inl (by simp [Process.left, hstdin])
      · cases hs
  | write =>
      simp only [step] at hs
      split at hs
      · rename_i htodo
        cases hs
        exact Or.inr ⟨rfl, by simp [htodo]⟩
      · cases hs
  -- what a child holds is let go later, but there is less to do
  | die child =>
      simp only [step] at hs
      split at hs
      · rename_i halive
        cases hs
        have hchild := child.toNat_le
        left
        simp only [Process.left, halive, Bool.toNat_true, Bool.toNat_false]
        omega
      · cases hs
  | letGo =>
      simp only [step] at hs
      split at hs
      · rename_i hleft
        rw [Bool.and_eq_true] at hleft
        cases hs
        exact Or.inl (by simp [Process.left, hleft.2])
      · cases hs

theorem Worker.left_lt_of_process (hpr : W.processes[p]? = some pr) {a : ProcessAct}
    (hs : pr.step a = some pr') : (W.setProcess p pr').left < W.left := by
  have hlives := sum_map_set (f := Process.left) (y := pr') hpr
  have htodo := sum_map_set (f := fun pr : Process => pr.todo.length) (y := pr') hpr
  apply Prod.Lex.toLex_lt_toLex.mpr
  right
  refine ⟨rfl, ?_⟩
  apply Prod.Lex.toLex_lt_toLex.mpr
  show ((W.processes.set p pr').map Process.left).sum < (W.processes.map Process.left).sum ∨
    ((W.processes.set p pr').map Process.left).sum = (W.processes.map Process.left).sum ∧
      ((W.processes.set p pr').map fun pr => pr.todo.length).sum <
        (W.processes.map fun pr => pr.todo.length).sum
  rcases Process.step_left hs with hlt | ⟨hsame, hlt⟩
  · left
    omega
  · right
    omega

end Left

/-! ### Who moves next -/

/-- The steps of the calls there are, of their timers and of the processes. -/
def ExtensionWorkerAct.isCall : ExtensionWorkerAct → Bool
  | .request _ | .exit => false
  | .thread _ _ | .watchdog _ _ | .process _ _ => true

def Worker.Serves : Worker → Worker → Prop :=
  Fires extensionWorkerStep fun _ a => WorkerOk a ∧ a.isCall = true

/-- Killed by a watchdog, or by the `stop` of a call. -/
def Worker.Killed (W : Worker) (p : Nat) : Prop :=
  (∃ i, (i, p) ∈ W.kills) ∨
    ∃ (i : Nat) (r : WorkerRequest) (e : WorkerError), W.requests[i]? = some r ∧
      r.stage = .stopping (some p) e

/-- What is bound to come: the next step of a thread where nothing fails, the
error of a write to a pipe that nobody reads, the timers, the death of what has
been killed, and the end of a child it has left behind.  A process that lives
owes nobody anything. -/
def ExtensionWorkerAct.Due (W : Worker) : ExtensionWorkerAct → Prop
  | .thread i (.sendFails _) => ∃ r p pr, W.requests[i]? = some r ∧ r.process = some p ∧
      W.processes[p]? = some pr ∧ pr.connected = false
  | .thread _ (.spawnFails _) | .thread _ (.receiveFails _) => False
  | .thread _ _ | .watchdog _ _ => True
  | .process p (.die _) => W.Killed p
  | .process _ .letGo => True
  | .process _ _ | .request _ | .exit => False

def Worker.Proceeds : Worker → Worker → Prop := Fires extensionWorkerStep fun W a => a.Due W

section Progress

variable {W V : Worker} {i p : Nat} {r : WorkerRequest} {pr : Process}

theorem Worker.Proceeds.serves (h : W.Proceeds V) : W.Serves V := by
  obtain ⟨a, hdue, hs⟩ := h
  refine ⟨a, ?_, hs⟩
  cases a with
  | request | exit => exact hdue.elim
  | thread | watchdog => exact ⟨trivial, rfl⟩
  | process p a =>
      cases a with
      | take | write => exact hdue.elim
      | die | letGo => exact ⟨trivial, rfl⟩

theorem Worker.Serves.reaches (h : Reaches Worker.Serves W V) : WorkerReaches W V := by
  refine h.lift id ?_
  rintro U U' ⟨a, ⟨hok, -⟩, hs⟩
  exact ⟨a, hok, hs⟩

/-- The step of a thread that nothing keeps from it. -/
theorem Worker.proceeds_thread (hr : W.requests[i]? = some r) {a : ThreadAct}
    (hdue : ExtensionWorkerAct.Due W (.thread i a)) (hs : (threadStep W i r a).isSome = true) :
    ∃ V, W.Proceeds V := by
  obtain ⟨V, hV⟩ := Option.isSome_iff_exists.mp hs
  refine ⟨V, .thread i a, hdue, ?_⟩
  show (W.requests[i]?).bind (fun r => threadStep W i r a) = some V
  rw [hr]
  exact hV

theorem Worker.proceeds_watchdog (hr : W.requests[i]? = some r) {a : WatchdogAct}
    (hs : (watchdogStep W i r a).isSome = true) : ∃ V, W.Proceeds V := by
  obtain ⟨V, hV⟩ := Option.isSome_iff_exists.mp hs
  refine ⟨V, .watchdog i a, trivial, ?_⟩
  show (W.requests[i]?).bind (fun r => watchdogStep W i r a) = some V
  rw [hr]
  exact hV

/-- What has been killed dies. -/
theorem Worker.proceeds_die (hkilled : W.Killed p) (hpr : W.processes[p]? = some pr)
    (halive : pr.alive = true) : ∃ V, W.Proceeds V := by
  refine ⟨W.setProcess p { pr with
    alive := false
    held := false }, .process p (.die false), hkilled, ?_⟩
  show (W.processes[p]?).bind (fun pr => (pr.step (.die false)).map (W.setProcess p)) = some _
  rw [hpr]
  simp [Process.step, halive]

/-- What a dead process has left behind ends. -/
theorem Worker.proceeds_letGo (hpr : W.processes[p]? = some pr) (hdead : pr.alive = false)
    (hheld : pr.held = true) : ∃ V, W.Proceeds V := by
  refine ⟨W.setProcess p { pr with held := false }, .process p .letGo, trivial, ?_⟩
  show (W.processes[p]?).bind (fun pr => (pr.step .letGo).map (W.setProcess p)) = some _
  rw [hpr]
  simp [Process.step, hdead, hheld]

/-- A pipe that nobody holds can be read to its end. -/
theorem Process.readline_isSome (h : pr.connected = false) : pr.readline.isSome = true := by
  unfold Process.readline
  split
  · rfl
  · rw [h]
    rfl

/-- **A call that reads is not left alone with its process**: what it waits for
is there, or its timer runs, or its process has been killed, or a child of that
holds the pipe. -/
theorem WorkerInv.proceeds_sent (h : WorkerInv W) (hr : W.requests[i]? = some r)
    (hstage : r.stage = .sent p) : ∃ V, W.Proceeds V := by
  obtain ⟨-, hin⟩ := h.holds hr (by rw [Outside, hstage]; exact id)
  rw [Inside, hstage] at hin
  obtain ⟨hprocess, -, -, pr, hpr, -⟩ := hin
  rcases h.watched i r hr p (Or.inr hstage) with ht | ht | ht | hkill
  · exact Worker.proceeds_watchdog hr (a := .fire) (by simp [watchdogStep, ht])
  · exact Worker.proceeds_watchdog hr (a := .flag) (by simp [watchdogStep, ht])
  · exact Worker.proceeds_watchdog hr (a := .kill) (by simp [watchdogStep, ht, hprocess])
  · cases halive : pr.alive with
    | true => exact Worker.proceeds_die (Or.inl ⟨i, hkill⟩) hpr halive
    | false =>
        cases hheld : pr.held with
        | true => exact Worker.proceeds_letGo hpr halive hheld
        | false =>
            have hread : pr.readline.isSome = true :=
              Process.readline_isSome (by simp [Process.connected, halive, hheld])
            obtain ⟨⟨line, pr'⟩, hline⟩ := Option.isSome_iff_exists.mp hread
            refine Worker.proceeds_thread hr (a := .receive) trivial ?_
            simp [threadStep, hstage, hpr, hline]

/-- **Whoever holds the lock can go on.** -/
theorem WorkerInv.proceeds_inside (h : WorkerInv W) (hr : W.requests[i]? = some r)
    (hin : W.Inside i r) : ∃ V, W.Proceeds V := by
  rw [Inside] at hin
  cases hstage : r.stage with
  | waiting | returned =>
      rw [hstage] at hin
      exact hin.elim
  | entered =>
      cases hcurrent : W.current with
      | none =>
          refine Worker.proceeds_thread hr (a := .spawn) trivial ?_
          simp [threadStep, hstage, Worker.gone, hcurrent]
      | some p =>
          refine Worker.proceeds_thread hr (a := .reuse) trivial ?_
          simp [threadStep, hstage, hcurrent]
  | chosen p =>
      exact Worker.proceeds_thread hr (a := .arm) trivial (by simp [threadStep, hstage])
  | armed p =>
      rw [hstage] at hin
      obtain ⟨hprocess, -, -, pr, hpr, -⟩ := hin
      cases hopen : pr.connected with
      | true =>
          refine Worker.proceeds_thread hr (a := .send) trivial ?_
          simp [threadStep, hstage, hpr, hopen]
      | false =>
          exact Worker.proceeds_thread hr (a := .sendFails "") ⟨r, p, pr, hr, hprocess, hpr, hopen⟩
            (by simp [threadStep, hstage])
  | sent p => exact h.proceeds_sent hr hstage
  | received p line =>
      exact Worker.proceeds_thread hr (a := .cancelWatchdog) trivial (by simp [threadStep, hstage])
  | settled p line =>
      refine Worker.proceeds_thread hr (a := .conclude none) trivial ?_
      simp only [threadStep, hstage]
      split
      · rfl
      · split <;> rfl
  | failing e =>
      exact Worker.proceeds_thread hr (a := .stop) trivial (by simp [threadStep, hstage])
  | stopping q e =>
      -- `stop` waits for the process it has killed
      cases hgone : W.gone q with
      | true =>
          refine Worker.proceeds_thread hr (a := .finish) trivial ?_
          simp [threadStep, hstage, hgone]
      | false =>
          unfold Worker.gone at hgone
          split at hgone
          · rename_i pr hq
            obtain ⟨p, rfl, hpr⟩ := Option.bind_eq_some_iff.mp hq
            refine Worker.proceeds_die (Or.inr ⟨i, r, e, hr, hstage⟩) hpr ?_
            simpa using hgone
          · cases hgone

/-- **No deadlock**: while a call has not returned, something is due. -/
theorem WorkerInv.proceeds (h : WorkerInv W) (hr : W.requests[i]? = some r)
    (hopen : ∀ result, r.stage ≠ .returned result) : ∃ V, W.Proceeds V := by
  cases hholder : W.holder with
  | some j =>
      obtain ⟨r', hr', hin⟩ := h.inside j hholder
      exact h.proceeds_inside hr' hin
  | none =>
      have hout := h.outside i r hr (by rw [hholder]; simp)
      rw [Outside] at hout
      cases hstage : r.stage with
      | waiting =>
          refine Worker.proceeds_thread hr (a := .acquire) trivial ?_
          simp [threadStep, hstage, hholder]
      | returned result => exact absurd hstage (hopen result)
      | entered | chosen | armed | sent | received | settled | failing | stopping =>
          rw [hstage] at hout
          exact hout.elim

theorem Worker.Serves.left_lt (h : W.Serves V) : V.left < W.left := by
  obtain ⟨a, ⟨-, hcall⟩, hs⟩ := h
  cases a with
  | request | exit => cases hcall
  | thread i a =>
      obtain ⟨r, hr, hs⟩ := Option.bind_eq_some_iff.mp hs
      obtain ⟨r', hreqs, hlt⟩ := threadStep_left hs
      exact Worker.left_lt_of_request hr hreqs hlt
  | watchdog i a =>
      obtain ⟨r, hr, hs⟩ := Option.bind_eq_some_iff.mp hs
      obtain ⟨r', hreqs, hlt⟩ := watchdogStep_left hs
      exact Worker.left_lt_of_request hr hreqs hlt
  | process p a =>
      obtain ⟨pr, hpr, hs⟩ := Option.bind_eq_some_iff.mp hs
      obtain ⟨pr', hstep, rfl⟩ := Option.map_eq_some_iff.mp hs
      exact Worker.left_lt_of_process hpr hstep

theorem Worker.Serves.terminates (W : Worker) : Terminates Worker.Serves W :=
  terminates_of_wellFounded (I := fun _ => True) (m := Worker.left) (fun _ _ _ _ => trivial)
    (fun _ _ hstep _ => hstep.left_lt) trivial

/-- Every call has returned, nobody holds the lock, and the next call finds a
clean channel. -/
structure Worker.Settled (W : Worker) : Prop where
  returned : ∀ r ∈ W.requests, ∃ result, r.stage = .returned result
  unlocked : W.holder = none
  idle : W.Idle

theorem WorkerInv.settled (h : WorkerInv W) (hstuck : ∀ V, ¬ W.Proceeds V) : W.Settled := by
  have hreturned : ∀ r ∈ W.requests, ∃ result, r.stage = .returned result := by
    intro r hmem
    obtain ⟨i, hr⟩ := List.mem_iff_getElem?.mp hmem
    by_contra hopen
    obtain ⟨V, hV⟩ := h.proceeds hr fun result heq => hopen ⟨result, heq⟩
    exact hstuck V hV
  have hunlocked : W.holder = none := by
    cases hholder : W.holder with
    | none => rfl
    | some i =>
        obtain ⟨r, hr, hin⟩ := h.inside i hholder
        obtain ⟨V, hV⟩ := h.proceeds_inside hr hin
        exact absurd hV (hstuck V)
  exact ⟨hreturned, hunlocked, h.free hunlocked⟩

/-- **Every call returns**, whatever the process does, once no child that has
outlived a killed process holds its pipe: without new calls no run goes on for
ever, from any state a worker can be in, and a state in which nothing is due has
all calls returned, the lock free and the channel clean.  Such a state is
reached without any help from a process, which may answer, write half a line,
die or hang. -/
theorem calls_return (h : WorkerReaches .start W) :
    Terminates Worker.Serves W ∧
    (∀ V, Reaches Worker.Serves W V → (∀ U, ¬ V.Proceeds U) → V.Settled) ∧
    ∃ V, Reaches Worker.Proceeds W V ∧ V.Settled := by
  have hinv : ∀ V, Reaches Worker.Serves W V → WorkerInv V := fun V hrun =>
    WorkerInv.run (h.trans (Worker.Serves.reaches hrun))
  have hends : Terminates Worker.Proceeds W :=
    Subrelation.accessible (fun hstep => hstep.serves) (Worker.Serves.terminates W)
  refine ⟨Worker.Serves.terminates W, fun V hrun hstuck => (hinv V hrun).settled hstuck, ?_⟩
  apply hends.reaches_final
  intro V hrun
  have hserved : Reaches Worker.Serves W V := hrun.lift id fun _ _ hstep => hstep.serves
  by_cases hstuck : ∃ U, V.Proceeds U
  · exact Or.inr hstuck
  · exact Or.inl ((hinv V hserved).settled (not_exists.mp hstuck))

end Progress

/-! ### A process that hangs -/

/-- The process hangs in the middle of its answer, and a second call waits for
the lock. -/
def hang : List ExtensionWorkerAct :=
  [.request .null, .request (.bool true),
    .thread 0 .acquire, .thread 0 .spawn, .thread 0 .arm, .thread 0 .send,
    .process 0 (.take ['\x7b', '\x7d']), .process 0 .write]

theorem calls_return_hang : ∃ W V, WorkerReaches .start W ∧ W.requests.length = 2 ∧
    W.holder = some 0 ∧ Reaches Worker.Proceeds W V ∧ V.Settled := by
  have hcheck : ((runActs (guarded extensionWorkerStep fun _ => WorkerOk) hang .start).any
      fun W => W.requests.length = 2 ∧ W.holder = some 0) = true := by
    decide +kernel
  obtain ⟨W, hW, hcheck⟩ := (Option.any_eq_true _ _).mp hcheck
  rw [decide_eq_true_eq] at hcheck
  obtain ⟨hlength, hholder⟩ := hcheck
  have hrun : WorkerReaches .start W := reaches_of_guarded hW
  obtain ⟨-, -, V, hV, hsettled⟩ := calls_return hrun
  exact ⟨W, V, hrun, hlength, hholder, hV, hsettled⟩

end Formshift
