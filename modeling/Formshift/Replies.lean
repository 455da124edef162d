/-
Formshift/Replies.lean

What one reply promises of the next.

A client of the service has nothing but replies to go by, and between two of
them other clients and the jobs' own threads go on.  Main results: what was
uploaded is downloaded again (`upload_round_trip`); and a job once submitted is
found by every poll, its status never goes back, and its document changes no
more once the job has ended (`polls_follow`).
-/
import Formshift.Registers

namespace Formshift

open Py Steps

section Replies

variable {service : Service} {beh : Behaviour} {A B C D : App} {session job id : Str}
  {type : String} {n m : Nat} {j : JobState} {r : SessionRequest} {st : HandlerStage}
  {reply : SessionReply}

/-! ### Payloads -/

/-- Where a download stands that cannot miss. -/
inductive Fetches (service : Service) (p : Payload) : HandlerStage → Prop
  | arrived : Fetches service p .arrived
  | found : Fetches service p .found
  | gone : Fetches service p (.answered .sessionNotFound)
  | served {answer : SessionReply} (h : answer = App.served service p) :
      Fetches service p (.answered answer)

/-- **A payload that is there when a download comes in is what it gets.** -/
theorem download_run (hinv : AppInv service beh A) {p : Payload}
    (hp : (A.server.store.sessions session).session.payloads.lookup id = some p)
    (hx : A.handlers[m]? = some (.downloadPayload session id, .arrived))
    (hrun : AppReaches service beh A B)
    (hdone : B.handlers[m]? = some (.downloadPayload session id, .answered reply)) :
    reply = .sessionNotFound ∨ reply = App.served service p := by
  have hfetch : ∃ st, B.handlers[m]? = some (.downloadPayload session id, st) ∧
      (B.server.store.sessions session).session.payloads.lookup id = some p ∧ Fetches service p st := by
    refine hinv.handler_run
      (I := fun D st =>
        (D.server.store.sessions session).session.payloads.lookup id = some p ∧ Fetches service p st)
      (fun D E t hext hD => ⟨hext.grown session id p hD.1, hD.2⟩) ?_ hrun hx ⟨hp, .arrived⟩
    rintro D E a t t' - hext hmove ⟨hp, ht⟩
    refine ⟨hext.grown session id p hp, ?_⟩
    cases ht with
    -- the session is there or not
    | arrived =>
        cases hmove with
        | miss => exact .gone
        | found => exact .found
        | seek hr => rcases hr with hr | hr <;> cases hr
    -- the payload still is
    | found =>
        cases hmove with
        | miss => exact .gone
        | download hp' hheader =>
            obtain rfl := Option.some.inj (hp.symm.trans hp')
            exact .served (App.served_of_true service hheader).symm
        | unsent hp' hheader =>
            obtain rfl := Option.some.inj (hp.symm.trans hp')
            exact .served (App.served_of_false service hheader).symm
        | noPayload hnone =>
            rw [hnone] at hp
            cases hp
    | gone | served => exact hmove.not_answered.elim
  obtain ⟨st, hst, -, hfetch⟩ := hfetch
  obtain rfl := (Prod.mk.inj (Option.some.inj (hst.symm.trans hdone))).2
  cases hfetch with
  | gone => exact Or.inl rfl
  | served h => exact Or.inr h

/-- An upload is under way with these bytes, or they are in the session. -/
def Uploads (session : Str) (type : String) (content : Bytes) (A : App) : HandlerStage → Prop
  | .working i => ∃ p, A.server.members[i]? = some (.upload session type content, p)
  | .answered (.payload id type') => type' = type ∧
    (A.server.store.sessions session).session.payloads.lookup id = some ⟨id, type, content⟩
  | .answered _ => True
  | _ => False

theorem Uploads.mono {content : Bytes} (hext : A.Extends B)
    (h : Uploads session type content A st) : Uploads session type content B st := by
  cases st with
  | working i =>
      obtain ⟨p, hp⟩ := h
      exact hext.uploads i session type content p hp
  | answered reply =>
      cases reply with
      | payload id type' => exact ⟨h.1, hext.grown session id _ h.2⟩
      | created | noContent | download | submitted | document | stream | error => trivial
  | arrived | stored | found | held | inserted | started | cancelling | dropped | popped
  | stopping | marking => exact h

/-- What `add_payload` leaves in the session. -/
theorem lookup_of_store {P : Server} {i : Nat} {content : Bytes} {p : PartyState}
    (hacts : A.Acts service i (.store id) P)
    (hi : A.server.members[i]? = some (.upload session type content, p)) :
    (P.store.sessions session).session.payloads.lookup id = some ⟨id, type, content⟩ := by
  rcases poolStep_cases hacts with ⟨m, heq, -⟩ | ⟨k, b, m, s, x, heq, hk, hx, rfl⟩
  · cases heq
  · obtain ⟨rfl, rfl⟩ := PoolAct.act.inj heq
    obtain ⟨rfl, rfl⟩ := Prod.mk.inj (Option.some.inj (hi.symm.trans hk))
    cases p with
    | uploading =>
        obtain rfl := Option.some.inj hx
        simp only [ServerStore.put, Function.update_self]
        show ((A.server.store.sessions session).session.payloads.insert id _).lookup id = _
        rw [Dict.lookup_insert_ite, if_pos rfl]
    | job | uploaded => cases hx

/-- **What was uploaded is downloaded again**: in every run, the id an upload is
answered with names its type and its bytes to every download that comes in
later, as long as the session lasts; only a type that no header can carry keeps the
answer from being sent. -/
theorem upload_round_trip {content : Bytes} (hrun : AppReaches service beh App.empty A)
    (hx : A.handlers[n]? = some (.uploadPayload session type, .found))
    (hdata : appStep service A (.handler n (.data content)) = some B)
    (hBC : AppReaches service beh B C) {type' : Str}
    (hup : C.handlers[n]? = some (.uploadPayload session type, .answered (.payload id type')))
    (hdown : C.handlers[m]? = some (.downloadPayload session id, .arrived))
    (hCD : AppReaches service beh C D)
    (hdone : D.handlers[m]? = some (.downloadPayload session id, .answered reply)) :
    type' = type ∧ (reply = .sessionNotFound ∨ reply = App.served service ⟨id, type, content⟩) := by
  obtain ⟨-, hB⟩ := (app_inv hrun).step (a := .handler n (.data content)) trivial hdata
  have huploads : ∃ st, C.handlers[n]? = some (.uploadPayload session type, st) ∧
      Uploads session type content C st := by
    -- the body has been read
    obtain ⟨E, st, hmove, heq, hst⟩ := appStep_own hdata hx
    have hread : Uploads session type content B st := by
      rw [heq]
      cases hmove with
      | miss | rejectData => trivial
      | upload => exact ⟨.uploading, List.getElem?_concat_length⟩
    refine hB.handler_run (fun _ _ _ hext h => h.mono hext) ?_ hBC hst hread
    rintro D E a t t' - - hmove h
    cases hmove with
    | miss _ hst' => trivial
    | rejectData => trivial
    | found | upload => exact h.elim
    | seek hr | noJob hr => rcases hr with hr | hr <;> cases hr
    | store hacts =>
        obtain ⟨p, hp⟩ := h
        exact ⟨rfl, lookup_of_store hacts hp⟩
  obtain ⟨st, hst, hstored⟩ := huploads
  obtain rfl := (Prod.mk.inj (Option.some.inj (hst.symm.trans hup))).2
  exact ⟨hstored.1, download_run (hB.run hBC).2 hstored.2 hdown hCD hdone⟩

/-! ### Jobs -/

/-- The reply to a request about the job shows it in state `j`. -/
inductive Shows (session job : Str) (j : JobState) : SessionRequest → SessionReply → Prop
  | submitted : Shows session job j (.submitJob session) (.submitted job j.status)
  | document : Shows session job j (.getJob session job) (.document (j.toJson job))

/-- The reply is about the job. -/
def About (session job : Str) : SessionRequest → SessionReply → Prop
  | .submitJob session', .submitted job' _ => session' = session ∧ job' = job
  | .getJob session' job', .document _ => session' = session ∧ job' = job
  | _, _ => False

/-- A reply shows the job as it was. -/
theorem AppInv.shows (h : AppInv service beh A)
    (hx : A.handlers[n]? = some (r, .answered reply)) (habout : About session job r reply) :
    ∃ j, Shows session job j r reply ∧ A.Was session job j := by
  have hrefers := h.handlers _ (List.mem_of_getElem? hx)
  cases r with
  | submitJob =>
      cases reply with
      | submitted job' status =>
          obtain ⟨rfl, rfl⟩ := habout
          obtain ⟨j, hwas, rfl⟩ := hrefers
          exact ⟨j, .submitted, hwas⟩
      | created | noContent | payload | download | document | stream | error => exact habout.elim
  | getJob =>
      cases reply with
      | document fields =>
          obtain ⟨rfl, rfl⟩ := habout
          obtain ⟨j, hwas, rfl⟩ := hrefers
          exact ⟨j, .document, hwas⟩
      | created | noContent | payload | download | submitted | stream | error =>
          exact habout.elim
  | createSession | deleteSession | uploadPayload | downloadPayload | cancelJob | events =>
      exact habout.elim

/-- The job that was there is the one that is found. -/
theorem AppInv.found_of_was (h : AppInv service beh A) (hwas : A.Was session job j) :
    ∃ i req j', A.find session job = some i ∧ A.server.jobAt i = some (req, j') ∧
      j.Precedes j' := by
  obtain ⟨i, hi, req, j', hjob, htoken, hpre⟩ := hwas
  have hfound : ∃ k, A.find session job = some k := by
    refine Option.isSome_iff_exists.mp (List.find?_isSome.mpr ⟨i, hi, ?_⟩)
    simp [hjob, htoken]
  obtain ⟨k, hk⟩ := hfound
  obtain ⟨-, req', j'', hjob', htoken'⟩ := App.find_eq_some hk
  obtain rfl := h.distinct.place_eq hjob hjob' (htoken.trans htoken'.symm)
  exact ⟨i, req, j', hk, hjob, hpre⟩

/-- Where a poll stands for a job that has been in state `j`. -/
inductive Polls (job : Str) (j : JobState) : HandlerStage → Prop
  | arrived : Polls job j .arrived
  | held : Polls job j .held
  | gone : Polls job j (.answered .sessionNotFound)
  | told {j' : JobState} (hpre : j.Precedes j') :
      Polls job j (.answered (.ofDocument (j'.toJson job)))

/-- **A poll finds the job that was there**, at least as far as it had come. -/
theorem poll_run (hinv : AppInv service beh A) (hwas : A.Was session job j)
    (hx : A.handlers[m]? = some (.getJob session job, .arrived))
    (hrun : AppReaches service beh A B)
    (hdone : B.handlers[m]? = some (.getJob session job, .answered reply)) :
    reply = .sessionNotFound ∨ ∃ j', reply = .ofDocument (j'.toJson job) ∧ j.Precedes j' := by
  have hpoll : ∃ st, B.handlers[m]? = some (.getJob session job, st) ∧ B.Was session job j ∧
      Polls job j st := by
    refine hinv.handler_run (I := fun D st => D.Was session job j ∧ Polls job j st)
      (fun D E t hext hD => ⟨hD.1.mono hext, hD.2⟩) ?_ hrun hx ⟨hwas, .arrived⟩
    rintro D E a t t' hD hext hmove ⟨hwas, ht⟩
    refine ⟨hwas.mono hext, ?_⟩
    -- the job is found, as it is by now
    obtain ⟨i, req, j', hfind, hjob, hpre⟩ := hD.found_of_was hwas
    cases ht with
    | arrived =>
        cases hmove with
        | miss => exact .gone
        | seek => exact .held
        | found hreads => cases hreads
    | held =>
        cases hmove with
        | miss _ hst => rcases hst with hst | hst <;> cases hst
        | document hfind' hjob' htext =>
            obtain rfl := Option.some.inj (hfind.symm.trans hfind')
            obtain ⟨-, rfl⟩ := Prod.mk.inj (Option.some.inj (hjob.symm.trans hjob'))
            rw [← SessionReply.ofDocument_of_true htext]
            exact .told hpre
        | unencoded hfind' hjob' htext =>
            obtain rfl := Option.some.inj (hfind.symm.trans hfind')
            obtain ⟨-, rfl⟩ := Prod.mk.inj (Option.some.inj (hjob.symm.trans hjob'))
            rw [← SessionReply.ofDocument_of_false htext]
            exact .told hpre
        -- it cannot be missed
        | noJob hr hnone =>
            rcases hr with hr | hr
            · obtain ⟨rfl, rfl⟩ := SessionRequest.getJob.inj hr
              rw [hnone] at hfind
              cases hfind
            · cases hr
    | gone | told => exact hmove.not_answered.elim
  obtain ⟨st, hst, -, hpoll⟩ := hpoll
  obtain rfl := (Prod.mk.inj (Option.some.inj (hst.symm.trans hdone))).2
  cases hpoll with
  | gone => exact Or.inl rfl
  | told hpre => exact Or.inr ⟨_, rfl, hpre⟩

/-- **Polls follow one another**: in every run, a poll of a job that comes in
after the job has been submitted, or polled, finds it as long as the session
lasts, and is answered with its document, or an error if that cannot be encoded;
the status in it is no earlier one, and once the job has ended all documents are
the same. -/
theorem polls_follow (hrun : AppReaches service beh App.empty A)
    (hfirst : A.handlers[n]? = some (r, .answered reply)) (habout : About session job r reply)
    (hx : A.handlers[m]? = some (.getJob session job, .arrived))
    (hlater : AppReaches service beh A B) {reply' : SessionReply}
    (hdone : B.handlers[m]? = some (.getJob session job, .answered reply')) :
    ∃ j, Shows session job j r reply ∧ (reply' = .sessionNotFound ∨
      ∃ j' : JobState, reply' = .ofDocument (j'.toJson job) ∧ j.status.rank ≤ j'.status.rank ∧
        (j.status.isTerminal = true → j'.toJson job = j.toJson job)) := by
  have hinv := app_inv hrun
  obtain ⟨j, hshows, hwas⟩ := hinv.shows hfirst habout
  refine ⟨j, hshows, ?_⟩
  rcases poll_run hinv hwas hx hlater hdone with hgone | ⟨j', rfl, hpre⟩
  · exact Or.inl hgone
  · exact Or.inr ⟨j', rfl, hpre.rank, fun hterminal => hpre.toJson_eq hterminal job⟩

end Replies

/-! ### An upload and a job -/

theorem upload_round_trip_sample : ∃ A B C D : App,
    AppReaches sampleService anyBehaviour App.empty A ∧
      appStep sampleService A (.handler 1 (.data [104, 105])) = some B ∧
        C.handlers[1]? = some (.uploadPayload "s" "text", .answered (.payload "p" "text")) ∧
          ∃ reply, D.handlers[2]? = some (.downloadPayload "s" "p", .answered reply) ∧
            (reply = .sessionNotFound ∨ reply = .download ⟨"p", "text", [104, 105]⟩) := by
  have hrun : ∃ A, runActs (guarded (appStep sampleService) (AppOk sampleService anyBehaviour))
      [.request (.uploadPayload "s" "text"), .handler 1 .go] openedApp = some A ∧
        A.handlers[1]? = some (.uploadPayload "s" "text", .found) ∧
      ∃ B, appStep sampleService A (.handler 1 (.data [104, 105])) = some B ∧
      ∃ C, runActs (guarded (appStep sampleService) (AppOk sampleService anyBehaviour))
        [.handler 1 (.store "p"), .request (.downloadPayload "s" "p")] B = some C ∧
        C.handlers[1]? = some (.uploadPayload "s" "text", .answered (.payload "p" "text")) ∧
        C.handlers[2]? = some (.downloadPayload "s" "p", .arrived) ∧
      ∃ D, runActs (guarded (appStep sampleService) (AppOk sampleService anyBehaviour))
        [.handler 2 .go, .handler 2 .go] C = some D ∧
        ∃ reply, D.handlers[2]? = some (.downloadPayload "s" "p", .answered reply) :=
    ⟨_, rfl, rfl, _, rfl, _, rfl, rfl, rfl, _, rfl, _, rfl⟩
  obtain ⟨A, hA, hx, B, hB, C, hC, hup, hdown, D, hD, reply, hdone⟩ := hrun
  have hrunA := reaches_openedApp.trans (reaches_of_guarded hA)
  refine ⟨A, B, C, D, hrunA, hB, hup, reply, hdone, ?_⟩
  exact (upload_round_trip hrunA hx hB (reaches_of_guarded hC) hup hdown (reaches_of_guarded hD)
    hdone).2

theorem polls_follow_split : ∃ A B : App, AppReaches sampleService anyBehaviour App.empty A ∧
    A.handlers[1]? = some (.submitJob "s", .answered (.submitted "job" .pending)) ∧
      ∃ reply, B.handlers[2]? = some (.getJob "s" "job", .answered reply) ∧
        (reply = .sessionNotFound ∨
          ∃ j : JobState, reply = .ofDocument (j.toJson "job")) := by
  have hrun : ∃ A, runActs (guarded (appStep sampleService) (AppOk sampleService anyBehaviour))
      ([.request (.submitJob "s"), .handler 1 .go, .handler 1 .go,
        .handler 1 (.body (some splitBody) "job"), .handler 1 .go, .handler 1 .go, .handler 1 .go,
        .request (.getJob "s" "job")]) openedApp = some A ∧
        A.handlers[1]? = some (.submitJob "s", .answered (.submitted "job" .pending)) ∧
        A.handlers[2]? = some (.getJob "s" "job", .arrived) ∧
      ∃ B, runActs (guarded (appStep sampleService) (AppOk sampleService anyBehaviour))
        [.thread 0 .advance, .handler 2 .go, .handler 2 .go] A = some B ∧
        ∃ reply, B.handlers[2]? = some (.getJob "s" "job", .answered reply) :=
    ⟨_, rfl, rfl, rfl, _, rfl, _, rfl⟩
  obtain ⟨A, hA, hfirst, hx, B, hB, reply, hdone⟩ := hrun
  have hrunA := reaches_openedApp.trans (reaches_of_guarded hA)
  have habout : About "s" "job" (.submitJob "s") (.submitted "job" .pending) := ⟨rfl, rfl⟩
  obtain ⟨j, -, hreply⟩ := polls_follow hrunA hfirst habout hx (reaches_of_guarded hB) hdone
  exact ⟨A, B, hrunA, hfirst, reply, hdone, hreply.imp_right fun ⟨j', hj', _⟩ => ⟨j', hj'⟩⟩

end Formshift
