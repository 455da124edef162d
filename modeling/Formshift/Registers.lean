/-
Formshift/Registers.lean

The store of sessions and the dict of managers (`SessionStore`, `sessions.py`;
`create_app`, `app.py`).

Two registers keep a session, and a creation and a deletion each write them one
after the other while other requests read them.  `Registered` is what holds of
the two at any moment.  Main results: from the answer to its creation to the
first deletion a session is served (`served_until_deleted`); one deletion is
answered with 204, and from then on nothing is served (`gone_after_deletion`).
-/
import Formshift.SessionRuns

namespace Formshift

open Py Steps

/-! ### Sessions and managers -/

/-- A deletion has taken the session out of the store. -/
def App.Deleting (A : App) (session : Str) : Prop :=
  ∃ x ∈ A.handlers, x.1 = .deleteSession session ∧ x.2.isDeleting = true

/-- It has taken the manager out of the dict. -/
def App.Popped (A : App) (session : Str) : Prop :=
  ∃ x ∈ A.handlers, x.1 = .deleteSession session ∧ x.2.hasPopped = true

/-- A submission has the manager, or has used it. -/
def App.Holding (A : App) (session : Str) : Prop :=
  (∃ x ∈ A.handlers, x.1 = .submitJob session ∧ x.2.isHolding = true) ∨ A.jobs session ≠ []

/-- The id has been drawn for a session. -/
def App.Drawn (A : App) (session : Str) : Prop :=
  ∃ x ∈ A.handlers, x.2.drawn = some session

/-- A session is deleted once, and has no job without a manager that is in the
dict or was taken out of it. -/
structure Registered (A : App) : Prop where
  stored : ∀ session ∈ A.sessions, A.Drawn session
  deleting : ∀ session, A.Deleting session → A.Drawn session
  apart : ∀ session ∈ A.sessions, ¬ A.Deleting session
  once : ∀ (n m : Nat) (session : Str) (st st' : HandlerStage),
    A.handlers[n]? = some (.deleteSession session, st) →
    A.handlers[m]? = some (.deleteSession session, st') → st.isDeleting = true →
      st'.isDeleting = true → n = m
  managed : ∀ session, A.Holding session → session ∈ A.managers ∨ A.Popped session

/-- What a move of one handler does to the registers, at most. -/
structure HandlerKeeps (A A' : App) (r : SessionRequest) (st st' : HandlerStage) : Prop where
  stored : ∀ session ∈ A'.sessions, session ∈ A.sessions ∨
    st'.drawn = some session ∧ ¬ A.Deleting session
  managed : ∀ session ∈ A.managers, session ∈ A'.managers ∨
    r = .deleteSession session ∧ st'.hasPopped = true
  drawn : ∀ id, st.drawn = some id → st'.drawn = some id
  deleting : ∀ session, r = .deleteSession session → st'.isDeleting = true →
    st.isDeleting = true ∨ session ∈ A.sessions ∧ session ∉ A'.sessions
  popped : ∀ session, r = .deleteSession session → st.hasPopped = true → st'.hasPopped = true
  holding : ∀ session, r = .submitJob session → st'.isHolding = true → st.isHolding = true ∨
    session ∈ A.managers
  jobs : ∀ session, A'.jobs session ≠ [] → A.jobs session ≠ [] ∨
    r = .submitJob session ∧ st.isHolding = true

section Register

variable {service : Service} {beh : Behaviour} {A A' : App} {n : Nat} {r : SessionRequest}
  {st st' : HandlerStage}

/-- What some member of a list satisfies, once one member is replaced. -/
theorem exists_mem_set {α : Type} {l : List α} {n : Nat} {a b : α} (ha : l[n]? = some a)
    {p : α → Prop} (hp : p a → p b) (h : ∃ x ∈ l, p x) : ∃ x ∈ l.set n b, p x := by
  obtain ⟨x, hx, hpx⟩ := h
  obtain ⟨k, hk⟩ := List.mem_iff_getElem?.mp hx
  have hlt : n < l.length := (List.getElem?_eq_some_iff.mp ha).1
  by_cases hkn : n = k
  · subst hkn
    obtain rfl := Option.some.inj (ha.symm.trans hk)
    exact ⟨b, List.mem_of_getElem? (List.getElem?_set_self hlt), hp hpx⟩
  · exact ⟨x, List.mem_of_getElem? ((List.getElem?_set_ne hkn).trans hk), hpx⟩

/-- And the other way round. -/
theorem exists_mem_of_set {α : Type} {l : List α} {n : Nat} {b : α} {p : α → Prop}
    (h : ∃ x ∈ l.set n b, p x) : (∃ x ∈ l, p x) ∨ p b := by
  obtain ⟨x, hx, hpx⟩ := h
  rcases List.mem_or_eq_of_mem_set hx with hx | rfl
  · exact Or.inl ⟨x, hx, hpx⟩
  · exact Or.inr hpx

/-- A move of one handler keeps the registers in order. -/
theorem Registered.handler (h : Registered A) (hx : A.handlers[n]? = some (r, st))
    (hhandlers : A'.handlers = A.handlers.set n (r, st')) (hkeeps : HandlerKeeps A A' r st st') :
    Registered A' := by
  have hmem : (r, st) ∈ A.handlers := List.mem_of_getElem? hx
  have hdrawn : ∀ session, A.Drawn session → A'.Drawn session := by
    intro session hold
    unfold App.Drawn
    rw [hhandlers]
    exact exists_mem_set hx (p := fun x => x.2.drawn = some session) (hkeeps.drawn session) hold
  have hpopped : ∀ session, A.Popped session → A'.Popped session := by
    intro session hold
    unfold App.Popped
    rw [hhandlers]
    exact exists_mem_set hx (p := fun x => x.1 = .deleteSession session ∧ x.2.hasPopped = true)
      (fun hp => ⟨hp.1, hkeeps.popped session hp.1 hp.2⟩) hold
  -- whoever is deleting now was before, or has just taken the session out
  have hdeleting : ∀ k session t, A'.handlers[k]? = some (.deleteSession session, t) →
      t.isDeleting = true →
      (∃ t', A.handlers[k]? = some (.deleteSession session, t') ∧ t'.isDeleting = true) ∨
        k = n ∧ session ∈ A.sessions ∧ session ∉ A'.sessions := by
    intro k session t hk ht
    rw [hhandlers] at hk
    rcases getElem?_set_some hk with ⟨rfl, heq⟩ | ⟨-, hk⟩
    · obtain ⟨hr, rfl⟩ := Prod.mk.inj heq
      rcases hkeeps.deleting session hr.symm ht with hold | hnew
      · exact Or.inl ⟨st, by rw [hr]; exact hx, hold⟩
      · exact Or.inr ⟨rfl, hnew⟩
    · exact Or.inl ⟨t, hk, ht⟩
  have hdeleting' : ∀ session, A'.Deleting session →
      A.Deleting session ∨ session ∈ A.sessions ∧ session ∉ A'.sessions := by
    rintro session ⟨⟨_, t⟩, ht, rfl, hdel⟩
    obtain ⟨k, hk⟩ := List.mem_iff_getElem?.mp ht
    rcases hdeleting k session t hk hdel with ⟨t', hk', hdel'⟩ | ⟨-, hnew⟩
    · exact Or.inl ⟨_, List.mem_of_getElem? hk', rfl, hdel'⟩
    · exact Or.inr hnew
  refine ⟨fun session hs => ?_, fun session hd => ?_, fun session hs hd => ?_, ?_,
    fun session hold => ?_⟩
  · rcases hkeeps.stored session hs with hold | ⟨hnew, -⟩
    · exact hdrawn session (h.stored session hold)
    · refine ⟨(r, st'), ?_, hnew⟩
      rw [hhandlers]
      exact List.mem_of_getElem? (List.getElem?_set_self (List.getElem?_eq_some_iff.mp hx).1)
  · apply hdrawn
    rcases hdeleting' session hd with hold | ⟨hs, -⟩
    · exact h.deleting session hold
    · exact h.stored session hs
  · rcases hdeleting' session hd with hold | ⟨-, hout⟩
    · rcases hkeeps.stored session hs with hold' | ⟨-, hnone⟩
      · exact h.apart session hold' hold
      · exact hnone hold
    · exact hout hs
  · intro k m session t t' hk hm ht ht'
    rcases hdeleting k session t hk ht with ⟨u, hk', hu⟩ | ⟨rfl, hin, -⟩
    · rcases hdeleting m session t' hm ht' with ⟨u', hm', hu'⟩ | ⟨-, hin, -⟩
      · exact h.once k m session u u' hk' hm' hu hu'
      · exact (h.apart session hin ⟨_, List.mem_of_getElem? hk', rfl, hu⟩).elim
    · rcases hdeleting m session t' hm ht' with ⟨u', hm', hu'⟩ | ⟨rfl, -, -⟩
      · exact (h.apart session hin ⟨_, List.mem_of_getElem? hm', rfl, hu'⟩).elim
      · rfl
  · have hheld : A.Holding session ∨ session ∈ A.managers := by
      rcases hold with hold | hjobs
      · rw [hhandlers] at hold
        rcases exists_mem_of_set hold with hold | ⟨hr, hnew⟩
        · exact Or.inl (Or.inl hold)
        · rcases hkeeps.holding session hr hnew with hst | hin
          · exact Or.inl (Or.inl ⟨(r, st), hmem, hr, hst⟩)
          · exact Or.inr hin
      · rcases hkeeps.jobs session hjobs with hjobs | ⟨hr, hst⟩
        · exact Or.inl (Or.inr hjobs)
        · exact Or.inl (Or.inl ⟨(r, st), hmem, hr, hst⟩)
    have hin : session ∈ A.managers ∨ A.Popped session := hheld.elim (h.managed session) Or.inl
    rcases hin with hin | hout
    · rcases hkeeps.managed session hin with hin | ⟨hr, hout⟩
      · exact Or.inl hin
      · refine Or.inr ⟨(r, st'), ?_, hr, hout⟩
        rw [hhandlers]
        exact List.mem_of_getElem? (List.getElem?_set_self (List.getElem?_eq_some_iff.mp hx).1)
    · exact Or.inr (hpopped session hout)

/-- A move that leaves store, dict and tables alone. -/
theorem HandlerKeeps.of_same (hsessions : A'.sessions = A.sessions)
    (hmanagers : A'.managers = A.managers) (hjobs : A'.jobs = A.jobs)
    (hdrawn : st.drawn = none)
    (hdeleting : ∀ session, r = .deleteSession session → st'.isDeleting = true →
      st.isDeleting = true)
    (hpopped : ∀ session, r = .deleteSession session → st.hasPopped = true →
      st'.hasPopped = true)
    (hholding : ∀ session, r = .submitJob session → st'.isHolding = true →
      st.isHolding = true ∨ session ∈ A.managers) : HandlerKeeps A A' r st st' := by
  refine ⟨fun session hs => Or.inl (hsessions ▸ hs), fun session hs => Or.inl (hmanagers ▸ hs),
    fun id hid => ?_, fun session hr ht => Or.inl (hdeleting session hr ht), hpopped, hholding,
    fun session hs => Or.inl (hjobs ▸ hs)⟩
  rw [hdrawn] at hid
  cases hid

/-- **Every move of a handler keeps the registers in order.** -/
theorem HandlerMove.keeps (h : Registered A) {a : HandlerAct}
    (hok : AppOk service beh A (.handler n a)) (hm : HandlerMove service A r st a A' st') :
    HandlerKeeps A A' r st st' := by
  cases hm with
  | miss _ hst =>
      rcases hst with rfl | rfl <;>
      exact .of_same rfl rfl rfl rfl
        (by simp [HandlerStage.isDeleting, SessionReply.sessionNotFound])
        (by simp [HandlerStage.hasPopped]) (by simp [HandlerStage.isHolding])
  | found =>
      exact .of_same rfl rfl rfl rfl (by simp [HandlerStage.isDeleting])
        (by simp [HandlerStage.hasPopped]) (by simp [HandlerStage.isHolding])
  | @hold session _ hmem =>
      refine .of_same rfl rfl rfl rfl (by simp) (by simp) fun other hr _ => Or.inr ?_
      obtain rfl := SessionRequest.submitJob.inj hr
      exact hmem
  | seek hr | noJob hr =>
      rcases hr with rfl | rfl <;> exact .of_same rfl rfl rfl rfl (by simp) (by simp) (by simp)
  | rejectBody =>
      exact .of_same rfl rfl rfl rfl (by simp) (by simp) (by simp [HandlerStage.isHolding])
  | stream | rejectData | download | unsent | noPayload | document | unencoded | aim =>
      exact .of_same rfl rfl rfl rfl (by simp) (by simp) (by simp)
  | submitted => exact .of_same rfl rfl rfl rfl (by simp) (by simp) fun _ _ _ => Or.inl rfl
  -- a new id has not been drawn, so nobody deletes it
  | @create id =>
      refine ⟨fun session hs => ?_, fun session => Or.inl, by simp [HandlerStage.drawn], by simp,
        by simp, by simp, fun session => Or.inl⟩
      rcases Finset.mem_insert.mp hs with rfl | hs
      · refine Or.inr ⟨rfl, fun hd => ?_⟩
        obtain ⟨x, hx, hdrawn⟩ := h.deleting session hd
        exact hok x hx hdrawn
      · exact Or.inl hs
  | manage =>
      exact ⟨fun session => Or.inl, fun session hs => Or.inl (Finset.mem_insert_of_mem hs),
        fun id hid => hid, by simp, by simp, by simp, fun session => Or.inl⟩
  -- one deletion gets it out of the store
  | @drop session hmem =>
      refine ⟨fun other hs => Or.inl (Finset.mem_of_mem_erase hs), fun other => Or.inl,
        by simp [HandlerStage.drawn], ?_, by simp [HandlerStage.hasPopped], by simp,
        fun other => Or.inl⟩
      rintro other heq -
      obtain rfl := SessionRequest.deleteSession.inj heq
      exact Or.inr ⟨hmem, Finset.notMem_erase _ _⟩
  | @pop session hmem =>
      refine ⟨fun other => Or.inl, fun other hs => ?_, by simp [HandlerStage.drawn],
        fun other _ _ => Or.inl rfl, fun other _ _ => rfl, by simp, fun other => Or.inl⟩
      by_cases hother : other = session
      · exact Or.inr ⟨by rw [hother], rfl⟩
      · exact Or.inl (Finset.mem_erase.mpr ⟨hother, hs⟩)
  | unmanaged | snapshot | stopped | skip | see | mark =>
      exact .of_same rfl rfl rfl rfl (fun _ _ _ => rfl) (fun _ _ _ => rfl) (by simp)
  | upload | store | cancel => exact .of_same rfl rfl rfl rfl (by simp) (by simp) (by simp)
  | submit | refuse | start =>
      exact .of_same rfl rfl rfl rfl (by simp) (by simp) fun _ _ _ => Or.inl rfl
  -- the table has a job from now on, and its handler holds it
  | @insert session i P req j hacts hjob hst =>
      refine ⟨fun other => Or.inl, fun other => Or.inl, by simp [HandlerStage.drawn], by simp,
        by simp, fun _ _ _ => Or.inl rfl, fun other hs => ?_⟩
      obtain ⟨k, hk⟩ := List.exists_mem_of_ne_nil _ hs
      rcases App.mem_jobs_insertJob.mp hk with hk | ⟨rfl, -⟩
      · exact Or.inl (List.ne_nil_of_mem hk)
      · exact Or.inr ⟨rfl, rfl⟩

/-- A deletion that finds no manager finds no job either. -/
theorem Registered.no_jobs (h : Registered A) {session : Str}
    (hx : A.handlers[n]? = some (.deleteSession session, .dropped))
    (hmem : session ∉ A.managers) : A.jobs session = [] := by
  by_contra hjobs
  rcases h.managed session (Or.inr hjobs) with hin | ⟨⟨_, st⟩, hst, rfl, hpopped⟩
  · exact hmem hin
  · obtain ⟨m, hm⟩ := List.mem_iff_getElem?.mp hst
    have hdeleting : st.isDeleting = true := by
      cases st with
      | popped | stopping | marking => rfl
      | answered reply =>
          cases reply with
          | noContent => rfl
          | created | payload | download | submitted | document | stream | error => cases hpopped
      | arrived | stored | found | held | working | inserted | started | cancelling | dropped =>
          cases hpopped
    -- there is one deletion, and it has not popped yet
    have hsame := h.once n m session .dropped st hx hm rfl hdeleting
    rw [← hsame, hx] at hm
    obtain rfl := (Prod.mk.inj (Option.some.inj hm)).2
    cases hpopped

end Register

/-! ### Runs of the registers -/

section Runs

variable {service : Service} {beh : Behaviour} {A A' B : App} {session : Str} {n : Nat}
  {r : SessionRequest} {st st' : HandlerStage}

/-- A new request is nothing to the registers. -/
theorem exists_mem_request {p : SessionRequest × HandlerStage → Prop} (hp : ¬ p (r, .arrived))
    (h : ∃ x ∈ A.handlers ++ [(r, .arrived)], p x) : ∃ x ∈ A.handlers, p x := by
  obtain ⟨x, hx, hpx⟩ := h
  rcases List.mem_append.mp hx with hx | hx
  · exact ⟨x, hx, hpx⟩
  · rw [List.mem_singleton.mp hx] at hpx
    exact absurd hpx hp

theorem getElem?_request {k : Nat} {x : SessionRequest × HandlerStage}
    (hk : (A.handlers ++ [(r, .arrived)])[k]? = some x) (hx : x.2 ≠ .arrived) :
    A.handlers[k]? = some x := by
  rcases Nat.lt_or_ge k A.handlers.length with hlt | hge
  · rwa [List.getElem?_append_left hlt] at hk
  · rw [List.getElem?_append_right hge, List.getElem?_singleton] at hk
    split at hk
    · obtain rfl := Option.some.inj hk
      exact absurd rfl hx
    · cases hk

theorem Registered.request (h : Registered A) (r : SessionRequest) :
    Registered { A with handlers := A.handlers ++ [(r, .arrived)] } := by
  have hgrow : ∀ {p : SessionRequest × HandlerStage → Prop}, (∃ x ∈ A.handlers, p x) →
      ∃ x ∈ A.handlers ++ [(r, .arrived)], p x :=
    fun ⟨x, hx, hp⟩ => ⟨x, List.mem_append_left _ hx, hp⟩
  have hdeleting : ∀ session, App.Deleting { A with handlers := A.handlers ++ [(r, .arrived)] }
      session → A.Deleting session :=
    fun session => exists_mem_request (by simp [HandlerStage.isDeleting])
  refine ⟨fun session hs => hgrow (h.stored session hs),
    fun session hd => hgrow (h.deleting session (hdeleting session hd)),
    fun session hs hd => h.apart session hs (hdeleting session hd), ?_, fun session hold => ?_⟩
  · intro k m session t t' hk hm ht ht'
    have hk' := getElem?_request hk (by rintro rfl; cases ht)
    have hm' := getElem?_request hm (by rintro rfl; cases ht')
    exact h.once k m session t t' hk' hm' ht ht'
  · have hheld : A.Holding session :=
      hold.imp_left (exists_mem_request (by simp [HandlerStage.isHolding]))
    exact (h.managed session hheld).imp_right hgrow

theorem Registered.step (h : Registered A) {a : AppAct} (hok : AppOk service beh A a)
    (hs : appStep service A a = some A') : Registered A' := by
  rcases appStep_cases hs with ⟨r, rfl, rfl⟩ | ⟨n, b, r, st, B, st', rfl, hx, hm, rfl⟩ |
    ⟨i, b, P, rfl, hacts, rfl⟩
  · exact h.request r
  · have hkeeps := hm.keeps h hok
    exact h.handler hx rfl ⟨hkeeps.stored, hkeeps.managed, hkeeps.drawn, hkeeps.deleting,
      hkeeps.popped, hkeeps.holding, hkeeps.jobs⟩
  · exact ⟨h.stored, h.deleting, h.apart, h.once, h.managed⟩

theorem registered (hrun : AppReaches service beh App.empty A) : Registered A := by
  refine Reaches.invariant (I := Registered) (fun B C ⟨a, hok, hs⟩ h => h.step hok hs) hrun ?_
  exact ⟨by simp [App.empty], by simp [App.Deleting, App.empty], by simp [App.empty],
    by simp [App.empty], by simp [App.Holding, App.empty]⟩

/-! ### The ids drawn -/

/-- The creation of the session has been answered. -/
def App.Created (A : App) (session : Str) : Prop :=
  ∃ x ∈ A.handlers, x.2 = .answered (.created session)

/-- Every id is drawn once, and a session that is not being deleted is in the
registers its creation has come to. -/
structure Issued (A : App) : Prop where
  once : ∀ (n m : Nat) (x y : SessionRequest × HandlerStage) (id : Str),
    A.handlers[n]? = some x → A.handlers[m]? = some y → x.2.drawn = some id →
      y.2.drawn = some id → n = m
  stored : ∀ session, A.Drawn session → session ∈ A.sessions ∨ A.Deleting session
  created : ∀ session, A.Created session → session ∈ A.managers ∨ A.Popped session

theorem App.Created.drawn (h : A.Created session) : A.Drawn session := by
  obtain ⟨x, hx, heq⟩ := h
  exact ⟨x, hx, by rw [heq]; rfl⟩

/-- What a move of one handler does to what is issued. -/
structure HandlerIssues (A A' : App) (r : SessionRequest) (st st' : HandlerStage) : Prop where
  drawn : ∀ id, st'.drawn = some id → st.drawn = some id ∨ ¬ A.Drawn id ∧ id ∈ A'.sessions
  created : ∀ id, st' = .answered (.created id) → id ∈ A'.managers
  sessions : ∀ session ∈ A.sessions, session ∈ A'.sessions ∨
    r = .deleteSession session ∧ st'.isDeleting = true
  managers : ∀ session ∈ A.managers, session ∈ A'.managers ∨
    r = .deleteSession session ∧ st'.hasPopped = true
  deleting : st.isDeleting = true → st'.isDeleting = true
  popped : st.hasPopped = true → st'.hasPopped = true

/-- A move that draws no id and takes nothing out of a register. -/
theorem HandlerIssues.of_plain (hsessions : A'.sessions = A.sessions)
    (hmanagers : A'.managers = A.managers) (hdrawn : st'.drawn = none)
    (hdeleting : st.isDeleting = true → st'.isDeleting = true)
    (hpopped : st.hasPopped = true → st'.hasPopped = true) :
    HandlerIssues A A' r st st' := by
  refine ⟨fun id hid => ?_, fun id hid => ?_, fun session hs => Or.inl (hsessions ▸ hs),
    fun session hs => Or.inl (hmanagers ▸ hs), hdeleting, hpopped⟩
  · rw [hdrawn] at hid
    cases hid
  · rw [hid] at hdrawn
    cases hdrawn

theorem HandlerMove.issues {a : HandlerAct} (hok : AppOk service beh A (.handler n a))
    (hm : HandlerMove service A r st a A' st') : HandlerIssues A A' r st st' := by
  cases hm with
  | miss _ hst =>
      rcases hst with rfl | rfl <;> exact .of_plain rfl rfl rfl (by simp [HandlerStage.isDeleting])
        (by simp [HandlerStage.hasPopped])
  | found | hold | seek | stream | rejectData | rejectBody | download | unsent | noPayload
  | document | unencoded | noJob | aim | submitted | upload | store | submit | refuse | insert
  | start | cancel =>
      exact .of_plain rfl rfl rfl (by simp [HandlerStage.isDeleting])
        (by simp [HandlerStage.hasPopped])
  | unmanaged | snapshot | stopped | skip | see | mark =>
      exact .of_plain rfl rfl rfl (fun _ => rfl) fun _ => rfl
  -- the id is new, and its session is in the store
  | @create id =>
      refine ⟨fun other hother => ?_, by simp,
        fun session hs => Or.inl (Finset.mem_insert_of_mem hs), fun session => Or.inl,
        by simp [HandlerStage.isDeleting], by simp [HandlerStage.hasPopped]⟩
      obtain rfl := Option.some.inj hother
      exact Or.inr ⟨fun ⟨x, hx, hdrawn⟩ => hok x hx hdrawn, Finset.mem_insert_self _ _⟩
  | @manage id =>
      refine ⟨fun other hother => Or.inl hother, fun other hother => ?_, fun session => Or.inl,
        fun session hs => Or.inl (Finset.mem_insert_of_mem hs), by simp [HandlerStage.isDeleting],
        by simp [HandlerStage.hasPopped]⟩
      obtain rfl := SessionReply.created.inj (HandlerStage.answered.inj hother)
      exact Finset.mem_insert_self _ _
  | @drop session hmem =>
      refine ⟨by simp [HandlerStage.drawn], by simp, fun other hs => ?_, fun other => Or.inl,
        by simp [HandlerStage.isDeleting], by simp [HandlerStage.hasPopped]⟩
      by_cases hother : other = session
      · exact Or.inr ⟨by rw [hother], rfl⟩
      · exact Or.inl (Finset.mem_erase.mpr ⟨hother, hs⟩)
  -- the manager goes with this deletion
  | @pop session hmem =>
      refine ⟨by simp [HandlerStage.drawn], by simp, fun other => Or.inl, fun other hs => ?_,
        fun _ => rfl, fun _ => rfl⟩
      by_cases hother : other = session
      · exact Or.inr ⟨by rw [hother], rfl⟩
      · exact Or.inl (Finset.mem_erase.mpr ⟨hother, hs⟩)

theorem Issued.handler (h : Issued A) (hx : A.handlers[n]? = some (r, st))
    (hhandlers : A'.handlers = A.handlers.set n (r, st')) (hissues : HandlerIssues A A' r st st') :
    Issued A' := by
  have hlt : n < A.handlers.length := (List.getElem?_eq_some_iff.mp hx).1
  have hself : (r, st') ∈ A'.handlers := by
    rw [hhandlers]
    exact List.mem_of_getElem? (List.getElem?_set_self hlt)
  have hdeleting : ∀ session, A.Deleting session → A'.Deleting session := by
    intro session hold
    unfold App.Deleting
    rw [hhandlers]
    exact exists_mem_set hx (p := fun x => x.1 = .deleteSession session ∧ x.2.isDeleting = true)
      (fun hp => ⟨hp.1, hissues.deleting hp.2⟩) hold
  have hpopped : ∀ session, A.Popped session → A'.Popped session := by
    intro session hold
    unfold App.Popped
    rw [hhandlers]
    exact exists_mem_set hx (p := fun x => x.1 = .deleteSession session ∧ x.2.hasPopped = true)
      (fun hp => ⟨hp.1, hissues.popped hp.2⟩) hold
  -- an id drawn now was drawn before, or is new
  have hget : ∀ k x id, A'.handlers[k]? = some x → x.2.drawn = some id →
      (∃ y, A.handlers[k]? = some y ∧ y.2.drawn = some id) ∨ k = n ∧ ¬ A.Drawn id := by
    intro k x id hk hid
    rw [hhandlers] at hk
    rcases getElem?_set_some hk with ⟨rfl, rfl⟩ | ⟨-, hk⟩
    · rcases hissues.drawn id hid with hold | ⟨hnew, -⟩
      · exact Or.inl ⟨_, hx, hold⟩
      · exact Or.inr ⟨rfl, hnew⟩
    · exact Or.inl ⟨x, hk, hid⟩
  refine ⟨fun k m x y id hk hm hkid hmid => ?_, fun session hd => ?_, fun session hc => ?_⟩
  · rcases hget k x id hk hkid with ⟨x', hx', hid⟩ | ⟨rfl, hnew⟩
    · rcases hget m y id hm hmid with ⟨y', hy', hid'⟩ | ⟨-, hnew⟩
      · exact h.once k m x' y' id hx' hy' hid hid'
      · exact (hnew ⟨x', List.mem_of_getElem? hx', hid⟩).elim
    · rcases hget m y id hm hmid with ⟨y', hy', hid'⟩ | ⟨rfl, -⟩
      · exact (hnew ⟨y', List.mem_of_getElem? hy', hid'⟩).elim
      · rfl
  · have hold : A.Drawn session ∨ session ∈ A'.sessions := by
      unfold App.Drawn at hd
      rw [hhandlers] at hd
      rcases exists_mem_of_set hd with hold | hnew
      · exact Or.inl hold
      · rcases hissues.drawn session hnew with hold | ⟨-, hin⟩
        · exact Or.inl ⟨_, List.mem_of_getElem? hx, hold⟩
        · exact Or.inr hin
    rcases hold with hold | hin
    · rcases h.stored session hold with hin | hdel
      · exact (hissues.sessions session hin).imp_right fun ⟨hr, hdel⟩ => ⟨_, hself, hr, hdel⟩
      · exact Or.inr (hdeleting session hdel)
    · exact Or.inl hin
  · unfold App.Created at hc
    rw [hhandlers] at hc
    rcases exists_mem_of_set hc with hold | hnew
    · rcases h.created session hold with hin | hpop
      · exact (hissues.managers session hin).imp_right fun ⟨hr, hpop⟩ => ⟨_, hself, hr, hpop⟩
      · exact Or.inr (hpopped session hpop)
    · exact Or.inl (hissues.created session hnew)

theorem Issued.step (h : Issued A) {a : AppAct} (hok : AppOk service beh A a)
    (hs : appStep service A a = some A') : Issued A' := by
  rcases appStep_cases hs with ⟨r, rfl, rfl⟩ | ⟨n, b, r, st, B, st', rfl, hx, hm, rfl⟩ |
    ⟨i, b, P, rfl, hacts, rfl⟩
  · have hgrow : ∀ {p : SessionRequest × HandlerStage → Prop}, (∃ x ∈ A.handlers, p x) →
        ∃ x ∈ A.handlers ++ [(r, .arrived)], p x :=
      fun ⟨x, hx, hp⟩ => ⟨x, List.mem_append_left _ hx, hp⟩
    refine ⟨fun k m x y id hk hm hkid hmid => ?_, fun session hd => ?_, fun session hc => ?_⟩
    · have hk' := getElem?_request hk (by intro he; rw [he] at hkid; cases hkid)
      have hm' := getElem?_request hm (by intro he; rw [he] at hmid; cases hmid)
      exact h.once k m x y id hk' hm' hkid hmid
    · have hold : A.Drawn session := exists_mem_request (by simp [HandlerStage.drawn]) hd
      exact (h.stored session hold).imp_right hgrow
    · have hold : A.Created session := exists_mem_request (by simp) hc
      exact (h.created session hold).imp_right hgrow
  · have hissues := hm.issues hok
    exact h.handler hx rfl ⟨hissues.drawn, hissues.created, hissues.sessions, hissues.managers,
      hissues.deleting, hissues.popped⟩
  · exact ⟨h.once, h.stored, h.created⟩

theorem issued (hrun : AppReaches service beh App.empty A) : Issued A := by
  refine Reaches.invariant (I := Issued) (fun B C ⟨a, hok, hs⟩ h => h.step hok hs) hrun ?_
  exact ⟨by simp [App.empty], by simp [App.Drawn, App.empty], by simp [App.Created, App.empty]⟩

/-! ### The life of a session -/

theorem App.Created.run (h : A.Created session) (hrun : AppReaches service beh A A') :
    A'.Created session := by
  obtain ⟨⟨r, st⟩, hx, rfl⟩ := h
  obtain ⟨n, hn⟩ := List.mem_iff_getElem?.mp hx
  exact ⟨_, List.mem_of_getElem? (answered_run hrun hn), rfl⟩

/-- A deletion does not come back. -/
theorem App.Deleting.step {a : AppAct} (h : A.Deleting session) (hok : AppOk service beh A a)
    (hs : appStep service A a = some A') : A'.Deleting session := by
  obtain ⟨⟨r, st⟩, hx, hr, hdel⟩ := h
  obtain ⟨n, hn⟩ := List.mem_iff_getElem?.mp hx
  rcases appStep_handler hs hn with hsame | ⟨b, B, st', rfl, hm, -, hn'⟩
  · exact ⟨_, List.mem_of_getElem? hsame, hr, hdel⟩
  · exact ⟨_, List.mem_of_getElem? hn', hr, (hm.issues hok).deleting hdel⟩

theorem App.Popped.deleting (h : A.Popped session) : A.Deleting session := by
  obtain ⟨⟨r, st⟩, hx, hr, hpopped⟩ := h
  refine ⟨_, hx, hr, ?_⟩
  cases st with
  | popped | stopping | marking => rfl
  | answered reply =>
      cases reply with
      | noContent => rfl
      | created | payload | download | submitted | document | stream | error => cases hpopped
  | arrived | stored | found | held | working | inserted | started | cancelling | dropped =>
      cases hpopped

/-- An id that has left the store stays away. -/
theorem unstored_step {a : AppAct} (hdrawn : A.Drawn session) (hok : AppOk service beh A a)
    (hs : appStep service A a = some A') (hout : session ∉ A.sessions) : session ∉ A'.sessions := by
  rcases appStep_cases hs with ⟨r, rfl, rfl⟩ | ⟨n, b, r, st, B, st', rfl, hx, hm, rfl⟩ |
    ⟨i, b, P, rfl, hacts, rfl⟩
  · exact hout
  · intro hin
    cases hm with
    | @create id =>
        rcases Finset.mem_insert.mp hin with rfl | hin
        · obtain ⟨x, hx', hid⟩ := hdrawn
          exact hok x hx' hid
        · exact hout hin
    | drop => exact hout (Finset.mem_of_mem_erase hin)
    | miss | found | hold | seek | stream | rejectData | rejectBody | download | unsent | noPayload
    | document | unencoded | noJob | aim | submitted | manage | pop | unmanaged | snapshot
    | stopped | skip | see | mark | upload | store | submit | refuse | insert | start
    | cancel => exact hout hin
  · exact hout

/-- A created session that has left the dict of managers stays away. -/
theorem unmanaged_step {a : AppAct} (h : Issued A) (hcreated : A.Created session)
    (hs : appStep service A a = some A') (hout : session ∉ A.managers) :
    session ∉ A'.managers := by
  rcases appStep_cases hs with ⟨r, rfl, rfl⟩ | ⟨n, b, r, st, B, st', rfl, hx, hm, rfl⟩ |
    ⟨i, b, P, rfl, hacts, rfl⟩
  · exact hout
  · intro hin
    cases hm with
    | @manage id =>
        rcases Finset.mem_insert.mp hin with rfl | hin
        · -- the creation has been answered already
          obtain ⟨y, hy, heq⟩ := hcreated
          obtain ⟨m, hm⟩ := List.mem_iff_getElem?.mp hy
          have hnm := h.once n m _ y _ hx hm rfl (by rw [heq]; rfl)
          rw [← hnm, hx] at hm
          rw [← Option.some.inj hm] at heq
          cases heq
        · exact hout hin
    | pop => exact hout (Finset.mem_of_mem_erase hin)
    | miss | found | hold | seek | stream | rejectData | rejectBody | download | unsent | noPayload
    | document | unencoded | noJob | aim | submitted | create | drop | unmanaged | snapshot
    | stopped | skip | see | mark | upload | store | submit | refuse | insert | start
    | cancel => exact hout hin
  · exact hout

/-- Who is told that there is no such session has not found it. -/
theorem HandlerMove.of_sessionNotFound {a : HandlerAct} (hm : HandlerMove service A r st a B st')
    (hst' : st' = .answered .sessionNotFound) (hr : r.session = some session) :
    session ∉ A.sessions ∨ session ∉ A.managers := by
  cases hm with
  | @miss _ _ _ other hsession _ hout =>
      obtain rfl : session = other := Option.some.inj (hr.symm.trans hsession)
      exact hout
  | rejectData hne | rejectBody hne =>
      have herror := SessionReply.error.inj (HandlerStage.answered.inj hst')
      exact absurd herror.1 hne
  | noPayload => exact absurd (HandlerStage.answered.inj hst') SessionReply.payloadNotFound_ne
  | noJob => exact absurd (HandlerStage.answered.inj hst') SessionReply.jobNotFound_ne
  | refuse _ _ _ hne =>
      have herror := SessionReply.error.inj (HandlerStage.answered.inj hst')
      exact absurd herror.1 hne
  | unsent | unencoded =>
      have herror := SessionReply.error.inj (HandlerStage.answered.inj hst')
      exact absurd herror.1 (by decide)
  | found | hold | seek | stream | download | document | aim | submitted | create | manage | drop
  | pop | unmanaged | snapshot | stopped | skip | see | mark | upload | store | submit | insert
  | start | cancel => cases hst'

/-- **A session is served until it is deleted**: in every run, a request that
comes in after the creation has been answered is not told that there is no such
session, as long as no deletion has taken it out of the store. -/
theorem served_until_deleted (hrun : AppReaches service beh App.empty A)
    (hcreated : A.Created session) (hx : A.handlers[n]? = some (r, .arrived))
    (hlater : AppReaches service beh A B) (hnone : ¬ B.Deleting session)
    (hr : r.session = some session) :
    B.handlers[n]? ≠ some (r, .answered .sessionNotFound) := by
  have hinv : Issued B ∧ B.Created session ∧ ∃ st, B.handlers[n]? = some (r, st) ∧
      (st = .answered .sessionNotFound → B.Deleting session) := by
    refine Reaches.invariant (I := fun C => Issued C ∧ C.Created session ∧ ∃ st,
      C.handlers[n]? = some (r, st) ∧ (st = .answered .sessionNotFound → C.Deleting session))
      ?_ hlater ⟨issued hrun, hcreated, _, hx, by simp⟩
    rintro C C' ⟨a, hok, hs⟩ ⟨hissued, hcreated, st, hst, hmissed⟩
    refine ⟨hissued.step hok hs, hcreated.run (.single ⟨a, hok, hs⟩), ?_⟩
    rcases appStep_handler hs hst with hsame | ⟨b, D, st', rfl, hm, -, hst'⟩
    · exact ⟨st, hsame, fun h => (hmissed h).step hok hs⟩
    · refine ⟨st', hst', fun h => ?_⟩
      have hdel : C.Deleting session := by
        rcases hm.of_sessionNotFound h hr with hout | hout
        · exact (hissued.stored session hcreated.drawn).resolve_left hout
        · exact ((hissued.created session hcreated).resolve_left hout).deleting
      exact hdel.step hok hs
  obtain ⟨-, -, st, hst, hmissed⟩ := hinv
  intro heq
  exact hnone (hmissed (Prod.mk.inj (Option.some.inj (hst.symm.trans heq))).2)

/-- What a deletion that comes in after the creation leaves in the dict. -/
theorem unmanaged_of_popped (hrun : AppReaches service beh App.empty A)
    (hcreated : A.Created session) (hx : A.handlers[n]? = some (.deleteSession session, .arrived))
    (hlater : AppReaches service beh A B)
    (hdone : B.handlers[n]? = some (.deleteSession session, st)) (hpopped : st.hasPopped = true) :
    session ∉ B.managers := by
  have hinv : Issued B ∧ B.Created session ∧ ∃ st,
      B.handlers[n]? = some (.deleteSession session, st) ∧
        (st.hasPopped = true → session ∉ B.managers) := by
    refine Reaches.invariant (I := fun C => Issued C ∧ C.Created session ∧ ∃ st,
      C.handlers[n]? = some (.deleteSession session, st) ∧
        (st.hasPopped = true → session ∉ C.managers))
      ?_ hlater ⟨issued hrun, hcreated, _, hx, by simp [HandlerStage.hasPopped]⟩
    rintro C C' ⟨a, hok, hs⟩ ⟨hissued, hcreated, st, hst, hout⟩
    refine ⟨hissued.step hok hs, hcreated.run (.single ⟨a, hok, hs⟩), ?_⟩
    -- no manager comes back, its session having been created before
    have hstays := unmanaged_step hissued hcreated hs
    rcases appStep_handler hs hst with hsame | ⟨b, D, st', rfl, hm, rfl, hst'⟩
    · exact ⟨st, hsame, fun h => hstays (hout h)⟩
    · refine ⟨st', hst', fun hpopped => ?_⟩
      cases hm with
      -- this deletion takes it out, or does not find it
      | pop => exact Finset.notMem_erase _ _
      | unmanaged hmem => exact hmem
      | snapshot | stopped | skip | see | mark => exact hout rfl
      | miss | found | drop => cases hpopped
      | seek hr | noJob hr => rcases hr with hr | hr <;> cases hr
  obtain ⟨-, -, st', hst', hout⟩ := hinv
  obtain rfl := (Prod.mk.inj (Option.some.inj (hst'.symm.trans hdone))).2
  exact hout hpopped

/-- The session is in neither register, and its id is spent. -/
structure App.Gone (A : App) (session : Str) : Prop where
  issued : Issued A
  created : A.Created session
  unstored : session ∉ A.sessions
  unmanaged : session ∉ A.managers

/-- Nobody puts it back. -/
theorem App.Gone.step {a : AppAct} (h : A.Gone session) (hok : AppOk service beh A a)
    (hs : appStep service A a = some A') : A'.Gone session :=
  ⟨h.issued.step hok hs, h.created.run (.single ⟨a, hok, hs⟩),
    unstored_step h.created.drawn hok hs h.unstored,
    unmanaged_step h.issued h.created hs h.unmanaged⟩

/-- **A deleted session is gone**: in every run, of the deletions of a session
whose creation was answered before one of them came in, that one alone is
answered with 204, and then whatever comes in is told that there is no such
session. -/
theorem gone_after_deletion (hrun : AppReaches service beh App.empty A)
    (hcreated : A.Created session) (hx : A.handlers[n]? = some (.deleteSession session, .arrived))
    (hlater : AppReaches service beh A B)
    (hdone : B.handlers[n]? = some (.deleteSession session, .answered .noContent)) {C : App}
    (hrest : AppReaches service beh B C) :
    (∀ m, C.handlers[m]? = some (.deleteSession session, .answered .noContent) → m = n) ∧
      ∀ (m : Nat) (r : SessionRequest), r.session = some session →
        B.handlers[m]? = some (r, .arrived) →
          C.handlers[m]? = some (r, .arrived) ∨
            C.handlers[m]? = some (r, .answered .sessionNotFound) := by
  have hrunB := hrun.trans hlater
  constructor
  · intro m hm
    exact (registered (hrunB.trans hrest)).once m n session _ _ hm (answered_run hrest hdone)
      rfl rfl
  · intro m r hr hm
    -- neither the session nor its manager is there any more
    have hunstored : session ∉ B.sessions := by
      intro hin
      exact (registered hrunB).apart session hin ⟨_, List.mem_of_getElem? hdone, rfl, rfl⟩
    have hunmanaged := unmanaged_of_popped hrun hcreated hx hlater hdone rfl
    have hgone : B.Gone session := ⟨issued hrunB, hcreated.run hlater, hunstored, hunmanaged⟩
    -- a request that comes in now can only miss
    have hstays : ∃ st, C.handlers[m]? = some (r, st) ∧ C.Gone session ∧
        (st = .arrived ∨ st = .answered .sessionNotFound) := by
      refine handler_run
        (I := fun D st => D.Gone session ∧ (st = .arrived ∨ st = .answered .sessionNotFound))
        (fun D E a t hok hs hD => ⟨hD.1.step hok hs, hD.2⟩) ?_ hrest hm ⟨hgone, Or.inl rfl⟩
      rintro D E F a t t' hok hs hmove - ⟨hD, ht⟩
      refine ⟨hD.step hok hs, ?_⟩
      rcases ht with rfl | rfl
      · cases hmove with
        | miss => exact Or.inr rfl
        | found hreads hmem =>
            rw [← Option.some.inj (hr.symm.trans hreads.session)] at hmem
            exact absurd hmem hD.unstored
        | seek hseek hmem =>
            rcases hseek with rfl | rfl <;>
            · rw [Option.some.inj hr] at hmem
              exact absurd hmem hD.unmanaged
        | stream hmem =>
            rw [Option.some.inj hr] at hmem
            exact absurd hmem hD.unmanaged
        | drop hmem =>
            rw [Option.some.inj hr] at hmem
            exact absurd hmem hD.unstored
        | create => cases hr
      · exact hmove.not_answered.elim
    obtain ⟨st, hst, -, rfl | rfl⟩ := hstays
    · exact Or.inl hst
    · exact Or.inr hst

end Runs

/-! ### A session comes and goes -/

/-- A session has been opened. -/
def openedApp : App :=
  { App.empty with
    sessions := insert (.text "s") ∅
    managers := insert (.text "s") ∅
    handlers := [(.createSession, .answered (.created "s"))] }

theorem reaches_openedApp : AppReaches sampleService anyBehaviour App.empty openedApp := by
  have hrun : runActs (guarded (appStep sampleService) (AppOk sampleService anyBehaviour))
      [.request .createSession, .handler 0 (.create "s"), .handler 0 .go] App.empty =
        some openedApp := rfl
  exact reaches_of_guarded hrun

/-- The body of a submission: one node and one of its ports. -/
def splitBody : JsonValue where
  value := .obj [("graph", .obj [
    ("nodes", .arr [.obj [("id", .str "s"), ("module", .str "split")]]),
    ("outputs", .arr [.obj [("node", .str "s"), ("port", .str "a")]])])]
  distinct := by decide

/-- Then these handlers have come to these stages. -/
def openedAppWith (handlers : List (SessionRequest × HandlerStage)) : App :=
  { openedApp with handlers := openedApp.handlers ++ handlers }

theorem served_until_deleted_download : ∃ A B : App,
    AppReaches sampleService anyBehaviour A B ∧
      A.handlers[1]? = some (.downloadPayload "s" "p", .arrived) ∧
      B.handlers[1]? ≠ some (.downloadPayload "s" "p", .answered .sessionNotFound) ∧
      B.handlers[1]? = some (.downloadPayload "s" "p", .answered .payloadNotFound) := by
  have harrive : runActs (guarded (appStep sampleService) (AppOk sampleService anyBehaviour))
      [.request (.downloadPayload "s" "p")] openedApp =
        some (openedAppWith [(.downloadPayload "s" "p", .arrived)]) := rfl
  have hanswer : runActs (guarded (appStep sampleService) (AppOk sampleService anyBehaviour))
      [.handler 1 .go, .handler 1 .go] (openedAppWith [(.downloadPayload "s" "p", .arrived)]) =
        some (openedAppWith [(.downloadPayload "s" "p", .answered .payloadNotFound)]) := rfl
  have hlater := reaches_of_guarded hanswer
  have hcreated : App.Created (openedAppWith [(.downloadPayload "s" "p", .arrived)]) "s" :=
    ⟨_, List.mem_cons_self, rfl⟩
  refine ⟨_, _, hlater, rfl, ?_, rfl⟩
  refine served_until_deleted (reaches_openedApp.trans (reaches_of_guarded harrive)) hcreated rfl
    hlater ?_ rfl
  rintro ⟨x, hx, hr, hdel⟩
  rcases List.mem_cons.mp hx with rfl | hx
  · cases hr
  · rw [List.mem_singleton.mp hx] at hr
    cases hr

/-- And a deletion has gone through. -/
def deletedAppWith (handlers : List (SessionRequest × HandlerStage)) : App :=
  { openedAppWith ((.deleteSession "s", .answered .noContent) :: handlers) with
    sessions := openedApp.sessions.erase "s"
    managers := openedApp.managers.erase "s" }

theorem gone_after_deletion_poll : ∃ A B : App, AppReaches sampleService anyBehaviour A B ∧
    A.handlers[1]? = some (.deleteSession "s", .answered .noContent) ∧
      A.handlers[2]? = some (.getJob "s" "job", .arrived) ∧
        (B.handlers[2]? = some (.getJob "s" "job", .arrived) ∨
          B.handlers[2]? = some (.getJob "s" "job", .answered .sessionNotFound)) ∧
        B.handlers[2]? ≠ some (.getJob "s" "job", .arrived) := by
  have harrive : runActs (guarded (appStep sampleService) (AppOk sampleService anyBehaviour))
      [.request (.deleteSession "s")] openedApp =
        some (openedAppWith [(.deleteSession "s", .arrived)]) := rfl
  -- the deletion is answered, then the poll comes in
  have hdelete : runActs (guarded (appStep sampleService) (AppOk sampleService anyBehaviour))
      [.handler 1 .go, .handler 1 .go, .handler 1 .go, .handler 1 .go,
        .request (.getJob "s" "job")] (openedAppWith [(.deleteSession "s", .arrived)]) =
          some (deletedAppWith [(.getJob "s" "job", .arrived)]) := rfl
  have hpoll : runActs (guarded (appStep sampleService) (AppOk sampleService anyBehaviour))
      [.handler 2 .go] (deletedAppWith [(.getJob "s" "job", .arrived)]) =
        some (deletedAppWith [(.getJob "s" "job", .answered .sessionNotFound)]) := rfl
  have hrest := reaches_of_guarded hpoll
  have hcreated : App.Created (openedAppWith [(.deleteSession "s", .arrived)]) "s" :=
    ⟨_, List.mem_cons_self, rfl⟩
  have hgone := gone_after_deletion (n := 1)
    (reaches_openedApp.trans (reaches_of_guarded harrive)) hcreated rfl
    (reaches_of_guarded hdelete) rfl hrest
  refine ⟨_, _, hrest, rfl, rfl, hgone.2 2 _ rfl rfl, ?_⟩
  simp [deletedAppWith, openedAppWith, openedApp]

end Formshift
