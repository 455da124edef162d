/-
Formshift/Stream.lean

The event stream of a session (`EventLog` in `jobs.py`, `events` in `app.py`).

Any number of threads append to the log and any number of streams read it, each
with a cursor of its own: a stream fetches what the log has from its cursor on,
yields it event by event and only then moves the cursor.  What it has yielded is
at every moment the text of a prefix of the log (`StreamInv`), and a client that
reads that text as an event stream and decodes the data gets the events of the
prefix, line breaks in their strings and all, but for surrogate halves that make a
character: these come out as the character (`streams_deliver_prefixes_iff`).
-/
import Formshift.Lib.JsonReader
import Formshift.Lib.Sse
import Formshift.Server

namespace Formshift

open Py Steps

/-! ### One event on the wire -/

/-- `Event.sse`. -/
def Event.sse (e : Event) : Text :=
  "id: ".toList ++ e.index.repr.toList ++ "\nevent: ".toList ++ e.type.toList ++
    "\ndata: ".toList ++ e.data.render ++ "\n\n".toList

/-- The comment that keeps an idle connection open. -/
def keepalive : Text := ": keepalive\n\n".toList

/-- The event as a message. -/
def Event.message (e : Event) : Sse.Message :=
  ⟨e.index.repr.toList, e.type.toList, e.data.render⟩

/-- What a client makes of a message: the index, the type and the data. -/
def readMessage (m : Sse.Message) : Option (Nat × String × Json) := do
  let index ← Json.readNat m.id
  let data ← Json.loads m.data
  return (index, String.ofList m.type, data)

theorem Event.sse_eq (e : Event) : e.sse = Sse.unlines e.message.lines := by
  have hid : "id: ".toList = Sse.idName ++ [':', ' '] := by decide
  have htype : "\nevent: ".toList = '\n' :: (Sse.eventName ++ [':', ' ']) := by decide
  have hdata : "\ndata: ".toList = '\n' :: (Sse.dataName ++ [':', ' ']) := by decide
  have hend : "\n\n".toList = ['\n', '\n'] := by decide
  unfold Event.sse
  rw [hid, htype, hdata, hend]
  simp only [Sse.unlines, Sse.Message.lines, Event.message, Sse.fieldLine, List.flatMap_cons,
    List.flatMap_nil, List.append_assoc, List.cons_append, List.nil_append]

theorem keepalive_eq : keepalive = Sse.unlines [':' :: " keepalive".toList, []] := by
  decide

theorem unbroken_of_printable {cs : Text} (h : ∀ c ∈ cs, Json.isPrintable c = true) :
    Sse.Unbroken cs :=
  ⟨fun hin => absurd (h _ hin) (by decide), fun hin => absurd (h _ hin) (by decide)⟩

/-- No text in an event breaks its lines. -/
theorem Event.message_plain (e : Event) : e.message.Plain := by
  have hdigits : ∀ c ∈ e.index.repr.toList, Json.isPrintable c = true := fun c hc =>
    Json.printable_of_literal (isLiteralChar_of_isDigit (Json.nat_repr_chars _ c hc))
  have htype : (e.type.toList.all Json.isPrintable) = true ∧ e.type.toList ≠ [] := by
    obtain ⟨index, job, body⟩ := e
    cases body <;> exact ⟨by simp [Event.type, EventBody.type, Json.isPrintable], by
      simp [Event.type, EventBody.type]⟩
  refine ⟨unbroken_of_printable hdigits, fun hin => absurd (hdigits _ hin) (by decide),
    unbroken_of_printable (List.all_eq_true.mp htype.1), htype.2,
    unbroken_of_printable (Json.render_printable _)⟩

/-- No string of the event has two surrogate halves side by side that make a
character. -/
def Event.Unpaired (e : Event) : Prop := ∀ s ∈ e.job :: e.body.strings, s.hasPair = false

/-- The data as it is read. -/
theorem EventBody.reread_data (job : Str) (body : EventBody) :
    ((body.data job).reread = body.data job) ↔
      ∀ s ∈ job :: body.strings, s.hasPair = false := by
  -- the fields of an event are distinct
  have hdict : ∀ fields : List (Str × Json), (fields.map Prod.fst).Nodup →
      ∀ gs, Json.obj (Json.dictOf fields) = .obj gs ↔ fields = gs := by
    intro fields hnodup gs
    rw [Json.dictOf_of_nodup hnodup, Json.obj.injEq]
  cases body with
  | jobOutput record =>
      obtain ⟨node, port, type, payload, group⟩ := record
      cases group with
      | none =>
          simp only [data, OutputRecord.fields, strings, Json.reread, Json.rereadFields,
            Str.joined_text, List.cons_append, List.nil_append, Option.toList_none]
          rw [hdict _ (by simp)]
          simp [Str.joined_eq_self_iff]
      | some group =>
          simp only [data, OutputRecord.fields, strings, Json.reread, Json.rereadFields,
            Str.joined_text, List.cons_append, List.nil_append, Option.toList_some]
          rw [hdict _ (by simp)]
          simp [Str.joined_eq_self_iff]
  | jobStatus | nodeCompleted | jobFailed | jobCompleted | jobCancelled =>
      simp only [data, strings, Json.reread, Json.rereadFields, Str.joined_text]
      rw [hdict _ (by simp)]
      simp [Str.joined_eq_self_iff]

/-- **An event survives the wire**, its data as it is read. -/
theorem readMessage_message (e : Event) :
    readMessage e.message = some (e.index, e.type, e.data.reread) := by
  simp only [readMessage, Event.message, Json.readNat_repr, Json.loads_render,
    Option.bind_eq_bind, Option.bind_some, String.ofList_toList]
  rfl

/-! ### Streams and writers -/

inductive StreamPhase where
  /-- At the head of `while True`. -/
  | polling
  /-- In `for event in fresh`, `todo` not yielded yet. -/
  | sending (fresh todo : List Event)
  | sleeping

structure StreamState where
  cursor : Nat
  phase : StreamPhase
  /-- All that has been yielded. -/
  text : Text

def StreamState.init : StreamState := ⟨0, .polling, []⟩

inductive StreamAct where
  | advance
  /-- The sleep is over; whether the idle seconds have come to the keepalive
  interval by then is left open. -/
  | wake (due : Bool)

/-- `stream`. -/
def streamStep (log : EventLog) (s : StreamState) : StreamAct → Option StreamState
  | .advance =>
    match s.phase with
    | .polling =>
      match log.since s.cursor with
      | [] => some { s with phase := .sleeping }
      | fresh => some { s with phase := .sending fresh fresh }
    | .sending fresh (e :: todo) =>
      some { s with
        phase := .sending fresh todo
        text := s.text ++ e.sse }
    | .sending fresh [] =>
      match fresh.getLast? with
      | some e => some { s with
          phase := .polling
          cursor := e.index + 1 }
      | none => none
    | .sleeping => none
  | .wake due =>
    match s.phase with
    | .sleeping => some { s with
        phase := .polling
        text := if due then s.text ++ keepalive else s.text }
    | .polling | .sending _ _ => none

/-- A thread about to append an event, or a client's stream. -/
inductive LogUser where
  | writer (job : Str) (body : EventBody)
  | stream

inductive LogUserState where
  | writing
  | written
  | streaming (s : StreamState)

inductive LogUserAct where
  | append
  | stream (a : StreamAct)

def LogUser.start : LogUser → LogUserState
  | .writer _ _ => .writing
  | .stream => .streaming .init

def logUserStep : LogUser → EventLog × LogUserState → LogUserAct → Option (EventLog × LogUserState)
  | .writer job body, (log, .writing), .append => some (log.append job body, .written)
  | .stream, (log, .streaming s), .stream a =>
    (streamStep log s a).map fun s' => (log, .streaming s')
  | _, _, _ => none

/-- A session's log with all its users. -/
abbrev LogPool := Pool LogUser EventLog LogUserState

def LogPool.empty : LogPool := ⟨[], []⟩

abbrev LogReaches : LogPool → LogPool → Prop :=
  PoolReaches LogUser.start logUserStep (fun _ => True) (fun _ _ _ => True)

/-! ### What a stream has yielded -/

/-- The text is that of these events, with comments between them. -/
def Delivered (text : Text) (events : List Event) : Prop :=
  ∃ ls, text = Sse.unlines ls ∧ (∀ line ∈ ls, Sse.Unbroken line) ∧
    ∃ last, ls.foldl Sse.feed (⟨[], [], []⟩, []) = (⟨last, [], []⟩, events.map Event.message)

theorem delivered_nil : Delivered [] [] :=
  ⟨[], rfl, by simp, [], rfl⟩

theorem Delivered.event {text : Text} {events : List Event} (h : Delivered text events)
    (e : Event) : Delivered (text ++ e.sse) (events ++ [e]) := by
  obtain ⟨ls, rfl, hlines, last, hread⟩ := h
  refine ⟨ls ++ e.message.lines, ?_, ?_, e.message.id, ?_⟩
  · rw [Sse.unlines_append, e.sse_eq]
  · intro line hline
    rcases List.mem_append.mp hline with hline | hline
    · exact hlines line hline
    · exact e.message_plain.unbroken line hline
  · rw [List.foldl_append, hread, Sse.foldl_feed_message e.message_plain, List.map_append]
    rfl

theorem Delivered.comment {text : Text} {events : List Event} (h : Delivered text events) :
    Delivered (text ++ keepalive) events := by
  obtain ⟨ls, rfl, hlines, last, hread⟩ := h
  refine ⟨ls ++ [':' :: " keepalive".toList, []], ?_, ?_, last, ?_⟩
  · rw [Sse.unlines_append, keepalive_eq]
  · intro line hline
    rcases List.mem_append.mp hline with hline | hline
    · exact hlines line hline
    · have hcomment : ∀ l ∈ ([':' :: " keepalive".toList, []] : List Text), Sse.Unbroken l := by
        intro l hl
        rcases List.mem_pair.mp hl with rfl | rfl
        · exact unbroken_of_printable (List.all_eq_true.mp rfl)
        · exact unbroken_of_printable (by simp)
      exact hcomment line hline
  · rw [List.foldl_append, hread, Sse.foldl_feed_comment]

/-- The client gets the events back, their data as it is read. -/
theorem Delivered.read {text : Text} {events : List Event} (h : Delivered text events) :
    (Sse.messages text).mapM readMessage =
      some (events.map fun e => (e.index, e.type, e.data.reread)) := by
  obtain ⟨ls, rfl, hlines, last, hread⟩ := h
  rw [Sse.messages, Sse.lines_unlines hlines, hread]
  show (events.map Event.message).mapM readMessage = _
  clear hread
  induction events with
  | nil => rfl
  | cons e es ih =>
      rw [List.map_cons, List.mapM_cons, readMessage_message, ih]
      rfl

/-- How far a stream has come, by where it stands. -/
def StreamInv (log : EventLog) (s : StreamState) : Prop :=
  match s.phase with
  | .polling | .sleeping => s.cursor ≤ log.length ∧ Delivered s.text (log.take s.cursor)
  | .sending fresh todo => fresh ≠ [] ∧ fresh <+: log.drop s.cursor ∧
      ∃ done, fresh = done ++ todo ∧ Delivered s.text (log.take s.cursor ++ done)

section Stream

variable {log log' : EventLog} {s s' : StreamState}

/-- The events a batch holds are those behind the cursor. -/
theorem take_add_batch {fresh : List Event} {cursor : Nat} (h : fresh <+: log.drop cursor) :
    log.take (cursor + fresh.length) = log.take cursor ++ fresh := by
  rw [List.take_add, ← List.prefix_iff_eq_take.mp h]

theorem lt_of_batch {fresh : List Event} {cursor : Nat} (hne : fresh ≠ [])
    (h : fresh <+: log.drop cursor) : cursor + fresh.length ≤ log.length := by
  have hpos := List.length_pos_iff.mpr hne
  have hlen := h.length_le
  rw [List.length_drop] at hlen
  omega

/-- The last event of a batch says how long the batch is. -/
theorem index_of_last (hindexed : log.Indexed) {fresh : List Event} {cursor : Nat} {e : Event}
    (h : fresh <+: log.drop cursor) (hlast : fresh.getLast? = some e) :
    e.index + 1 = cursor + fresh.length := by
  have hne : fresh ≠ [] := by
    rintro rfl
    cases hlast
  have hpos := List.length_pos_iff.mpr hne
  have hget : log[cursor + (fresh.length - 1)]? = some e := by
    obtain ⟨hlt, hget⟩ := List.getElem?_eq_some_iff.mp
      ((List.getLast?_eq_getElem?).symm.trans hlast)
    rw [← List.getElem?_drop, List.prefix_iff_getElem?.mp h _ hlt, hget]
  have hindex := hindexed _ e hget
  omega

/-- The log grows behind what a stream has seen. -/
theorem StreamInv.grow (h : StreamInv log s) (hgrow : log <+: log') : StreamInv log' s := by
  obtain ⟨more, rfl⟩ := hgrow
  unfold StreamInv at *
  have htake : ∀ {n : Nat}, n ≤ log.length → (log ++ more).take n = log.take n :=
    fun hn => List.take_append_of_le_length hn
  split at h
  · obtain ⟨hcursor, hdelivered⟩ := h
    rw [htake hcursor]
    exact ⟨hcursor.trans (by simp), hdelivered⟩
  · obtain ⟨hcursor, hdelivered⟩ := h
    rw [htake hcursor]
    exact ⟨hcursor.trans (by simp), hdelivered⟩
  · obtain ⟨hne, hbatch, done, hfresh, hdelivered⟩ := h
    have hcursor : s.cursor ≤ log.length := (Nat.le_add_right _ _).trans (lt_of_batch hne hbatch)
    rw [htake hcursor]
    refine ⟨hne, ?_, done, hfresh, hdelivered⟩
    rw [List.drop_append_of_le_length hcursor]
    exact hbatch.trans (List.prefix_append _ _)

/-- A step of a stream. -/
theorem StreamInv.step {a : StreamAct} (hindexed : log.Indexed) (h : StreamInv log s)
    (hs : streamStep log s a = some s') : StreamInv log s' := by
  obtain ⟨cursor, phase, text⟩ := s
  cases a with
  | advance =>
      cases phase with
      | polling =>
          obtain ⟨hcursor, hdelivered⟩ := h
          simp only [streamStep] at hs
          split at hs
          · obtain rfl := Option.some.inj hs
            exact ⟨hcursor, hdelivered⟩
          · rename_i hne
            obtain rfl := Option.some.inj hs
            exact ⟨hne, List.prefix_rfl, [], rfl, by simpa using hdelivered⟩
      | sending fresh todo =>
          obtain ⟨hne, hbatch, done, hfresh, hdelivered⟩ := h
          cases todo with
          | cons e todo =>
              obtain rfl := Option.some.inj hs
              refine ⟨hne, hbatch, done ++ [e], by simp [hfresh], ?_⟩
              rw [← List.append_assoc]
              exact hdelivered.event e
          | nil =>
              simp only [streamStep] at hs
              split at hs
              · rename_i e hlast
                obtain rfl := Option.some.inj hs
                -- the cursor is recomputed from the last event delivered
                show e.index + 1 ≤ log.length ∧ Delivered text (log.take (e.index + 1))
                rw [index_of_last hindexed hbatch hlast, take_add_batch hbatch]
                refine ⟨lt_of_batch hne hbatch, ?_⟩
                rw [hfresh, List.append_nil]
                exact hdelivered
              · cases hs
      | sleeping => cases hs
  | wake due =>
      cases phase with
      | sleeping =>
          obtain ⟨hcursor, hdelivered⟩ := h
          obtain rfl := Option.some.inj hs
          refine ⟨hcursor, ?_⟩
          cases due with
          | true => exact hdelivered.comment
          | false => exact hdelivered
      | polling | sending => cases hs

/-- What a client has from a stream is a prefix of the log. -/
theorem StreamInv.delivered (h : StreamInv log s) :
    ∃ n ≤ log.length, Delivered s.text (log.take n) := by
  unfold StreamInv at h
  split at h
  · exact ⟨s.cursor, h⟩
  · exact ⟨s.cursor, h⟩
  · obtain ⟨hne, hbatch, done, rfl, hdelivered⟩ := h
    have hdone : done <+: log.drop s.cursor := (List.prefix_append done _).trans hbatch
    refine ⟨s.cursor + done.length, ?_, ?_⟩
    · have hlen := lt_of_batch hne hbatch
      rw [List.length_append] at hlen
      omega
    · rw [take_add_batch hdone]
      exact hdelivered

end Stream

/-- What holds of a user of the log. -/
def LogUserInv (log : EventLog) : LogUserState → Prop
  | .streaming s => StreamInv log s
  | .writing | .written => True

theorem LogUserInv.step {m : LogUser} {x y : EventLog × LogUserState} {a : LogUserAct}
    (hindexed : x.1.Indexed) (h : LogUserInv x.1 x.2) (hs : logUserStep m x a = some y) :
    y.1.Indexed ∧ LogUserInv y.1 y.2 ∧ x.1 <+: y.1 := by
  obtain ⟨log, p⟩ := x
  unfold logUserStep at hs
  split at hs
  · rename_i job body _ heq
    obtain ⟨rfl, rfl⟩ := Prod.mk.inj heq
    obtain rfl := Option.some.inj hs
    exact ⟨hindexed.append job body, trivial, List.prefix_append _ _⟩
  · rename_i s _ heq
    obtain ⟨rfl, rfl⟩ := Prod.mk.inj heq
    obtain ⟨s', hs', rfl⟩ := Option.map_eq_some_iff.mp hs
    exact ⟨hindexed, StreamInv.step hindexed h hs', List.prefix_rfl⟩
  · cases hs

/-- What a client reads in the text is the index, type and data of the first
events of the log, one after another. -/
def ReadsPrefix (log : EventLog) (text : Text) : Prop :=
  ∃ n ≤ log.length, (Sse.messages text).mapM readMessage =
    some ((log.take n).map fun e => (e.index, e.type, e.data))

/-- Read as they are, delivered events are without pairs, and the other way round. -/
theorem readsPrefix_iff {log : EventLog} {text : Text} {n : Nat} (hn : n ≤ log.length)
    (h : Delivered text (log.take n)) :
    ReadsPrefix log text ↔ ∀ e ∈ log.take n, e.Unpaired := by
  have hunpaired : (log.take n).map (fun e => (e.index, e.type, e.data.reread)) =
      (log.take n).map (fun e => (e.index, e.type, e.data)) ↔ ∀ e ∈ log.take n, e.Unpaired := by
    rw [List.map_inj_left]
    refine forall₂_congr fun e _ => ?_
    rw [Event.Unpaired, ← EventBody.reread_data]
    simp [Event.data]
  rw [← hunpaired]
  constructor
  · rintro ⟨m, hm, hread⟩
    have heq := Option.some.inj (h.read.symm.trans hread)
    -- as many messages, so the same prefix
    have hlength := congrArg List.length heq
    simp only [List.length_map, List.length_take] at hlength
    obtain rfl : n = m := by omega
    exact heq
  · intro heq
    exact ⟨n, hn, h.read.trans (congrArg some heq)⟩

/-- **Streams deliver prefixes of the log** exactly as far as no string in it has
two surrogate halves that make a character: in every state of every interleaving of
writers and streams, events carry their positions, and the text a stream has
yielded, read by the grammar of event streams and its data decoded, is the first
events of the log, one after another, if and only if these hold no such string. -/
theorem streams_deliver_prefixes_iff {P : LogPool} (hrun : LogReaches LogPool.empty P) :
    P.store.Indexed ∧ ∀ (i : Nat) (s : StreamState),
      P.members[i]? = some (.stream, .streaming s) →
      ∃ n ≤ P.store.length, (Sse.messages s.text).mapM readMessage =
          some ((P.store.take n).map fun e => (e.index, e.type, e.data.reread)) ∧
        (ReadsPrefix P.store s.text ↔ ∀ e ∈ P.store.take n, e.Unpaired) := by
  -- every stream is at a prefix of the log
  have hinv : PoolInv (fun _ => True) EventLog.Indexed
      (fun _ _ log p => LogUserInv log p) P := by
    refine PoolInv.reaches (G := fun log log' => log <+: log') ?_ ?_ ?_ hrun ⟨?_, ?_⟩
    · rintro - m log - -
      cases m with
      | writer => trivial
      | stream => exact ⟨Nat.zero_le _, delivered_nil⟩
    · exact fun _ _ _ _ _ _ _ hs hC hI => hI.step hC hs
    · intro _ _ log log' p _ hgrow hI
      cases p with
      | streaming s => exact StreamInv.grow hI hgrow
      | writing | written => trivial
    · intro i e he
      simp [LogPool.empty] at he
    · intro i m p hm
      simp [LogPool.empty] at hm
  refine ⟨hinv.store, fun i s hi => ?_⟩
  obtain ⟨n, hn, hdelivered⟩ := StreamInv.delivered (hinv.members i _ _ hi).2
  exact ⟨n, hn, hdelivered.read, readsPrefix_iff hn hdelivered⟩

/-! ### A message with line breaks in it, and one with a pair of halves -/

/-- A thread appends an event with this error, a stream polls before and after. -/
def failureActs (error : Str) : List (PoolAct LogUser LogUserAct) :=
  [.spawn (.writer "job" (.jobFailed error)), .spawn .stream, .act 1 (.stream .advance),
    .act 1 (.stream (.wake true)), .act 0 .append, .act 1 (.stream .advance),
    .act 1 (.stream .advance)]

/-- An error that tries to end its own event and to begin another. -/
def forgedError : Str := "a\n\nevent: job.completed\r\n: b"

/-- The two halves of one character, each for itself. -/
def pairedError : Str := .cut "" ⟨0xd83d, by decide⟩ (.cut "" ⟨0xde00, by decide⟩ "")

/-- Member `i` of the pool, if it is a stream. -/
def LogPool.stream? (P : LogPool) (i : Nat) : Option StreamState :=
  match P.members[i]? with
  | some (.stream, .streaming s) => some s
  | _ => none

theorem LogPool.of_stream? {P : LogPool} {i : Nat} {s : StreamState} (h : P.stream? i = some s) :
    P.members[i]? = some (.stream, .streaming s) := by
  unfold stream? at h
  split at h
  · rename_i s' hs'
    rw [hs', Option.some.inj h]
  · cases h

theorem logReaches_of_runActs {acts : List (PoolAct LogUser LogUserAct)} {P : LogPool}
    (h : runActs (poolStep LogUser.start logUserStep) acts LogPool.empty = some P) :
    LogReaches LogPool.empty P := by
  refine reaches_of_runActs (fun _ a => ?_) h
  cases a with
  | spawn m => trivial
  | act i a => exact fun _ _ _ => trivial

/-- The forged event is not there: one message is read, and it is the log. -/
theorem streams_deliver_prefixes_iff_forged : ∃ (P : LogPool) (s : StreamState),
    LogReaches LogPool.empty P ∧ P.members[1]? = some (.stream, .streaming s) ∧
      (Sse.messages s.text).map Sse.Message.type = ["job.failed".toList] ∧
      ReadsPrefix P.store s.text := by
  have hcheck : (runActs (poolStep LogUser.start logUserStep) (failureActs forgedError)
      LogPool.empty).bind (fun P => (LogPool.stream? P 1).map fun s =>
        ((Sse.messages s.text).map Sse.Message.type, P.store)) =
          some (["job.failed".toList], [⟨0, "job", .jobFailed forgedError⟩]) := by
    decide +kernel
  obtain ⟨P, hP, hcheck⟩ := Option.bind_eq_some_iff.mp hcheck
  obtain ⟨s, hs, hboth⟩ := Option.map_eq_some_iff.mp hcheck
  obtain ⟨htypes, hstore⟩ := Prod.mk.inj hboth
  have hrun := logReaches_of_runActs hP
  have hmember := LogPool.of_stream? hs
  obtain ⟨n, -, -, hiff⟩ := (streams_deliver_prefixes_iff hrun).2 1 s hmember
  refine ⟨P, s, hrun, hmember, htypes, hiff.mpr fun e he => ?_⟩
  have hlogged := List.mem_of_mem_take he
  rw [hstore] at hlogged
  rw [List.mem_singleton.mp hlogged, Event.Unpaired]
  decide

/-- The text of an error in an event's data. -/
def errorOf (data : Json) : Option Str :=
  match data with
  | .obj fields =>
    match fields.lookup (.text "error") with
    | some (.str error) => some error
    | _ => none
  | _ => none

/-- The halves come out as the character. -/
theorem streams_deliver_prefixes_fails : ¬ ∀ P : LogPool, LogReaches LogPool.empty P →
    P.store.Indexed ∧ ∀ (i : Nat) (s : StreamState),
      P.members[i]? = some (.stream, .streaming s) → ReadsPrefix P.store s.text := by
  intro h
  have hcheck : (runActs (poolStep LogUser.start logUserStep) (failureActs pairedError)
      LogPool.empty).bind (fun P => (LogPool.stream? P 1).map fun s =>
        (((Sse.messages s.text).mapM readMessage).map fun events =>
          events.map fun e => errorOf e.2.2, P.store)) =
            some (some [some (.text "😀")], [⟨0, "job", .jobFailed pairedError⟩]) := by
    decide +kernel
  obtain ⟨P, hP, hcheck⟩ := Option.bind_eq_some_iff.mp hcheck
  obtain ⟨s, hs, hboth⟩ := Option.map_eq_some_iff.mp hcheck
  obtain ⟨hread, hstore⟩ := Prod.mk.inj hboth
  obtain ⟨n, hn, hfirst⟩ := (h P (logReaches_of_runActs hP)).2 1 s (LogPool.of_stream? hs)
  rw [hfirst, hstore] at hread
  rw [hstore, List.length_singleton] at hn
  interval_cases n
  · exact absurd hread (by decide)
  · exact absurd hread (by decide)

/-! ### The logs of a server -/

section Server

variable {service : Service} {req : JobRequest} {beh : Behaviour}

/-- Unchanged, or one `append`. -/
def LogStep (log log' : EventLog) : Prop := log' = log ∨ ∃ job body, log' = log.append job body

theorem gateStep_log {groups : Groups} {job : Str} {x y : SessionState × GateState} {a : GateAct}
    (hs : gateStep groups job x a = some y) : LogStep x.1.events y.1.events := by
  cases gateStep_move groups job hs with
  | announceGated | announce => exact Or.inr ⟨_, _, rfl⟩
  | direct | enter | add | record | next | leave | ret => exact Or.inl rfl

/-- A step of a job writes to its session's log by `append` only. -/
theorem jobStep_log {x y : Desk × JobState} {a : JobAct} (hs : jobStep service req x a = some y) :
    LogStep x.1.2.events y.1.2.events := by
  cases jobStep_move service req hs with
  | announcePending | announceRunning | announceStatus | announceEnd | notify =>
      exact Or.inr ⟨_, _, rfl⟩
  | emitted _ _ hret => exact gateStep_log hret
  | gate _ _ _ hgate => exact gateStep_log hgate
  | refuse | accept | mark | group | stuck | enter | returned | raised | close | exec | cancel =>
      exact Or.inl rfl

theorem logStep_put {k : ServerStore} {session : Str} {d : Desk}
    (h : LogStep (k.sessions session).events d.2.events) (sid : Str) :
    LogStep (k.sessions sid).events ((k.put session d).sessions sid).events := by
  show LogStep _ (Function.update k.sessions session d.2 sid).events
  by_cases hsid : sid = session
  · subst hsid
    rw [Function.update_self]
    exact h
  · rw [Function.update_of_ne hsid]
    exact Or.inl rfl

theorem poolStep_log {P P' : Server} {a : PoolAct Party PartyAct}
    (hs : poolStep Party.start (partyStep service) P a = some P') (sid : Str) :
    LogStep (P.store.sessions sid).events (P'.store.sessions sid).events := by
  rcases poolStep_cases hs with ⟨m, -, rfl⟩ | ⟨i, b, m, p, x, -, -, hx, rfl⟩
  · exact Or.inl rfl
  · cases m with
    | job req =>
        cases p with
        | job j =>
            cases b with
            | job b =>
                obtain ⟨y, hy, rfl⟩ := Option.map_eq_some_iff.mp hx
                -- a job logs one event at most, in its own session
                exact logStep_put (jobStep_log hy) sid
            | store id => cases hx
        | uploading | uploaded => cases hx
    | upload session type data =>
        cases p with
        | uploading =>
            cases b with
            | job b => cases hx
            | store id =>
                obtain rfl := Option.some.inj hx
                -- an upload logs nothing
                exact logStep_put (Or.inl rfl) sid
        | job | uploaded => cases hx

end Server

end Formshift
