/-
Formshift/Lib/Sse.lean

The grammar of an event stream, as a client reads it: lines ended by LF, CR or
CRLF, comments, the fields `id`, `event` and `data`, and a message where a
blank line stands behind some data.

A text made of whole lines without a break in them is read line by line
(`lines_unlines`); the lines of a message give that message
(`foldl_feed_message`), and those of a comment give nothing
(`foldl_feed_comment`).
-/
import Formshift.Lib.Text

namespace Sse

open Py

/-! ### Lines -/

/-- The whole lines of a text, the first one begun with `line`. -/
def linesFrom (line : Text) : Text → List Text
  | [] => []
  | '\r' :: '\n' :: rest => line :: linesFrom [] rest
  | '\r' :: rest => line :: linesFrom [] rest
  | '\n' :: rest => line :: linesFrom [] rest
  | c :: rest => linesFrom (line ++ [c]) rest

/-- The whole lines of a text; what stands behind the last one is still open. -/
def lines (text : Text) : List Text := linesFrom [] text

/-- A line with no break in it. -/
def Unbroken (line : Text) : Prop := '\n' ∉ line ∧ '\r' ∉ line

def unlines (ls : List Text) : Text := ls.flatMap fun line => line ++ ['\n']

theorem unlines_append (ls ls' : List Text) : unlines (ls ++ ls') = unlines ls ++ unlines ls' :=
  List.flatMap_append

theorem linesFrom_append {line : Text} (h : Unbroken line) (start rest : Text) :
    linesFrom start (line ++ '\n' :: rest) = (start ++ line) :: lines rest := by
  induction line generalizing start with
  | nil =>
      rw [List.append_nil]
      rfl
  | cons c line ih =>
      have hn : c ≠ '\n' := fun e => h.1 (e ▸ List.mem_cons_self)
      have hr : c ≠ '\r' := fun e => h.2 (e ▸ List.mem_cons_self)
      have hline : Unbroken line :=
        ⟨fun hin => h.1 (List.mem_cons_of_mem c hin), fun hin => h.2 (List.mem_cons_of_mem c hin)⟩
      rw [List.cons_append, linesFrom, ih hline, List.append_assoc]
      · rfl
      · exact fun _ e _ => hr e
      · exact hr
      · exact hn

/-- Whole unbroken lines are read as they were written. -/
theorem lines_unlines {ls : List Text} (h : ∀ line ∈ ls, Unbroken line) : lines (unlines ls) = ls := by
  induction ls with
  | nil => rfl
  | cons line ls ih =>
      have htext : unlines (line :: ls) = line ++ '\n' :: unlines ls := by simp [unlines]
      rw [htext, lines, linesFrom_append (h line List.mem_cons_self), List.nil_append,
        ih fun l hl => h l (List.mem_cons_of_mem line hl)]

/-! ### Messages -/

structure Message where
  id : Text
  type : Text
  data : Text
  deriving DecidableEq

/-- The last id, and the type and the data collected for the next message. -/
structure Buffers where
  id : Text
  type : Text
  data : Text
  deriving DecidableEq

def idName : Text := ['i', 'd']

def eventName : Text := ['e', 'v', 'e', 'n', 't']

def dataName : Text := ['d', 'a', 't', 'a']

/-- The type of a message that names none. -/
def defaultType : Text := ['m', 'e', 's', 's', 'a', 'g', 'e']

/-- One field. -/
def field (b : Buffers) (name value : Text) : Buffers :=
  if name = eventName then { b with type := value }
  else if name = dataName then { b with data := b.data ++ value ++ ['\n'] }
  else if name = idName then if '\x00' ∈ value then b else { b with id := value }
  else b

/-- A value without the blank it may begin with. -/
def unpad : Text → Text
  | ' ' :: value => value
  | value => value

/-- One line, and the messages dispatched so far. -/
def feed (state : Buffers × List Message) (line : Text) : Buffers × List Message :=
  match line with
  | [] =>
    if state.1.data = [] then ({ state.1 with type := [], data := [] }, state.2)
    else
      let type := if state.1.type = [] then defaultType else state.1.type
      ({ state.1 with type := [], data := [] },
        state.2 ++ [⟨state.1.id, type, state.1.data.dropLast⟩])
  | ':' :: _ => state
  | _ =>
    let (name, value) := Text.partition ':' line
    (field state.1 name (unpad value), state.2)

/-- The messages a client has got from a text. -/
def messages (text : Text) : List Message := ((lines text).foldl feed (⟨[], [], []⟩, [])).2

/-- A field as a line. -/
def fieldLine (name value : Text) : Text := name ++ ':' :: ' ' :: value

/-- A message as lines. -/
def Message.lines (m : Message) : List Text :=
  [fieldLine idName m.id, fieldLine eventName m.type, fieldLine dataName m.data, []]

/-- What a message written in lines has to hold. -/
structure Message.Plain (m : Message) : Prop where
  id : Unbroken m.id
  noNul : '\x00' ∉ m.id
  type : Unbroken m.type
  typed : m.type ≠ []
  data : Unbroken m.data

theorem unbroken_fieldLine {name value : Text} (hname : Unbroken name) (hvalue : Unbroken value) :
    Unbroken (fieldLine name value) := by
  simp only [Unbroken, fieldLine, List.mem_append, List.mem_cons, not_or] at *
  exact ⟨⟨hname.1, by decide, by decide, hvalue.1⟩, hname.2, by decide, by decide, hvalue.2⟩

theorem Message.Plain.unbroken {m : Message} (h : m.Plain) : ∀ line ∈ m.lines, Unbroken line := by
  intro line hline
  simp only [Message.lines, List.mem_cons, List.not_mem_nil, or_false] at hline
  rcases hline with rfl | rfl | rfl | rfl
  · exact unbroken_fieldLine ⟨by decide, by decide⟩ h.id
  · exact unbroken_fieldLine ⟨by decide, by decide⟩ h.type
  · exact unbroken_fieldLine ⟨by decide, by decide⟩ h.data
  · exact ⟨List.not_mem_nil, List.not_mem_nil⟩

/-- A field line is split at the colon behind its name. -/
theorem feed_fieldLine {name : Text} (hname : name ≠ []) (hcolon : ':' ∉ name) (value : Text)
    (state : Buffers × List Message) :
    feed state (fieldLine name value) = (field state.1 name value, state.2) := by
  have hpart : Text.partition ':' (fieldLine name value) = (name, ' ' :: value) :=
    Text.partition_append hcolon
  obtain ⟨c, rest, rfl⟩ := List.exists_cons_of_ne_nil hname
  have hc : c ≠ ':' := fun e => hcolon (e ▸ List.mem_cons_self)
  unfold feed
  split
  · rename_i heq
    cases heq
  · rename_i heq
    exact absurd (List.cons.inj heq).1 hc
  · rw [hpart]
    rfl

/-- **The lines of a message are that message.** -/
theorem foldl_feed_message {m : Message} (h : m.Plain) (last : Text) (out : List Message) :
    m.lines.foldl feed (⟨last, [], []⟩, out) = (⟨m.id, [], []⟩, out ++ [m]) := by
  have hid : ∀ state, feed state (fieldLine idName m.id) = ({ state.1 with id := m.id }, state.2) := by
    intro state
    rw [feed_fieldLine (by decide) (by decide), field, if_neg (by decide), if_neg (by decide),
      if_pos rfl, if_neg h.noNul]
  have htype : ∀ state, feed state (fieldLine eventName m.type) =
      ({ state.1 with type := m.type }, state.2) := by
    intro state
    rw [feed_fieldLine (by decide) (by decide), field, if_pos rfl]
  have hdata : ∀ state, feed state (fieldLine dataName m.data) =
      ({ state.1 with data := state.1.data ++ m.data ++ ['\n'] }, state.2) := by
    intro state
    rw [feed_fieldLine (by decide) (by decide), field, if_neg (by decide), if_pos rfl]
  simp only [Message.lines, List.foldl_cons, List.foldl_nil, hid, htype, hdata]
  simp [feed, h.typed]

/-- **A comment is nothing.** -/
theorem foldl_feed_comment (comment last : Text) (out : List Message) :
    [':' :: comment, []].foldl feed (⟨last, [], []⟩, out) = (⟨last, [], []⟩, out) := rfl

end Sse
