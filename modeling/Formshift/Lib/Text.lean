/-
Formshift/Lib/Text.lean

Python's string methods on the characters of a string, as far as a header
parser needs them: `strip`, `split` and `rsplit` at one separator, `partition`,
`startswith`, `lower`.

Each cut comes with the equation that says what it does to a text written as
`before ++ sep :: after`, and every text can be written so (`exists_first`,
`exists_last`); programs are reasoned about through these two, never by
unfolding a cut.
-/
import Mathlib

namespace Py

/-- The characters of a string. -/
abbrev Text := List Char

namespace Text

/-! ### Characters -/

/-- `str.isspace` of one character. -/
def isSpace (c : Char) : Bool :=
  [0x9, 0xa, 0xb, 0xc, 0xd, 0x1c, 0x1d, 0x1e, 0x1f, 0x20, 0x85, 0xa0, 0x1680, 0x2000, 0x2001,
    0x2002, 0x2003, 0x2004, 0x2005, 0x2006, 0x2007, 0x2008, 0x2009, 0x200a, 0x2028, 0x2029, 0x202f,
    0x205f, 0x3000].contains c.toNat

def isDigit (c : Char) : Bool := '0' ≤ c && c ≤ '9'

/-- `str.lower` of one Latin-1 character. -/
def lowerChar (c : Char) : Char :=
  if ('A' ≤ c && c ≤ 'Z') || (0xc0 ≤ c.toNat && c.toNat ≤ 0xde && c.toNat != 0xd7) then
    Char.ofNat (c.toNat + 32)
  else c

def lower (s : Text) : Text := s.map lowerChar

/-- `str.isascii`. -/
def IsAscii (s : Text) : Prop := (s.all fun c => c.toNat < 128) = true

instance (s : Text) : Decidable (IsAscii s) :=
  inferInstanceAs (Decidable ((s.all fun c => c.toNat < 128) = true))

/-! ### Trimming -/

def lstrip (s : Text) : Text := s.dropWhile isSpace

def rstrip (s : Text) : Text := (s.reverse.dropWhile isSpace).reverse

def strip (s : Text) : Text := rstrip (lstrip s)

/-- A text that does not begin with a space is left alone. -/
theorem lstrip_of_head {s : Text} (h : ∀ c ∈ s.head?, isSpace c = false) : lstrip s = s := by
  cases s with
  | nil => rfl
  | cons c cs => rw [lstrip, List.dropWhile_cons_of_neg (by simpa using h c (by simp))]

theorem head_lstrip (s : Text) : ∀ c ∈ (lstrip s).head?, isSpace c = false := by
  intro c hc
  have hne : lstrip s ≠ [] := by
    intro hnil
    rw [hnil] at hc
    cases hc
  have hhead := List.head_dropWhile_not isSpace hne
  rw [List.head?_eq_some_head hne] at hc
  obtain rfl : (lstrip s).head hne = c := Option.some.inj hc
  show isSpace ((s.dropWhile isSpace).head hne) = false
  simpa using hhead

/-- What is not blank is not stripped away. -/
theorem strip_ne_nil {s : Text} {c : Char} (hc : c ∈ s) (hspace : isSpace c = false) :
    strip s ≠ [] := by
  intro h
  have hnil : lstrip s = [] := by
    by_contra hne
    obtain ⟨d, l, hl⟩ := List.exists_cons_of_ne_nil hne
    have hd := head_lstrip s d (by rw [hl]; rfl)
    rw [strip, hl, rstrip, List.reverse_eq_nil_iff, List.dropWhile_eq_nil_iff] at h
    rw [h d (by simp)] at hd
    cases hd
  rw [List.dropWhile_eq_nil_iff.mp hnil c hc] at hspace
  cases hspace

/-- Trimming at the right keeps the first character of what is left. -/
theorem head_rstrip {s : Text} {c : Char} (h : (rstrip s).head? = some c) : s.head? = some c := by
  have hpre : rstrip s <+: s := by
    have hsuf := List.dropWhile_suffix (l := s.reverse) isSpace
    simpa [rstrip] using List.reverse_prefix.mpr hsuf
  obtain ⟨t, ht⟩ := hpre
  rw [← ht, List.head?_append, h]
  rfl

@[simp] theorem rstrip_rstrip (s : Text) : rstrip (rstrip s) = rstrip s := by
  have h := lstrip_of_head (head_lstrip s.reverse)
  simp only [lstrip] at h
  simp only [rstrip, List.reverse_reverse, h]

@[simp] theorem strip_strip (s : Text) : strip (strip s) = strip s := by
  have hhead : ∀ c ∈ (strip s).head?, isSpace c = false := fun c hc =>
    head_lstrip s c (head_rstrip hc)
  rw [strip, lstrip_of_head hhead, strip, rstrip_rstrip]

theorem strip_of_noSpace {s : Text} (hany : s.any isSpace = false) : strip s = s := by
  have h : ∀ c ∈ s, isSpace c = false := by simpa using hany
  have hhead : ∀ t : Text, (∀ c ∈ t, isSpace c = false) → lstrip t = t := fun t ht =>
    lstrip_of_head fun c hc => ht c (List.mem_of_head? hc)
  have hrev := hhead s.reverse fun c hc => h c (List.mem_reverse.mp hc)
  simp only [lstrip] at hrev
  rw [strip, hhead s h, rstrip, hrev, List.reverse_reverse]

/-! ### Cuts -/

section Cuts

variable (sep : Char)

/-- `s.split(sep, 1)[0]`. -/
def before (s : Text) : Text := s.takeWhile (· ≠ sep)

/-- `s.rsplit(sep, 1)[0]`. -/
def beforeLast (s : Text) : Text :=
  if sep ∈ s then ((s.reverse.dropWhile (· ≠ sep)).drop 1).reverse else s

/-- `s.partition(sep)`, less the separator itself. -/
def partition (s : Text) : Text × Text := (before sep s, (s.dropWhile (· ≠ sep)).drop 1)

variable {sep}

theorem exists_first {s : Text} (h : sep ∈ s) : ∃ a b, s = a ++ sep :: b ∧ sep ∉ a :=
  List.eq_append_cons_of_mem h

theorem exists_last {s : Text} (h : sep ∈ s) : ∃ a b, s = a ++ sep :: b ∧ sep ∉ b := by
  obtain ⟨a, b, hs, hnot⟩ := exists_first (List.mem_reverse.mpr h)
  refine ⟨b.reverse, a.reverse, ?_, by simpa using hnot⟩
  have := congrArg List.reverse hs
  simpa using this

theorem takeWhile_ne {a b : Text} (h : sep ∉ a) :
    (a ++ sep :: b).takeWhile (· ≠ sep) = a := by
  rw [List.takeWhile_append_of_pos fun c hc => by simpa using fun e : c = sep => h (e ▸ hc)]
  simp

theorem dropWhile_ne {a b : Text} (h : sep ∉ a) :
    (a ++ sep :: b).dropWhile (· ≠ sep) = sep :: b := by
  rw [List.dropWhile_append_of_pos fun c hc => by simpa using fun e : c = sep => h (e ▸ hc)]
  simp

theorem before_of_notMem {s : Text} (h : sep ∉ s) : before sep s = s :=
  List.takeWhile_eq_self_iff.mpr fun c hc => by simpa using fun e : c = sep => h (e ▸ hc)

@[simp] theorem before_append {a b : Text} (h : sep ∉ a) : before sep (a ++ sep :: b) = a :=
  takeWhile_ne h

@[simp] theorem beforeLast_append {a b : Text} (h : sep ∉ b) :
    beforeLast sep (a ++ sep :: b) = a := by
  have hrev : (a ++ sep :: b).reverse = b.reverse ++ sep :: a.reverse := by simp
  rw [beforeLast, if_pos (by simp), hrev, dropWhile_ne (by simpa using h)]
  simp

theorem partition_of_notMem {s : Text} (h : sep ∉ s) : partition sep s = (s, []) := by
  have hdrop : s.dropWhile (· ≠ sep) = [] :=
    List.dropWhile_eq_nil_iff.mpr fun c hc => by simpa using fun e : c = sep => h (e ▸ hc)
  rw [partition, before_of_notMem h, hdrop]
  rfl

@[simp] theorem partition_append {a b : Text} (h : sep ∉ a) :
    partition sep (a ++ sep :: b) = (a, b) := by
  rw [partition, before_append h, dropWhile_ne h]
  rfl

end Cuts

end Text

end Py
