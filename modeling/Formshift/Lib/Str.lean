/-
Formshift/Lib/Str.lean

Python strings.

A `str` is a sequence of code points, and a code point may be half of a
surrogate pair, which no text encodes; `json.loads` lets such halves through.
`Str` is a text, or a text up to its first half with what follows, so that every
string is spelled in one way (`codes_injective`) and one without halves is a
`String`.

Where code points go through escapes of sixteen bits, two halves that stand
side by side come out as the character they are the halves of: `joined`.  That
is no change exactly where no high half is directly followed by a low one
(`joined_eq_self_iff`).
-/
import Mathlib

namespace Py

/-! ### Code points -/

/-- Half of a surrogate pair. -/
structure Surrogate where
  toNat : Nat
  wf : 0xd800 ≤ toNat ∧ toNat < 0xe000
  deriving DecidableEq

/-- A code point of a string. -/
inductive Code where
  | char (c : Char)
  | half (h : Surrogate)
  deriving DecidableEq

/-- A scalar value is below the surrogates or above them. -/
theorem toNat_scalar (c : Char) :
    c.toNat < 0xd800 ∨ 0xdfff < c.toNat ∧ c.toNat < 0x110000 := c.valid

namespace Code

/-- `ord`. -/
def ord : Code → Nat
  | .char c => c.toNat
  | .half h => h.toNat

/-- `chr`. -/
def chr (n : Nat) : Code :=
  if h : 0xd800 ≤ n ∧ n < 0xe000 then .half ⟨n, h⟩ else .char (Char.ofNat n)

theorem chr_ord (c : Code) : chr c.ord = c := by
  cases c with
  | char c =>
      have hc := toNat_scalar c
      rw [ord, chr, dif_neg (by omega), Char.ofNat_toNat]
  | half h => rw [ord, chr, dif_pos h.wf]

theorem ord_chr {n : Nat} (h : n < 0x110000) : (chr n).ord = n := by
  unfold chr
  split
  · rfl
  · have hvalid : n.isValidChar := by
      unfold Nat.isValidChar
      omega
    rw [ord, Char.ofNat, dif_pos hvalid]
    exact Char.toNat_ofNatAux hvalid

theorem ord_injective : Function.Injective ord :=
  Function.LeftInverse.injective chr_ord

def isHigh (c : Code) : Bool := decide (0xd800 ≤ c.ord) && decide (c.ord < 0xdc00)

def isLow (c : Code) : Bool := decide (0xdc00 ≤ c.ord) && decide (c.ord < 0xe000)

theorem isHigh_iff {c : Code} : c.isHigh = true ↔ 0xd800 ≤ c.ord ∧ c.ord < 0xdc00 := by
  simp [isHigh]

theorem isLow_iff {c : Code} : c.isLow = true ↔ 0xdc00 ≤ c.ord ∧ c.ord < 0xe000 := by
  simp [isLow]

@[simp] theorem isHigh_char (c : Char) : (char c).isHigh = false := by
  have hc := toNat_scalar c
  rw [← Bool.not_eq_true, isHigh_iff, ord]
  omega

@[simp] theorem isLow_char (c : Char) : (char c).isLow = false := by
  have hc := toNat_scalar c
  rw [← Bool.not_eq_true, isLow_iff, ord]
  omega

/-- The character two halves make. -/
def pair (high low : Code) : Code :=
  chr (0x10000 + (high.ord - 0xd800) * 0x400 + (low.ord - 0xdc00))

/-- Every half that is followed by its other half is taken together with it. -/
def join : List Code → List Code
  | c :: d :: cs => if c.isHigh && d.isLow then c.pair d :: join cs else c :: join (d :: cs)
  | [c] => [c]
  | [] => []

/-- A high half is directly followed by a low one. -/
def hasPair : List Code → Bool
  | c :: d :: cs => c.isHigh && d.isLow || hasPair (d :: cs)
  | [_] | [] => false

theorem join_length_le (cs : List Code) : (join cs).length ≤ cs.length := by
  fun_induction join cs with
  | case1 c d cs _ ih =>
      simp only [List.length_cons]
      omega
  | case2 c d cs _ ih =>
      simp only [List.length_cons] at ih ⊢
      omega
  | case3 c => exact Nat.le_refl _
  | case4 => exact Nat.le_refl _

/-- What is taken together is fewer than before. -/
theorem join_eq_self_iff (cs : List Code) : join cs = cs ↔ hasPair cs = false := by
  fun_induction join cs with
  | case1 c d cs hpair ih =>
      have hlen := join_length_le cs
      simp only [hasPair, hpair, Bool.true_or, Bool.true_eq_false, iff_false]
      intro heq
      have hcount := congrArg List.length heq
      simp only [List.length_cons] at hcount
      omega
  | case2 c d cs hpair ih =>
      rw [List.cons.injEq, ih, hasPair, Bool.or_eq_false_iff]
      simp [hpair]
  | case3 c => simp [hasPair]
  | case4 => simp [hasPair]

/-- Text is left alone. -/
theorem join_chars (cs : List Char) : join (cs.map .char) = cs.map .char := by
  rw [join_eq_self_iff]
  induction cs with
  | nil => rfl
  | cons c cs ih =>
      cases cs with
      | nil => rfl
      | cons d cs =>
          simp only [List.map_cons] at ih ⊢
          rw [hasPair, isHigh_char, ih]
          rfl

end Code

/-! ### Strings -/

/-- A Python `str`: a text, or the text up to the first half and what follows. -/
inductive Str where
  | text (s : String)
  | cut (s : String) (half : Surrogate) (rest : Str)
  deriving DecidableEq

namespace Str

instance : Coe String Str := ⟨text⟩

@[simp] theorem text_beq (s t : String) : (text s == text t) = (s == t) := by
  rw [Bool.eq_iff_iff, beq_iff_eq, beq_iff_eq, text.injEq]

instance : Infinite Str := Infinite.of_injective text fun _ _ => text.inj

/-- `s + t`. -/
def append : Str → Str → Str
  | text s, text t => text (s ++ t)
  | text s, cut t half rest => cut (s ++ t) half rest
  | cut s half rest, t => cut s half (rest.append t)

instance : Append Str := ⟨append⟩

instance : HAppend String Str Str := ⟨fun s t => append s t⟩

instance : HAppend Str String Str := ⟨fun s t => append s t⟩

/-- `sep.join(strings)`. -/
def intercalate (sep : Str) : List Str → Str
  | [] => ""
  | [s] => s
  | s :: rest => s ++ (sep ++ intercalate sep rest)

/-- One more character in front. -/
def cons (c : Char) : Str → Str
  | text s => text (String.ofList (c :: s.toList))
  | cut s half rest => cut (String.ofList (c :: s.toList)) half rest

def codes : Str → List Code
  | text s => s.toList.map .char
  | cut s half rest => s.toList.map .char ++ .half half :: rest.codes

def ofCodes : List Code → Str
  | [] => text ""
  | .char c :: cs => cons c (ofCodes cs)
  | .half half :: cs => cut "" half (ofCodes cs)

theorem codes_cons (c : Char) (s : Str) : (cons c s).codes = .char c :: s.codes := by
  cases s <;> simp [cons, codes]

theorem codes_ofCodes (cs : List Code) : (ofCodes cs).codes = cs := by
  induction cs with
  | nil => rfl
  | cons c cs ih =>
      cases c with
      | char c => rw [ofCodes, codes_cons, ih]
      | half half => rw [ofCodes, codes, ih]; rfl

theorem ofCodes_chars (cs : List Char) : ofCodes (cs.map .char) = text (String.ofList cs) := by
  induction cs with
  | nil => rfl
  | cons c cs ih => rw [List.map_cons, ofCodes, ih, cons, String.toList_ofList]

theorem ofCodes_chars_append (cs : List Char) (half : Surrogate) (ds : List Code) :
    ofCodes (cs.map .char ++ .half half :: ds) = cut (String.ofList cs) half (ofCodes ds) := by
  induction cs with
  | nil => rfl
  | cons c cs ih => rw [List.map_cons, List.cons_append, ofCodes, ih, cons, String.toList_ofList]

theorem ofCodes_codes (s : Str) : ofCodes s.codes = s := by
  induction s with
  | text s => rw [codes, ofCodes_chars, String.ofList_toList]
  | cut s half rest ih => rw [codes, ofCodes_chars_append, ih, String.ofList_toList]

/-- **A string is its code points.** -/
theorem codes_injective : Function.Injective codes :=
  Function.LeftInverse.injective ofCodes_codes

/-! ### Order -/

/-- Strings are ordered by their code points. -/
def ords (s : Str) : List Nat := s.codes.map Code.ord

theorem ords_injective : Function.Injective ords :=
  Code.ord_injective.list_map.comp codes_injective

instance : LE Str := ⟨fun s t => s.ords ≤ t.ords⟩

instance : DecidableRel ((· ≤ ·) : Str → Str → Prop) := fun s t =>
  inferInstanceAs (Decidable (s.ords ≤ t.ords))

theorem le_or_ge (s t : Str) : s ≤ t ∨ t ≤ s := le_total s.ords t.ords

theorem le_chain {s t u : Str} (h : s ≤ t) (h' : t ≤ u) : s ≤ u :=
  le_trans (a := s.ords) h h'

theorem eq_of_le {s t : Str} (h : s ≤ t) (h' : t ≤ s) : s = t :=
  ords_injective (le_antisymm (a := s.ords) h h')

/-! ### Halves -/

/-- No half of a pair stands in it. -/
def isText : Str → Bool
  | text _ => true
  | cut _ _ _ => false

def joined (s : Str) : Str := ofCodes (Code.join s.codes)

def hasPair (s : Str) : Bool := Code.hasPair s.codes

@[simp] theorem joined_text (s : String) : (text s).joined = text s := by
  rw [joined, codes, Code.join_chars, ofCodes_chars, String.ofList_toList]

theorem joined_eq_self_iff (s : Str) : s.joined = s ↔ s.hasPair = false := by
  rw [hasPair, ← Code.join_eq_self_iff, joined]
  constructor
  · intro h
    rw [← codes_ofCodes (Code.join s.codes), h]
  · intro h
    rw [h, ofCodes_codes]

end Str

end Py
