/-
Formshift/Lib/Json.lean

JSON values as Python's `json` module reads them, and the canonical text
`json.dumps(value, sort_keys=True, separators=(",", ":"))`.

The text is cut in two: `canon` sorts the fields of every object by key, and
`render` writes a value as it stands.  Strings are written with escapes of
sixteen bits, so a character beyond the BMP is written like the two halves of
its surrogate pair, which a string may hold as well; but for that (`joined`)
`render` is uniquely readable (`render_append_inj`).  Two values have one
canonical text exactly when their canonical forms agree up to such halves
(`dumps_eq_iff`), and a canonical form says no more than Python's own `==` on
dicts: equal up to the order of object keys (`same_of_canon_eq`,
`canon_eq_of_same`).

A float is carried by the text `float.__repr__` gives it.  That text is what
`json.dumps` writes, and it names one float (all NaN's share theirs), so
nothing the writer could see is lost.
-/
import Formshift.Lib.Str

namespace Py

/-! ### Values -/

/-- The characters of a decimal float literal. -/
def isFloatChar (c : Char) : Bool :=
  c.isDigit || c == '-' || c == '+' || c == '.' || c == 'e'

def nanText : List Char := ['N', 'a', 'N']

def infText : List Char := ['I', 'n', 'f', 'i', 'n', 'i', 't', 'y']

def negInfText : List Char := '-' :: infText

/-- The texts `json.dumps` can write for a float: the three names for the
non-finite values, or a decimal literal that a reader cannot take for an
integer. -/
def isFloatText (cs : List Char) : Bool :=
  cs == nanText || cs == infText || cs == negInfText ||
    (cs.all isFloatChar && cs.any fun c => c == '.' || c == 'e')

/-- A Python float, named by its JSON text. -/
structure Float where
  text : List Char
  wf : isFloatText text = true
  deriving DecidableEq

/-- The characters of a one-word value. -/
def isLiteralChar (c : Char) : Bool := c.isAlphanum || c == '-' || c == '+' || c == '.'

/-- The characters of a decimal integer. -/
def isIntChar (c : Char) : Bool := c.isDigit || c == '-'

theorem isLiteralChar_of_isDigit {c : Char} (h : c.isDigit = true) : isLiteralChar c = true := by
  simp [isLiteralChar, Char.isAlphanum, h]

/-- The three non-finite names, or the shape of a decimal literal. -/
theorem Float.text_cases (x : Float) :
    x.text = nanText ∨ x.text = infText ∨ x.text = negInfText ∨
      (∀ c ∈ x.text, isFloatChar c = true) ∧ ∃ c ∈ x.text, c = '.' ∨ c = 'e' := by
  have h := x.wf
  simp only [isFloatText, Bool.or_eq_true, beq_iff_eq, Bool.and_eq_true, List.all_eq_true,
    List.any_eq_true] at h
  rcases h with ((h | h) | h) | h
  · exact Or.inl h
  · exact Or.inr (Or.inl h)
  · exact Or.inr (Or.inr (Or.inl h))
  · exact Or.inr (Or.inr (Or.inr h))

theorem Float.text_ne_nil (x : Float) : x.text ≠ [] := by
  rcases x.text_cases with h | h | h | ⟨-, c, hc, -⟩
  · rw [h]; decide
  · rw [h]; decide
  · rw [h]; decide
  · exact List.ne_nil_of_mem hc

theorem Float.text_chars (x : Float) : ∀ c ∈ x.text, isLiteralChar c = true := by
  rcases x.text_cases with h | h | h | ⟨hall, -⟩
  · rw [h]; exact List.all_eq_true.mp (by decide)
  · rw [h]; exact List.all_eq_true.mp (by decide)
  · rw [h]; exact List.all_eq_true.mp (by decide)
  · intro c hc
    have hf := hall c hc
    simp only [isFloatChar, Bool.or_eq_true, beq_iff_eq] at hf
    rcases hf with (((hd | rfl) | rfl) | rfl) | rfl
    · exact isLiteralChar_of_isDigit hd
    all_goals decide

/-- A float is not spelled like an integer. -/
theorem Float.text_not_int (x : Float) : ∃ c ∈ x.text, isIntChar c = false := by
  rcases x.text_cases with h | h | h | ⟨-, c, hc, hce⟩
  · exact ⟨'N', by rw [h]; decide, by decide⟩
  · exact ⟨'I', by rw [h]; decide, by decide⟩
  · exact ⟨'I', by rw [h]; decide, by decide⟩
  · refine ⟨c, hc, ?_⟩
    rcases hce with rfl | rfl <;> decide

theorem Float.text_ne_word (x : Float) {w : List Char} (hw : isFloatText w = false) :
    x.text ≠ w := by
  rintro rfl
  rw [x.wf] at hw
  cases hw

/-- What `json.loads` can return. -/
inductive Json where
  | null
  | bool (b : Bool)
  | int (n : Int)
  | float (x : Float)
  | str (s : Str)
  | arr (items : List Json)
  | obj (fields : List (Str × Json))

/-- `type(value).__name__`. -/
def Json.typeName : Json → String
  | .null => "NoneType"
  | .bool _ => "bool"
  | .int _ => "int"
  | .float _ => "float"
  | .str _ => "str"
  | .arr _ => "list"
  | .obj _ => "dict"

namespace Json

/-! ### Strings -/

def hexDigit (n : Nat) : Char :=
  if n < 10 then Char.ofNat (48 + n) else Char.ofNat (87 + n)

/-- Four lower-case hexadecimal digits, as `'{0:04x}'.format(n)`. -/
def hex4 (n : Nat) : List Char :=
  [hexDigit (n / 4096 % 16), hexDigit (n / 256 % 16), hexDigit (n / 16 % 16), hexDigit (n % 16)]

def uEscape (n : Nat) : List Char := '\\' :: 'u' :: hex4 n

/-- `py_encode_basestring_ascii` on one character: printable ASCII stands for
itself, everything else is escaped, characters beyond the BMP as a surrogate
pair. -/
def escapeChar (c : Char) : List Char :=
  if c = '"' then ['\\', '"']
  else if c = '\\' then ['\\', '\\']
  else if c = '\n' then ['\\', 'n']
  else if c = '\r' then ['\\', 'r']
  else if c = '\t' then ['\\', 't']
  else if c = '\x0c' then ['\\', 'f']
  else if c = '\x08' then ['\\', 'b']
  else if 0x20 ≤ c.toNat ∧ c.toNat ≤ 0x7e then [c]
  else if c.toNat < 0x10000 then uEscape c.toNat
  else uEscape (0xd800 + (c.toNat - 0x10000) / 0x400) ++
    uEscape (0xdc00 + (c.toNat - 0x10000) % 0x400)

/-- A half on its own is escaped like a character of the BMP. -/
def escapeCode : Code → List Char
  | .char c => escapeChar c
  | .half h => uEscape h.toNat

def escape (cs : List Code) : List Char := cs.flatMap escapeCode

def quote (s : Str) : List Char := '"' :: (escape s.codes ++ ['"'])

/-! ### Rendering and canonical form -/

mutual

/-- `json.dumps(value, separators=(",", ":"))`, fields in the order they stand. -/
def render : Json → List Char
  | .null => ['n', 'u', 'l', 'l']
  | .bool true => ['t', 'r', 'u', 'e']
  | .bool false => ['f', 'a', 'l', 's', 'e']
  | .int n => n.repr.toList
  | .float x => x.text
  | .str s => quote s
  | .arr items => '[' :: (renderItems items ++ [']'])
  | .obj fields => '{' :: (renderFields fields ++ ['}'])

def renderItems : List Json → List Char
  | [] => []
  | x :: xs => render x ++ renderItemsTail xs

def renderItemsTail : List Json → List Char
  | [] => []
  | x :: xs => ',' :: (render x ++ renderItemsTail xs)

def renderFields : List (Str × Json) → List Char
  | [] => []
  | (k, v) :: fs => quote k ++ ':' :: (render v ++ renderFieldsTail fs)

def renderFieldsTail : List (Str × Json) → List Char
  | [] => []
  | (k, v) :: fs => ',' :: (quote k ++ ':' :: (render v ++ renderFieldsTail fs))

end

/-- Field order of `sorted(dct.items())`; the keys of a dict are distinct, so
the values are never compared. -/
def keyLE (f g : Str × Json) : Prop := f.1 ≤ g.1

instance : DecidableRel keyLE := fun f g => inferInstanceAs (Decidable (f.1 ≤ g.1))

instance : Std.Total keyLE := ⟨fun f g => Str.le_or_ge f.1 g.1⟩

instance : IsTrans (Str × Json) keyLE := ⟨fun _ _ _ h h' => Str.le_chain h h'⟩

mutual

/-- Every object's fields sorted by key (`sort_keys=True`). -/
def canon : Json → Json
  | .arr items => .arr (canonItems items)
  | .obj fields => .obj ((canonFields fields).insertionSort keyLE)
  | .null => .null
  | .bool b => .bool b
  | .int n => .int n
  | .float x => .float x
  | .str s => .str s

def canonItems : List Json → List Json
  | [] => []
  | x :: xs => canon x :: canonItems xs

def canonFields : List (Str × Json) → List (Str × Json)
  | [] => []
  | (k, v) :: fs => (k, canon v) :: canonFields fs

end

/-- `json.dumps(value, sort_keys=True, separators=(",", ":"))`. -/
def dumps (j : Json) : String := String.ofList (render (canon j))

mutual

/-- The value with the halves of surrogate pairs taken together in every string:
what it is taken for where its text is read. -/
def joined : Json → Json
  | .arr items => .arr (joinedItems items)
  | .obj fields => .obj (joinedFields fields)
  | .null => .null
  | .bool b => .bool b
  | .int n => .int n
  | .float x => .float x
  | .str s => .str s.joined

def joinedItems : List Json → List Json
  | [] => []
  | x :: xs => joined x :: joinedItems xs

def joinedFields : List (Str × Json) → List (Str × Json)
  | [] => []
  | (k, v) :: fs => (k.joined, joined v) :: joinedFields fs

end

mutual

/-- No half of a pair stands in any of its strings, so that its text, unescaped, has
an encoding. -/
def isText : Json → Bool
  | .arr items => isTextItems items
  | .obj fields => isTextFields fields
  | .str s => s.isText
  | .null | .bool _ | .int _ | .float _ => true

def isTextItems : List Json → Bool
  | [] => true
  | x :: xs => isText x && isTextItems xs

def isTextFields : List (Str × Json) → Bool
  | [] => true
  | (k, v) :: fs => k.isText && isText v && isTextFields fs

end

/-! ### Equality of values -/

mutual

/-- Python's `==`: an object is its set of key-value pairs. -/
def Same : Json → Json → Prop
  | .arr xs, .arr ys => SameItems xs ys
  | .obj fs, .obj gs => fs.length = gs.length ∧ SameFields fs gs
  | .null, .null => True
  | .bool b, .bool c => b = c
  | .int m, .int n => m = n
  | .float x, .float y => x = y
  | .str s, .str t => s = t
  | _, _ => False

def SameItems : List Json → List Json → Prop
  | [], [] => True
  | x :: xs, y :: ys => Same x y ∧ SameItems xs ys
  | _, _ => False

def SameFields : List (Str × Json) → List (Str × Json) → Prop
  | [], _ => True
  | (k, v) :: fs, gs => (∃ w, (k, w) ∈ gs ∧ Same v w) ∧ SameFields fs gs

end

mutual

/-- No object in the value has one key twice, as no Python dict has. -/
def distinct : Json → Bool
  | .arr items => distinctItems items
  | .obj fields => decide (fields.map Prod.fst).Nodup && distinctFields fields
  | _ => true

def distinctItems : List Json → Bool
  | [] => true
  | x :: xs => distinct x && distinctItems xs

def distinctFields : List (Str × Json) → Bool
  | [] => true
  | (_, v) :: fs => distinct v && distinctFields fs

end

/-! ### Reading a string back -/

def unhexDigit (c : Char) : Option Nat :=
  if '0' ≤ c ∧ c ≤ '9' then some (c.toNat - 48)
  else if 'a' ≤ c ∧ c ≤ 'f' then some (c.toNat - 87)
  else if 'A' ≤ c ∧ c ≤ 'F' then some (c.toNat - 55)
  else none

/-- Read one escaped code unit after its `\u`. -/
def unhex4 : List Char → Option (Nat × List Char)
  | a :: b :: c :: d :: rest => do
    let a ← unhexDigit a
    let b ← unhexDigit b
    let c ← unhexDigit c
    let d ← unhexDigit d
    return (a * 4096 + b * 256 + c * 16 + d, rest)
  | _ => none

/-- Read one code point of a string body; `none` at the closing quote, and where
none stands: a raw control character, an unknown escape.  An escaped high half
takes an escaped low half with it. -/
def unescape : List Char → Option (Code × List Char)
  | '\\' :: 'u' :: rest => do
    let (n, rest) ← unhex4 rest
    if 0xd800 ≤ n ∧ n < 0xdc00 then
      match rest with
      | '\\' :: 'u' :: more => do
        let (m, more) ← unhex4 more
        if 0xdc00 ≤ m ∧ m < 0xe000 then return ((Code.chr n).pair (Code.chr m), more)
        else return (Code.chr n, rest)
      | _ => return (Code.chr n, rest)
    else return (Code.chr n, rest)
  | '\\' :: 'n' :: rest => some (.char '\n', rest)
  | '\\' :: 'r' :: rest => some (.char '\r', rest)
  | '\\' :: 't' :: rest => some (.char '\t', rest)
  | '\\' :: 'f' :: rest => some (.char '\x0c', rest)
  | '\\' :: 'b' :: rest => some (.char '\x08', rest)
  | '\\' :: '"' :: rest => some (.char '"', rest)
  | '\\' :: '\\' :: rest => some (.char '\\', rest)
  | '\\' :: '/' :: rest => some (.char '/', rest)
  | '\\' :: _ => none
  | '"' :: _ => none
  | c :: rest => if c.toNat < 0x20 then none else some (.char c, rest)
  | [] => none

/-- A string body, up to its closing quote. -/
def readString : Nat → List Char → Option (List Code × List Char)
  | 0, _ => none
  | fuel + 1, cs =>
    match unescape cs with
    | some (c, rest) => (readString fuel rest).map fun (s, rest) => (c :: s, rest)
    | none =>
      match cs with
      | '"' :: rest => some ([], rest)
      | _ => none

theorem unhexDigit_hexDigit (n : Nat) (h : n < 16) : unhexDigit (hexDigit n) = some n := by
  have key : ∀ m : Fin 16, unhexDigit (hexDigit m) = some m.val := by decide
  exact key ⟨n, h⟩

theorem unhex4_hex4 (n : Nat) (h : n < 65536) (rest : List Char) :
    unhex4 (hex4 n ++ rest) = some (n, rest) := by
  have hn : n / 4096 % 16 * 4096 + n / 256 % 16 * 256 + n / 16 % 16 * 16 + n % 16 = n := by
    omega
  simp only [hex4, List.cons_append, List.nil_append, unhex4]
  rw [unhexDigit_hexDigit _ (Nat.mod_lt _ (by decide)), unhexDigit_hexDigit _ (Nat.mod_lt _ (by decide)),
    unhexDigit_hexDigit _ (Nat.mod_lt _ (by decide)), unhexDigit_hexDigit _ (Nat.mod_lt _ (by decide))]
  simp [hn]

theorem unescape_uEscape (n : Nat) (h : n < 65536) (hs : ¬ (0xd800 ≤ n ∧ n < 0xdc00))
    (rest : List Char) : unescape (uEscape n ++ rest) = some (Code.chr n, rest) := by
  simp only [uEscape, List.cons_append, unescape, unhex4_hex4 n h, Option.bind_eq_bind,
    Option.bind_some, if_neg hs]
  rfl

theorem unescape_pair (hi lo : Nat) (hhi : 0xd800 ≤ hi ∧ hi < 0xdc00)
    (hlo : 0xdc00 ≤ lo ∧ lo < 0xe000) (rest : List Char) :
    unescape (uEscape hi ++ (uEscape lo ++ rest)) =
      some ((Code.chr hi).pair (Code.chr lo), rest) := by
  simp only [uEscape, List.cons_append, unescape, unhex4_hex4 hi (by omega),
    Option.bind_eq_bind, Option.bind_some, if_pos hhi, unhex4_hex4 lo (by omega), if_pos hlo]
  rfl

/-- A high half that no escape follows stands for itself. -/
theorem unescape_high (hi : Nat) (hhi : 0xd800 ≤ hi ∧ hi < 0xdc00) {rest : List Char}
    (hrest : ∀ more, rest ≠ '\\' :: 'u' :: more) :
    unescape (uEscape hi ++ rest) = some (Code.chr hi, rest) := by
  simp only [uEscape, List.cons_append, unescape, unhex4_hex4 hi (by omega),
    Option.bind_eq_bind, Option.bind_some, if_pos hhi]
  rfl

/-- Neither does it take an escape with it that is no low half. -/
theorem unescape_high_uEscape (hi n : Nat) (hhi : 0xd800 ≤ hi ∧ hi < 0xdc00) (hn : n < 65536)
    (hlow : ¬ (0xdc00 ≤ n ∧ n < 0xe000)) (rest : List Char) :
    unescape (uEscape hi ++ (uEscape n ++ rest)) = some (Code.chr hi, uEscape n ++ rest) := by
  simp only [uEscape, List.cons_append, unescape, unhex4_hex4 hi (by omega),
    Option.bind_eq_bind, Option.bind_some, if_pos hhi, unhex4_hex4 n hn, if_neg hlow]
  rfl

/-- The escape of a character opens with `\u` only where it is one. -/
theorem escapeChar_cases (c : Char) :
    (∀ rest more, escapeChar c ++ rest ≠ '\\' :: 'u' :: more) ∨
    c.toNat < 0x10000 ∧ escapeChar c = uEscape c.toNat ∨
    0x10000 ≤ c.toNat ∧ escapeChar c = uEscape (0xd800 + (c.toNat - 0x10000) / 0x400) ++
      uEscape (0xdc00 + (c.toNat - 0x10000) % 0x400) := by
  unfold escapeChar
  split_ifs with h₁ h₂ h₃ h₄ h₅ h₆ h₇ h₈ h₉
  · simp
  · simp
  · simp
  · simp
  · simp
  · simp
  · simp
  · exact Or.inl fun rest more heq => h₂ (List.cons.inj heq).1
  · exact Or.inr (Or.inl ⟨h₉, rfl⟩)
  · exact Or.inr (Or.inr ⟨by omega, rfl⟩)

theorem unescape_escapeChar (c : Char) (rest : List Char) :
    unescape (escapeChar c ++ rest) = some (.char c, rest) := by
  unfold escapeChar
  split_ifs with h₁ h₂ h₃ h₄ h₅ h₆ h₇ h₈ h₉
  · subst h₁; rfl
  · subst h₂; rfl
  · subst h₃; rfl
  · subst h₄; rfl
  · subst h₅; rfl
  · subst h₆; rfl
  · subst h₇; rfl
  · -- a printable character stands for itself
    have hprint : ¬ c.toNat < 0x20 := by omega
    rw [List.cons_append, List.nil_append, unescape.eq_def]
    split <;> simp_all
  · -- a character of the BMP is no surrogate
    have hc := toNat_scalar c
    rw [unescape_uEscape _ h₉ (by omega), ← Code.chr_ord (.char c), Code.ord]
  · have hc := toNat_scalar c
    rw [List.append_assoc, unescape_pair _ _ (by omega) (by omega), Code.pair,
      Code.ord_chr (by omega), Code.ord_chr (by omega)]
    rw [show 0x10000 + (0xd800 + (c.toNat - 0x10000) / 0x400 - 0xd800) * 0x400 +
      (0xdc00 + (c.toNat - 0x10000) % 0x400 - 0xdc00) = c.toNat by omega,
      ← Code.chr_ord (.char c), Code.ord]

theorem unescape_escapeCode {c : Code} (h : c.isHigh = false) (rest : List Char) :
    unescape (escapeCode c ++ rest) = some (c, rest) := by
  cases c with
  | char c => exact unescape_escapeChar c rest
  | half half =>
      have hwf := half.wf
      have hhigh : ¬ (0xd800 ≤ half.toNat ∧ half.toNat < 0xdc00) := by
        rw [← Bool.not_eq_true, Code.isHigh_iff] at h
        exact h
      rw [escapeCode, unescape_uEscape _ (by omega) hhigh, ← Code.chr_ord (.half half), Code.ord]

/-- Before what is no low half, a high half stands for itself. -/
theorem unescape_escapeCode_high {c d : Code} (hc : c.isHigh = true) (hd : d.isLow = false)
    (rest : List Char) :
    unescape (escapeCode c ++ (escapeCode d ++ rest)) = some (c, escapeCode d ++ rest) := by
  cases c with
  | char c => simp at hc
  | half half =>
      have hhigh : 0xd800 ≤ half.toNat ∧ half.toNat < 0xdc00 := Code.isHigh_iff.mp hc
      have hself : Code.chr half.toNat = .half half := Code.chr_ord (.half half)
      rw [← Bool.not_eq_true, Code.isLow_iff] at hd
      cases d with
      | half other =>
          have hwf := other.wf
          have hlow : ¬ (0xdc00 ≤ other.toNat ∧ other.toNat < 0xe000) := hd
          rw [escapeCode, escapeCode, unescape_high_uEscape _ _ hhigh (by omega) hlow, hself]
      | char d =>
          have hlow : ¬ (0xdc00 ≤ d.toNat ∧ d.toNat < 0xe000) := hd
          have hscalar := toNat_scalar d
          rw [escapeCode, escapeCode]
          rcases escapeChar_cases d with hnot | ⟨hbmp, heq⟩ | ⟨hbeyond, heq⟩
          · rw [unescape_high _ hhigh (hnot rest), hself]
          · rw [heq, unescape_high_uEscape _ _ hhigh hbmp hlow, hself]
          · rw [heq, List.append_assoc,
              unescape_high_uEscape _ _ hhigh (by omega) (by omega), hself]

theorem unescape_escapeCode_pair {c d : Code} (hc : c.isHigh = true) (hd : d.isLow = true)
    (rest : List Char) :
    unescape (escapeCode c ++ (escapeCode d ++ rest)) = some (c.pair d, rest) := by
  cases c with
  | char c => simp at hc
  | half half =>
      cases d with
      | char d => simp at hd
      | half other =>
          have hhigh : 0xd800 ≤ half.toNat ∧ half.toNat < 0xdc00 := Code.isHigh_iff.mp hc
          have hlow : 0xdc00 ≤ other.toNat ∧ other.toNat < 0xe000 := Code.isLow_iff.mp hd
          rw [escapeCode, escapeCode, unescape_pair _ _ hhigh hlow]
          rw [show Code.chr half.toNat = .half half from Code.chr_ord (.half half),
            show Code.chr other.toNat = .half other from Code.chr_ord (.half other)]

theorem escapeCode_ne_nil (c : Code) : escapeCode c ≠ [] := by
  cases c with
  | char c =>
      intro h
      have hread := unescape_escapeChar c []
      rw [show escapeChar c = [] from h] at hread
      cases hread
  | half half => simp [escapeCode, uEscape]

theorem length_escape_cons (c : Code) (cs : List Code) :
    (escape cs).length < (escape (c :: cs)).length := by
  have hpos := List.length_pos_iff.mpr (escapeCode_ne_nil c)
  simp only [escape, List.flatMap_cons, List.length_append]
  omega

theorem readString_cons {fuel : Nat} {text rest : List Char} {c : Code}
    (h : unescape text = some (c, rest)) :
    readString (fuel + 1) text = (readString fuel rest).map fun (s, rest) => (c :: s, rest) := by
  simp only [readString, h]

/-- **A string body is read back**, up to its closing quote, with the halves of
pairs taken together. -/
theorem readString_escape (cs : List Code) {fuel : Nat} (hfuel : (escape cs).length < fuel)
    (rest : List Char) :
    readString fuel (escape cs ++ '"' :: rest) = some (Code.join cs, rest) := by
  have hcons : ∀ c (ds : List Code), escape (c :: ds) ++ '"' :: rest =
      escapeCode c ++ (escape ds ++ '"' :: rest) := fun c ds => by
    rw [escape, List.flatMap_cons, List.append_assoc]
    rfl
  fun_induction Code.join cs generalizing fuel with
  | case1 c d cs hpair ih =>
      obtain ⟨fuel, rfl⟩ := Nat.exists_eq_succ_of_ne_zero (Nat.ne_zero_of_lt hfuel)
      have hlen := length_escape_cons c (d :: cs)
      have hlen' := length_escape_cons d cs
      rw [Bool.and_eq_true] at hpair
      rw [hcons, hcons, readString_cons (unescape_escapeCode_pair hpair.1 hpair.2 _),
        ih (show (escape cs).length < fuel by omega)]
      rfl
  | case2 c d cs hpair ih =>
      obtain ⟨fuel, rfl⟩ := Nat.exists_eq_succ_of_ne_zero (Nat.ne_zero_of_lt hfuel)
      have hlen := length_escape_cons c (d :: cs)
      have hread : unescape (escape (c :: d :: cs) ++ '"' :: rest) =
          some (c, escape (d :: cs) ++ '"' :: rest) := by
        rw [hcons]
        cases hc : c.isHigh with
        | false => exact unescape_escapeCode hc _
        | true =>
            have hd : d.isLow = false := by simpa [hc] using hpair
            rw [hcons, unescape_escapeCode_high hc hd]
      rw [readString_cons hread, ih (show (escape (d :: cs)).length < fuel by omega)]
      rfl
  | case3 c =>
      obtain ⟨fuel, rfl⟩ := Nat.exists_eq_succ_of_ne_zero (Nat.ne_zero_of_lt hfuel)
      have hlen := length_escape_cons c []
      obtain ⟨fuel, rfl⟩ := Nat.exists_eq_succ_of_ne_zero (n := fuel) (by omega)
      have hread : unescape (escapeCode c ++ '"' :: rest) = some (c, '"' :: rest) := by
        cases hc : c.isHigh with
        | false => exact unescape_escapeCode hc _
        | true =>
            cases c with
            | char c => simp at hc
            | half half =>
                have hhigh : 0xd800 ≤ half.toNat ∧ half.toNat < 0xdc00 := Code.isHigh_iff.mp hc
                rw [escapeCode, unescape_high _ hhigh (by simp)]
                rw [show Code.chr half.toNat = .half half from Code.chr_ord (.half half)]
      rw [hcons, show escape [] ++ '"' :: rest = '"' :: rest from rfl, readString_cons hread]
      rfl
  | case4 =>
      obtain ⟨fuel, rfl⟩ := Nat.exists_eq_succ_of_ne_zero (Nat.ne_zero_of_lt hfuel)
      rfl

/-- A string body determines its code points up to pairs, and what follows it. -/
theorem escape_append_inj {cs ds : List Code} {s t : List Char}
    (h : escape cs ++ '"' :: s = escape ds ++ '"' :: t) : Code.join cs = Code.join ds ∧ s = t := by
  have hread := readString_escape cs
    (show (escape cs).length < (escape cs).length + (escape ds).length + 1 by omega) s
  rw [h, readString_escape ds (by omega) t] at hread
  obtain ⟨hjoin, hrest⟩ := Prod.mk.inj (Option.some.inj hread)
  exact ⟨hjoin.symm, hrest.symm⟩

theorem quote_append_inj {x y : Str} {s t : List Char}
    (h : quote x ++ s = quote y ++ t) : x.joined = y.joined ∧ s = t := by
  simp only [quote, List.cons_append, List.append_assoc, List.nil_append, List.cons.injEq,
    true_and] at h
  obtain ⟨hxy, hst⟩ := escape_append_inj h
  exact ⟨congrArg Str.ofCodes hxy, hst⟩

/-- A character beyond the BMP. -/
theorem escapeChar_beyond {c : Char} (h : 0x10000 ≤ c.toNat) :
    escapeChar c = uEscape (0xd800 + (c.toNat - 0x10000) / 0x400) ++
      uEscape (0xdc00 + (c.toNat - 0x10000) % 0x400) := by
  have hne : ∀ d : Char, d.toNat < 0x10000 → c ≠ d := by
    rintro d hd rfl
    omega
  simp only [escapeChar, if_neg (hne _ (show '"'.toNat < 0x10000 by decide)),
    if_neg (hne _ (show '\\'.toNat < 0x10000 by decide)),
    if_neg (hne _ (show '\n'.toNat < 0x10000 by decide)),
    if_neg (hne _ (show '\r'.toNat < 0x10000 by decide)),
    if_neg (hne _ (show '\t'.toNat < 0x10000 by decide)),
    if_neg (hne _ (show '\x0c'.toNat < 0x10000 by decide)),
    if_neg (hne _ (show '\x08'.toNat < 0x10000 by decide))]
  rw [if_neg (by omega), if_neg (by omega)]

theorem escapeCode_pair {c d : Code} (hc : c.isHigh = true) (hd : d.isLow = true) :
    escapeCode (c.pair d) = escapeCode c ++ escapeCode d := by
  have hhigh := Code.isHigh_iff.mp hc
  have hlow := Code.isLow_iff.mp hd
  have hord : (c.pair d).ord = 0x10000 + (c.ord - 0xd800) * 0x400 + (d.ord - 0xdc00) :=
    Code.ord_chr (by omega)
  cases hpair : c.pair d with
  | half half =>
      have hwf := half.wf
      rw [hpair, Code.ord] at hord
      omega
  | char e =>
      rw [hpair, Code.ord] at hord
      cases c with
      | char c => simp at hc
      | half half =>
          cases d with
          | char d => simp at hd
          | half other =>
              simp only [Code.ord] at hhigh hlow hord
              have hfirst : 0xd800 + (e.toNat - 0x10000) / 0x400 = half.toNat := by omega
              have hsecond : 0xdc00 + (e.toNat - 0x10000) % 0x400 = other.toNat := by omega
              rw [escapeCode, escapeCode, escapeCode, escapeChar_beyond (by omega), hfirst, hsecond]

/-- The halves of a pair are written like their character. -/
theorem escape_join (cs : List Code) : escape (Code.join cs) = escape cs := by
  fun_induction Code.join cs with
  | case1 c d cs hpair ih =>
      rw [Bool.and_eq_true] at hpair
      simp only [escape, List.flatMap_cons] at ih ⊢
      rw [ih, escapeCode_pair hpair.1 hpair.2, List.append_assoc]
  | case2 c d cs hpair ih =>
      simp only [escape, List.flatMap_cons] at ih ⊢
      rw [ih]
  | case3 c => rfl
  | case4 => rfl

theorem quote_joined (x : Str) : quote x.joined = quote x := by
  rw [quote, quote, Str.joined, Str.codes_ofCodes, escape_join]

/-! ### Literals -/

/-- The text of a value that is one word: everything but strings, arrays and
objects. -/
def literal : Json → Option (List Char)
  | .null => some ['n', 'u', 'l', 'l']
  | .bool true => some ['t', 'r', 'u', 'e']
  | .bool false => some ['f', 'a', 'l', 's', 'e']
  | .int n => some n.repr.toList
  | .float x => some x.text
  | _ => none

/-- What may follow a value: the end, or a character no literal contains. -/
def Stop (s : List Char) : Prop := ∀ c ∈ s.head?, isLiteralChar c = false

theorem nat_repr_chars (n : Nat) : ∀ c ∈ n.repr.toList, c.isDigit = true := by
  intro c hc
  rw [Nat.toList_repr] at hc
  exact Nat.isDigit_of_mem_toDigits (by decide) (by decide) hc

theorem int_repr_chars (n : Int) : ∀ c ∈ n.repr.toList, isIntChar c = true := by
  intro c hc
  cases n with
  | ofNat m =>
      have h := nat_repr_chars m c hc
      simp [isIntChar, h]
  | negSucc m =>
      simp only [Int.repr, String.toList_append, List.mem_append] at hc
      rcases hc with hc | hc
      · have : c = '-' := by simpa using hc
        simp [isIntChar, this]
      · simp [isIntChar, nat_repr_chars _ c hc]

theorem int_repr_ne_nil (n : Int) : n.repr.toList ≠ [] := by
  cases n with
  | ofNat m =>
      rw [Int.repr, Nat.toList_repr]
      exact Nat.toDigits_ne_nil
  | negSucc m => simp [Int.repr]

theorem int_repr_ne_word (n : Int) {w : List Char} {c : Char} (hc : c ∈ w)
    (h : isIntChar c = false) : n.repr.toList ≠ w := by
  rintro rfl
  rw [int_repr_chars n c hc] at h
  cases h

theorem literal_spec {a : Json} {u : List Char} (h : literal a = some u) :
    render a = u ∧ u ≠ [] ∧ ∀ c ∈ u, isLiteralChar c = true := by
  match a with
  | .null | .bool true | .bool false =>
      simp only [literal, Option.some.injEq] at h
      subst h
      exact ⟨by simp only [render], by decide, List.all_eq_true.mp (by decide)⟩
  | .int n =>
      simp only [literal, Option.some.injEq] at h
      subst h
      refine ⟨by simp only [render], int_repr_ne_nil n, fun c hc => ?_⟩
      have := int_repr_chars n c hc
      simp only [isIntChar, Bool.or_eq_true, beq_iff_eq] at this
      rcases this with hd | rfl
      · exact isLiteralChar_of_isDigit hd
      · decide
  | .float x =>
      simp only [literal, Option.some.injEq] at h
      subst h
      exact ⟨by simp only [render], x.text_ne_nil, x.text_chars⟩

/-- The text of a literal names it. -/
theorem literal_inj {a b : Json} {u : List Char} (ha : literal a = some u)
    (hb : literal b = some u) : a = b := by
  match a, b with
  | .null, .null | .bool true, .bool true | .bool false, .bool false => rfl
  | .int m, .int n =>
      have h : m.repr = n.repr := String.toList_injective (Option.some.inj (ha.trans hb.symm))
      rw [Int.repr_injective h]
  | .float x, .float y =>
      have h : x.text = y.text := Option.some.inj (ha.trans hb.symm)
      cases x; cases y; simp_all
  | .int n, .float x | .float x, .int n =>
      obtain ⟨c, hc, hci⟩ := x.text_not_int
      simp only [literal, Option.some.injEq] at ha hb
      exact absurd (by rw [ha, hb]) (int_repr_ne_word n hc hci)
  | .null, .int n | .int n, .null =>
      simp only [literal, Option.some.injEq] at ha hb
      exact absurd (by rw [ha, hb])
        (int_repr_ne_word n (w := ['n', 'u', 'l', 'l']) (c := 'n') (by decide) (by decide))
  | .bool true, .int n | .int n, .bool true =>
      simp only [literal, Option.some.injEq] at ha hb
      exact absurd (by rw [ha, hb])
        (int_repr_ne_word n (w := ['t', 'r', 'u', 'e']) (c := 't') (by decide) (by decide))
  | .bool false, .int n | .int n, .bool false =>
      simp only [literal, Option.some.injEq] at ha hb
      exact absurd (by rw [ha, hb])
        (int_repr_ne_word n (w := ['f', 'a', 'l', 's', 'e']) (c := 'f') (by decide) (by decide))
  | .null, .float x | .float x, .null =>
      simp only [literal, Option.some.injEq] at ha hb
      exact absurd (by rw [ha, hb]) (x.text_ne_word (w := ['n', 'u', 'l', 'l']) (by decide))
  | .bool true, .float x | .float x, .bool true =>
      simp only [literal, Option.some.injEq] at ha hb
      exact absurd (by rw [ha, hb]) (x.text_ne_word (w := ['t', 'r', 'u', 'e']) (by decide))
  | .bool false, .float x | .float x, .bool false =>
      simp only [literal, Option.some.injEq] at ha hb
      exact absurd (by rw [ha, hb]) (x.text_ne_word (w := ['f', 'a', 'l', 's', 'e']) (by decide))
  | .null, .bool true | .null, .bool false | .bool true, .null | .bool false, .null
  | .bool true, .bool false | .bool false, .bool true =>
      simp only [literal, Option.some.injEq] at ha hb
      exact absurd (ha.trans hb.symm) (by decide)

/-- A literal ends where its characters do. -/
theorem literal_append_inj {u v s t : List Char} (hu : ∀ c ∈ u, isLiteralChar c = true)
    (hv : ∀ c ∈ v, isLiteralChar c = true) (hs : Stop s) (ht : Stop t)
    (h : u ++ s = v ++ t) : u = v ∧ s = t := by
  have cut : ∀ {w r : List Char}, (∀ c ∈ w, isLiteralChar c = true) → Stop r →
      (w ++ r).takeWhile isLiteralChar = w := by
    intro w r hw hr
    rw [List.takeWhile_append_of_pos hw]
    cases r with
    | nil => simp
    | cons c r => rw [List.takeWhile_cons_of_neg (by simp [hr c (by simp)]), List.append_nil]
  have huv : u = v := by rw [← cut hu hs, h, cut hv ht]
  subst huv
  exact ⟨rfl, List.append_cancel_left h⟩

/-! ### Unique reading -/

/-- The character a value's text opens with tells a string, an array, an object
and a literal apart. -/
theorem render_opening (a : Json) :
    (∃ u, literal a = some u) ∨ (∃ x, a = .str x) ∨ (∃ xs, a = .arr xs) ∨ ∃ fs, a = .obj fs := by
  match a with
  | .null | .bool true | .bool false | .int n | .float x => exact Or.inl ⟨_, rfl⟩
  | .str x => exact Or.inr (Or.inl ⟨x, rfl⟩)
  | .arr xs => exact Or.inr (Or.inr (Or.inl ⟨xs, rfl⟩))
  | .obj fs => exact Or.inr (Or.inr (Or.inr ⟨fs, rfl⟩))

theorem literal_ne_bracket {a : Json} {u s t : List Char} {c : Char} (ha : literal a = some u)
    (hc : isLiteralChar c = false) : render a ++ s ≠ c :: t := by
  obtain ⟨hr, hne, hall⟩ := literal_spec ha
  rw [hr]
  intro h
  cases u with
  | nil => exact hne rfl
  | cons d u =>
      rw [List.cons_append, List.cons.injEq] at h
      rw [← h.1, hall d (by simp)] at hc
      cases hc

/-- No value's text opens with a closing bracket or a separator. -/
theorem render_ne_close (a : Json) {s t : List Char} {c : Char} (hc : isLiteralChar c = false)
    (h₁ : c ≠ '"') (h₂ : c ≠ '[') (h₃ : c ≠ '{') : render a ++ s ≠ c :: t := by
  rcases render_opening a with ⟨u, hu⟩ | ⟨x, rfl⟩ | ⟨xs, rfl⟩ | ⟨fs, rfl⟩
  · exact literal_ne_bracket hu hc
  · intro h
    simp only [render, quote, List.cons_append, List.cons.injEq] at h
    exact h₁ h.1.symm
  · intro h
    simp only [render, List.cons_append, List.cons.injEq] at h
    exact h₂ h.1.symm
  · intro h
    simp only [render, List.cons_append, List.cons.injEq] at h
    exact h₃ h.1.symm

theorem stop_itemsTail (xs : List Json) (s : List Char) :
    Stop (renderItemsTail xs ++ ']' :: s) := by
  cases xs with
  | nil => intro c hc; simp [renderItemsTail] at hc; subst hc; decide
  | cons x xs => intro c hc; simp [renderItemsTail] at hc; subst hc; decide

theorem stop_fieldsTail (fs : List (Str × Json)) (s : List Char) :
    Stop (renderFieldsTail fs ++ '}' :: s) := by
  cases fs with
  | nil => intro c hc; simp [renderFieldsTail] at hc; subst hc; decide
  | cons f fs => intro c hc; simp [renderFieldsTail] at hc; subst hc; decide

mutual

/-- **Unique reading**: a rendered value, followed by anything that cannot
continue a literal, determines the value and what follows. -/
theorem render_append_inj (a b : Json) {s t : List Char} (hs : Stop s) (ht : Stop t)
    (h : render a ++ s = render b ++ t) : joined a = joined b ∧ s = t := by
  cases ha : literal a with
  | some u =>
      obtain ⟨hru, -, hu⟩ := literal_spec ha
      rcases render_opening b with ⟨v, hv⟩ | ⟨y, rfl⟩ | ⟨ys, rfl⟩ | ⟨gs, rfl⟩
      · obtain ⟨hrv, -, hvall⟩ := literal_spec hv
        rw [hru, hrv] at h
        obtain ⟨rfl, hst⟩ := literal_append_inj hu hvall hs ht h
        exact ⟨congrArg joined (literal_inj ha hv), hst⟩
      · rw [render.eq_def (.str y)] at h
        exact absurd h (literal_ne_bracket ha (by decide))
      · rw [render.eq_def (.arr ys)] at h
        exact absurd h (literal_ne_bracket ha (by decide))
      · rw [render.eq_def (.obj gs)] at h
        exact absurd h (literal_ne_bracket ha (by decide))
  | none =>
      match a, ha with
      | .str x, _ =>
          rw [render.eq_def (.str x)] at h
          rcases render_opening b with ⟨v, hv⟩ | ⟨y, rfl⟩ | ⟨ys, rfl⟩ | ⟨gs, rfl⟩
          · exact absurd h.symm (literal_ne_bracket hv (by decide))
          · rw [render.eq_def (.str y)] at h
            obtain ⟨hxy, hst⟩ := quote_append_inj h
            exact ⟨by rw [joined, joined, hxy], hst⟩
          · simp [render, quote] at h
          · simp [render, quote] at h
      | .arr xs, _ =>
          rw [render.eq_def (.arr xs)] at h
          rcases render_opening b with ⟨v, hv⟩ | ⟨y, rfl⟩ | ⟨ys, rfl⟩ | ⟨gs, rfl⟩
          · exact absurd h.symm (literal_ne_bracket hv (by decide))
          · simp [render, quote] at h
          · simp only [render, List.cons_append, List.append_assoc, List.nil_append,
              List.cons.injEq, true_and] at h
            obtain ⟨hxs, hst⟩ := renderItems_append_inj xs ys h
            exact ⟨by rw [joined, joined, hxs], hst⟩
          · simp [render] at h
      | .obj fs, _ =>
          rw [render.eq_def (.obj fs)] at h
          rcases render_opening b with ⟨v, hv⟩ | ⟨y, rfl⟩ | ⟨ys, rfl⟩ | ⟨gs, rfl⟩
          · exact absurd h.symm (literal_ne_bracket hv (by decide))
          · simp [render, quote] at h
          · simp [render] at h
          · simp only [render, List.cons_append, List.append_assoc, List.nil_append,
              List.cons.injEq, true_and] at h
            obtain ⟨hfs, hst⟩ := renderFields_append_inj fs gs h
            exact ⟨by rw [joined, joined, hfs], hst⟩

theorem renderItems_append_inj (xs ys : List Json) {s t : List Char}
    (h : renderItems xs ++ ']' :: s = renderItems ys ++ ']' :: t) :
    joinedItems xs = joinedItems ys ∧ s = t := by
  match xs, ys with
  | [], [] => exact ⟨rfl, by simpa [renderItems] using h⟩
  | [], y :: ys =>
      simp only [renderItems, List.nil_append, List.append_assoc] at h
      exact absurd h.symm (render_ne_close y (by decide) (by decide) (by decide) (by decide))
  | x :: xs, [] =>
      simp only [renderItems, List.nil_append, List.append_assoc] at h
      exact absurd h (render_ne_close x (by decide) (by decide) (by decide) (by decide))
  | x :: xs, y :: ys =>
      simp only [renderItems, List.append_assoc] at h
      obtain ⟨hx, hrest⟩ := render_append_inj x y (stop_itemsTail xs s) (stop_itemsTail ys t) h
      obtain ⟨hxs, hst⟩ := renderItemsTail_append_inj xs ys hrest
      exact ⟨by rw [joinedItems, joinedItems, hx, hxs], hst⟩

theorem renderItemsTail_append_inj (xs ys : List Json) {s t : List Char}
    (h : renderItemsTail xs ++ ']' :: s = renderItemsTail ys ++ ']' :: t) :
    joinedItems xs = joinedItems ys ∧ s = t := by
  match xs, ys with
  | [], [] => exact ⟨rfl, by simpa [renderItemsTail] using h⟩
  | [], y :: ys => simp [renderItemsTail] at h
  | x :: xs, [] => simp [renderItemsTail] at h
  | x :: xs, y :: ys =>
      simp only [renderItemsTail, List.cons_append, List.append_assoc, List.cons.injEq,
        true_and] at h
      obtain ⟨hx, hrest⟩ := render_append_inj x y (stop_itemsTail xs s) (stop_itemsTail ys t) h
      obtain ⟨hxs, hst⟩ := renderItemsTail_append_inj xs ys hrest
      exact ⟨by rw [joinedItems, joinedItems, hx, hxs], hst⟩

theorem renderFields_append_inj (fs gs : List (Str × Json)) {s t : List Char}
    (h : renderFields fs ++ '}' :: s = renderFields gs ++ '}' :: t) :
    joinedFields fs = joinedFields gs ∧ s = t := by
  match fs, gs with
  | [], [] => exact ⟨rfl, by simpa [renderFields] using h⟩
  | [], (l, w) :: gs => simp [renderFields, quote] at h
  | (k, v) :: fs, [] => simp [renderFields, quote] at h
  | (k, v) :: fs, (l, w) :: gs =>
      simp only [renderFields, List.cons_append, List.append_assoc] at h
      obtain ⟨hk, hv⟩ := quote_append_inj h
      obtain ⟨hvw, hrest⟩ := render_append_inj v w (stop_fieldsTail fs s) (stop_fieldsTail gs t)
        (List.cons.inj hv).2
      obtain ⟨hfs, hst⟩ := renderFieldsTail_append_inj fs gs hrest
      exact ⟨by rw [joinedFields, joinedFields, hk, hvw, hfs], hst⟩

theorem renderFieldsTail_append_inj (fs gs : List (Str × Json)) {s t : List Char}
    (h : renderFieldsTail fs ++ '}' :: s = renderFieldsTail gs ++ '}' :: t) :
    joinedFields fs = joinedFields gs ∧ s = t := by
  match fs, gs with
  | [], [] => exact ⟨rfl, by simpa [renderFieldsTail] using h⟩
  | [], (l, w) :: gs => simp [renderFieldsTail] at h
  | (k, v) :: fs, [] => simp [renderFieldsTail] at h
  | (k, v) :: fs, (l, w) :: gs =>
      simp only [renderFieldsTail, List.cons_append, List.append_assoc, List.cons.injEq,
        true_and] at h
      obtain ⟨hk, hv⟩ := quote_append_inj h
      obtain ⟨hvw, hrest⟩ := render_append_inj v w (stop_fieldsTail fs s) (stop_fieldsTail gs t)
        (List.cons.inj hv).2
      obtain ⟨hfs, hst⟩ := renderFieldsTail_append_inj fs gs hrest
      exact ⟨by rw [joinedFields, joinedFields, hk, hvw, hfs], hst⟩

end

mutual

/-- A value is written like what it is taken for. -/
theorem render_joined (a : Json) : render (joined a) = render a := by
  match a with
  | .null | .bool _ | .int _ | .float _ => simp only [joined]
  | .str s => simp only [joined, render, quote_joined]
  | .arr xs => simp only [joined, render, renderItems_joined]
  | .obj fs => simp only [joined, render, renderFields_joined]

theorem renderItems_joined (xs : List Json) : renderItems (joinedItems xs) = renderItems xs := by
  match xs with
  | [] => rfl
  | x :: xs => rw [joinedItems, renderItems, renderItems, render_joined, renderItemsTail_joined]

theorem renderItemsTail_joined (xs : List Json) :
    renderItemsTail (joinedItems xs) = renderItemsTail xs := by
  match xs with
  | [] => rfl
  | x :: xs =>
      rw [joinedItems, renderItemsTail, renderItemsTail, render_joined, renderItemsTail_joined]

theorem renderFields_joined (fs : List (Str × Json)) :
    renderFields (joinedFields fs) = renderFields fs := by
  match fs with
  | [] => rfl
  | (k, v) :: fs =>
      rw [joinedFields, renderFields, renderFields, quote_joined, render_joined,
        renderFieldsTail_joined]

theorem renderFieldsTail_joined (fs : List (Str × Json)) :
    renderFieldsTail (joinedFields fs) = renderFieldsTail fs := by
  match fs with
  | [] => rfl
  | (k, v) :: fs =>
      rw [joinedFields, renderFieldsTail, renderFieldsTail, quote_joined, render_joined,
        renderFieldsTail_joined]

end

/-- One text, one value up to the halves of pairs. -/
theorem render_eq_iff {a b : Json} : render a = render b ↔ joined a = joined b := by
  have hnil : Stop [] := by intro c hc; simp at hc
  constructor
  · intro h
    exact (render_append_inj a b (s := []) (t := []) hnil hnil (by rw [h])).1
  · intro h
    rw [← render_joined a, h, render_joined b]

/-- **One text, one canonical form**, up to the halves of pairs. -/
theorem dumps_eq_iff {a b : Json} : dumps a = dumps b ↔ (canon a).joined = (canon b).joined := by
  rw [dumps, dumps, String.ofList_inj, render_eq_iff]

/-! ### The canonical form is equality up to key order -/

theorem canonFields_eq_map (fs : List (Str × Json)) :
    canonFields fs = fs.map fun f => (f.1, canon f.2) := by
  induction fs with
  | nil => rfl
  | cons f fs ih => rw [canonFields, ih, List.map_cons]

theorem mem_canonFields {fs : List (Str × Json)} {f : Str × Json} :
    f ∈ canonFields fs ↔ ∃ v, (f.1, v) ∈ fs ∧ canon v = f.2 := by
  rw [canonFields_eq_map, List.mem_map]
  constructor
  · rintro ⟨⟨k, v⟩, hmem, rfl⟩
    exact ⟨v, hmem, rfl⟩
  · rintro ⟨v, hmem, hv⟩
    exact ⟨(f.1, v), hmem, Prod.ext rfl hv⟩

theorem keys_canonFields (fs : List (Str × Json)) :
    (canonFields fs).map Prod.fst = fs.map Prod.fst := by
  rw [canonFields_eq_map, List.map_map]
  rfl

mutual

/-- The canonical form is its own canonical form. -/
theorem canon_canon (a : Json) : canon (canon a) = canon a := by
  match a with
  | .null | .bool _ | .int _ | .float _ | .str _ => rfl
  | .arr items => rw [canon, canon, canonItems_canonItems]
  | .obj fields =>
      -- sorting by key and canonicalising the values commute
      have hmap : canonFields ((canonFields fields).insertionSort keyLE) =
          (canonFields (canonFields fields)).insertionSort keyLE := by
        rw [canonFields_eq_map ((canonFields fields).insertionSort keyLE),
          canonFields_eq_map (canonFields fields)]
        exact List.map_insertionSort keyLE keyLE _ _ fun _ _ _ _ => Iff.rfl
      rw [canon, canon, hmap, canonFields_canonFields,
        (List.pairwise_insertionSort keyLE _).insertionSort_eq]

theorem canonItems_canonItems (xs : List Json) : canonItems (canonItems xs) = canonItems xs := by
  match xs with
  | [] => rfl
  | x :: xs => rw [canonItems, canonItems, canon_canon, canonItems_canonItems]

theorem canonFields_canonFields (fs : List (Str × Json)) :
    canonFields (canonFields fs) = canonFields fs := by
  match fs with
  | [] => rfl
  | (k, v) :: fs => rw [canonFields, canonFields, canon_canon, canonFields_canonFields]

end

theorem distinctFields_mem {fs : List (Str × Json)} (h : distinctFields fs = true)
    {f : Str × Json} (hf : f ∈ fs) : distinct f.2 = true := by
  induction fs with
  | nil => cases hf
  | cons g fs ih =>
      rw [distinctFields, Bool.and_eq_true] at h
      rcases List.mem_cons.mp hf with rfl | hf
      · exact h.1
      · exact ih h.2 hf

mutual

/-- Values with one canonical form are equal up to key order. -/
theorem same_of_canon_eq (a b : Json) (h : canon a = canon b) : Same a b := by
  match a, b with
  | .null, b => cases b <;> simp_all [canon, Same]
  | .bool _, b => cases b <;> simp_all [canon, Same]
  | .int _, b => cases b <;> simp_all [canon, Same]
  | .float _, b => cases b <;> simp_all [canon, Same]
  | .str _, b => cases b <;> simp_all [canon, Same]
  | .arr xs, .arr ys =>
      simp only [canon, Json.arr.injEq] at h
      simpa only [Same] using sameItems_of_canonItems_eq xs ys h
  | .arr _, .null | .arr _, .bool _ | .arr _, .int _ | .arr _, .float _ | .arr _, .str _
  | .arr _, .obj _ => simp [canon] at h
  | .obj fs, .obj gs =>
      simp only [canon, Json.obj.injEq] at h
      have hperm : (canonFields fs).Perm (canonFields gs) :=
        (List.perm_insertionSort keyLE _).symm.trans
          (h ▸ List.perm_insertionSort keyLE (canonFields gs))
      have hlen := hperm.length_eq
      simp only [canonFields_eq_map, List.length_map] at hlen
      simp only [Same]
      exact ⟨hlen, sameFields_of_subset fs gs fun f hf => hperm.subset hf⟩
  | .obj _, .null | .obj _, .bool _ | .obj _, .int _ | .obj _, .float _ | .obj _, .str _
  | .obj _, .arr _ => simp [canon] at h

theorem sameItems_of_canonItems_eq (xs ys : List Json) (h : canonItems xs = canonItems ys) :
    SameItems xs ys := by
  match xs, ys with
  | [], [] => trivial
  | [], _ :: _ | _ :: _, [] => simp [canonItems] at h
  | x :: xs, y :: ys =>
      simp only [canonItems, List.cons.injEq] at h
      exact ⟨same_of_canon_eq x y h.1, sameItems_of_canonItems_eq xs ys h.2⟩

theorem sameFields_of_subset (fs gs : List (Str × Json))
    (h : ∀ f ∈ canonFields fs, f ∈ canonFields gs) : SameFields fs gs := by
  match fs with
  | [] => trivial
  | (k, v) :: fs =>
      simp only [canonFields, List.forall_mem_cons] at h
      obtain ⟨w, hw, hvw⟩ := mem_canonFields.mp h.1
      exact ⟨⟨w, hw, same_of_canon_eq v w hvw.symm⟩, sameFields_of_subset fs gs h.2⟩

end

/-- Sorting by key forgets the order of a dict's fields and nothing else. -/
theorem sort_eq_of_subset {fs gs : List (Str × Json)} (hf : (fs.map Prod.fst).Nodup)
    (hg : (gs.map Prod.fst).Nodup) (hlen : fs.length = gs.length) (hsub : fs ⊆ gs) :
    fs.insertionSort keyLE = gs.insertionSort keyLE := by
  have hperm : fs.Perm gs :=
    (List.subperm_of_subset (List.Nodup.of_map _ hf) hsub).perm_of_length_le hlen.ge
  have hsort : (fs.insertionSort keyLE).Perm (gs.insertionSort keyLE) :=
    (List.perm_insertionSort keyLE fs).trans
      (hperm.trans (List.perm_insertionSort keyLE gs).symm)
  refine hsort.eq_of_pairwise ?_ (List.pairwise_insertionSort _ _)
    (List.pairwise_insertionSort _ _)
  intro a b ha hb hab hba
  have hbg : b ∈ gs := (List.perm_insertionSort keyLE gs).subset hb
  have hag : a ∈ gs := hsub ((List.perm_insertionSort keyLE fs).subset ha)
  exact List.inj_on_of_nodup_map hg hag hbg (Str.eq_of_le hab hba)

mutual

/-- Values equal up to key order have one canonical form. -/
theorem canon_eq_of_same (a b : Json) (ha : distinct a = true) (hb : distinct b = true)
    (h : Same a b) : canon a = canon b := by
  match a, b with
  | .null, b => cases b <;> simp_all [canon, Same]
  | .bool _, b => cases b <;> simp_all [canon, Same]
  | .int _, b => cases b <;> simp_all [canon, Same]
  | .float _, b => cases b <;> simp_all [canon, Same]
  | .str _, b => cases b <;> simp_all [canon, Same]
  | .arr xs, .arr ys =>
      simp only [Same] at h
      simp only [distinct] at ha hb
      simp only [canon, canonItems_eq_of_sameItems xs ys ha hb h]
  | .arr _, .null | .arr _, .bool _ | .arr _, .int _ | .arr _, .float _ | .arr _, .str _
  | .arr _, .obj _ => simp [Same] at h
  | .obj fs, .obj gs =>
      simp only [Same] at h
      simp only [distinct, Bool.and_eq_true, decide_eq_true_eq] at ha hb
      have hsub := canonFields_subset_of_same fs gs ha.2 hb.2 h.2
      simp only [canon, Json.obj.injEq]
      refine sort_eq_of_subset ?_ ?_ ?_ hsub
      · rw [keys_canonFields]; exact ha.1
      · rw [keys_canonFields]; exact hb.1
      · simpa only [canonFields_eq_map, List.length_map] using h.1
  | .obj _, .null | .obj _, .bool _ | .obj _, .int _ | .obj _, .float _ | .obj _, .str _
  | .obj _, .arr _ => simp [Same] at h

theorem canonItems_eq_of_sameItems (xs ys : List Json) (hx : distinctItems xs = true)
    (hy : distinctItems ys = true) (h : SameItems xs ys) : canonItems xs = canonItems ys := by
  match xs, ys with
  | [], [] => rfl
  | [], _ :: _ | _ :: _, [] => simp [SameItems] at h
  | x :: xs, y :: ys =>
      simp only [SameItems] at h
      simp only [distinctItems, Bool.and_eq_true] at hx hy
      simp only [canonItems, canon_eq_of_same x y hx.1 hy.1 h.1,
        canonItems_eq_of_sameItems xs ys hx.2 hy.2 h.2]

theorem canonFields_subset_of_same (fs gs : List (Str × Json))
    (hf : distinctFields fs = true) (hg : distinctFields gs = true) (h : SameFields fs gs) :
    canonFields fs ⊆ canonFields gs := by
  match fs with
  | [] => simp [canonFields]
  | (k, v) :: fs =>
      simp only [SameFields] at h
      simp only [distinctFields, Bool.and_eq_true] at hf
      obtain ⟨⟨w, hw, hvw⟩, hrest⟩ := h
      have hcanon : canon v = canon w :=
        canon_eq_of_same v w hf.1 (distinctFields_mem hg hw) hvw
      rw [canonFields, List.cons_subset]
      refine ⟨mem_canonFields.mpr ⟨w, hw, hcanon.symm⟩, ?_⟩
      exact canonFields_subset_of_same fs gs hf.2 hg hrest

end

end Json

/-! ### Objects and bytes -/

/-- A Python dict that came out of `json.loads`: no key twice, at any depth. -/
structure JsonObject where
  fields : List (Str × Json)
  distinct : (Json.obj fields).distinct = true

def JsonObject.toJson (o : JsonObject) : Json := .obj o.fields

def JsonObject.empty : JsonObject := ⟨[], by decide⟩

/-- A Python `bytes` value. -/
abbrev Bytes := List UInt8

/-- `s.encode()`. -/
def encode (s : String) : Bytes := s.toUTF8.data.toList

theorem encode_injective : Function.Injective encode := by
  intro s t h
  have hdata : s.toUTF8 = t.toUTF8 := ByteArray.ext (Array.toList_inj.mp h)
  exact String.toByteArray_inj.mp hdata

end Py
