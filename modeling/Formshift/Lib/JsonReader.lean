/-
Formshift/Lib/JsonReader.lean

Reading JSON, as `json.loads` and every client does: white space between the
tokens, strings with their escapes, the three words, integers, floats, arrays,
objects.  Of two fields with one key the later one counts.

`loads` undoes `render` but for the halves of surrogate pairs (`loads_render`,
`reread`), so what is written by `json.dumps` is read back as it was where no
string holds such a pair, and `render` writes printable ASCII only
(`render_printable`): no text in a value can break a line.
-/
import Formshift.Lib.Json

namespace Py

namespace Json

/-! ### The reader -/

/-- White space between tokens. -/
def isBlank (c : Char) : Bool := c == ' ' || c == '\t' || c == '\n' || c == '\r'

def skip (cs : List Char) : List Char := cs.dropWhile isBlank

/-- Digits without a leading zero. -/
def readNat (cs : List Char) : Option Nat :=
  if cs ≠ [] ∧ cs.all Char.isDigit = true ∧ (cs.head? = some '0' → cs = ['0']) then
    some (Nat.ofDigitChars 10 cs 0)
  else none

def readInt : List Char → Option Int
  | '-' :: cs => (readNat cs).map fun n : Nat => -(n : Int)
  | cs => (readNat cs).map Int.ofNat

/-- The value of a word. -/
def ofWord (w : List Char) : Option Json :=
  if w = ['n', 'u', 'l', 'l'] then some .null
  else if w = ['t', 'r', 'u', 'e'] then some (.bool true)
  else if w = ['f', 'a', 'l', 's', 'e'] then some (.bool false)
  else match readInt w with
    | some n => some (.int n)
    | none => if h : isFloatText w = true then some (.float ⟨w, h⟩) else none

/-- `dct[key] = value`. -/
def setField (fields : List (Str × Json)) (f : Str × Json) : List (Str × Json) :=
  if f.1 ∈ fields.map Prod.fst then fields.map fun g => if g.1 = f.1 then f else g
  else fields ++ [f]

/-- The dict built from pairs. -/
def dictOf (fields : List (Str × Json)) : List (Str × Json) := fields.foldl setField []

mutual

def readValue : Nat → List Char → Option (Json × List Char)
  | 0, _ => none
  | fuel + 1, cs =>
    match skip cs with
    | '"' :: rest => (readString fuel rest).map fun (s, rest) => (.str (Str.ofCodes s), rest)
    | '[' :: rest =>
      match skip rest with
      | ']' :: rest => some (.arr [], rest)
      | _ => (readItems fuel rest).map fun (xs, rest) => (.arr xs, rest)
    | '{' :: rest =>
      match skip rest with
      | '}' :: rest => some (.obj [], rest)
      | _ => (readFields fuel rest).map fun (fs, rest) => (.obj (dictOf fs), rest)
    | cs => (ofWord (cs.takeWhile isLiteralChar)).map fun v => (v, cs.dropWhile isLiteralChar)

/-- Items, up to the closing bracket. -/
def readItems : Nat → List Char → Option (List Json × List Char)
  | 0, _ => none
  | fuel + 1, cs => do
    let (x, rest) ← readValue fuel cs
    match skip rest with
    | ']' :: rest => some ([x], rest)
    | ',' :: rest => (readItems fuel rest).map fun (xs, rest) => (x :: xs, rest)
    | _ => none

/-- Fields, up to the closing brace. -/
def readFields : Nat → List Char → Option (List (Str × Json) × List Char)
  | 0, _ => none
  | fuel + 1, cs =>
    match skip cs with
    | '"' :: rest => do
      let (k, rest) ← readString fuel rest
      match skip rest with
      | ':' :: rest => do
        let (v, rest) ← readValue fuel rest
        match skip rest with
        | '}' :: rest => some ([(Str.ofCodes k, v)], rest)
        | ',' :: rest =>
          (readFields fuel rest).map fun (fs, rest) => ((Str.ofCodes k, v) :: fs, rest)
        | _ => none
      | _ => none
    | _ => none

end

/-- `json.loads`. -/
def loads (cs : List Char) : Option Json :=
  match readValue (cs.length + 1) cs with
  | some (v, rest) => if skip rest = [] then some v else none
  | none => none

mutual

/-- What is read where a value is written: the halves of pairs are taken together,
and of two fields whose keys come out alike the later one counts. -/
def reread : Json → Json
  | .arr items => .arr (rereadItems items)
  | .obj fields => .obj (dictOf (rereadFields fields))
  | .null => .null
  | .bool b => .bool b
  | .int n => .int n
  | .float x => .float x
  | .str s => .str s.joined

def rereadItems : List Json → List Json
  | [] => []
  | x :: xs => reread x :: rereadItems xs

def rereadFields : List (Str × Json) → List (Str × Json)
  | [] => []
  | (k, v) :: fs => (k.joined, reread v) :: rereadFields fs

end

/-! ### Words -/

theorem toDigits_head {n : Nat} (hn : n ≠ 0) : (Nat.toDigits 10 n).head? ≠ some '0' := by
  induction n using Nat.strong_induction_on with
  | _ n ih =>
      by_cases hsmall : n < 10
      · rw [Nat.toDigits_of_lt_base hsmall, List.head?_cons]
        intro h
        have hval := Nat.toNat_digitChar_sub_48_of_lt_ten hsmall
        rw [Option.some.inj h] at hval
        exact hn hval.symm
      · have hdiv : n / 10 ≠ 0 := by omega
        rw [Nat.toDigits_of_base_le (by omega) (by omega), List.head?_append_of_ne_nil _ Nat.toDigits_ne_nil]
        exact ih (n / 10) (by omega) hdiv

theorem readNat_repr (n : Nat) : readNat n.repr.toList = some n := by
  have hhead : n.repr.toList.head? = some '0' → n.repr.toList = ['0'] := by
    intro hzero
    by_cases hn : n = 0
    · subst hn
      rfl
    · rw [Nat.toList_repr] at hzero
      exact absurd hzero (toDigits_head hn)
  have hne : n.repr.toList ≠ [] := by
    rw [Nat.toList_repr]
    exact Nat.toDigits_ne_nil
  rw [readNat, if_pos ⟨hne, List.all_eq_true.mpr (nat_repr_chars n), hhead⟩, Nat.toList_repr,
    Nat.ofDigitChars_ten_toDigits]

theorem readInt_repr (n : Int) : readInt n.repr.toList = some n := by
  cases n with
  | ofNat m =>
      have hdigits := nat_repr_chars m
      have hread := readNat_repr m
      show readInt m.repr.toList = _
      unfold readInt
      split
      · rename_i cs heq
        have hdash := hdigits '-' (by rw [heq]; exact List.mem_cons_self)
        exact absurd hdash (by decide)
      · rw [hread]
        rfl
  | negSucc m =>
      have htext : (Int.negSucc m).repr.toList = '-' :: (m + 1).repr.toList := by
        simp [Int.repr]
      rw [htext, readInt, readNat_repr]
      rfl

/-- An integer is spelled with digits and a sign. -/
theorem readInt_chars {w : List Char} {n : Int} (h : readInt w = some n) :
    ∀ c ∈ w, isIntChar c = true := by
  have hnat : ∀ {cs : List Char} {m : Nat}, readNat cs = some m → ∀ c ∈ cs, isIntChar c = true := by
    intro cs m hm c hc
    unfold readNat at hm
    split at hm
    · rename_i hcond
      simp [isIntChar, List.all_eq_true.mp hcond.2.1 c hc]
    · cases hm
  unfold readInt at h
  split at h
  · obtain ⟨m, hm, -⟩ := Option.map_eq_some_iff.mp h
    intro c hc
    rcases List.mem_cons.mp hc with rfl | hc
    · rfl
    · exact hnat hm c hc
  · obtain ⟨m, hm, -⟩ := Option.map_eq_some_iff.mp h
    exact hnat hm

theorem ofWord_literal {a : Json} {u : List Char} (h : literal a = some u) : ofWord u = some a := by
  match a with
  | .null | .bool true | .bool false =>
      obtain rfl := Option.some.inj h
      rfl
  | .int n =>
      obtain rfl := Option.some.inj h
      have hne : ∀ {w : List Char} {c : Char}, c ∈ w → isIntChar c = false → n.repr.toList ≠ w :=
        fun hc hint => int_repr_ne_word n hc hint
      rw [ofWord, if_neg (hne (c := 'n') (by simp) (by decide)),
        if_neg (hne (c := 't') (by simp) (by decide)), if_neg (hne (c := 'f') (by simp) (by decide)),
        readInt_repr]
  | .float x =>
      obtain rfl := Option.some.inj h
      -- a float's text holds a point or an exponent, which no integer does
      have hnone : readInt x.text = none := by
        cases hread : readInt x.text with
        | none => rfl
        | some n =>
            obtain ⟨c, hc, hint⟩ := x.text_not_int
            rw [readInt_chars hread c hc] at hint
            cases hint
      rw [ofWord, if_neg (x.text_ne_word (by decide)), if_neg (x.text_ne_word (by decide)),
        if_neg (x.text_ne_word (by decide)), hnone]
      simp [x.wf]

/-! ### Strings and dicts -/

theorem dictOf_of_nodup {fields : List (Str × Json)} (h : (fields.map Prod.fst).Nodup) :
    dictOf fields = fields := by
  have hgo : ∀ acc : List (Str × Json), ((acc ++ fields).map Prod.fst).Nodup →
      fields.foldl setField acc = acc ++ fields := by
    clear h
    induction fields with
    | nil => simp
    | cons f fs ih =>
        intro acc hacc
        have hnew : f.1 ∉ acc.map Prod.fst := by
          rw [List.map_append, List.map_cons] at hacc
          intro hin
          exact (List.nodup_append.mp hacc).2.2 _ hin _ List.mem_cons_self rfl
        rw [List.foldl_cons, setField, if_neg hnew, ih (acc ++ [f]) (by simpa using hacc)]
        simp
  exact hgo [] h

/-! ### Reading back -/

theorem skip_of_literal {c : Char} {cs : List Char} (h : isLiteralChar c = true) :
    skip (c :: cs) = c :: cs := by
  apply List.dropWhile_cons_of_neg
  intro hblank
  simp only [isBlank, Bool.or_eq_true, beq_iff_eq] at hblank
  rcases hblank with ((rfl | rfl) | rfl) | rfl <;> revert h <;> decide

theorem skip_bracket {c : Char} {cs : List Char} (h : isBlank c = false) :
    skip (c :: cs) = c :: cs := by
  apply List.dropWhile_cons_of_neg
  simp [h]

/-- A word, up to where its characters end. -/
theorem readValue_word {u s : List Char} (hu : u ≠ []) (hall : ∀ c ∈ u, isLiteralChar c = true)
    (hs : Stop s) (fuel : Nat) :
    readValue (fuel + 1) (u ++ s) = (ofWord u).map fun v => (v, s) := by
  -- the word ends where the text goes on with a stop
  have htake : (u ++ s).takeWhile isLiteralChar = u := by
    rw [List.takeWhile_append_of_pos hall]
    cases s with
    | nil => simp
    | cons c s => rw [List.takeWhile_cons_of_neg (by simp [hs c (by simp)]), List.append_nil]
  have hdrop : (u ++ s).dropWhile isLiteralChar = s := by
    rw [List.dropWhile_append_of_pos hall]
    cases s with
    | nil => rfl
    | cons c s => exact List.dropWhile_cons_of_neg (by simp [hs c (by simp)])
  obtain ⟨c, w, rfl⟩ := List.exists_cons_of_ne_nil hu
  have hc := hall c List.mem_cons_self
  rw [readValue, List.cons_append, skip_of_literal hc]
  rw [List.cons_append] at htake hdrop
  split
  · rename_i heq
    rw [(List.cons.inj heq).1] at hc
    cases hc
  · rename_i heq
    rw [(List.cons.inj heq).1] at hc
    cases hc
  · rename_i heq
    rw [(List.cons.inj heq).1] at hc
    cases hc
  · rw [htake, hdrop]

/-- No value's text opens with white space or a closing bracket. -/
theorem skip_render (a : Json) (s : List Char) : skip (render a ++ s) = render a ++ s := by
  rcases render_opening a with ⟨u, hu⟩ | ⟨x, rfl⟩ | ⟨xs, rfl⟩ | ⟨fs, rfl⟩
  · obtain ⟨hr, hne, hall⟩ := literal_spec hu
    rw [hr]
    obtain ⟨c, w, rfl⟩ := List.exists_cons_of_ne_nil hne
    exact skip_of_literal (hall c List.mem_cons_self)
  · rw [render, quote]
    exact skip_bracket rfl
  · rw [render]
    exact skip_bracket rfl
  · rw [render]
    exact skip_bracket rfl

theorem readString_quote (x : Str) {fuel : Nat} (hfuel : (quote x).length ≤ fuel + 1)
    (s : List Char) : ∃ body, quote x ++ s = '"' :: body ∧
      readString fuel body = some (Code.join x.codes, s) := by
  refine ⟨escape x.codes ++ '"' :: s, by simp [quote], readString_escape _ ?_ s⟩
  simp only [quote, List.length_cons, List.length_append] at hfuel
  omega

theorem length_quote (x : Str) : 2 ≤ (quote x).length := by
  simp [quote]

theorem reread_of_literal {a : Json} {u : List Char} (h : literal a = some u) : reread a = a := by
  match a with
  | .null | .bool _ | .int _ | .float _ => simp only [reread]

theorem skip_quote (x : Str) (s : List Char) : skip (quote x ++ s) = quote x ++ s :=
  skip_bracket rfl

mutual

/-- **A rendered value is read back**, and what follows it is left. -/
theorem readValue_render (a : Json) {fuel : Nat} (hfuel : (render a).length ≤ fuel)
    {s : List Char} (hs : Stop s) : readValue fuel (render a ++ s) = some (reread a, s) := by
  cases hlit : literal a with
  | some u =>
      -- a number or a word is read up to the stop behind it
      obtain ⟨hr, hne, hall⟩ := literal_spec hlit
      rw [hr] at hfuel ⊢
      have hpos := List.length_pos_iff.mpr hne
      obtain ⟨fuel, rfl⟩ := Nat.exists_eq_succ_of_ne_zero (n := fuel) (by omega)
      rw [readValue_word hne hall hs, ofWord_literal hlit, reread_of_literal hlit]
      rfl
  | none =>
      match a, hlit with
      | .str x, _ =>
          rw [render] at hfuel ⊢
          have hlen := length_quote x
          obtain ⟨fuel, rfl⟩ := Nat.exists_eq_succ_of_ne_zero (n := fuel) (by omega)
          obtain ⟨body, hbody, hread⟩ := readString_quote x hfuel s
          rw [readValue, skip_quote, hbody]
          simp only [hread]
          rfl
      | .arr [], _ =>
          simp only [render, renderItems, List.nil_append] at hfuel ⊢
          obtain ⟨fuel, rfl⟩ := Nat.exists_eq_succ_of_ne_zero (n := fuel) (by simp at hfuel; omega)
          rfl
      | .arr (x :: xs), _ =>
          simp only [render, renderItems] at hfuel ⊢
          simp only [List.length_cons, List.length_append] at hfuel
          obtain ⟨fuel, rfl⟩ := Nat.exists_eq_succ_of_ne_zero (n := fuel) (by omega)
          -- a list: its first item, then the loop over the rest
          have hread := @readItems_render x xs fuel
            (by simp only [List.length_append]; simp at hfuel; omega) s
          have htext : '[' :: (render x ++ renderItemsTail xs ++ [']']) ++ s =
              '[' :: (render x ++ (renderItemsTail xs ++ ']' :: s)) := by simp
          rw [htext, readValue, skip_bracket rfl]
          simp only
          rw [skip_render, hread]
          split
          · rename_i heq
            exact absurd heq (render_ne_close x (by decide) (by decide) (by decide) (by decide))
          · rfl
      | .obj [], _ =>
          simp only [render, renderFields, List.nil_append] at hfuel ⊢
          obtain ⟨fuel, rfl⟩ := Nat.exists_eq_succ_of_ne_zero (n := fuel) (by simp at hfuel; omega)
          rfl
      | .obj ((k, v) :: fs), _ =>
          simp only [render, renderFields] at hfuel ⊢
          obtain ⟨fuel, rfl⟩ := Nat.exists_eq_succ_of_ne_zero (n := fuel) (by simp at hfuel; omega)
          have hread := @readFields_render k v fs fuel
            (by simp only [List.length_append, List.length_cons] at hfuel ⊢; simp at hfuel; omega) s
          have htext : '\x7b' :: (quote k ++ ':' :: (render v ++ renderFieldsTail fs) ++ ['\x7d']) ++ s =
              '\x7b' :: (quote k ++ ':' :: (render v ++ (renderFieldsTail fs ++ '\x7d' :: s))) := by
            simp
          rw [htext, readValue, skip_bracket rfl]
          simp only
          rw [skip_quote, hread, Option.map_some]
          rfl
termination_by fuel

theorem readItems_render (x : Json) (xs : List Json) {fuel : Nat}
    (hfuel : (render x ++ renderItemsTail xs).length < fuel) (s : List Char) :
    readItems fuel (render x ++ (renderItemsTail xs ++ ']' :: s)) =
      some (rereadItems (x :: xs), s) := by
  obtain ⟨fuel, rfl⟩ := Nat.exists_eq_succ_of_ne_zero (Nat.ne_zero_of_lt hfuel)
  rw [List.length_append] at hfuel
  have hread := @readValue_render x fuel (by omega) _ (stop_itemsTail xs s)
  match xs with
  | [] =>
      simp only [readItems, hread]
      rfl
  | y :: ys =>
      simp only [renderItemsTail, List.length_cons] at hfuel
      have hrest := @readItems_render y ys fuel (by omega) s
      have htext : renderItemsTail (y :: ys) ++ ']' :: s =
          ',' :: (render y ++ (renderItemsTail ys ++ ']' :: s)) := by simp [renderItemsTail]
      rw [htext] at hread ⊢
      simp only [readItems, hread, skip_bracket (show isBlank ',' = false from rfl), hrest,
        Option.bind_eq_bind, Option.bind_some]
      rfl
termination_by fuel

theorem readFields_render (k : Str) (v : Json) (fs : List (Str × Json)) {fuel : Nat}
    (hfuel : (quote k ++ ':' :: (render v ++ renderFieldsTail fs)).length < fuel) (s : List Char) :
    readFields fuel (quote k ++ ':' :: (render v ++ (renderFieldsTail fs ++ '\x7d' :: s))) =
      some (rereadFields ((k, v) :: fs), s) := by
  obtain ⟨fuel, rfl⟩ := Nat.exists_eq_succ_of_ne_zero (Nat.ne_zero_of_lt hfuel)
  rw [List.length_append, List.length_cons, List.length_append] at hfuel
  obtain ⟨body, hbody, hkey⟩ := @readString_quote k fuel (by omega)
    (':' :: (render v ++ (renderFieldsTail fs ++ '\x7d' :: s)))
  have hread := @readValue_render v fuel (by omega) _ (stop_fieldsTail fs s)
  rw [readFields, skip_quote, hbody]
  match fs with
  | [] =>
      simp only [hkey, Option.bind_eq_bind, Option.bind_some,
        skip_bracket (show isBlank ':' = false from rfl), hread]
      rfl
  | (k', v') :: gs =>
      simp only [renderFieldsTail, List.length_cons, List.length_append] at hfuel
      have hrest := @readFields_render k' v' gs fuel
        (by simp only [List.length_append, List.length_cons]; omega) s
      have htext : renderFieldsTail ((k', v') :: gs) ++ '\x7d' :: s =
          ',' :: (quote k' ++ ':' :: (render v' ++ (renderFieldsTail gs ++ '\x7d' :: s))) := by
        simp [renderFieldsTail]
      rw [htext] at hread hkey
      simp only [hkey, Option.bind_eq_bind, Option.bind_some,
        skip_bracket (show isBlank ':' = false from rfl), hread,
        skip_bracket (show isBlank ',' = false from rfl), hrest]
      rfl
termination_by fuel

end

/-- **`json.loads` undoes `json.dumps`**, up to the halves of pairs. -/
theorem loads_render (a : Json) : loads (render a) = some (reread a) := by
  have hread := @readValue_render a ((render a).length + 1) (by omega) []
    (by intro c hc; simp at hc)
  rw [List.append_nil] at hread
  simp [loads, hread, skip]

/-! ### Printable text -/

/-- From the blank to the tilde. -/
def isPrintable (c : Char) : Bool := decide (0x20 ≤ c.toNat) && decide (c.toNat ≤ 0x7e)

theorem printable_hexDigit {n : Nat} (h : n < 16) : isPrintable (hexDigit n) = true := by
  have key : ∀ m : Fin 16, isPrintable (hexDigit m) = true := by decide
  exact key ⟨n, h⟩

theorem printable_uEscape (n : Nat) : ∀ d ∈ uEscape n, isPrintable d = true := by
  intro d hd
  simp only [uEscape, hex4, List.mem_cons, List.not_mem_nil, or_false] at hd
  rcases hd with rfl | rfl | rfl | rfl | rfl | rfl
  · rfl
  · rfl
  all_goals exact printable_hexDigit (Nat.mod_lt _ (by decide))

theorem printable_escapeChar (c : Char) : ∀ d ∈ escapeChar c, isPrintable d = true := by
  intro d hd
  have hpair : ∀ e, isPrintable e = true → d ∈ ['\\', e] → isPrintable d = true := by
    intro e he hmem
    rcases List.mem_pair.mp hmem with rfl | rfl
    · rfl
    · exact he
  unfold escapeChar at hd
  split_ifs at hd with h₁ h₂ h₃ h₄ h₅ h₆ h₇ h₈ h₉
  · exact hpair _ rfl hd
  · exact hpair _ rfl hd
  · exact hpair _ rfl hd
  · exact hpair _ rfl hd
  · exact hpair _ rfl hd
  · exact hpair _ rfl hd
  · exact hpair _ rfl hd
  · rw [List.mem_singleton.mp hd]
    simp [isPrintable, h₈.1, h₈.2]
  · exact printable_uEscape _ d hd
  · rcases List.mem_append.mp hd with hd | hd
    · exact printable_uEscape _ d hd
    · exact printable_uEscape _ d hd

theorem printable_escapeCode (c : Code) : ∀ d ∈ escapeCode c, isPrintable d = true := by
  cases c with
  | char c => exact printable_escapeChar c
  | half h => exact printable_uEscape h.toNat

theorem printable_quote (x : Str) : ∀ d ∈ quote x, isPrintable d = true := by
  intro d hd
  rcases List.mem_cons.mp hd with rfl | hd
  · rfl
  · rcases List.mem_append.mp hd with hd | hd
    · obtain ⟨c, -, hc⟩ := List.mem_flatMap.mp hd
      exact printable_escapeCode c d hc
    · rw [List.mem_singleton.mp hd]
      rfl

theorem printable_of_literal {c : Char} (h : isLiteralChar c = true) : isPrintable c = true := by
  simp only [isLiteralChar, Char.isAlphanum, Char.isAlpha, Char.isUpper, Char.isLower, Char.isDigit,
    Bool.or_eq_true, beq_iff_eq, Bool.and_eq_true, decide_eq_true_eq, UInt32.le_iff_toNat_le] at h
  have hval : c.val.toNat = c.toNat := rfl
  simp only [isPrintable, Bool.and_eq_true, decide_eq_true_eq]
  rcases h with ((h | rfl) | rfl) | rfl
  · rw [hval] at h
    revert h
    simp
    omega
  all_goals decide

mutual

/-- **Whatever a value holds, its text is printable.** -/
theorem render_printable (a : Json) : ∀ c ∈ render a, isPrintable c = true := by
  cases hlit : literal a with
  | some u =>
      obtain ⟨hr, -, hall⟩ := literal_spec hlit
      rw [hr]
      exact fun c hc => printable_of_literal (hall c hc)
  | none =>
      match a, hlit with
      | .str x, _ =>
          rw [render]
          exact printable_quote x
      | .arr xs, _ =>
          intro c hc
          simp only [render, List.mem_cons, List.mem_append, List.not_mem_nil, or_false] at hc
          rcases hc with rfl | hc | rfl
          · rfl
          · exact renderItems_printable xs c hc
          · rfl
      | .obj fs, _ =>
          intro c hc
          simp only [render, List.mem_cons, List.mem_append, List.not_mem_nil, or_false] at hc
          rcases hc with rfl | hc | rfl
          · rfl
          · exact renderFields_printable fs c hc
          · rfl

theorem renderItems_printable (xs : List Json) : ∀ c ∈ renderItems xs, isPrintable c = true := by
  match xs with
  | [] => simp [renderItems]
  | x :: xs =>
      intro c hc
      rw [renderItems, List.mem_append] at hc
      rcases hc with hc | hc
      · exact render_printable x c hc
      · exact renderItemsTail_printable xs c hc

theorem renderItemsTail_printable (xs : List Json) :
    ∀ c ∈ renderItemsTail xs, isPrintable c = true := by
  match xs with
  | [] => simp [renderItemsTail]
  | x :: xs =>
      intro c hc
      rw [renderItemsTail, List.mem_cons, List.mem_append] at hc
      rcases hc with rfl | hc | hc
      · rfl
      · exact render_printable x c hc
      · exact renderItemsTail_printable xs c hc

theorem renderFields_printable (fs : List (Str × Json)) :
    ∀ c ∈ renderFields fs, isPrintable c = true := by
  match fs with
  | [] => simp [renderFields]
  | (k, v) :: fs =>
      intro c hc
      rw [renderFields, List.mem_append, List.mem_cons, List.mem_append] at hc
      rcases hc with hc | rfl | hc | hc
      · exact printable_quote k c hc
      · rfl
      · exact render_printable v c hc
      · exact renderFieldsTail_printable fs c hc

theorem renderFieldsTail_printable (fs : List (Str × Json)) :
    ∀ c ∈ renderFieldsTail fs, isPrintable c = true := by
  match fs with
  | [] => simp [renderFieldsTail]
  | (k, v) :: fs =>
      intro c hc
      rw [renderFieldsTail, List.mem_cons, List.mem_append, List.mem_cons, List.mem_append] at hc
      rcases hc with rfl | hc | rfl | hc | hc
      · rfl
      · exact printable_quote k c hc
      · rfl
      · exact render_printable v c hc
      · exact renderFieldsTail_printable fs c hc

end

end Json

end Py
