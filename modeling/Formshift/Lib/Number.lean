/-
Formshift/Lib/Number.lean

Python's numbers: rounding, binary64 floats and what can be done with them, and
the conversions `int` and `float` of a JSON value.

An operation on floats is the exact operation on rationals, rounded
(`Double.round`); what matters of the rounding is that it passes over no integer
(`nearest_mem`).  A conversion that has no result raises, and whether it does so
beyond `TypeError` and `ValueError` depends on the value alone (`within_intOf`,
`within_floatOf`).
-/
import Mathlib
import Formshift.Lib.Json
import Formshift.Lib.Raised

namespace Py

/-! ### Rounding -/

/-- The nearest integer, the even one of two. -/
def roundHalfEven (q : ℚ) : ℤ :=
  if q - ⌊q⌋ < 1 / 2 then ⌊q⌋
  else if 1 / 2 < q - ⌊q⌋ then ⌊q⌋ + 1
  else if ⌊q⌋ % 2 = 0 then ⌊q⌋
  else ⌊q⌋ + 1

theorem roundHalfEven_cases (q : ℚ) : roundHalfEven q = ⌊q⌋ ∨ roundHalfEven q = ⌊q⌋ + 1 := by
  unfold roundHalfEven
  split_ifs
  · exact Or.inl rfl
  · exact Or.inr rfl
  · exact Or.inl rfl
  · exact Or.inr rfl

@[simp] theorem roundHalfEven_intCast (n : ℤ) : roundHalfEven (n : ℚ) = n := by
  simp [roundHalfEven]

theorem le_roundHalfEven {q : ℚ} {n : ℤ} (h : (n : ℚ) ≤ q) : n ≤ roundHalfEven q := by
  have hfloor : n ≤ ⌊q⌋ := Int.le_floor.mpr h
  rcases roundHalfEven_cases q with hq | hq
  · rw [hq]
    exact hfloor
  · rw [hq]
    omega

theorem roundHalfEven_le {q : ℚ} {n : ℤ} (h : q ≤ n) : roundHalfEven q ≤ n := by
  rcases h.lt_or_eq with hlt | rfl
  · have hfloor : ⌊q⌋ < n := Int.floor_lt.mpr hlt
    rcases roundHalfEven_cases q with hq | hq
    · rw [hq]
      omega
    · rw [hq]
      omega
  · exact (roundHalfEven_intCast n).le

/-- What lies above one half does not round to nothing. -/
theorem one_le_roundHalfEven_iff {q : ℚ} : 1 ≤ roundHalfEven q ↔ 1 / 2 < q := by
  constructor
  · intro h
    by_contra hle
    have hle := not_lt.mp hle
    rcases lt_or_ge q 0 with hneg | hpos
    · have := roundHalfEven_le (n := 0) (by exact_mod_cast hneg.le)
      omega
    · have hfloor : ⌊q⌋ = 0 := Int.floor_eq_iff.mpr ⟨by simpa using hpos, by norm_num; linarith⟩
      have hzero : roundHalfEven q = 0 := by
        unfold roundHalfEven
        rw [hfloor]
        split_ifs with h₁ h₂
        · rfl
        · norm_num at h₂
          linarith
        · rfl
        · simp at *
      omega
  · intro h
    rcases lt_or_ge q 1 with hlt | hge
    · have hfloor : ⌊q⌋ = 0 := Int.floor_eq_iff.mpr ⟨by norm_num; linarith, by simpa using hlt⟩
      unfold roundHalfEven
      rw [hfloor, if_neg (by norm_num; linarith), if_pos (by norm_num; linarith)]
      norm_num
    · exact le_roundHalfEven (by simpa using hge)

/-! ### Floats -/

/-- A Python `float`, a binary64 number; zero has one sign here. -/
inductive Double where
  | nan
  | inf (negative : Bool)
  | finite (q : ℚ)
  deriving DecidableEq

/-- The least magnitude that rounds beyond every finite number. -/
def overflowBound : ℚ := 2 ^ 1024 - 2 ^ 970

/-- The distance of the binary64 numbers around `q`, as a power of two. -/
def spacing (q : ℚ) : ℤ := max (Int.log 2 |q| - 52) (-1074)

/-- The nearest binary64 number, had these no largest one. -/
def nearest (q : ℚ) : ℚ := roundHalfEven (q / 2 ^ spacing q) * 2 ^ spacing q

namespace Double

def round (q : ℚ) : Double :=
  if overflowBound ≤ |q| then .inf (decide (q < 0)) else .finite (nearest q)

def IsFinite (x : Double) : Prop := ∃ q, x = .finite q

/-- `x < y`. -/
def lt : Double → Double → Bool
  | .nan, _ | _, .nan => false
  | .finite p, .finite q => p < q
  | .finite _, .inf negative => !negative
  | .inf negative, .finite _ => negative
  | .inf negative, .inf negative' => negative && !negative'

/-- `x <= y`. -/
def le : Double → Double → Bool
  | .nan, _ | _, .nan => false
  | .finite p, .finite q => p ≤ q
  | .finite _, .inf negative => !negative
  | .inf negative, .finite _ => negative
  | .inf negative, .inf negative' => negative || !negative'

/-- `x * y`. -/
def mul : Double → Double → Double
  | .nan, _ | _, .nan => .nan
  | .finite p, .finite q => round (p * q)
  | .finite p, .inf negative => if p = 0 then .nan else .inf (decide (p < 0) ^^ negative)
  | .inf negative, .finite q => if q = 0 then .nan else .inf (negative ^^ decide (q < 0))
  | .inf negative, .inf negative' => .inf (negative ^^ negative')

/-- `x / y`. -/
def div : Double → Double → Except Raised Double
  | x, .finite q =>
    if q = 0 then .error ⟨.zeroDivisionError, "float division by zero"⟩
    else
      match x with
      | .nan => .ok .nan
      | .finite p => .ok (round (p / q))
      | .inf negative => .ok (.inf (negative ^^ decide (q < 0)))
  | .finite _, .inf _ => .ok (.finite 0)
  | .inf _, .inf _ | .nan, _ | _, .nan => .ok .nan

/-- `max(x, y)`: the first unless the second is greater. -/
def pyMax (x y : Double) : Double := if x.lt y then y else x

/-- `min(x, y)`. -/
def pyMin (x y : Double) : Double := if y.lt x then y else x

/-- `round(x)`. -/
def toInt : Double → Except Raised Int
  | .nan => .error ⟨.valueError, "cannot convert float NaN to integer"⟩
  | .inf _ => .error ⟨.overflowError, "cannot convert float infinity to integer"⟩
  | .finite q => .ok (roundHalfEven q)

/-- `int(x)`, which cuts off. -/
def truncate : Double → Except Raised Int
  | .nan => .error ⟨.valueError, "cannot convert float NaN to integer"⟩
  | .inf _ => .error ⟨.overflowError, "cannot convert float infinity to integer"⟩
  | .finite q => .ok (q.num.tdiv q.den)

/-- `float(n)`. -/
def ofInt (n : Int) : Except Raised Double :=
  if overflowBound ≤ |(n : ℚ)| then .error ⟨.overflowError, "int too large to convert to float"⟩
  else .ok (.finite (nearest n))

end Double

/-- Rounding does not pass over an integer that is a binary64 number. -/
theorem nearest_mem {q : ℚ} {n : ℕ} (hn : n < 2 ^ 53) (h0 : 0 ≤ q) (hq : q ≤ n) :
    0 ≤ nearest q ∧ nearest q ≤ n := by
  have hpos : (0 : ℚ) < 2 ^ spacing q := by positivity
  have hnonpos : spacing q ≤ 0 := by
    refine max_le ?_ (by norm_num)
    rcases h0.eq_or_lt with rfl | h0
    · simp
    · have hlog : Int.log 2 |q| < 53 := by
        refine (Int.lt_zpow_iff_log_lt (by norm_num) (abs_pos.mpr h0.ne')).mp ?_
        rw [abs_of_pos h0]
        calc q ≤ n := hq
          _ < 2 ^ 53 := by exact_mod_cast hn
          _ = _ := by norm_num
      omega
  constructor
  · refine mul_nonneg ?_ hpos.le
    exact_mod_cast le_roundHalfEven (n := 0) (by simpa using div_nonneg h0 hpos.le)
  · -- in units of the spacing the bound is an integer
    obtain ⟨k, hk⟩ : ∃ k : ℕ, spacing q = -(k : ℤ) := ⟨(spacing q).natAbs, by omega⟩
    have hunits : (n : ℚ) / 2 ^ spacing q = ((n * 2 ^ k : ℕ) : ℤ) := by
      rw [hk, zpow_neg, div_inv_eq_mul]
      push_cast
      norm_cast
    have hround : roundHalfEven (q / 2 ^ spacing q) ≤ ((n * 2 ^ k : ℕ) : ℤ) := by
      apply roundHalfEven_le
      rw [← hunits]
      exact div_le_div_of_nonneg_right hq hpos.le
    calc nearest q ≤ (((n * 2 ^ k : ℕ) : ℤ) : ℚ) * 2 ^ spacing q :=
          mul_le_mul_of_nonneg_right (by exact_mod_cast hround) hpos.le
      _ = n := by rw [← hunits, div_mul_cancel₀ _ hpos.ne']

/-- Integers that are small enough are binary64 numbers. -/
theorem nearest_intCast {n : ℤ} (hn : |n| < 2 ^ 53) : nearest n = n := by
  have hpos : (0 : ℚ) < 2 ^ spacing n := by positivity
  have hnonpos : spacing n ≤ 0 := by
    refine max_le ?_ (by norm_num)
    rcases eq_or_ne n 0 with rfl | hne
    · simp
    · have habs : |(n : ℚ)| ≠ 0 := by simpa using hne
      have hlog : Int.log 2 |(n : ℚ)| < 53 := by
        refine (Int.lt_zpow_iff_log_lt (by norm_num) (by positivity)).mp ?_
        exact_mod_cast hn
      omega
  obtain ⟨k, hk⟩ : ∃ k : ℕ, spacing n = -(k : ℤ) := ⟨(spacing n).natAbs, by omega⟩
  have hunits : (n : ℚ) / 2 ^ spacing n = ((n * 2 ^ k : ℤ) : ℚ) := by
    rw [hk, zpow_neg, div_inv_eq_mul]
    push_cast
    norm_cast
  rw [nearest, hunits, roundHalfEven_intCast, ← hunits, div_mul_cancel₀ _ hpos.ne']

/-- A number that is not negative does not round below zero. -/
theorem nearest_nonneg {q : ℚ} (h : 0 ≤ q) : 0 ≤ nearest q := by
  have hpos : (0 : ℚ) < 2 ^ spacing q := by positivity
  refine mul_nonneg ?_ hpos.le
  exact_mod_cast le_roundHalfEven (n := 0) (by simpa using div_nonneg h hpos.le)

theorem le_overflowBound {n : ℕ} (h : n < 2 ^ 53) : (n : ℚ) < overflowBound := by
  have hn : (n : ℚ) < 2 ^ 53 := by exact_mod_cast h
  have hle : (2 : ℚ) ^ 53 ≤ 2 ^ 970 := pow_le_pow_right₀ (by norm_num) (by norm_num)
  have hsplit : (2 : ℚ) ^ 1024 = 2 ^ 970 * 2 ^ 54 := by rw [← pow_add]
  have hdouble : (2 : ℚ) ^ 970 * 2 ≤ 2 ^ 970 * 2 ^ 54 :=
    mul_le_mul_of_nonneg_left (by norm_num) (by positivity)
  rw [overflowBound, hsplit]
  generalize (2 : ℚ) ^ 970 = top at hle hdouble ⊢
  linarith

theorem Double.round_mem {q : ℚ} {n : ℕ} (hn : n < 2 ^ 53) (h0 : 0 ≤ q) (hq : q ≤ n) :
    ∃ r, Double.round q = .finite r ∧ 0 ≤ r ∧ r ≤ n := by
  refine ⟨nearest q, ?_, nearest_mem hn h0 hq⟩
  rw [Double.round, if_neg]
  rw [abs_of_nonneg h0, not_le]
  exact hq.trans_lt (le_overflowBound hn)

namespace Double

theorem ofInt_small {n : ℤ} (hn : |n| < 2 ^ 53) : ofInt n = .ok (.finite n) := by
  have hlt : |(n : ℚ)| < overflowBound := by
    have hcast : |(n : ℚ)| = (n.natAbs : ℚ) := by
      rw [← Int.cast_abs, Int.abs_eq_natAbs]
      rfl
    rw [Int.abs_eq_natAbs] at hn
    rw [hcast]
    exact le_overflowBound (by omega)
  rw [ofInt, if_neg (not_le.mpr hlt), nearest_intCast hn]

/-- Rounding keeps the sign. -/
theorem le_round {q : ℚ} (h : 0 ≤ q) : (finite 0).le (round q) = true := by
  unfold round
  split_ifs
  · simp [le, h]
  · simpa [le] using nearest_nonneg h

/-- Between `0.0` and `1.0` everything ends up, also what is no number. -/
theorem clamp_mem (x : Double) :
    ∃ q, pyMax (finite 0) (pyMin (finite 1) x) = finite q ∧ 0 ≤ q ∧ q ≤ 1 := by
  unfold pyMin
  split_ifs with h
  · unfold pyMax
    split_ifs with h₀
    · cases x with
      | nan => cases h
      | inf negative => cases negative <;> simp [lt] at h h₀
      | finite q =>
          exact ⟨q, rfl, (of_decide_eq_true h₀).le, (of_decide_eq_true h).le⟩
    · exact ⟨0, rfl, le_rfl, zero_le_one⟩
  · exact ⟨1, by simp [pyMax, lt], zero_le_one, le_rfl⟩

/-- Only the zeros cannot be divided by. -/
theorem div_finite {x : Double} {q : ℚ} (hq : q ≠ 0) : ∃ y, x.div (finite q) = .ok y := by
  cases x <;> simp [div, hq]

end Double

/-! ### Conversions of JSON values -/

/-- How Python reads and spells numbers and values. -/
structure Numerals where
  /-- The number a decimal float literal is read as. -/
  decimal : Float → ℚ
  /-- `int` of a string, or the text of its `ValueError`. -/
  intOfStr : Str → Except String Int
  /-- `float` of a string, or the text of its `ValueError`. -/
  floatOfStr : Str → Except String Double
  /-- `str` of a float. -/
  floatText : Double → String
  /-- `repr` of a value whose integers can be spelled. -/
  repr : Json → String

/-- The limit of `str` of an integer: 4300 digits. -/
def digitBound : Int := 10 ^ 4300

def Spellable (n : Int) : Prop := |n| < digitBound

instance (n : Int) : Decidable (Spellable n) := inferInstanceAs (Decidable (|n| < digitBound))

mutual

/-- `repr` comes upon no integer it cannot spell. -/
def Json.spellable : Json → Bool
  | .int n => decide (Spellable n)
  | .arr items => Json.spellableItems items
  | .obj fields => Json.spellableFields fields
  | .null | .bool _ | .float _ | .str _ => true

def Json.spellableItems : List Json → Bool
  | [] => true
  | v :: rest => v.spellable && Json.spellableItems rest

def Json.spellableFields : List (Str × Json) → Bool
  | [] => true
  | (_, v) :: rest => v.spellable && Json.spellableFields rest

end

def tooLong : Raised := ⟨.valueError, "Exceeds the limit (4300 digits) for integer string " ++
  "conversion; use sys.set_int_max_str_digits() to increase the limit"⟩

/-- `str(n)`. -/
def intText (n : Int) : Except Raised String := if Spellable n then .ok n.repr else .error tooLong

section Conversions

variable (num : Numerals)

/-- `repr(value)`. -/
def reprOf (v : Json) : Except Raised String :=
  if v.spellable then .ok (num.repr v) else .error tooLong

/-- The value of a JSON float. -/
def Float.value (x : Float) : Double :=
  if x.text = nanText then .nan
  else if x.text = infText then .inf false
  else if x.text = negInfText then .inf true
  else .finite (num.decimal x)

/-- `int(value)`. -/
def intOf : Json → Except Raised Int
  | .int n => .ok n
  | .bool b => .ok (if b then 1 else 0)
  | .float x => (x.value num).truncate
  | .str s => (num.intOfStr s).mapError fun text => ⟨.valueError, text⟩
  | v => .error ⟨.typeError, "int() argument must be a string, a bytes-like object or a real " ++
      "number, not '" ++ v.typeName ++ "'"⟩

/-- `float(value)`. -/
def floatOf : Json → Except Raised Double
  | .int n => Double.ofInt n
  | .bool b => .ok (.finite (if b then 1 else 0))
  | .float x => .ok (x.value num)
  | .str s => (num.floatOfStr s).mapError fun text => ⟨.valueError, text⟩
  | v => .error ⟨.typeError, "float() argument must be a string or a real number, not '" ++
      v.typeName ++ "'"⟩

/-! ### When a conversion has no result -/

variable {num}

/-- `int` escapes on the infinite floats alone. -/
theorem within_intOf (v : Json) : Within (Caught [.typeError, .valueError]) (intOf num v) ↔
    ∀ x negative, v = .float x → x.value num ≠ .inf negative := by
  cases v with
  | null | arr | obj => exact iff_of_true (Within.raise (by simp)) (by simp)
  | bool | int => exact iff_of_true (within_ok.mpr trivial) (by simp)
  | str s =>
      refine iff_of_true (within_mapError.mpr fun e _ => ?_) (by simp)
      exact Raised.isA_of_mem (by simp)
  | float x =>
      rw [intOf]
      constructor
      · rintro h y negative hy hvalue
        obtain rfl := Json.float.inj hy
        rw [hvalue] at h
        exact absurd (h _ rfl) (by decide)
      · intro h
        cases hvalue : x.value num with
        | nan => exact Within.raise (by simp)
        | inf negative => exact absurd hvalue (h x negative rfl)
        | finite q => exact within_ok.mpr trivial

/-- `float` escapes on integers beyond the largest float alone. -/
theorem within_floatOf (v : Json) : Within (Caught [.typeError, .valueError]) (floatOf num v) ↔
    ∀ n : Int, v = .int n → |(n : ℚ)| < overflowBound := by
  cases v with
  | null | arr | obj => exact iff_of_true (Within.raise (by simp)) (by simp)
  | bool | float => exact iff_of_true (within_ok.mpr trivial) (by simp)
  | str s =>
      refine iff_of_true (within_mapError.mpr fun e _ => ?_) (by simp)
      exact Raised.isA_of_mem (by simp)
  | int n =>
      rw [floatOf, Double.ofInt]
      split_ifs with h
      · refine iff_of_false ?_ fun hlt => absurd (hlt n rfl) (not_lt.mpr h)
        intro hwithin
        exact absurd (hwithin _ rfl) (by decide)
      · refine iff_of_true (within_ok.mpr trivial) ?_
        rintro m hm
        obtain rfl := Json.int.inj hm
        exact not_le.mp h

/-- The classes a conversion raises in. -/
def IsConversionError (e : Raised) : Prop :=
  e.type ∈ [ExceptionClass.typeError, .valueError, .overflowError]

theorem intOf_error (v : Json) : Within IsConversionError (intOf num v) := by
  have hmem : ∀ c ∈ [ExceptionClass.typeError, .valueError, .overflowError], ∀ text,
      IsConversionError ⟨c, text⟩ := fun c hc _ => hc
  cases v with
  | null | arr | obj => exact within_error.mpr (hmem _ (by simp) _)
  | bool | int => exact within_ok.mpr trivial
  | str s => exact within_mapError.mpr fun e _ => hmem _ (by simp) _
  | float x =>
      rw [intOf]
      cases x.value num with
      | nan | inf => exact within_error.mpr (hmem _ (by simp) _)
      | finite q => exact within_ok.mpr trivial

theorem floatOf_error (v : Json) : Within IsConversionError (floatOf num v) := by
  have hmem : ∀ c ∈ [ExceptionClass.typeError, .valueError, .overflowError], ∀ text,
      IsConversionError ⟨c, text⟩ := fun c hc _ => hc
  cases v with
  | null | arr | obj => exact within_error.mpr (hmem _ (by simp) _)
  | bool | float => exact within_ok.mpr trivial
  | str s => exact within_mapError.mpr fun e _ => hmem _ (by simp) _
  | int n =>
      rw [floatOf, Double.ofInt]
      split_ifs
      · exact within_error.mpr (hmem _ (by simp) _)
      · exact within_ok.mpr trivial

end Conversions

end Py
