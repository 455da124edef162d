/-
Formshift/Lib/Base64.lean

Base64 with padding (`base64.b64encode`, `base64.b64decode`), three bytes in
four characters.  What was encoded is decoded again (`b64decode_b64encode`).
-/
import Mathlib

namespace Py

def base64Alphabet : List Char :=
  "ABCDEFGHIJKLMNOPQRSTUVWXYZabcdefghijklmnopqrstuvwxyz0123456789+/".toList

def base64Char (n : Nat) : Char := base64Alphabet[n]?.getD '='

def base64Value (c : Char) : Nat := base64Alphabet.idxOf c

def b64encode : List UInt8 → List Char
  | [] => []
  | [a] => [base64Char (a.toNat / 4), base64Char (a.toNat % 4 * 16), '=', '=']
  | [a, b] => [base64Char (a.toNat / 4), base64Char (a.toNat % 4 * 16 + b.toNat / 16),
      base64Char (b.toNat % 16 * 4), '=']
  | a :: b :: c :: rest =>
    base64Char (a.toNat / 4) :: base64Char (a.toNat % 4 * 16 + b.toNat / 16) ::
      base64Char (b.toNat % 16 * 4 + c.toNat / 64) :: base64Char (c.toNat % 64) :: b64encode rest

/-- Of a text that was encoded. -/
def b64decode : List Char → List UInt8
  | w :: x :: y :: z :: rest =>
    let a := UInt8.ofNat (base64Value w * 4 + base64Value x / 16)
    let b := UInt8.ofNat (base64Value x % 16 * 16 + base64Value y / 4)
    let c := UInt8.ofNat (base64Value y % 4 * 64 + base64Value z)
    if y = '=' then [a]
    else if z = '=' then [a, b]
    else a :: b :: c :: b64decode rest
  | _ => []

theorem base64Value_base64Char {n : Nat} (h : n < 64) : base64Value (base64Char n) = n := by
  have hall : ∀ n : Fin 64, base64Value (base64Char n) = n := by decide +kernel
  exact hall ⟨n, h⟩

theorem base64Char_ne_pad {n : Nat} (h : n < 64) : base64Char n ≠ '=' := by
  have hall : ∀ n : Fin 64, base64Char n ≠ '=' := by decide +kernel
  exact hall ⟨n, h⟩

theorem ofNat_eq {n : Nat} {a : UInt8} (h : n = a.toNat) : UInt8.ofNat n = a := by
  rw [h, UInt8.ofNat_toNat]

theorem b64decode_b64encode (bytes : List UInt8) : b64decode (b64encode bytes) = bytes := by
  have hlt : ∀ a : UInt8, a.toNat < 256 := fun a => a.toNat_lt
  induction bytes using b64encode.induct with
  | case1 => rfl
  | case2 a =>
      have ha := hlt a
      rw [b64encode, b64decode, if_pos rfl]
      simp (disch := omega) only [base64Value_base64Char]
      rw [ofNat_eq (a := a) (by omega)]
  | case3 a b =>
      have ha := hlt a
      have hb := hlt b
      rw [b64encode, b64decode, if_neg (base64Char_ne_pad (by omega)), if_pos rfl]
      simp (disch := omega) only [base64Value_base64Char]
      rw [ofNat_eq (a := a) (by omega), ofNat_eq (a := b) (by omega)]
  | case4 a b c rest ih =>
      have ha := hlt a
      have hb := hlt b
      have hc := hlt c
      rw [b64encode, b64decode, if_neg (base64Char_ne_pad (by omega)),
        if_neg (base64Char_ne_pad (by omega)), ih]
      simp (disch := omega) only [base64Value_base64Char]
      rw [ofNat_eq (a := a) (by omega), ofNat_eq (a := b) (by omega), ofNat_eq (a := c) (by omega)]

end Py
