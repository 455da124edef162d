/-
Formshift/Lib/ElementTree.lean

Elements of a markup document (`xml.etree.ElementTree`), and binary trees of an
operation on them or on anything else.

Attributes keep the place at which they were first set, so setting one twice is
setting it once (`set_set`).  A tree of an associative operation is worth what
its leaves are in their order (`fold_eq_foldl`).
-/
import Mathlib

namespace Py

/-- An element; attributes in the order in which they were set, `tail` the text
behind it. -/
structure Element where
  tag : String
  attributes : List (String × String)
  text : Option String
  children : List Element
  tail : Option String

/-- `attrib[name] = value`. -/
def setAttribute (name value : String) : List (String × String) → List (String × String)
  | [] => [(name, value)]
  | (n, v) :: rest =>
    if n = name then (name, value) :: rest else (n, v) :: setAttribute name value rest

theorem lookup_setAttribute (name value : String) (attributes : List (String × String)) :
    (setAttribute name value attributes).lookup name = some value := by
  induction attributes with
  | nil => simp [setAttribute]
  | cons first rest ih =>
      rw [setAttribute]
      split_ifs with h
      · simp
      · rw [List.lookup_cons, beq_false_of_ne (Ne.symm h)]
        exact ih

/-- The later value takes the place of the earlier one. -/
theorem setAttribute_setAttribute (name value value' : String)
    (attributes : List (String × String)) :
    setAttribute name value' (setAttribute name value attributes) =
      setAttribute name value' attributes := by
  induction attributes with
  | nil => simp [setAttribute]
  | cons first rest ih =>
      obtain ⟨n, v⟩ := first
      by_cases h : n = name
      · simp [setAttribute, h]
      · simp [setAttribute, h, ih]

namespace Element

/-- `element.get(name)`. -/
def get (e : Element) (name : String) : Option String := e.attributes.lookup name

/-- `element.set(name, value)`. -/
def set (e : Element) (name value : String) : Element :=
  { e with attributes := setAttribute name value e.attributes }

@[simp] theorem set_tag (e : Element) (name value : String) : (e.set name value).tag = e.tag := rfl

@[simp] theorem get_set (e : Element) (name value : String) :
    (e.set name value).get name = some value :=
  lookup_setAttribute name value e.attributes

@[simp] theorem set_set (e : Element) (name value value' : String) :
    (e.set name value).set name value' = e.set name value' := by
  simp [set, setAttribute_setAttribute]

end Element

/-! ### Trees of a binary operation -/

/-- A binary tree with data at the leaves. -/
inductive MergeTree (α : Type) where
  | leaf (a : α)
  | node (left right : MergeTree α)

namespace MergeTree

variable {α β : Type}

/-- The leaves from left to right. -/
def leaves : MergeTree α → List α
  | leaf a => [a]
  | node left right => left.leaves ++ right.leaves

theorem leaves_ne_nil (t : MergeTree α) : t.leaves ≠ [] := by
  induction t with
  | leaf a => simp [leaves]
  | node left right hleft _ => simp [leaves, hleft]

/-- The value of the tree under an operation at its nodes. -/
def fold (op : β → β → β) (f : α → β) : MergeTree α → β
  | leaf a => f a
  | node left right => op (left.fold op f) (right.fold op f)

/-- **The shape does not matter** to an associative operation: a tree is worth
what its leaves are in their order. -/
theorem fold_eq_foldl {op : β → β → β} [Std.Associative op] {f : α → β} {t : MergeTree α}
    {first : α} {rest : List α} (h : t.leaves = first :: rest) :
    t.fold op f = (rest.map f).foldl op (f first) := by
  induction t generalizing first rest with
  | leaf a =>
      obtain ⟨rfl, rfl⟩ := List.cons.inj h
      rfl
  | node left right ihleft ihright =>
      obtain ⟨l, ls, hleft⟩ := List.exists_cons_of_ne_nil left.leaves_ne_nil
      obtain ⟨r, rs, hright⟩ := List.exists_cons_of_ne_nil right.leaves_ne_nil
      rw [leaves, hleft, hright, List.cons_append] at h
      obtain ⟨rfl, rfl⟩ := List.cons.inj h
      rw [fold, ihleft hleft, ihright hright, List.map_append, List.foldl_append, List.map_cons,
        List.foldl_cons, List.foldl_assoc]

theorem fold_congr {op : β → β → β} [Std.Associative op] {f : α → β} {t t' : MergeTree α}
    (h : t.leaves = t'.leaves) : t.fold op f = t'.fold op f := by
  obtain ⟨first, rest, hleaves⟩ := List.exists_cons_of_ne_nil t.leaves_ne_nil
  rw [fold_eq_foldl hleaves, fold_eq_foldl (h ▸ hleaves)]

/-- A node has several leaves. -/
theorem leaves_node_ne (left right : MergeTree α) (a : α) : (node left right).leaves ≠ [a] := by
  intro h
  have hleft := List.length_pos_iff.mpr left.leaves_ne_nil
  have hright := List.length_pos_iff.mpr right.leaves_ne_nil
  have hlength := congrArg List.length h
  rw [leaves, List.length_append, List.length_singleton] at hlength
  omega

end MergeTree
end Py
