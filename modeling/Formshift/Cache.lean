/-
Formshift/Cache.lean

Cache keys and the result cache (`cache.py`).

BLAKE2b is a parameter: `blake2b data` is the hex digest of `data`.  Nothing
here asks anything of it; the results that need it to be injective say so.
The canonical text a recipe key hashes determines the five fields it was made
from, the parameters up to key order and the halves of surrogate pairs, which
are written like the characters they make (`recipeText_eq_iff`).
-/
import Formshift.Modules

namespace Formshift

open Py

/-! ### Keys -/

section Keys

variable (blake2b : Bytes → String)

def contentHash (data : Bytes) : String := blake2b data

/-- The recipe of one node, as the JSON value that is dumped. -/
def recipeJson (moduleName moduleVersion : String) (params : Json) (inputKeys : List String)
    (draft : Bool) : Json :=
  .obj [
    ("module", .str moduleName),
    ("version", .str moduleVersion),
    ("params", params),
    ("inputs", .arr (inputKeys.map fun key : String => .str key)),
    ("draft", .bool draft)]

/-- The canonical JSON of one node's recipe. -/
def recipeText (moduleName moduleVersion : String) (params : JsonObject)
    (inputKeys : List String) (draft : Bool) : String :=
  (recipeJson moduleName moduleVersion params.toJson inputKeys draft).dumps

/-- Cache key for one node: its own recipe plus its inputs' keys, in port order. -/
def recipeKey (moduleName moduleVersion : String) (params : JsonObject)
    (inputKeys : List String) (draft : Bool) : String :=
  blake2b (encode (recipeText moduleName moduleVersion params inputKeys draft))

end Keys

/-- What the canonical text shows of a node's parameters: they themselves, up to key
order and the halves of surrogate pairs. -/
def shownParams (params : Json) : Json := params.canon.joined

theorem shownParams_canon (params : Json) : shownParams params.canon = shownParams params := by
  rw [shownParams, Json.canon_canon, shownParams]

theorem shown_keys (keys : List String) :
    Json.joinedItems (Json.canonItems (keys.map fun key : String => .str key)) =
      keys.map fun key : String => .str key := by
  induction keys with
  | nil => rfl
  | cons k keys ih =>
      show (Json.str (Str.joined k)) :: Json.joinedItems (Json.canonItems _) = _
      rw [ih, Str.joined_text, List.map_cons]

/-- The recipe as its canonical text shows it. -/
theorem shown_recipeJson (n v : String) (p : Json) (ks : List String) (d : Bool) :
    (recipeJson n v p ks d).canon.joined = .obj [("draft", .bool d),
      ("inputs", .arr (ks.map fun key : String => .str key)), ("module", .str n),
      ("params", shownParams p), ("version", .str v)] := by
  have hsorted : (recipeJson n v p ks d).canon = .obj [("draft", .bool d),
      ("inputs", .arr (Json.canonItems (ks.map fun key : String => .str key))), ("module", .str n),
      ("params", p.canon), ("version", .str v)] := rfl
  rw [hsorted]
  simp only [Json.joined, Json.joinedFields, Str.joined_text, shown_keys, shownParams]

/-- **The text is the recipe**: module, version, draft flag and input keys as
they are, parameters up to the order of their keys and the halves of pairs. -/
theorem dumps_recipeJson_eq_iff {n n' v v' : String} {p p' : Json} {ks ks' : List String}
    {d d' : Bool} :
    (recipeJson n v p ks d).dumps = (recipeJson n' v' p' ks' d').dumps ↔
      n = n' ∧ v = v' ∧ shownParams p = shownParams p' ∧ ks = ks' ∧ d = d' := by
  have hinj : Function.Injective fun key : String => Json.str key :=
    fun _ _ h => Str.text.inj (Json.str.inj h)
  rw [Json.dumps_eq_iff, shown_recipeJson, shown_recipeJson]
  constructor
  · intro h
    simp only [Json.obj.injEq, List.cons.injEq, Prod.mk.injEq, Json.bool.injEq, Json.arr.injEq,
      Json.str.injEq, Str.text.injEq, true_and, and_true] at h
    obtain ⟨hd, hk, hn, hp, hv⟩ := h
    exact ⟨hn, hv, hp, hinj.list_map hk, hd⟩
  · rintro ⟨rfl, rfl, hp, rfl, rfl⟩
    rw [hp]

theorem recipeText_eq_iff {n n' v v' : String} {p p' : JsonObject} {ks ks' : List String}
    {d d' : Bool} :
    recipeText n v p ks d = recipeText n' v' p' ks' d' ↔
      n = n' ∧ v = v' ∧ shownParams p.toJson = shownParams p'.toJson ∧ ks = ks' ∧ d = d' :=
  dumps_recipeJson_eq_iff

/-- Where the digest is injective, the key is the recipe. -/
theorem recipeKey_eq_iff {blake2b : Bytes → String} (hinj : Function.Injective blake2b)
    {n n' v v' : String} {p p' : JsonObject} {ks ks' : List String} {d d' : Bool} :
    recipeKey blake2b n v p ks d = recipeKey blake2b n' v' p' ks' d' ↔
      n = n' ∧ v = v' ∧ shownParams p.toJson = shownParams p'.toJson ∧ ks = ks' ∧ d = d' := by
  rw [recipeKey, recipeKey, hinj.eq_iff, encode_injective.eq_iff, recipeText_eq_iff]

/-! ### The cache -/

/-- One node execution's results, by output port. -/
abbrev Results := Dict Str ModuleResult

/-- `ResultCache`: cache key to results. -/
abbrev ResultCache := Dict String Results

namespace ResultCache

def get (cache : ResultCache) (key : String) : Option Results := cache.lookup key

def put (cache : ResultCache) (key : String) (results : Results) : ResultCache :=
  cache.insert key results

theorem get_put (cache : ResultCache) (key k : String) (results : Results) :
    (cache.put key results).get k = if k = key then some results else cache.get k :=
  Dict.lookup_insert_ite cache key k results

@[simp] theorem get_empty (k : String) : get ∅ k = none := AList.lookup_empty k

end ResultCache

end Formshift
