/-
Formshift/Svg.lean

Coloring and stacking of traces (`SvgColorizeModule`, `SvgMergeModule`,
`color.py`).

A merge takes its canvas from below and leaves the metadata above out, but it is
associative (`stackOn_assoc`), so a tree of merges comes down to its layers in
their order, whatever its shape.  `merge_tree_contract` says what the outcome is
and how coloring goes with it.
-/
import Formshift.Palette
import Formshift.Lib.ElementTree

namespace Formshift

open Py

/-! ### The modules -/

/-- `ElementTree`, with the decoding and encoding of the data. -/
structure Markup (Data : Type) where
  /-- `fromstring`, or the text of its exception. -/
  parse : Data → Except String Element
  /-- `tostring`. -/
  serialize : Element → Data

def svgNamespace : String := "http://www.w3.org/2000/svg"

/-- A name of the namespace, as ElementTree spells it. -/
def svgName (name : String) : String := "\x7b" ++ svgNamespace ++ "\x7d" ++ name

def IsMetadata (e : Element) : Prop := e.tag = svgName "metadata"

instance (e : Element) : Decidable (IsMetadata e) :=
  inferInstanceAs (Decidable (e.tag = svgName "metadata"))

/-- The elements that are colored, of those below the root. -/
def IsShape (e : Element) : Prop := e.tag ∈ [svgName "g", svgName "path"]

instance (e : Element) : Decidable (IsShape e) :=
  inferInstanceAs (Decidable (e.tag ∈ [svgName "g", svgName "path"]))

/-- The root `under`, with the children of `above` on top. -/
def stackOn (under above : Element) : Element :=
  { under with children := under.children ++ above.children.filter fun c => ¬ IsMetadata c }

def paintChild (fill : String) (child : Element) : Element :=
  if IsShape child then child.set "fill" fill else child

def paint (fill : String) (root : Element) : Element :=
  { root with children := root.children.map (paintChild fill) }

/-- `#rgb` or `#rrggbb`. -/
def isFillColor (s : String) : Bool :=
  s.toList.head? = some '#' && (s.length = 4 || s.length = 7) && (s.toList.drop 1).all isHexDigit

section Modules

variable {Data : Type} (mk : Markup Data) (num : Numerals)

/-- `_parse_svg`. -/
def parseSvg (data : Data) (what : String) : Except Raised Element :=
  (mk.parse data).mapError fun text =>
    moduleError ("could not parse " ++ what ++ " as SVG: " ++ text)

/-- What is returned of the one output port. -/
def svgResult (data : Data) : List (String × String × Data) := [("svg", "vector/svg", data)]

/-- `str(value)`. -/
def strOf : Json → Except Raised Str
  | .str s => .ok s
  | v => (reprOf num v).map .text

/-- The checked `fill`. -/
def fillParam (params : JsonObject) : Except Raised String := do
  let fill ← strOf num ((params.fields.lookup (.text "fill")).getD (.str "#000000"))
  let refusal := refuse num [.text "fill must be a #rgb or #rrggbb hex color, got ",
    .value (.str fill)]
  match fill with
  | .text fill => if isFillColor fill then .ok fill else refusal
  | .cut _ _ _ => refusal

/-- `SvgColorizeModule.run`. -/
def svgColorize (data : Data) (params : JsonObject) :
    Except Raised (List (String × String × Data)) := do
  let fill ← fillParam num params
  let root ← parseSvg mk data "input"
  .ok (svgResult (mk.serialize (paint fill root)))

/-- `SvgMergeModule.run`. -/
def svgMerge (under above : Data) : Except Raised (List (String × String × Data)) := do
  let under ← parseSvg mk under "under"
  let above ← parseSvg mk above "over"
  .ok (svgResult (mk.serialize (stackOn under above)))

/-- What the next node is given of a result. -/
def svgPort (results : List (String × String × Data)) : Except Raised Data :=
  match results.lookup "svg" with
  | some result => .ok result.2
  | none => .error ⟨.keyError, "svg"⟩

def colorizeNode (data : Data) (params : JsonObject) : Except Raised Data := do
  let results ← svgColorize mk num data params
  svgPort results

def mergeNode (under above : Data) : Except Raised Data := do
  let results ← svgMerge mk under above
  svgPort results

/-- The data at the root of a tree of merges. -/
def evalTree {α : Type} (layer : α → Except Raised Data) : MergeTree α → Except Raised Data
  | .leaf a => layer a
  | .node left right => do
    let under ← evalTree layer left
    let above ← evalTree layer right
    mergeNode mk under above

end Modules

/-! ### Stacking and painting -/

/-- **Stacking is associative**, though it takes from below and above unlike. -/
theorem stackOn_assoc (a b c : Element) : stackOn (stackOn a b) c = stackOn a (stackOn b c) := by
  simp [stackOn, List.filter_append, List.filter_filter]

instance : Std.Associative stackOn := ⟨stackOn_assoc⟩

/-- A root with its own children, and what is no metadata of the others' ones. -/
def stacked (first : Element) (rest : List Element) : Element :=
  { first with
    children := first.children ++ rest.flatMap fun e => e.children.filter fun c => ¬ IsMetadata c }

/-- Many layers on one. -/
theorem foldl_stackOn (first : Element) (rest : List Element) :
    rest.foldl stackOn first = stacked first rest := by
  induction rest generalizing first with
  | nil => cases first; simp [stacked]
  | cons e rest ih =>
      rw [List.foldl_cons, ih]
      simp [stacked, stackOn]

@[simp] theorem paintChild_tag (fill : String) (c : Element) :
    (paintChild fill c).tag = c.tag := by
  rw [paintChild]
  split_ifs
  · rfl
  · rfl

theorem isMetadata_paintChild (fill : String) (c : Element) :
    IsMetadata (paintChild fill c) ↔ IsMetadata c := by
  rw [IsMetadata, paintChild_tag, IsMetadata]

theorem isShape_paintChild (fill : String) (c : Element) :
    IsShape (paintChild fill c) ↔ IsShape c := by
  rw [IsShape, paintChild_tag, IsShape]

theorem paintChild_paintChild (fill fill' : String) (c : Element) :
    paintChild fill' (paintChild fill c) = paintChild fill' c := by
  have hshape := isShape_paintChild fill c
  by_cases h : IsShape c
  · rw [paintChild, if_pos (hshape.mpr h), paintChild, if_pos h, paintChild, if_pos h,
      Element.set_set]
  · rw [paintChild, if_neg (mt hshape.mp h), paintChild, if_neg h, paintChild, if_neg h]

/-- **Painting goes through a merge**: metadata is told by its tag, which stays. -/
theorem paint_stackOn (fill : String) (under above : Element) :
    paint fill (stackOn under above) = stackOn (paint fill under) (paint fill above) := by
  have hfilter : (fun c => decide ¬ IsMetadata c) ∘ paintChild fill =
      fun c => decide ¬ IsMetadata c := by
    funext c
    exact decide_eq_decide.mpr (not_congr (isMetadata_paintChild fill c))
  simp only [paint, stackOn, List.map_append, List.filter_map, hfilter]

/-- The last color stays. -/
theorem paint_paint (fill fill' : String) (root : Element) :
    paint fill' (paint fill root) = paint fill' root := by
  simp only [paint, List.map_map]
  congr 2
  funext c
  exact paintChild_paintChild fill fill' c

/-- The shapes of a painted layer. -/
theorem filter_paint (fill : String) (root : Element) :
    (paint fill root).children.filter IsShape =
      (root.children.filter IsShape).map fun c => c.set "fill" fill := by
  have hfilter : (fun c => decide (IsShape c)) ∘ paintChild fill = fun c => decide (IsShape c) := by
    funext c
    exact decide_eq_decide.mpr (isShape_paintChild fill c)
  rw [paint, List.filter_map, hfilter]
  refine List.map_congr_left fun c hc => ?_
  rw [paintChild, if_pos (of_decide_eq_true (List.mem_filter.mp hc).2)]

theorem not_isMetadata_of_isShape {c : Element} (h : IsShape c) : ¬ IsMetadata c := by
  intro hmetadata
  rw [IsShape, hmetadata] at h
  exact absurd h (by decide)

/-- The shapes of a stack are those of its layers. -/
theorem filter_foldl_stackOn (first : Element) (rest : List Element) :
    (rest.foldl stackOn first).children.filter IsShape =
      (first :: rest).flatMap fun e => e.children.filter IsShape := by
  rw [foldl_stackOn, stacked, List.flatMap_cons, List.filter_append, List.filter_flatMap]
  congr 2
  funext e
  rw [List.filter_filter]
  refine List.filter_congr fun c _ => ?_
  by_cases h : IsShape c
  · simp [h, not_isMetadata_of_isShape h]
  · simp [h]

/-! ### The nodes -/

/-- The trees that come up over some layers. -/
inductive Involved (svgs : Set Element) : Element → Prop
  | layer {e : Element} : e ∈ svgs → Involved svgs e
  | merged {under above : Element} : Involved svgs under → Involved svgs above →
      Involved svgs (stackOn under above)
  | colorized {fill : String} {e : Element} : isFillColor fill = true → Involved svgs e →
      Involved svgs (paint fill e)

section Nodes

variable {Data : Type}

/-- What is assumed of ElementTree: it reads these trees back as it has written
them. -/
def RoundTrips (mk : Markup Data) (svgs : Set Element) : Prop :=
  ∀ e, Involved svgs e → mk.parse (mk.serialize e) = .ok e

/-- An SVG and its tree. -/
structure Svg (mk : Markup Data) (svgs : Set Element) where
  data : Data
  root : Element
  parsed : mk.parse data = .ok root
  mem : root ∈ svgs

/-- A layer that is to be colored. -/
structure Layer (mk : Markup Data) (svgs : Set Element) (num : Numerals) where
  svg : Svg mk svgs
  params : JsonObject
  fill : String
  read : fillParam num params = .ok fill

variable {mk : Markup Data} {num : Numerals} {svgs : Set Element}

theorem parseSvg_ok {data : Data} {e : Element} (h : mk.parse data = .ok e) (what : String) :
    parseSvg mk data what = .ok e := by
  rw [parseSvg, h]
  rfl

theorem mergeNode_ok {under above : Data} {u a : Element} (hu : mk.parse under = .ok u)
    (ha : mk.parse above = .ok a) :
    mergeNode mk under above = .ok (mk.serialize (stackOn u a)) := by
  rw [mergeNode, svgMerge, parseSvg_ok hu, parseSvg_ok ha]
  rfl

theorem colorizeNode_ok {data : Data} {e : Element} {params : JsonObject} {fill : String}
    (h : mk.parse data = .ok e) (hfill : fillParam num params = .ok fill) :
    colorizeNode mk num data params = .ok (mk.serialize (paint fill e)) := by
  rw [colorizeNode, svgColorize, hfill, parseSvg_ok h]
  rfl

/-- The color is checked before anything is parsed. -/
theorem colorizeNode_error {data : Data} {params : JsonObject} {e : Raised}
    (hfill : fillParam num params = .error e) : colorizeNode mk num data params = .error e := by
  rw [colorizeNode, svgColorize, hfill]
  rfl

theorem isFillColor_of_read {params : JsonObject} {fill : String}
    (h : fillParam num params = .ok fill) : isFillColor fill = true := by
  obtain ⟨s, -, h⟩ := bind_ok_iff.mp h
  cases s with
  | text s =>
      simp only at h
      split_ifs at h with hcolor
      · rw [← Except.ok.inj h]
        exact hcolor
      · exact absurd h refuse_ne_ok
  | cut s half rest => exact absurd h refuse_ne_ok

section Trees

variable {α : Type} {layer : α → Except Raised Data} {root : α → Element}

/-- A tree of merges is worth the fold of its layers. -/
theorem evalTree_ok (hround : RoundTrips mk svgs) {t : MergeTree α}
    (hlayer : ∀ a ∈ t.leaves, ∃ data, layer a = .ok data ∧ mk.parse data = .ok (root a) ∧
      Involved svgs (root a)) :
    ∃ out, evalTree mk layer t = .ok out ∧ mk.parse out = .ok (t.fold stackOn root) ∧
      Involved svgs (t.fold stackOn root) := by
  induction t with
  | leaf a => exact hlayer a (by simp [MergeTree.leaves])
  | node left right ihleft ihright =>
      obtain ⟨under, hunder, hu, hleft⟩ := ihleft fun a ha => hlayer a (List.mem_append_left _ ha)
      obtain ⟨above, habove, ha, hright⟩ := ihright fun a ha =>
        hlayer a (List.mem_append_right _ ha)
      refine ⟨mk.serialize (stackOn (left.fold stackOn root) (right.fold stackOn root)), ?_, ?_, ?_⟩
      · rw [evalTree, hunder, habove]
        exact mergeNode_ok hu ha
      · exact hround _ (.merged hleft hright)
      · exact .merged hleft hright

/-- The data of a merge are those of its tree. -/
theorem evalTree_node (hround : RoundTrips mk svgs) {left right : MergeTree α}
    (hlayer : ∀ a ∈ (left.node right).leaves, ∃ data, layer a = .ok data ∧
      mk.parse data = .ok (root a) ∧ Involved svgs (root a)) :
    evalTree mk layer (left.node right) =
      .ok (mk.serialize ((left.node right).fold stackOn root)) := by
  obtain ⟨under, hunder, hu, -⟩ := evalTree_ok hround fun a ha =>
    hlayer a (List.mem_append_left _ ha)
  obtain ⟨above, habove, ha, -⟩ := evalTree_ok hround fun a ha =>
    hlayer a (List.mem_append_right _ ha)
  rw [evalTree, hunder, habove]
  exact mergeNode_ok hu ha

/-- Two shapes over the same layers give the same data. -/
theorem evalTree_congr (hround : RoundTrips mk svgs) {t t' : MergeTree α}
    (hlayer : ∀ a ∈ t.leaves, ∃ data, layer a = .ok data ∧ mk.parse data = .ok (root a) ∧
      Involved svgs (root a)) (h : t.leaves = t'.leaves) :
    evalTree mk layer t = evalTree mk layer t' := by
  cases t with
  | leaf a =>
      cases t' with
      | leaf b => rw [(List.cons.inj h).1]
      | node left' right' => exact absurd h.symm (MergeTree.leaves_node_ne left' right' a)
  | node left right =>
      cases t' with
      | leaf b => exact absurd h (MergeTree.leaves_node_ne left right b)
      | node left' right' =>
          rw [evalTree_node hround hlayer, evalTree_node hround (h ▸ hlayer),
            MergeTree.fold_congr h]

end Trees

/-! ### The contract -/

theorem Svg.yields (s : Svg mk svgs) :
    ∃ data, (.ok s.data : Except Raised Data) = .ok data ∧ mk.parse data = .ok s.root ∧
      Involved svgs s.root :=
  ⟨s.data, rfl, s.parsed, .layer s.mem⟩

theorem Layer.yields (hround : RoundTrips mk svgs) (l : Layer mk svgs num) :
    ∃ data, colorizeNode mk num l.svg.data l.params = .ok data ∧
      mk.parse data = .ok (paint l.fill l.svg.root) ∧ Involved svgs (paint l.fill l.svg.root) := by
  have hinvolved : Involved svgs (paint l.fill l.svg.root) :=
    .colorized (isFillColor_of_read l.read) (.layer l.svg.mem)
  exact ⟨_, colorizeNode_ok l.svg.parsed l.read, hround _ hinvolved, hinvolved⟩

/-- Coloring a merge is merging what was colored. -/
theorem colorize_merge (hround : RoundTrips mk svgs) (under above : Svg mk svgs)
    (params : JsonObject) :
    (mergeNode mk under.data above.data >>= fun merged => colorizeNode mk num merged params) =
      colorizeNode mk num under.data params >>= fun u =>
        colorizeNode mk num above.data params >>= fun a => mergeNode mk u a := by
  have hmerged := hround _ (.merged (.layer under.mem) (.layer above.mem))
  rw [mergeNode_ok under.parsed above.parsed]
  show colorizeNode mk num _ params = _
  cases hfill : fillParam num params with
  | error e =>
      rw [colorizeNode_error hfill, colorizeNode_error hfill]
      rfl
  | ok fill =>
      have hcolor := isFillColor_of_read hfill
      rw [colorizeNode_ok hmerged hfill, colorizeNode_ok under.parsed hfill,
        colorizeNode_ok above.parsed hfill, paint_stackOn]
      exact (mergeNode_ok (hround _ (.colorized hcolor (.layer under.mem)))
        (hround _ (.colorized hcolor (.layer above.mem)))).symm

/-- The last coloring is the one that is seen. -/
theorem colorize_colorize (hround : RoundTrips mk svgs) (s : Svg mk svgs)
    (params params' : JsonObject) {fill : String} (hfill : fillParam num params = .ok fill) :
    (colorizeNode mk num s.data params >>= fun colored => colorizeNode mk num colored params') =
      colorizeNode mk num s.data params' := by
  have hcolored := hround _ (.colorized (isFillColor_of_read hfill) (.layer s.mem))
  rw [colorizeNode_ok s.parsed hfill]
  show colorizeNode mk num _ params' = _
  cases hfill' : fillParam num params' with
  | error e => rw [colorizeNode_error hfill', colorizeNode_error hfill']
  | ok fill' => rw [colorizeNode_ok hcolored hfill', colorizeNode_ok s.parsed hfill', paint_paint]

/-- A shape of a layer is a shape of the stack, with the layer's own fill. -/
theorem colored_layers (hround : RoundTrips mk svgs) (t : MergeTree (Layer mk svgs num)) :
    ∃ out root, evalTree mk (fun l => colorizeNode mk num l.svg.data l.params) t = .ok out ∧
      mk.parse out = .ok root ∧
      root.children.filter IsShape = t.leaves.flatMap fun l =>
        (l.svg.root.children.filter IsShape).map fun c => c.set "fill" l.fill := by
  obtain ⟨out, hout, hparse, -⟩ := evalTree_ok hround
    fun (l : Layer mk svgs num) (_ : l ∈ t.leaves) => l.yields hround
  obtain ⟨first, rest, hleaves⟩ := List.exists_cons_of_ne_nil t.leaves_ne_nil
  refine ⟨out, _, hout, hparse, ?_⟩
  rw [MergeTree.fold_eq_foldl hleaves, filter_foldl_stackOn, hleaves]
  simp only [List.flatMap_cons, List.flatMap_map, filter_paint]

/-- **The contract of merge trees**: their outcome, the same for every shape; and
how coloring passes through merges, replaces an earlier one, and stays with its
layer. -/
theorem merge_tree_contract (hround : RoundTrips mk svgs) (num : Numerals) :
    (∀ (t : MergeTree (Svg mk svgs)) first rest, t.leaves = first :: rest →
      ∃ out, evalTree mk (fun s => .ok s.data) t = .ok out ∧
        mk.parse out = .ok (stacked first.root (rest.map Svg.root))) ∧
    (∀ t t' : MergeTree (Svg mk svgs), t.leaves = t'.leaves →
      evalTree mk (fun s => .ok s.data) t = evalTree mk (fun s => .ok s.data) t') ∧
    (∀ (under above : Svg mk svgs) params,
      (mergeNode mk under.data above.data >>= fun merged => colorizeNode mk num merged params) =
        colorizeNode mk num under.data params >>= fun u =>
          colorizeNode mk num above.data params >>= fun a => mergeNode mk u a) ∧
    (∀ (s : Svg mk svgs) params params' fill, fillParam num params = .ok fill →
      (colorizeNode mk num s.data params >>= fun colored => colorizeNode mk num colored params') =
        colorizeNode mk num s.data params') ∧
    ∀ t : MergeTree (Layer mk svgs num),
      ∃ out root, evalTree mk (fun l => colorizeNode mk num l.svg.data l.params) t = .ok out ∧
        mk.parse out = .ok root ∧
        (root.children.filter IsShape = t.leaves.flatMap fun l =>
          (l.svg.root.children.filter IsShape).map fun c => c.set "fill" l.fill) ∧
        ∀ l ∈ t.leaves, ∀ c ∈ l.svg.root.children, IsShape c →
          c.set "fill" l.fill ∈ root.children ∧ (c.set "fill" l.fill).get "fill" = some l.fill := by
  refine ⟨fun t first rest hleaves => ?_, fun t t' h => ?_, ?_, ?_, fun t => ?_⟩
  -- every grouping folds the leaves from the left
  · obtain ⟨out, hout, hparse, -⟩ := evalTree_ok hround fun (s : Svg mk svgs) (_ : s ∈ t.leaves) =>
      s.yields
    refine ⟨out, hout, ?_⟩
    rw [hparse, MergeTree.fold_eq_foldl hleaves, foldl_stackOn]
  · exact evalTree_congr hround (fun s _ => s.yields) h
  · exact fun under above params => colorize_merge hround under above params
  · exact fun s params params' fill hfill => colorize_colorize hround s params params' hfill
  -- the leaves' shapes are the result's, each with its layer's fill
  · obtain ⟨out, root, hout, hparse, hshapes⟩ := colored_layers hround t
    refine ⟨out, root, hout, hparse, hshapes, fun l hl c hc hshape => ⟨?_, Element.get_set c _ _⟩⟩
    have hmem : c.set "fill" l.fill ∈ root.children.filter IsShape := by
      rw [hshapes]
      exact List.mem_flatMap.mpr ⟨l, hl, List.mem_map.mpr
        ⟨c, List.mem_filter.mpr ⟨hc, decide_eq_true hshape⟩, rfl⟩⟩
    exact (List.mem_filter.mp hmem).1

end Nodes

/-- Trees that are kept as they are. -/
def plainMarkup : Markup Element where
  parse e := .ok e
  serialize e := e

theorem plainMarkup_roundTrips (svgs : Set Element) : RoundTrips plainMarkup svgs := fun _ _ => rfl

/-- A trace: a canvas, its metadata and a group. -/
def trace (id : String) : Svg plainMarkup Set.univ where
  data := ⟨svgName "svg", [("id", id)], none,
    [⟨svgName "metadata", [], none, [], none⟩,
      ⟨svgName "g", [("fill", "#000000")], none, [], none⟩], none⟩
  root := _
  parsed := rfl
  mem := trivial

/-- Three layers in both shapes. -/
theorem merge_tree_contract_three :
    (∃ out, evalTree plainMarkup (fun s : Svg plainMarkup Set.univ => .ok s.data)
      (.node (.leaf (trace "a")) (.node (.leaf (trace "b")) (.leaf (trace "c")))) = .ok out ∧
        plainMarkup.parse out = .ok ⟨svgName "svg", [("id", "a")], none,
          [⟨svgName "metadata", [], none, [], none⟩,
            ⟨svgName "g", [("fill", "#000000")], none, [], none⟩,
            ⟨svgName "g", [("fill", "#000000")], none, [], none⟩,
            ⟨svgName "g", [("fill", "#000000")], none, [], none⟩], none⟩) ∧
    evalTree plainMarkup (fun s : Svg plainMarkup Set.univ => .ok s.data)
      (.node (.leaf (trace "a")) (.node (.leaf (trace "b")) (.leaf (trace "c")))) =
        evalTree plainMarkup (fun s : Svg plainMarkup Set.univ => .ok s.data)
          (.node (.node (.leaf (trace "a")) (.leaf (trace "b"))) (.leaf (trace "c"))) := by
  have hcontract := merge_tree_contract (plainMarkup_roundTrips Set.univ) plainNumerals
  obtain ⟨out, hout, hparse⟩ := hcontract.1 (.node (.leaf (trace "a")) (.node (.leaf (trace "b"))
    (.leaf (trace "c")))) _ _ rfl
  exact ⟨⟨out, hout, hparse⟩, hcontract.2.1 _ _ rfl⟩

end Formshift
