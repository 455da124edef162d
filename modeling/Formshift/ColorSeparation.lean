/-
Formshift/ColorSeparation.lean

Posterize and the masks (`PosterizeModule`, `ColorMaskModule`, `color.py`).

The two agree on what an index is.  `separation_contract` follows one image: the
palette that is accepted becomes the palette of the image that posterize
returns, in its order; a pixel holds the index of the nearest color, the lowest
of several; and the masks of this image are the sets of pixels of one index
each, a partition, and only grow with `grow`.
-/
import Formshift.Params
import Formshift.Lib.Grid

namespace Formshift

open Py

/-! ### The modules -/

/-- An image in mode `RGB`. -/
structure RgbImage where
  width : Nat
  height : Nat
  pixels : Grid width height Rgb

/-- An image in one of the modes the modules tell apart; a byte is a `Fin 256`. -/
inductive Picture where
  | rgb (image : RgbImage)
  /-- Mode `P`: the channels of the palette one after the other, and the indices. -/
  | palette {width height : Nat} (channels : List Nat) (indices : Grid width height (Fin 256))
  /-- Mode `L`. -/
  | gray {width height : Nat} (pixels : Grid width height (Fin 256))

/-- The imaging libraries, as far as the modules use them. -/
structure Imaging (Data δ : Type) where
  load : Data → Except String Picture
  save : Picture → Data
  /-- `_flatten(image).convert("RGB")`. -/
  toRgb : Picture → RgbImage
  /-- `image.quantize`, by median cut. -/
  quantize : RgbImage → Int → Picture
  /-- The distance of two colors in CIELAB. -/
  distance : Rgb → Rgb → δ
  /-- `distances.argmin`, of one row. -/
  argmin {n : Nat} : (Fin n → δ) → Nat
  /-- `image.point(lut, mode="L")`. -/
  point {width height : Nat} : List (Fin 256) → Grid width height (Fin 256) →
    Grid width height (Fin 256)
  /-- `image.filter(ImageFilter.MinFilter(size))`. -/
  minFilter {width height : Nat} : Nat → Grid width height (Fin 256) →
    Grid width height (Fin 256)

section Modules

variable {Data δ : Type} (img : Imaging Data δ) (num : Numerals)

/-- `_decode`. -/
def Imaging.decode (data : Data) : Except Raised Picture :=
  (img.load data).mapError fun text => moduleError ("could not decode PNG input: " ++ text)

/-- The index of the nearest entry. -/
def nearestIndex (palette : List Rgb) (color : Rgb) : Nat :=
  img.argmin fun i : Fin palette.length => img.distance color (palette.get i)

/-- `_map_to_palette`. -/
def mapToPalette (image : RgbImage) (palette : List Rgb) : Picture :=
  .palette (palette.flatMap fun entry => [entry.r, entry.g, entry.b])
    fun x y => Fin.ofNat 256 (nearestIndex img palette (image.pixels x y))

/-- `PosterizeModule.run`; a result is a port, a type and data. -/
def posterize (data : Data) (params : JsonObject) :
    Except Raised (List (String × String × Data)) :=
  match params.fields.lookup (.text "palette"), params.fields.lookup (.text "colors") with
  | some _, some _ =>
    refuse num [.text "palette and colors are mutually exclusive; give one, not both"]
  | some raw, none => do
    let image ← img.decode data
    let palette ← validatePalette num raw
    .ok [("image", "raster/png", img.save (mapToPalette img (img.toRgb image) palette))]
  | none, _ => do
    let image ← img.decode data
    let colors ← colorsParam num params
    .ok [("image", "raster/png", img.save (img.quantize (img.toRgb image) colors))]

/-- The table of a mask: black at the index. -/
def maskTable (index : Nat) : List (Fin 256) := (List.replicate 256 255).set index 0

/-- The mask of an index, grown. -/
def maskOf {width height : Nat} (indices : Grid width height (Fin 256)) (index grow : Nat) :
    Grid width height (Fin 256) :=
  if 0 < grow then img.minFilter (2 * grow + 1) (img.point (maskTable index) indices)
  else img.point (maskTable index) indices

/-- `ColorMaskModule.run`. -/
def colormask (data : Data) (params : JsonObject) :
    Except Raised (List (String × String × Data)) := do
  let index ← intParam num params "index" 0
  let image ← img.decode data
  match image with
  | .palette _ indices =>
    if ¬ (0 ≤ index ∧ index < 256) then
      refuse num [.text "index must be in [0, 256), got ", .int index]
    else do
      let grow ← growParam num params
      .ok [("mask", "raster/png", img.save (.gray (maskOf img indices index.toNat grow.toNat)))]
  | _ => refuse num [.text "colormask needs a palette-mode image (the output of image.posterize)"]

end Modules

/-! ### What is assumed of the libraries -/

/-- What a palette file can hold: at most 256 entries, of bytes. -/
def Storable (channels : List Nat) : Prop := channels.length ≤ 768 ∧ ∀ v ∈ channels, v < 256

/-- A stored image keeps its palette, its indices if there are entries for them,
and its grays; an image in mode `RGB` is its own conversion.  The least distance
is that of the first index that has it, a table is looked up by the pixels, and
the filter takes the least value in a square window, cut off at the border. -/
structure Imaging.Lawful {Data δ : Type} [LinearOrder δ] (img : Imaging Data δ) : Prop where
  load_palette : ∀ {width height : Nat} channels (indices : Grid width height (Fin 256)),
    Storable channels → (∀ x y, (indices x y).val < channels.length / 3) →
      img.load (img.save (.palette channels indices)) = .ok (.palette channels indices)
  load_gray : ∀ {width height : Nat} (pixels : Grid width height (Fin 256)),
    img.load (img.save (.gray pixels)) = .ok (.gray pixels)
  toRgb_rgb : ∀ image, img.toRgb (.rgb image) = image
  argmin_first : ∀ {n : Nat} (f : Fin n → δ), 0 < n →
    ∃ i : Fin n, img.argmin f = i ∧ (∀ j, f i ≤ f j) ∧ ∀ j < i, f i < f j
  point_lookup : ∀ {width height : Nat} (table : List (Fin 256))
    (indices : Grid width height (Fin 256)), table.length = 256 →
      ∀ x y, table[(indices x y).val]? = some (img.point table indices x y)
  minFilter_window : ∀ {width height : Nat} (size : Nat) (pixels : Grid width height (Fin 256)),
    img.minFilter size pixels = Grid.minFilter size pixels

/-! ### Palettes -/

/-- Entry `i` of a palette that is stored channel by channel. -/
def paletteEntry (channels : List Nat) (i : Nat) : Option Rgb :=
  match channels.drop (3 * i) with
  | r :: g :: b :: _ => some ⟨r, g, b⟩
  | _ => none

/-- The channels are those of the entries in their order. -/
theorem paletteEntry_flatMap (palette : List Rgb) (i : Nat) :
    paletteEntry (palette.flatMap fun entry => [entry.r, entry.g, entry.b]) i = palette[i]? := by
  induction palette generalizing i with
  | nil => simp [paletteEntry]
  | cons entry rest ih =>
      cases i with
      | zero => rfl
      | succ i =>
          rw [List.getElem?_cons_succ, ← ih i]
          rfl

theorem hexByte_lt {s : List Char} (h : ∀ c ∈ s.drop 1, isHexDigit c = true) {i : Nat}
    (hi : 1 ≤ i) : hexByte s i < 256 := by
  have hdigit : ∀ c ∈ (s.drop i).take 2, hexDigitValue c < 16 := fun c hc => by
    have hmem : c ∈ (s.drop 1).drop (i - 1) := by
      rw [List.drop_drop, Nat.add_sub_cancel' hi]
      exact List.mem_of_mem_take hc
    exact hexDigitValue_lt (h c (List.mem_of_mem_drop hmem))
  have hlen : ((s.drop i).take 2).length ≤ 2 := List.length_take_le 2 _
  rw [hexByte]
  generalize (s.drop i).take 2 = byte at *
  rcases byte with - | ⟨a, - | ⟨b, - | ⟨c, rest⟩⟩⟩
  · decide
  · have ha := hdigit a (by simp)
    simp only [List.foldl_cons, List.foldl_nil]
    omega
  · have ha := hdigit a (by simp)
    have hb := hdigit b (by simp)
    simp only [List.foldl_cons, List.foldl_nil]
    omega
  · simp at hlen

theorem length_channels (palette : List Rgb) :
    (palette.flatMap fun entry => [entry.r, entry.g, entry.b]).length = 3 * palette.length := by
  rw [List.length_flatMap]
  simp only [List.length_cons, List.length_nil, List.map_const', List.sum_replicate, smul_eq_mul]
  omega

/-- An accepted palette can be stored. -/
theorem storable_of_validate {num : Numerals} {raw : Json} {palette : List Rgb}
    (h : validatePalette num raw = .ok palette) :
    Storable (palette.flatMap fun entry => [entry.r, entry.g, entry.b]) := by
  obtain ⟨colors, -, -, hlen, hhex, -, rfl⟩ := validatePalette_ok_iff.mp h
  constructor
  · rw [length_channels, List.length_map]
    omega
  · intro v hv
    simp only [List.mem_flatMap, List.mem_map] at hv
    obtain ⟨-, ⟨s, hs, rfl⟩, hv⟩ := hv
    have hcolor := isHexColor_iff.mpr (hhex s hs)
    simp only [isHexColor, Bool.and_eq_true, List.all_eq_true] at hcolor
    simp only [rgbOf, List.mem_cons, List.not_mem_nil, or_false] at hv
    rcases hv with rfl | rfl | rfl
    · exact hexByte_lt hcolor.2 (by norm_num)
    · exact hexByte_lt hcolor.2 (by norm_num)
    · exact hexByte_lt hcolor.2 (by norm_num)

/-! ### Masks -/

section Masks

variable {width height : Nat} {indices : Grid width height (Fin 256)}

/-- The masks of an image of `count` colors, by index and growth: of two values,
a partition as they are, and growing with `grow`. -/
structure Masks (indices : Grid width height (Fin 256)) (count : Nat)
    (mask : Fin 256 → Nat → Grid width height (Fin 256)) : Prop where
  binary : ∀ index grow x y, mask index grow x y = 0 ∨ mask index grow x y = 255
  partition : ∀ x y, ∃! index : Fin 256, index.val < count ∧ mask index 0 x y = 0
  selected : ∀ index x y, mask index 0 x y = 0 ↔ indices x y = index
  unused : ∀ index, (∀ x y, indices x y ≠ index) → ∀ grow x y, mask index grow x y = 255
  contains : ∀ index grow x y, mask index 0 x y = 0 → mask index grow x y = 0
  monotone : ∀ index grow grow', grow ≤ grow' → ∀ x y, mask index grow x y = 0 →
    mask index grow' x y = 0

section Laws

variable {Data δ : Type} [LinearOrder δ] {img : Imaging Data δ} (himg : img.Lawful)

include himg

/-- The pixels of the index are black, the others white. -/
theorem point_maskTable {index : Nat} {x : Fin width} {y : Fin height} :
    img.point (maskTable index) indices x y = if (indices x y).val = index then 0 else 255 := by
  have hv := (indices x y).isLt
  have hlookup := himg.point_lookup (maskTable index) indices
    (by rw [maskTable, List.length_set, List.length_replicate]) x y
  rw [maskTable, List.getElem?_set, List.length_replicate, List.getElem?_replicate,
    if_pos hv] at hlookup
  by_cases h : (indices x y).val = index
  · rw [if_pos h.symm, if_pos (h ▸ hv)] at hlookup
    rw [if_pos h]
    exact (Option.some.inj hlookup).symm
  · rw [if_neg (Ne.symm h)] at hlookup
    rw [if_neg h]
    exact (Option.some.inj hlookup).symm

/-- Also without growth the mask is the filter's, of a window of one pixel. -/
theorem maskOf_eq (index grow : Nat) : maskOf img indices index grow =
    Grid.minFilter (2 * grow + 1) (img.point (maskTable index) indices) := by
  rw [maskOf]
  split_ifs with h
  · exact himg.minFilter_window _ _
  · obtain rfl : grow = 0 := by omega
    exact (Grid.minFilter_one _).symm

theorem maskOf_mono {index : Fin 256} {grow grow' : Nat} (h : grow ≤ grow') {x : Fin width}
    {y : Fin height} (hblack : maskOf img indices index grow x y = 0) :
    maskOf img indices index grow' x y = 0 := by
  rw [maskOf_eq himg] at *
  have hanti := Grid.minFilter_anti (show 2 * grow + 1 ≤ 2 * grow' + 1 by omega)
    (img.point (maskTable index) indices) x y
  rw [hblack] at hanti
  exact le_antisymm hanti (Fin.zero_le _)

theorem maskOf_selected {index : Fin 256} {x : Fin width} {y : Fin height} :
    maskOf img indices index 0 x y = 0 ↔ indices x y = index := by
  show img.point (maskTable index) indices x y = 0 ↔ _
  rw [point_maskTable himg]
  split_ifs with h
  · exact iff_of_true rfl (Fin.ext h)
  · exact iff_of_false (by decide) fun heq => h (congrArg Fin.val heq)

theorem masks_maskOf {count : Nat} (hcount : ∀ x y, (indices x y).val < count) :
    Masks indices count fun index grow => maskOf img indices index grow := by
  -- a pixel of the mask is one of the table's values in its window
  have hpixel : ∀ (index : Fin 256) grow x y, ∃ x' y',
      maskOf img indices index grow x y = if indices x' y' = index then 0 else 255 := by
    intro index grow x y
    rw [maskOf_eq himg]
    obtain ⟨x', y', h⟩ := Grid.exists_minFilter (2 * grow + 1)
      (img.point (maskTable index) indices) x y
    refine ⟨x', y', ?_⟩
    rw [h, point_maskTable himg]
    simp only [Fin.ext_iff]
  exact {
    binary := by
      intro index grow x y
      obtain ⟨x', y', h⟩ := hpixel index grow x y
      rw [h]
      split_ifs
      · exact Or.inl rfl
      · exact Or.inr rfl
    partition := by
      intro x y
      refine ⟨indices x y, ⟨hcount x y, (maskOf_selected himg).mpr rfl⟩, ?_⟩
      rintro index ⟨-, hblack⟩
      exact ((maskOf_selected himg).mp hblack).symm
    selected := fun index x y => maskOf_selected himg
    unused := by
      intro index hunused grow x y
      obtain ⟨x', y', h⟩ := hpixel index grow x y
      rw [h, if_neg (hunused x' y')]
    contains := fun index grow x y => maskOf_mono himg (Nat.zero_le grow)
    monotone := fun index grow grow' hle x y => maskOf_mono himg hle }

end Laws

end Masks

/-! ### The contract -/

/-- A list of 2 to 256 colors in hexadecimal, distinct as colors. -/
def AcceptedPalette (raw : Json) : Prop :=
  ∃ colors : List String, raw = .arr (colors.map textValue) ∧ 2 ≤ colors.length ∧
    colors.length ≤ 256 ∧ (∀ s ∈ colors, HexColor s) ∧ (colors.map rgbOf).Nodup

/-- The palette is stored in its order, and a pixel holds the lowest index of an
entry at minimal distance. -/
structure Posterized {δ : Type} [LinearOrder δ] (distance : Rgb → Rgb → δ) (image : RgbImage)
    (palette : List Rgb) (channels : List Nat)
    (indices : Grid image.width image.height (Fin 256)) : Prop where
  entries : ∀ i, paletteEntry channels i = palette[i]?
  bounded : ∀ x y, (indices x y).val < palette.length
  nearest : ∀ x y, ∃ color, palette[(indices x y).val]? = some color ∧
    (∀ other ∈ palette, distance (image.pixels x y) color ≤ distance (image.pixels x y) other) ∧
      ∀ j < (indices x y).val, ∀ other, palette[j]? = some other →
        distance (image.pixels x y) color < distance (image.pixels x y) other

section Contract

variable {Data δ : Type} {img : Imaging Data δ} {num : Numerals}

/-- What is read of a mask's parameters is what the mask is made of. -/
theorem colormask_palette {data : Data} {width height : Nat} {channels : List Nat}
    {indices : Grid width height (Fin 256)} {params : JsonObject} {index grow : Int}
    (hload : img.load data = .ok (.palette channels indices))
    (hread : readColorMask num params = .ok (.colormask index grow)) :
    colormask img num data params =
      .ok [("mask", "raster/png", img.save (.gray (maskOf img indices index.toNat grow.toNat)))] := by
  have hdecode : img.decode data = .ok (.palette channels indices) := by
    rw [Imaging.decode, hload]
    rfl
  obtain ⟨i, hindex, hread⟩ := bind_ok_iff.mp hread
  rw [colormask, hindex, hdecode]
  -- the module checks the index before it reads `grow`, as the reading does
  by_cases hrange : 0 ≤ i ∧ i < 256
  · rw [if_neg (not_not.mpr hrange)] at hread
    obtain ⟨g, hgrow, hread⟩ := bind_ok_iff.mp hread
    obtain ⟨rfl, rfl⟩ := Settings.colormask.inj (Except.ok.inj hread)
    show (if ¬ (0 ≤ i ∧ i < 256) then _ else growParam num params >>= _) = _
    rw [if_neg (not_not.mpr hrange), hgrow]
    rfl
  · rw [if_pos hrange] at hread
    exact absurd hread refuse_ne_ok

/-- Up to 256 entries the cast to a byte does not wrap. -/
theorem posterized_mapToPalette [LinearOrder δ] (himg : img.Lawful) {image : RgbImage}
    {palette : List Rgb} (h₁ : 0 < palette.length) (h₂₅₆ : palette.length ≤ 256) :
    Posterized img.distance image palette (palette.flatMap fun entry => [entry.r, entry.g, entry.b])
      fun x y => Fin.ofNat 256 (nearestIndex img palette (image.pixels x y)) := by
  have hfirst : ∀ color, ∃ i : Fin palette.length, nearestIndex img palette color = i ∧
      (∀ j : Fin palette.length, img.distance color palette[i] ≤ img.distance color palette[j]) ∧
        ∀ j < i, img.distance color palette[i] < img.distance color palette[j] := fun color =>
    himg.argmin_first _ h₁
  have hlt : ∀ color, nearestIndex img palette color < palette.length := fun color => by
    obtain ⟨i, hi, -⟩ := hfirst color
    exact hi ▸ i.isLt
  -- at most 256 entries, so the index fits the byte that stores it
  have hcast : ∀ color, (Fin.ofNat 256 (nearestIndex img palette color)).val =
      nearestIndex img palette color := fun color =>
    Nat.mod_eq_of_lt ((hlt color).trans_le h₂₅₆)
  refine ⟨paletteEntry_flatMap palette, fun x y => ?_, fun x y => ?_⟩
  · rw [hcast]
    exact hlt _
  · obtain ⟨i, hi, hle, hbefore⟩ := hfirst (image.pixels x y)
    rw [hcast, hi]
    refine ⟨_, List.getElem?_eq_getElem i.isLt, ?_, ?_⟩
    · intro other hother
      obtain ⟨j, hj, rfl⟩ := List.mem_iff_getElem.mp hother
      exact hle ⟨j, hj⟩
    · intro j hj other hother
      obtain ⟨hj', rfl⟩ := List.getElem?_eq_some_iff.mp hother
      exact hbefore ⟨j, hj'⟩ hj

theorem posterize_palette {data : Data} {image : Picture} {params : JsonObject} {raw : Json}
    {palette : List Rgb} (hload : img.load data = .ok image)
    (hraw : params.fields.lookup (.text "palette") = some raw)
    (hcolors : params.fields.lookup (.text "colors") = none)
    (hpalette : validatePalette num raw = .ok palette) :
    posterize img num data params =
      .ok [("image", "raster/png", img.save (mapToPalette img (img.toRgb image) palette))] := by
  have hdecode : img.decode data = .ok image := by
    rw [Imaging.decode, hload]
    rfl
  rw [posterize, hraw, hcolors]
  show (img.decode data >>= fun image => validatePalette num raw >>= fun palette => _) = _
  rw [hdecode, hpalette]
  rfl

/-- **The index contract**, from the list of colors to the masks. -/
theorem separation_contract [LinearOrder δ] (himg : img.Lawful) (num : Numerals) :
    (∀ raw, (∃ palette, validatePalette num raw = .ok palette) ↔ AcceptedPalette raw) ∧
    ∀ raw palette, validatePalette num raw = .ok palette →
      (∃ colors : List String, raw = .arr (colors.map textValue) ∧ palette = colors.map rgbOf) ∧
      ∀ data image params, img.load data = .ok (.rgb image) →
        params.fields.lookup (.text "palette") = some raw →
          params.fields.lookup (.text "colors") = none →
          ∃ out channels indices mask,
            posterize img num data params = .ok [("image", "raster/png", out)] ∧
            img.load out = .ok (.palette channels indices) ∧
            Posterized img.distance image palette channels indices ∧
            Masks indices palette.length mask ∧
            ∀ (index : Fin 256) (grow : Nat) maskParams,
              readColorMask num maskParams = .ok (.colormask index grow) →
                ∃ m, colormask img num out maskParams = .ok [("mask", "raster/png", m)] ∧
                  img.load m = .ok (.gray (mask index grow)) := by
  refine ⟨fun raw => ?_, fun raw palette hpalette => ?_⟩
  · simp only [validatePalette_ok_iff]
    constructor
    · rintro ⟨palette, colors, hraw, h₂, h₂₅₆, hhex, hnodup, -⟩
      exact ⟨colors, hraw, h₂, h₂₅₆, hhex, hnodup⟩
    · rintro ⟨colors, hraw, h₂, h₂₅₆, hhex, hnodup⟩
      exact ⟨_, colors, hraw, h₂, h₂₅₆, hhex, hnodup, rfl⟩
  · obtain ⟨colors, hraw, h₂, h₂₅₆, -, -, hcolors⟩ := validatePalette_ok_iff.mp hpalette
    have hlen : palette.length = colors.length := by rw [hcolors, List.length_map]
    refine ⟨⟨colors, hraw, hcolors⟩, fun data image params hload hparam hnone => ?_⟩
    have hposterized : Posterized img.distance image palette _ _ :=
      posterized_mapToPalette himg (by omega) (by omega)
    have hposterize := posterize_palette hload hparam hnone hpalette
    rw [himg.toRgb_rgb] at hposterize
    -- every stored index is below the palette's length, so the file gives the indices back
    have hstored := himg.load_palette _ (fun x y => Fin.ofNat 256 (nearestIndex img palette
      (image.pixels x y))) (storable_of_validate hpalette) fun x y => by
        rw [length_channels, Nat.mul_div_cancel_left _ (by norm_num)]
        exact hposterized.bounded x y
    exact ⟨_, _, _, _, hposterize, hstored, hposterized, masks_maskOf himg hposterized.bounded,
      fun index grow maskParams hread =>
        ⟨_, colormask_palette hstored hread, himg.load_gray _⟩⟩

end Contract

/-- Images that are kept as they are, and the sum of the differences as their
distance. -/
def direct : Imaging Picture Nat where
  load picture := .ok picture
  save picture := picture
  toRgb
    | .rgb image => image
    | .palette channels indices =>
        ⟨_, _, fun x y => (paletteEntry channels (indices x y)).getD ⟨0, 0, 0⟩⟩
    | .gray pixels => ⟨_, _, fun x y => ⟨pixels x y, pixels x y, pixels x y⟩⟩
  quantize image _ := .rgb image
  distance a b := (a.r.dist b.r) + (a.g.dist b.g) + (a.b.dist b.b)
  argmin := firstMin
  point table indices x y := table[(indices x y).val]?.getD 0
  minFilter := Grid.minFilter

theorem direct_lawful : direct.Lawful where
  load_palette _ _ _ _ := rfl
  load_gray _ := rfl
  toRgb_rgb _ := rfl
  argmin_first f hn := ⟨⟨firstMin f, firstMin_lt_length f hn⟩, rfl,
    firstMin_le f (firstMin_lt_length f hn), fun _ hj => firstMin_lt f _ hj⟩
  point_lookup table indices hlen x y := by
    have hlt : (indices x y).val < table.length := hlen.symm ▸ (indices x y).isLt
    show table[(indices x y).val]? = some (table[(indices x y).val]?.getD 0)
    rw [List.getElem?_eq_getElem hlt, Option.getD_some]
  minFilter_window _ _ := rfl

/-- A white pixel and a dark one, by a palette of black and white. -/
theorem separation_contract_pair :
    AcceptedPalette (.arr [.str "#000000", .str "#FFFFFF"]) ∧
    ∃ out channels mask, ∃ indices : Grid 2 1 (Fin 256),
      posterize direct plainNumerals (.rgb ⟨2, 1, fun x _ => if x = 0 then ⟨250, 250, 250⟩
        else ⟨9, 9, 9⟩⟩) ⟨[("palette", .arr [.str "#000000", .str "#FFFFFF"])], by decide⟩ =
          .ok [("image", "raster/png", out)] ∧
        direct.load out = .ok (.palette channels indices) ∧
        Masks indices 2 mask ∧
        ∃ m, colormask direct plainNumerals out ⟨[("index", .int 1), ("grow", .int 3)], by decide⟩ =
          .ok [("mask", "raster/png", m)] ∧ direct.load m = .ok (.gray (mask 1 3)) := by
  obtain ⟨haccepts, hcontract⟩ := separation_contract direct_lawful plainNumerals
  have hpalette : validatePalette plainNumerals (.arr [.str "#000000", .str "#FFFFFF"]) =
      .ok [⟨0, 0, 0⟩, ⟨255, 255, 255⟩] := rfl
  obtain ⟨out, channels, indices, mask, hout, hload, -, hmasks, hmask⟩ :=
    (hcontract _ _ hpalette).2 _ ⟨2, 1, fun x _ => if x = 0 then ⟨250, 250, 250⟩ else ⟨9, 9, 9⟩⟩
      ⟨[("palette", .arr [.str "#000000", .str "#FFFFFF"])], by decide⟩ rfl rfl rfl
  exact ⟨(haccepts _).mp ⟨_, hpalette⟩, out, channels, mask, indices, hout, hload, hmasks,
    hmask 1 3 _ rfl⟩

end Formshift
