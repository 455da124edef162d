/-
Formshift/Downsample.lean

The pipeline boundary (`DownsampleModule`, `raster.py`).

In draft the longer side is brought down to the bound and the shorter one is
scaled with it and rounded.  `draft_bounded_iff` says when that works out: if the
image is within the bound already, or the shorter side does not round to
nothing, which takes an aspect ratio of less than twice the bound.  Beyond it
the resize raises, and not a `ModuleError`.
-/
import Formshift.Params
import Formshift.Modules

namespace Formshift

open Py

/-! ### The imaging library -/

/-- `Image` and `ImageOps`, as far as the module uses them. -/
structure Pillow (Image : Type) where
  /-- `Image.open`, or the text of its exception. -/
  load : Bytes → Except String Image
  /-- `Image.save`, as a PNG. -/
  save : Image → Bytes
  size : Image → Nat × Nat
  resize : Image → Int × Int → Except Raised Image
  /-- `ImageOps.contain`. -/
  contain : Image → Int × Int → Except Raised Image

section Module

variable {Image : Type} (pil : Pillow Image)

/-- `max(image.size)`. -/
def Pillow.longer (image : Image) : Nat := max (pil.size image).1 (pil.size image).2

/-- `_decode`. -/
def Pillow.decode (data : Bytes) : Except Raised Image :=
  (pil.load data).mapError fun text => moduleError ("could not decode PNG input: " ++ text)

/-- What is returned of the one output port. -/
def imageResult (data : Bytes) : List (String × ModuleResult) := [("image", ⟨"raster/png", data⟩)]

/-- `DownsampleModule.run`. -/
def downsample (num : Numerals) (data : Bytes) (params : JsonObject) (draft : Bool) :
    Except Raised (List (String × ModuleResult)) :=
  if draft then do
    let image ← pil.decode data
    let maxDimension ← maxDimensionParam num params
    if pil.longer image ≤ maxDimension then .ok (imageResult data)
    else do
      let shrunk ← pil.contain image (maxDimension, maxDimension)
      .ok (imageResult (pil.save shrunk))
  else .ok (imageResult data)

end Module

/-! ### The resize -/

/-- The shorter side behind the resize. -/
def scaled (bound : Int) (shorter longer : Nat) : Int :=
  roundHalfEven (bound * (shorter / longer : ℚ))

namespace Pillow

variable {Image : Type} (pil : Pillow Image)

def shorter (image : Image) : Nat := min (pil.size image).1 (pil.size image).2

/-- What is assumed of the library: an image is brought into a square by a resize
that keeps its proportions, it can be shrunk unless a side of it vanishes, and a
saved image has its size when it is opened. -/
structure Lawful : Prop where
  contain_wide : ∀ image (bound : Int), 0 < bound → (pil.size image).2 ≤ (pil.size image).1 →
    pil.contain image (bound, bound) =
      pil.resize image (bound, scaled bound (pil.size image).2 (pil.size image).1)
  contain_tall : ∀ image (bound : Int), 0 < bound → (pil.size image).1 < (pil.size image).2 →
    pil.contain image (bound, bound) =
      pil.resize image (scaled bound (pil.size image).1 (pil.size image).2, bound)
  resize_ok : ∀ image (width height : Int), 0 < width → width ≤ (pil.size image).1 → 0 < height →
    height ≤ (pil.size image).2 → ∃ shrunk, pil.resize image (width, height) = .ok shrunk ∧
      pil.size shrunk = (width.toNat, height.toNat)
  resize_zero : ∀ image (width height : Int), width = 0 ∨ height = 0 →
    ∃ text, pil.resize image (width, height) = .error ⟨.valueError, text⟩
  load_save : ∀ image, ∃ again, pil.load (pil.save image) = .ok again ∧
    pil.size again = pil.size image

end Pillow

theorem scaled_nonneg {bound : Int} {shorter longer : Nat} (hbound : 0 ≤ bound) :
    0 ≤ scaled bound shorter longer :=
  le_roundHalfEven (by push_cast; positivity)

/-- The shorter side does not grow. -/
theorem scaled_le_shorter {bound : Int} (shorter : Nat) {longer : Nat} (hbound : bound ≤ longer) :
    scaled bound shorter longer ≤ shorter := by
  apply roundHalfEven_le
  have hbound : (bound : ℚ) ≤ longer := by exact_mod_cast hbound
  rcases longer.eq_zero_or_pos with rfl | hlonger
  · simp
  · have hlonger : (0 : ℚ) < longer := by exact_mod_cast hlonger
    push_cast
    rw [mul_div_assoc', div_le_iff₀ hlonger, mul_comm]
    exact mul_le_mul_of_nonneg_left hbound (by positivity)

/-- Nor does it become the longer one. -/
theorem scaled_le_bound {bound : Int} {shorter longer : Nat} (hbound : 0 ≤ bound)
    (hle : shorter ≤ longer) : scaled bound shorter longer ≤ bound := by
  apply roundHalfEven_le
  have hbound : (0 : ℚ) ≤ bound := by exact_mod_cast hbound
  have hratio : (shorter / longer : ℚ) ≤ 1 :=
    div_le_one_of_le₀ (by exact_mod_cast hle) (by positivity)
  simpa using mul_le_mul_of_nonneg_left hratio hbound

/-- It vanishes from an aspect ratio of twice the bound on. -/
theorem one_le_scaled_iff {bound : Int} {shorter longer : Nat} (hlonger : 0 < longer) :
    1 ≤ scaled bound shorter longer ↔ (longer : Int) < 2 * bound * shorter := by
  have hlonger : (0 : ℚ) < longer := by exact_mod_cast hlonger
  rw [scaled, one_le_roundHalfEven_iff, mul_div_assoc', lt_div_iff₀ hlonger, ← Int.cast_lt (R := ℚ)]
  push_cast
  constructor <;> intro h <;> linarith

section Contain

variable {Image : Type} {pil : Pillow Image} (hpil : pil.Lawful) {image : Image} {bound : Int}

include hpil

theorem contain_ok (hbound : 0 < bound) (hlt : bound < pil.longer image)
    (hscaled : 1 ≤ scaled bound (pil.shorter image) (pil.longer image)) :
    ∃ shrunk, pil.contain image (bound, bound) = .ok shrunk ∧ (pil.longer shrunk : Int) = bound ∧
      (pil.shorter shrunk : Int) = scaled bound (pil.shorter image) (pil.longer image) := by
  have hshorter := scaled_le_shorter (pil.shorter image) hlt.le
  have hle := scaled_le_bound hbound.le
    (min_le_max : pil.shorter image ≤ pil.longer image)
  have hresize := hpil.resize_ok image
  have hcontain_wide := hpil.contain_wide image bound hbound
  have hcontain_tall := hpil.contain_tall image bound hbound
  unfold Pillow.longer Pillow.shorter at *
  generalize pil.size image = sides at *
  obtain ⟨width, height⟩ := sides
  dsimp only at *
  -- the longer side becomes the bound, the shorter one its scaled length
  rcases le_or_gt height width with hwide | htall
  · rw [hcontain_wide hwide]
    rw [max_eq_left hwide, min_eq_right hwide] at *
    obtain ⟨shrunk, hshrunk, hsize⟩ := hresize bound (scaled bound height width) hbound hlt.le
      hscaled hshorter
    refine ⟨shrunk, hshrunk, ?_, ?_⟩
    · rw [hsize]
      omega
    · rw [hsize]
      omega
  · rw [hcontain_tall htall]
    rw [max_eq_right htall.le, min_eq_left htall.le] at *
    obtain ⟨shrunk, hshrunk, hsize⟩ := hresize (scaled bound width height) bound hscaled hshorter
      hbound hlt.le
    refine ⟨shrunk, hshrunk, ?_, ?_⟩
    · rw [hsize]
      omega
    · rw [hsize]
      omega

/-- The resize raises if the shorter side vanishes. -/
theorem contain_error (hbound : 0 < bound)
    (hscaled : scaled bound (pil.shorter image) (pil.longer image) = 0) :
    ∃ text, pil.contain image (bound, bound) = .error ⟨.valueError, text⟩ := by
  unfold Pillow.longer Pillow.shorter at hscaled
  rcases le_or_gt (pil.size image).2 (pil.size image).1 with hwide | htall
  · rw [max_eq_left hwide, min_eq_right hwide] at hscaled
    rw [hpil.contain_wide image bound hbound hwide]
    exact hpil.resize_zero _ _ _ (Or.inr hscaled)
  · rw [max_eq_right htall.le, min_eq_left htall.le] at hscaled
    rw [hpil.contain_tall image bound hbound htall]
    exact hpil.resize_zero _ _ _ (Or.inl hscaled)

end Contain

/-! ### The draft run -/

/-- What a draft run makes of an image that is to be at most `bound` long: it is
shrunk to the bound if it has to be, and the module leaves the outcome alone. -/
structure Draft {Image : Type} (pil : Pillow Image) (num : Numerals) (params : JsonObject)
    (data : Bytes) (image : Image) (bound : Int) (out : Bytes) (shrunk : Image) : Prop where
  returned : downsample pil num data params true = .ok (imageResult out)
  loaded : pil.load out = .ok shrunk
  longer : (pil.longer shrunk : Int) = min (pil.longer image : Int) bound
  shorter_pos : 1 ≤ pil.shorter shrunk
  shorter_le : pil.shorter shrunk ≤ pil.shorter image
  identical : pil.longer image ≤ bound → out = data
  again : downsample pil num out params true = .ok (imageResult out)

section Run

variable {Image : Type} {pil : Pillow Image} {num : Numerals} {params : JsonObject} {data : Bytes}
  {image : Image} {bound : Int}

/-- A draft run, of an image that can be decoded and a positive bound. -/
theorem downsample_draft (hload : pil.load data = .ok image)
    (hbound : intParam num params "max_dimension" 512 = .ok bound) (hpos : 1 ≤ bound) :
    downsample pil num data params true =
      if (pil.longer image : Int) ≤ bound then .ok (imageResult data)
      else pil.contain image (bound, bound) >>= fun shrunk =>
        .ok (imageResult (pil.save shrunk)) := by
  have hdecode : pil.decode data = .ok image := by rw [Pillow.decode, hload]; rfl
  have hparam : maxDimensionParam num params = .ok bound := by
    rw [maxDimensionParam, hbound]
    exact if_neg (not_le.mpr hpos)
  rw [downsample, if_pos rfl, hdecode, hparam]
  rfl

/-- An image within the bound is not touched. -/
theorem downsample_within (hload : pil.load data = .ok image)
    (hbound : intParam num params "max_dimension" 512 = .ok bound) (hpos : 1 ≤ bound)
    (hle : pil.longer image ≤ bound) :
    downsample pil num data params true = .ok (imageResult data) := by
  rw [downsample_draft hload hbound hpos, if_pos hle]

/-- **Draft downsampling is bounded** exactly if the image is within the bound, or
its aspect ratio is less than twice it. -/
theorem draft_bounded_iff (hpil : pil.Lawful) (hload : pil.load data = .ok image)
    (hsize : 1 ≤ pil.shorter image)
    (hbound : intParam num params "max_dimension" 512 = .ok bound) (hpos : 1 ≤ bound) :
    (∃ out shrunk, Draft pil num params data image bound out shrunk) ↔
      pil.longer image ≤ bound ∨ (pil.longer image : Int) < 2 * bound * pil.shorter image := by
  have hlonger : 0 < pil.longer image := hsize.trans min_le_max
  constructor
  · rintro ⟨out, shrunk, hdraft⟩
    by_contra hbeyond
    rw [not_or, not_le, ← one_le_scaled_iff hlonger] at hbeyond
    obtain ⟨hlt, hscaled⟩ := hbeyond
    -- a shorter side scaled to nothing is a side of length 0, which cannot be resized to
    have hzero : scaled bound (pil.shorter image) (pil.longer image) = 0 :=
      le_antisymm (by omega) (scaled_nonneg (by omega))
    obtain ⟨text, htext⟩ := contain_error hpil (by omega) hzero
    have hreturned := hdraft.returned
    rw [downsample_draft hload hbound hpos, if_neg (not_le.mpr hlt), htext] at hreturned
    cases hreturned
  · intro h
    rcases le_or_gt (pil.longer image : Int) bound with hle | hlt
    -- an image within the bound comes back as it was uploaded
    · have hreturned := downsample_within hload hbound hpos hle
      exact ⟨data, image, hreturned, hload, (min_eq_left hle).symm, hsize, le_rfl, fun _ => rfl,
        hreturned⟩
    -- a longer one is shrunk, and what is written then lies within the bound
    · have hscaled := (one_le_scaled_iff hlonger).mpr (h.resolve_left (not_le.mpr hlt))
      obtain ⟨shrunk, hcontain, hshrunk, hshorter⟩ := contain_ok hpil hpos hlt hscaled
      obtain ⟨again, hagain, hsame⟩ := hpil.load_save shrunk
      have hlonger' : pil.longer again = pil.longer shrunk := by rw [Pillow.longer, hsame]; rfl
      have hshorter' : pil.shorter again = pil.shorter shrunk := by rw [Pillow.shorter, hsame]; rfl
      have hle := scaled_le_shorter (pil.shorter image) hlt.le
      refine ⟨pil.save shrunk, again, ?_, hagain, ?_, ?_, ?_, ?_, ?_⟩
      · rw [downsample_draft hload hbound hpos, if_neg (not_le.mpr hlt), hcontain]
        rfl
      · rw [hlonger', hshrunk, min_eq_right hlt.le]
      · omega
      · omega
      · exact fun h => absurd h (not_le.mpr hlt)
      · exact downsample_within hagain hbound hpos (by rw [hlonger', hshrunk])

end Run

/-- The sides of a blank image, if both are positive. -/
def blankSides (sides : Int × Int) : Except Raised (Nat × Nat) :=
  if 0 < sides.1 ∧ 0 < sides.2 then .ok (sides.1.toNat, sides.2.toNat)
  else .error ⟨.valueError, "height and width must be > 0"⟩

/-- Blank images, saved as a row and a column of their length. -/
def blankPillow : Pillow (Nat × Nat) where
  load data := .ok (data.count 1, data.count 0)
  save image := List.replicate image.1 1 ++ List.replicate image.2 0
  size image := image
  resize _ sides := blankSides sides
  contain image box :=
    if image.2 ≤ image.1 then blankSides (box.1, scaled box.1 image.2 image.1)
    else blankSides (scaled box.2 image.1 image.2, box.2)

theorem blankPillow_load (image : Nat × Nat) :
    blankPillow.load (blankPillow.save image) = .ok image := by
  have h : ((1 : UInt8) == 0) = false ∧ ((0 : UInt8) == 1) = false := by decide
  simp [blankPillow, List.count_append, List.count_replicate, h]

theorem blankPillow_lawful : blankPillow.Lawful where
  contain_wide _ _ _ hwide := if_pos hwide
  contain_tall _ _ _ htall := if_neg (not_le.mpr htall)
  resize_ok _ width height hwidth _ hheight _ := ⟨_, if_pos ⟨hwidth, hheight⟩, rfl⟩
  resize_zero _ width height hzero := ⟨_, if_neg (by omega)⟩
  load_save image := ⟨image, blankPillow_load image, rfl⟩

/-- The longest image one pixel high that the default bound brings down. -/
theorem draft_bounded_strip : ∃ out shrunk,
    Draft blankPillow plainNumerals .empty (blankPillow.save (1023, 1)) (1023, 1) 512 out shrunk :=
  (draft_bounded_iff blankPillow_lawful (blankPillow_load _) (by decide) rfl (by decide)).mpr
    (Or.inr (by decide))

/-- One pixel more, and the height is rounded away. -/
theorem draft_bounded_fails : ¬ ∀ (Image : Type) (pil : Pillow Image) (num : Numerals)
    (params : JsonObject) (data : Bytes) (image : Image) (bound : Int), pil.Lawful →
      pil.load data = .ok image → 1 ≤ pil.shorter image →
        intParam num params "max_dimension" 512 = .ok bound → 1 ≤ bound →
          ∃ out shrunk, Draft pil num params data image bound out shrunk := by
  intro h
  obtain ⟨out, shrunk, hdraft⟩ := h _ blankPillow plainNumerals .empty _ (1024, 1) 512
    blankPillow_lawful (blankPillow_load _) (by decide) rfl (by decide)
  have hscaled : scaled 512 (blankPillow.shorter (1024, 1)) (blankPillow.longer (1024, 1)) = 0 := by
    norm_num [scaled, roundHalfEven, blankPillow, Pillow.longer, Pillow.shorter]
  obtain ⟨text, htext⟩ := contain_error blankPillow_lawful (by decide) hscaled
  have hreturned := hdraft.returned
  rw [downsample_draft (blankPillow_load _) rfl (by decide), if_neg (by decide), htext] at hreturned
  cases hreturned

end Formshift
