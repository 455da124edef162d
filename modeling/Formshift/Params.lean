/-
Formshift/Params.lean

What the core modules read of their parameters (`raster.py`, `color.py`,
`potrace.py`), and the table of `image.levels`.

`read` is the part of `run` that reads and checks, for each of the eight modules
that take numbers, and `InRange` the bounds each one states.  `params_sound_iff`
says for which parameters a module keeps to them: exactly those that are
`Readable`.  The others are few: an infinite float where `int` is asked for, an
integer beyond the floats where `float` is, a gamma or an angle that is no
finite number, and a refusal that is to spell an integer of too many digits.
-/
import Formshift.Palette

namespace Formshift

open Py

/-! ### Levels -/

/-- `**` of the platform's library: from the unit interval, with an exponent
that is not negative, it does not lead out of it. -/
structure Libm where
  pow : Double → Double → Except Raised Double
  pow_unit : ∀ q e, 0 ≤ q → q ≤ 1 → (Double.finite 0).le e = true →
    ∃ r, pow (.finite q) e = .ok (.finite r) ∧ 0 ≤ r ∧ r ≤ 1

/-- One entry of the lookup table of `image.levels`. -/
def levelsEntry (libm : Libm) (black white : Int) (gamma : Double) (v : Nat) :
    Except Raised Int := do
  let span ← Double.ofInt (white - black)
  let scale ← Double.div (.finite 255) span
  let offset ← Double.ofInt (v - black)
  let x ← (offset.mul scale).div (.finite 255)
  let exponent ← Double.div (.finite 1) gamma
  let y ← libm.pow (Double.pyMax (.finite 0) (Double.pyMin (.finite 1) x)) exponent
  (Double.mul (.finite 255) y).toInt

/-- With a positive finite gamma every entry is a byte. -/
theorem levelsEntry_ok (libm : Libm) {black white : Int} {gamma : ℚ} (h₀ : 0 ≤ black)
    (hlt : black < white) (h₂₅₅ : white ≤ 255) (hgamma : 0 < gamma) {v : Nat} (hv : v < 256) :
    ∃ n, levelsEntry libm black white (.finite gamma) v = .ok n ∧ 0 ≤ n ∧ n ≤ 255 := by
  -- integers of a byte's size convert exactly
  have hspan : Double.ofInt (white - black) = .ok (.finite ((white - black : ℤ) : ℚ)) :=
    Double.ofInt_small (by rw [abs_lt]; omega)
  have hoffset : Double.ofInt (v - black) = .ok (.finite ((v - black : ℤ) : ℚ)) :=
    Double.ofInt_small (by rw [abs_lt]; omega)
  have hspan_pos : (0 : ℚ) < ((white - black : ℤ) : ℚ) := by
    exact_mod_cast sub_pos.mpr hlt
  obtain ⟨scale, hscale⟩ := Double.div_finite (x := .finite 255) hspan_pos.ne'
  obtain ⟨x, hx⟩ := Double.div_finite
    (x := (Double.finite ((v - black : ℤ) : ℚ)).mul scale) (q := 255) (by norm_num)
  -- the clamp brings the base into [0, 1], whatever the division gave
  obtain ⟨base, hbase, hbase₀, hbase₁⟩ := Double.clamp_mem x
  have hexponent : Double.div (.finite 1) (.finite gamma) = .ok (Double.round (1 / gamma)) := by
    simp [Double.div, hgamma.ne']
  -- `pow` keeps [0, 1] under an exponent that is not negative
  obtain ⟨y, hy, hy₀, hy₁⟩ := libm.pow_unit base (Double.round (1 / gamma)) hbase₀ hbase₁
    (Double.le_round (by positivity))
  obtain ⟨r, hr, hr₀, hr₂₅₅⟩ := Double.round_mem (q := 255 * y) (n := 255) (by norm_num)
    (by positivity) (by push_cast; linarith)
  refine ⟨roundHalfEven r, ?_, le_roundHalfEven (by simpa using hr₀),
    roundHalfEven_le (by exact_mod_cast hr₂₅₅)⟩
  refine bind_ok_iff.mpr ⟨_, hspan, bind_ok_iff.mpr ⟨_, hscale, bind_ok_iff.mpr ⟨_, hoffset,
    bind_ok_iff.mpr ⟨_, hx, bind_ok_iff.mpr ⟨_, hexponent, bind_ok_iff.mpr ⟨.finite y, ?_, ?_⟩⟩⟩⟩⟩⟩
  · rw [hbase]
    exact hy
  · show (Double.round (255 * y)).toInt = _
    rw [hr]
    rfl

/-! ### The readings -/

/-- What a module has read. -/
inductive Settings where
  | crop (x y width height : Int)
  | rotate (angle : Double)
  | levels (black white : Int) (gamma : Double)
  | threshold (level : Int)
  | downsample (maxDimension : Int)
  | colors (count : Int)
  | palette (entries : List Rgb)
  | colormask (index grow : Int)
  | potrace (blacklevel : Double) (turdsize : Int)

section Read

variable (num : Numerals) (size : Nat × Nat) (params : JsonObject)

/-- `CropModule.run`. -/
def readCrop : Except Raised Settings := do
  let x ← intParam num params "x" 0
  let y ← intParam num params "y" 0
  let width ← intParam num params "width" (size.1 - x)
  let height ← intParam num params "height" (size.2 - y)
  if width ≤ 0 ∨ height ≤ 0 then
    refuse num [.text "crop size must be positive, got ", .int width, .text "x", .int height]
  else if x < 0 ∨ y < 0 ∨ size.1 < x + width ∨ size.2 < y + height then
    refuse num [.text "crop rectangle (", .int x, .text ",", .int y, .text ",", .int width,
      .text ",", .int height, .text (") exceeds image bounds " ++ size.1.repr ++ "x" ++
        size.2.repr)]
  else .ok (.crop x y width height)

/-- `RotateModule.run`. -/
def readRotate : Except Raised Settings := do
  let angle ← floatParam num params "angle" (.finite 0)
  .ok (.rotate angle)

/-- `LevelsModule.run`. -/
def readLevels : Except Raised Settings := do
  let black ← intParam num params "black" 0
  let white ← intParam num params "white" 255
  let gamma ← floatParam num params "gamma" (.finite 1)
  if ¬ (0 ≤ black ∧ black < white ∧ white ≤ 255) then
    refuse num [.text "need 0 <= black < white <= 255, got black=", .int black, .text " white=",
      .int white]
  else if gamma.le (.finite 0) then
    refuse num [.text "gamma must be positive, got ", .float gamma]
  else .ok (.levels black white gamma)

/-- `ThresholdModule.run`. -/
def readThreshold : Except Raised Settings := do
  let level ← intParam num params "level" 128
  if ¬ (0 ≤ level ∧ level ≤ 255) then
    refuse num [.text "level must be in [0, 255], got ", .int level]
  else .ok (.threshold level)

/-- `DownsampleModule.run`, in draft: the bound. -/
def maxDimensionParam : Except Raised Int := do
  let maxDimension ← intParam num params "max_dimension" 512
  if maxDimension ≤ 0 then
    refuse num [.text "max_dimension must be positive, got ", .int maxDimension]
  else .ok maxDimension

def readDownsample : Except Raised Settings := do
  let maxDimension ← maxDimensionParam num params
  .ok (.downsample maxDimension)

/-- `PosterizeModule.run`: the number of colors. -/
def colorsParam : Except Raised Int := do
  let colors ← intParam num params "colors" 8
  if ¬ (2 ≤ colors ∧ colors ≤ 256) then
    refuse num [.text "colors must be in [2, 256], got ", .int colors]
  else .ok colors

/-- `PosterizeModule.run`. -/
def readPosterize : Except Raised Settings :=
  match params.fields.lookup (.text "palette"), params.fields.lookup (.text "colors") with
  | some _, some _ =>
    refuse num [.text "palette and colors are mutually exclusive; give one, not both"]
  | some raw, none => do
    let entries ← validatePalette num raw
    .ok (.palette entries)
  | none, _ => do
    let colors ← colorsParam num params
    .ok (.colors colors)

/-- `ColorMaskModule.run`: `grow`, which is not converted. -/
def growParam : Except Raised Int :=
  match params.fields.lookup (.text "grow") with
  | none => .ok 0
  | some (.int n) =>
    if n < 0 then
      refuse num [.text "grow must be a non-negative integer, got ", .value (.int n)]
    else .ok n
  | some v => refuse num [.text "grow must be a non-negative integer, got ", .value v]

/-- `ColorMaskModule.run`, of an image in palette mode. -/
def readColorMask : Except Raised Settings := do
  let index ← intParam num params "index" 0
  if ¬ (0 ≤ index ∧ index < 256) then
    refuse num [.text "index must be in [0, 256), got ", .int index]
  else do
    let grow ← growParam num params
    .ok (.colormask index grow)

/-- The conversion of a parameter with no helper around it. -/
def converted {α : Type} (convert : Json → Except Raised α) (name : String) (default : α) :
    Except Raised α :=
  match params.fields.lookup (.text name) with
  | none => .ok default
  | some v => convert v

/-- The `try` block of `PotraceModule.run`. -/
def potraceNumbers : Except Raised (Double × Int) := do
  let blacklevel ← converted params (floatOf num) "blacklevel" (.finite (1 / 2))
  let turdsize ← converted params (intOf num) "turdsize" 2
  .ok (blacklevel, turdsize)

/-- The `except` clause behind it. -/
def potraceRefusal (e : Raised) : Raised :=
  if e.isA [.typeError, .valueError] then moduleError ("invalid potrace params: " ++ e.arg) else e

/-- `PotraceModule.run`. -/
def readPotrace : Except Raised Settings := do
  let numbers ← (potraceNumbers num params).mapError potraceRefusal
  if ¬ ((Double.finite 0).le numbers.1 ∧ numbers.1.le (.finite 1)) then
    refuse num [.text "blacklevel must be in [0, 1], got ", .float numbers.1]
  else if numbers.2 < 0 then
    refuse num [.text "turdsize must be >= 0, got ", .int numbers.2]
  else .ok (.potrace numbers.1 numbers.2)

end Read

/-- The core modules that read numbers. -/
inductive CoreModule where
  | crop
  | rotate
  | levels
  | threshold
  | downsample
  | posterize
  | colormask
  | potrace
  deriving DecidableEq

def CoreModule.read (num : Numerals) (size : Nat × Nat) (params : JsonObject) :
    CoreModule → Except Raised Settings
  | .crop => readCrop num size params
  | .rotate => readRotate num params
  | .levels => readLevels num params
  | .threshold => readThreshold num params
  | .downsample => readDownsample num params
  | .posterize => readPosterize num params
  | .colormask => readColorMask num params
  | .potrace => readPotrace num params

/-! ### What is to be read -/

/-- The rectangle lies inside the image. -/
def Fits (size : Nat × Nat) (x y width height : Int) : Prop :=
  0 ≤ x ∧ 0 ≤ y ∧ 0 < width ∧ 0 < height ∧ x + width ≤ size.1 ∧ y + height ≤ size.2

/-- A finite number above zero. -/
def Double.IsPositive (x : Double) : Prop := ∃ q, x = .finite q ∧ 0 < q

/-- The bounds the modules state; of `image.levels` also that every entry of its
table is a byte. -/
def InRange (libm : Libm) (size : Nat × Nat) : Settings → Prop
  | .crop x y width height => Fits size x y width height
  | .rotate angle => angle.IsFinite
  | .levels black white gamma => (0 ≤ black ∧ black < white ∧ white ≤ 255) ∧
      Double.IsPositive gamma ∧
        ∀ v < 256, ∃ n, levelsEntry libm black white gamma v = .ok n ∧ 0 ≤ n ∧ n ≤ 255
  | .threshold level => 0 ≤ level ∧ level ≤ 255
  | .downsample maxDimension => 0 < maxDimension
  | .colors count => 2 ≤ count ∧ count ≤ 256
  | .palette entries => 2 ≤ entries.length ∧ entries.length ≤ 256
  | .colormask index grow => (0 ≤ index ∧ index < 256) ∧ 0 ≤ grow
  | .potrace blacklevel turdsize =>
      (∃ q, blacklevel = .finite q ∧ 0 ≤ q ∧ q ≤ 1) ∧ 0 ≤ turdsize

/-! ### Which parameters a module can read -/

section Readable

variable (num : Numerals) (size : Nat × Nat) (params : JsonObject)

/-- What is refused of a rectangle can be spelled. -/
def CropSpellable (x y width height : Int) : Prop :=
  if width ≤ 0 ∨ height ≤ 0 then Spellable width ∧ Spellable height
  else Fits size x y width height ∨
    Spellable x ∧ Spellable y ∧ Spellable width ∧ Spellable height

def CropReadable : Prop :=
  IntSettles num params "x" 0 fun x => IntSettles num params "y" 0 fun y =>
    IntSettles num params "width" (size.1 - x) fun width =>
      IntSettles num params "height" (size.2 - y) fun height => CropSpellable size x y width height

def RotateReadable : Prop := FloatSettles num params "angle" (.finite 0) Double.IsFinite

/-- A gamma that comes to be checked is no NaN and not positively infinite. -/
def LevelsReadable : Prop :=
  IntSettles num params "black" 0 fun black => IntSettles num params "white" 255 fun white =>
    FloatSettles num params "gamma" (.finite 1) fun gamma =>
      if 0 ≤ black ∧ black < white ∧ white ≤ 255 then gamma ≠ .nan ∧ gamma ≠ .inf false
      else Spellable black ∧ Spellable white

def ThresholdReadable : Prop :=
  IntSettles num params "level" 128 fun level => (0 ≤ level ∧ level ≤ 255) ∨ Spellable level

def DownsampleReadable : Prop :=
  IntSettles num params "max_dimension" 512 fun maxDimension =>
    0 < maxDimension ∨ Spellable maxDimension

def PosterizeReadable : Prop :=
  match params.fields.lookup (.text "palette"), params.fields.lookup (.text "colors") with
  | some _, some _ => True
  | some raw, none => RefusesSpellably raw
  | none, _ => IntSettles num params "colors" 8 fun colors =>
      (2 ≤ colors ∧ colors ≤ 256) ∨ Spellable colors

def ColorMaskReadable : Prop :=
  IntSettles num params "index" 0 fun index =>
    if 0 ≤ index ∧ index < 256 then
      ∀ v, params.fields.lookup (.text "grow") = some v → (∀ n : Int, 0 ≤ n → v ≠ .int n) →
        v.spellable = true
    else Spellable index

def PotraceReadable : Prop :=
  (∀ n : Int, params.fields.lookup (.text "blacklevel") = some (.int n) →
    |(n : ℚ)| < overflowBound) ∧
  ∀ blacklevel, Given (floatOf num) params "blacklevel" (.finite (1 / 2)) blacklevel →
    (∀ x negative, params.fields.lookup (.text "turdsize") = some (.float x) →
      x.value num ≠ .inf negative) ∧
    ∀ turdsize, Given (intOf num) params "turdsize" 2 turdsize →
      (∃ q, blacklevel = .finite q ∧ 0 ≤ q ∧ q ≤ 1) → 0 ≤ turdsize ∨ Spellable turdsize

def CoreModule.Readable : CoreModule → Prop
  | .crop => CropReadable num size params
  | .rotate => RotateReadable num params
  | .levels => LevelsReadable num params
  | .threshold => ThresholdReadable num params
  | .downsample => DownsampleReadable num params
  | .posterize => PosterizeReadable num params
  | .colormask => ColorMaskReadable num params
  | .potrace => PotraceReadable num params

end Readable

/-! ### The modules one by one -/

section Modules

variable {num : Numerals} {libm : Libm} {size : Nat × Nat} {params : JsonObject}

theorem IntSettles.congr {name : String} {default : Int} {k l : Int → Prop}
    (h : ∀ n, k n ↔ l n) :
    IntSettles num params name default k ↔ IntSettles num params name default l := by
  rw [show k = l from funext fun n => propext (h n)]

theorem FloatSettles.congr {name : String} {default : Double} {k l : Double → Prop}
    (h : ∀ x, k x ↔ l x) :
    FloatSettles num params name default k ↔ FloatSettles num params name default l := by
  rw [show k = l from funext fun x => propext (h x)]

theorem sound_readCrop :
    SoundReading (InRange libm size) (readCrop num size params) ↔ CropReadable num size params := by
  rw [readCrop, sound_intParam]
  refine IntSettles.congr fun x => ?_
  rw [sound_intParam]
  refine IntSettles.congr fun y => ?_
  rw [sound_intParam]
  refine IntSettles.congr fun width => ?_
  rw [sound_intParam]
  refine IntSettles.congr fun height => ?_
  unfold CropSpellable
  split_ifs with hsize hbounds
  · simp [sound_refuse, Part.Spellable]
  · rw [or_iff_right fun h : Fits size x y width height => by
      obtain ⟨hx, hy, -, -, hw, hh⟩ := h
      omega]
    simp [sound_refuse, Part.Spellable]
  -- the checks passed are the crop fitting the image
  · rw [sound_ok]
    refine iff_of_true ?_ (Or.inl ?_)
    · show Fits size x y width height
      unfold Fits
      omega
    · unfold Fits
      omega

theorem sound_readRotate :
    SoundReading (InRange libm size) (readRotate num params) ↔ RotateReadable num params := by
  rw [readRotate, sound_floatParam]
  exact FloatSettles.congr fun angle => sound_ok

theorem sound_readLevels :
    SoundReading (InRange libm size) (readLevels num params) ↔ LevelsReadable num params := by
  rw [readLevels, sound_intParam]
  refine IntSettles.congr fun black => ?_
  rw [sound_intParam]
  refine IntSettles.congr fun white => ?_
  rw [sound_floatParam]
  refine FloatSettles.congr fun gamma => ?_
  by_cases hrange : 0 ≤ black ∧ black < white ∧ white ≤ 255
  · rw [if_neg (not_not.mpr hrange), if_pos hrange]
    cases gamma with
    -- no comparison with NaN holds, so the check lets it pass
    | nan =>
        refine iff_of_false ?_ (by simp)
        rw [show Double.le .nan (.finite 0) = false from rfl, if_neg (by simp), sound_ok]
        rintro ⟨-, ⟨q, hq, -⟩, -⟩
        cases hq
    | inf negative =>
        cases negative with
        | true =>
            rw [show Double.le (.inf true) (.finite 0) = true from rfl, if_pos rfl, sound_refuse]
            exact iff_of_true (by simp [Part.Spellable]) (by simp)
        -- positive infinity passes it as well
        | false =>
            refine iff_of_false ?_ (by simp)
            rw [show Double.le (.inf false) (.finite 0) = false from rfl, if_neg (by simp),
              sound_ok]
            rintro ⟨-, ⟨q, hq, -⟩, -⟩
            cases hq
    | finite q =>
        refine iff_of_true ?_ (by simp)
        split_ifs with hle
        · exact sound_refuse.mpr (by simp [Part.Spellable])
        · have hpos : 0 < q := by simpa [Double.le] using hle
          obtain ⟨h₀, hlt, h₂₅₅⟩ := hrange
          exact sound_ok.mpr ⟨⟨h₀, hlt, h₂₅₅⟩, ⟨q, rfl, hpos⟩, fun v hv =>
            levelsEntry_ok libm h₀ hlt h₂₅₅ hpos hv⟩
  · rw [if_pos hrange, if_neg hrange, sound_refuse]
    simp [Part.Spellable]

/-- One integer and its bounds. -/
theorem sound_checked {parts : List Part} (p : Prop) [Decidable p] {settings : Settings}
    (hp : InRange libm size settings ↔ p) :
    SoundReading (InRange libm size) (if ¬ p then refuse num parts else .ok settings) ↔
      p ∨ ∀ part ∈ parts, part.Spellable := by
  by_cases h : p
  · rw [if_neg (not_not.mpr h), sound_ok, hp]
    exact iff_of_true h (Or.inl h)
  · rw [if_pos h, sound_refuse]
    exact (or_iff_right h).symm

theorem sound_checked_bind {parts : List Part} (p : Prop) [Decidable p] {n : Int}
    {settings : Int → Settings} (hp : InRange libm size (settings n) ↔ p) :
    SoundReading (InRange libm size)
      ((if ¬ p then refuse num parts else .ok n) >>= fun n => .ok (settings n)) ↔
        p ∨ ∀ part ∈ parts, part.Spellable := by
  by_cases h : p
  · rw [if_neg (not_not.mpr h)]
    exact iff_of_true (sound_ok.mpr (hp.mpr h)) (Or.inl h)
  · rw [if_pos h, sound_bind_iff, within_refuse]
    simp [h, refuse_ne_ok]

theorem sound_readThreshold :
    SoundReading (InRange libm size) (readThreshold num params) ↔ ThresholdReadable num params := by
  rw [readThreshold, sound_intParam]
  refine IntSettles.congr fun level => ?_
  rw [sound_checked (0 ≤ level ∧ level ≤ 255) Iff.rfl]
  simp [Part.Spellable]

theorem sound_readDownsample :
    SoundReading (InRange libm size) (readDownsample num params) ↔
      DownsampleReadable num params := by
  rw [readDownsample, maxDimensionParam, bind_assoc, sound_intParam]
  refine IntSettles.congr fun maxDimension => ?_
  simp only [← not_lt]
  rw [sound_checked_bind (0 < maxDimension) Iff.rfl]
  simp [Part.Spellable]

theorem sound_readPosterize :
    SoundReading (InRange libm size) (readPosterize num params) ↔ PosterizeReadable num params := by
  unfold readPosterize PosterizeReadable
  split
  · rw [sound_refuse]
    simp [Part.Spellable]
  · rename_i raw _
    rw [sound_bind_iff, within_validatePalette, and_iff_left]
    intro palette h
    obtain ⟨colors, -, h₂, h₂₅₆, -, -, rfl⟩ := validatePalette_ok_iff.mp h
    rw [sound_ok]
    exact ⟨by simpa using h₂, by simpa using h₂₅₆⟩
  · rw [colorsParam, bind_assoc, sound_intParam]
    refine IntSettles.congr fun colors => ?_
    rw [sound_checked_bind (2 ≤ colors ∧ colors ≤ 256) Iff.rfl]
    simp [Part.Spellable]

theorem sound_growParam {R : Settings → Prop} {f : Int → Except Raised Settings}
    (hf : ∀ n, 0 ≤ n → SoundReading R (f n)) : SoundReading R (growParam num params >>= f) ↔
      ∀ v, params.fields.lookup (.text "grow") = some v → (∀ n : Int, 0 ≤ n → v ≠ .int n) →
        v.spellable = true := by
  -- what is read is at least 0
  have hok : ∀ n, growParam num params = .ok n → 0 ≤ n := by
    intro n h
    unfold growParam at h
    split at h
    · exact (Except.ok.inj h).le
    · split_ifs at h with hneg
      · exact absurd h refuse_ne_ok
      · exact Except.ok.inj h ▸ not_lt.mp hneg
    · exact absurd h refuse_ne_ok
  rw [sound_bind_iff, and_iff_left fun n h => hf n (hok n h)]
  unfold growParam
  split
  · rename_i hnone
    simp [hnone]
  · rename_i n hsome
    split_ifs with hneg
    · rw [within_refuse]
      simp only [hsome, Option.some.injEq, forall_eq']
      constructor
      · intro h _
        exact h (.value (.int n)) (by simp)
      · intro h
        have := h fun m hm hnm => by
          obtain rfl := Json.int.inj hnm
          omega
        simpa [Part.Spellable] using this
    · refine iff_of_true (within_ok.mpr trivial) ?_
      rw [hsome]
      rintro v hv hne
      exact absurd (Option.some.inj hv).symm (hne n (not_lt.mp hneg))
  -- not an integer: the message spells the value out
  · rename_i v hint hsome
    rw [within_refuse]
    simp only [hsome, Option.some.injEq, forall_eq']
    constructor
    · intro h _
      exact h (.value v) (by simp)
    · intro h
      have := h fun n _ hv => hint n hv
      simpa [Part.Spellable] using this

theorem sound_readColorMask :
    SoundReading (InRange libm size) (readColorMask num params) ↔ ColorMaskReadable num params := by
  rw [readColorMask, sound_intParam]
  refine IntSettles.congr fun index => ?_
  by_cases hrange : 0 ≤ index ∧ index < 256
  · rw [if_neg (not_not.mpr hrange), if_pos hrange]
    exact sound_growParam fun grow hgrow => sound_ok.mpr ⟨hrange, hgrow⟩
  · rw [if_pos hrange, if_neg hrange, sound_refuse]
    simp [Part.Spellable]

theorem converted_ok_iff {α : Type} {convert : Json → Except Raised α} {name : String}
    {default a : α} :
    converted params convert name default = .ok a ↔ Given convert params name default a := by
  unfold converted Given
  cases params.fields.lookup (.text name) with
  | none => simp [eq_comm]
  | some v => simp

/-- What the `try` block lets out. -/
theorem within_converted {α : Type} {convert : Json → Except Raised α} {name : String}
    {default : α} :
    Within (Caught [.typeError, .valueError]) (converted params convert name default) ↔
      ∀ v, params.fields.lookup (.text name) = some v →
        Within (Caught [.typeError, .valueError]) (convert v) := by
  unfold converted
  cases params.fields.lookup (.text name) with
  | none => simp
  | some v => simp

/-- The clause turns what it catches into a refusal, and nothing else. -/
theorem potraceRefusal_iff {e : Raised} (h : IsConversionError e) :
    IsModuleError (potraceRefusal e) ↔ Caught [.typeError, .valueError] e := by
  unfold potraceRefusal
  split_ifs with hcaught
  · exact iff_of_true rfl hcaught
  · exact iff_of_false (not_module_of_conversion h) hcaught

theorem within_potraceNumbers :
    Within IsModuleError ((potraceNumbers num params).mapError potraceRefusal) ↔
      Within (Caught [.typeError, .valueError]) (potraceNumbers num params) := by
  have hconversion : Within IsConversionError (potraceNumbers num params) := by
    have hconverted : ∀ {α : Type} {convert : Json → Except Raised α} {name : String}
        {default : α}, (∀ v, Within IsConversionError (convert v)) →
          Within IsConversionError (converted params convert name default) := by
      intro α convert name default h
      unfold converted
      split
      · exact within_ok.mpr trivial
      · exact h _
    exact (hconverted floatOf_error).bind fun _ =>
      (hconverted intOf_error).bind fun _ => within_ok.mpr trivial
  rw [within_mapError]
  constructor
  · exact fun h e he => (potraceRefusal_iff (hconversion e he)).mp (h e he)
  · exact fun h e he => (potraceRefusal_iff (hconversion e he)).mpr (h e he)

theorem potraceNumbers_ok_iff {blacklevel : Double} {turdsize : Int} :
    (potraceNumbers num params).mapError potraceRefusal = .ok (blacklevel, turdsize) ↔
      Given (floatOf num) params "blacklevel" (.finite (1 / 2)) blacklevel ∧
        Given (intOf num) params "turdsize" 2 turdsize := by
  rw [mapError_ok_iff, potraceNumbers]
  simp only [bind_ok_iff, converted_ok_iff, Except.ok.injEq, Prod.mk.injEq]
  constructor
  · rintro ⟨x, hx, n, hn, rfl, rfl⟩
    exact ⟨hx, hn⟩
  · rintro ⟨hx, hn⟩
    exact ⟨_, hx, _, hn, rfl, rfl⟩

/-- The bounds on the level, of which a NaN meets none. -/
theorem Double.mem_unit_iff {x : Double} :
    ((Double.finite 0).le x ∧ x.le (.finite 1)) ↔ ∃ q, x = .finite q ∧ 0 ≤ q ∧ q ≤ 1 := by
  cases x with
  | nan => simp [Double.le]
  | inf negative => cases negative <;> simp [Double.le]
  | finite q => simp [Double.le]

theorem sound_readPotrace :
    SoundReading (InRange libm size) (readPotrace num params) ↔ PotraceReadable num params := by
  -- the two range checks, after the numbers have been read
  have hchecks : ∀ numbers : Double × Int, SoundReading (InRange libm size)
      (if ¬ ((Double.finite 0).le numbers.1 ∧ numbers.1.le (.finite 1)) then
        refuse num [.text "blacklevel must be in [0, 1], got ", .float numbers.1]
      else if numbers.2 < 0 then
        refuse num [.text "turdsize must be >= 0, got ", .int numbers.2]
      else .ok (.potrace numbers.1 numbers.2)) ↔
        ((∃ q, numbers.1 = .finite q ∧ 0 ≤ q ∧ q ≤ 1) →
          0 ≤ numbers.2 ∨ Spellable numbers.2) := by
    intro numbers
    rw [← Double.mem_unit_iff]
    by_cases hunit : (Double.finite 0).le numbers.1 ∧ numbers.1.le (.finite 1)
    · simp only [← not_le]
      rw [if_neg (not_not.mpr hunit), sound_checked (0 ≤ numbers.2)]
      · simp [hunit, Part.Spellable]
      · rw [InRange, and_iff_right (Double.mem_unit_iff.mp hunit)]
    · rw [if_pos hunit, sound_refuse]
      simp [hunit, Part.Spellable]
  rw [readPotrace, sound_bind_iff, within_potraceNumbers]
  simp only [hchecks, Prod.forall, potraceNumbers_ok_iff]
  rw [potraceNumbers, within_bind_iff]
  simp only [within_bind_iff, within_converted, within_floatOf, within_intOf, converted_ok_iff]
  constructor
  · rintro ⟨⟨hblack, hturd⟩, hnext⟩
    refine ⟨fun n hn => hblack _ hn n rfl, fun blacklevel hgiven => ⟨?_, ?_⟩⟩
    · exact fun x negative hx => (hturd blacklevel hgiven).1 _ hx x negative rfl
    · exact fun turdsize hturdsize => hnext blacklevel turdsize ⟨hgiven, hturdsize⟩
  · rintro ⟨hblack, hturd⟩
    refine ⟨⟨?_, fun blacklevel hgiven => ⟨?_, fun _ _ => within_ok.mpr trivial⟩⟩, ?_⟩
    · rintro v hv n rfl
      exact hblack n hv
    · rintro v hv x negative rfl
      exact (hturd blacklevel hgiven).1 x negative hv
    · rintro blacklevel turdsize ⟨hgiven, hturdsize⟩
      exact (hturd blacklevel hgiven).2 turdsize hturdsize

end Modules

/-! ### All of them -/

/-- **The modules keep to their bounds on the parameters they can read**, and on
no others. -/
theorem params_sound_iff (num : Numerals) (libm : Libm) (size : Nat × Nat) (params : JsonObject)
    (m : CoreModule) :
    SoundReading (InRange libm size) (m.read num size params) ↔ m.Readable num size params := by
  cases m with
  | crop => exact sound_readCrop
  | rotate => exact sound_readRotate
  | levels => exact sound_readLevels
  | threshold => exact sound_readThreshold
  | downsample => exact sound_readDownsample
  | posterize => exact sound_readPosterize
  | colormask => exact sound_readColorMask
  | potrace => exact sound_readPotrace

/-- `**` with the exponents `0.0` and `1.0`. -/
def plainLibm : Libm where
  pow x e := .ok (if e = .finite 0 then .finite 1 else x)
  pow_unit q e h₀ h₁ _ := by
    split_ifs
    · exact ⟨1, rfl, zero_le_one, le_rfl⟩
    · exact ⟨q, rfl, h₀, h₁⟩

/-- A crop at infinity ends in an `OverflowError`. -/
theorem params_sound_fails : ¬ ∀ (num : Numerals) (libm : Libm) (size : Nat × Nat)
    (params : JsonObject) (m : CoreModule),
      SoundReading (InRange libm size) (m.read num size params) := by
  intro h
  have hcrop := (h plainNumerals plainLibm (4, 4)
    ⟨[("x", .float ⟨infText, by decide⟩)], by decide⟩ .crop).1
  have hown := hcrop _ rfl
  cases hown

end Formshift
