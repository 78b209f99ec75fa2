import Aip.Bscaler.Split

/-! Bytes between four taps: the interpolations of the scaler model, and which taps they show. -/

namespace Aip.Bscaler

/-- A byte from four taps and the weights of the right column and the lower row. -/
abbrev Bilinear := UInt8 → UInt8 → UInt8 → UInt8 → Int → Int → UInt8

/-- The interpolation of a byte that holds several numbers, each at its own shift. -/
def bilinearPacked (sel : UInt8) (shifts : List UInt8) : Bilinear := fun p0 p1 p2 p3 xw yw =>
  shifts.foldl (fun val shift =>
    let bits p : Int := ((p >>> shift) &&& sel).toNat
    let val0 := UInt8.ofNat
      ((bits p0 * (matOne - xw) + bits p1 * xw + matHalfOne) / 2 ^ matAcc).toNat
    let val1 := UInt8.ofNat
      ((bits p2 * (matOne - xw) + bits p3 * xw + matHalfOne) / 2 ^ matAcc).toNat
    let part := UInt8.ofNat
      ((val0.toNat * (matOne - yw) + val1.toNat * yw + matHalfOne) / 2 ^ matAcc).toNat
    val ||| part <<< shift) 0

/-- `bilinear_u4`. -/
def bilinearU4 : Bilinear := bilinearPacked 0xF [0, 4]

/-- `bilinear_u2`. -/
def bilinearU2 : Bilinear := bilinearPacked 3 [0, 2, 4, 6]

/-- The interpolation that `bs_resize_chn_base` picks by the bytes of a pixel. -/
def chnBilinear (bpp : Nat) : Bilinear :=
  if bpp = 4 ∨ bpp = 32 then bilinearU8
  else if bpp = 8 then bilinearU2
  else if bpp = 16 then bilinearU4
  else fun _ _ _ _ _ _ => 0

/-- A byte of a pixel in `bs_resize_chn_base`. -/
def chnByte (mem : Memory) (src : BsBox) (bpp : Nat) (zeroPoint : UInt8) (point : SrcPoint)
    (k : Nat) : UInt8 :=
  let outBound := bilinearBoundCheck src.sboxX src.sboxY src.sboxW src.sboxH point.xp point.yp
  let p00Idx := (point.yp - src.sboxY) * src.stride0 + (point.xp - src.sboxX) * bpp
  let p01Idx := p00Idx + bpp
  let p10Idx := p00Idx + src.stride0
  let p11Idx := p10Idx + bpp
  let p00 := if outBound 0 then zeroPoint else load mem (src.base0 + (p00Idx + k))
  let p01 := if outBound 1 then zeroPoint else load mem (src.base0 + (p01Idx + k))
  let p10 := if outBound 2 then zeroPoint else load mem (src.base0 + (p10Idx + k))
  let p11 := if outBound 3 then zeroPoint else load mem (src.base0 + (p11Idx + k))
  chnBilinear bpp p00 p01 p10 p11 point.xw point.yw

/-- The weight of a tap, from those of its column and its row. -/
def tapWeight (point : SrcPoint) : Fin 4 → Int :=
  ![(matOne - point.xw) * (matOne - point.yw), point.xw * (matOne - point.yw),
    (matOne - point.xw) * point.yw, point.xw * point.yw]

/-- An interpolation leaves out the taps without weight. -/
def Bilinear.Weighs (bilinear : Bilinear) : Prop :=
  ∀ (point : SrcPoint) (taps other : Fin 4 → UInt8),
    (∀ c, tapWeight point c ≠ 0 → taps c = other c) →
      bilinear (taps 0) (taps 1) (taps 2) (taps 3) point.xw point.yw =
        bilinear (other 0) (other 1) (other 2) (other 3) point.xw point.yw

/-- A byte from the bytes of its four taps, the zero point standing for those outside a box. -/
def blendByte (bilinear : Bilinear) (box : BoxInfo) (zeroPoint : UInt8) (point : SrcPoint)
    (taps : Fin 4 → UInt8) : UInt8 :=
  let shown := fun c => if bilinearBoundCheck box.x box.y box.w box.h point.xp point.yp c then
    zeroPoint else taps c
  bilinear (shown 0) (shown 1) (shown 2) (shown 3) point.xw point.yw

/-- A byte depends on a tap. -/
def Visible (bilinear : Bilinear) (box : BoxInfo) (zeroPoint : UInt8) (point : SrcPoint)
    (c : Fin 4) : Prop :=
  ∃ taps value, blendByte bilinear box zeroPoint point (Function.update taps c value) ≠
    blendByte bilinear box zeroPoint point taps

variable {bilinear : Bilinear} {box sub whole : BoxInfo} {zeroPoint : UInt8}
  {point : SrcPoint} {taps : Fin 4 → UInt8} {c : Fin 4} {mem : Memory} {bpp : Nat}

/-- A mean of two numbers does not depend on one without weight. -/
theorem mean_congr {a b a' b' w : Int} (first : matOne - w ≠ 0 → a = a') (second : w ≠ 0 → b = b') :
    (a * (matOne - w) + b * w + matHalfOne) / 2 ^ matAcc =
      (a' * (matOne - w) + b' * w + matHalfOne) / 2 ^ matAcc := by
  -- A factor of zero hides the number, and any other says that it is the same.
  have left : a * (matOne - w) = a' * (matOne - w) := by
    by_cases none : matOne - w = 0
    · rw [none, mul_zero, mul_zero]
    · rw [first none]
  have right : b * w = b' * w := by
    by_cases none : w = 0
    · rw [none, mul_zero, mul_zero]
    · rw [second none]
  rw [left, right]

/-- Both means of a bilinear interpolation leave out the taps without weight. -/
theorem means_congr (bits : UInt8 → Int) (kept : Int → Int) {one two : Fin 4 → UInt8}
    (same : ∀ c, tapWeight point c ≠ 0 → one c = two c) :
    (kept ((bits (one 0) * (matOne - point.xw) + bits (one 1) * point.xw + matHalfOne) /
          2 ^ matAcc) * (matOne - point.yw) +
        kept ((bits (one 2) * (matOne - point.xw) + bits (one 3) * point.xw + matHalfOne) /
          2 ^ matAcc) * point.yw + matHalfOne) / 2 ^ matAcc =
      (kept ((bits (two 0) * (matOne - point.xw) + bits (two 1) * point.xw + matHalfOne) /
          2 ^ matAcc) * (matOne - point.yw) +
        kept ((bits (two 2) * (matOne - point.xw) + bits (two 3) * point.xw + matHalfOne) /
          2 ^ matAcc) * point.yw + matHalfOne) / 2 ^ matAcc := by
  -- A row counts if it has a weight, and in it a column that has one as well.
  apply mean_congr
  · intro row
    exact congrArg kept (mean_congr (fun column => by rw [same 0 (mul_ne_zero column row)])
      (fun column => by rw [same 1 (mul_ne_zero column row)]))
  · intro row
    exact congrArg kept (mean_congr (fun column => by rw [same 2 (mul_ne_zero column row)])
      (fun column => by rw [same 3 (mul_ne_zero column row)]))

/-- The interpolation of a whole byte leaves out the taps without weight. -/
theorem bilinearU8_weighs : Bilinear.Weighs bilinearU8 := by
  intro point taps other same
  have means := means_congr (fun p => (p.toNat : Int)) id same
  simp only [id] at means
  simp only [bilinearU8, means]

/-- So does that of each number in a packed byte. -/
theorem bilinearPacked_weighs (sel : UInt8) (shifts : List UInt8) :
    (bilinearPacked sel shifts).Weighs := by
  intro point taps other same
  -- Each of the packed numbers is interpolated by itself.
  have means := fun shift : UInt8 => means_congr (fun p => (((p >>> shift) &&& sel).toNat : Int))
    (fun v => ((UInt8.ofNat v.toNat).toNat : Int)) same
  simp only [bilinearPacked, means]

/-- A tap that is left out has no effect. -/
theorem blendByte_outside (value : UInt8)
    (out : bilinearBoundCheck box.x box.y box.w box.h point.xp point.yp c = true) :
    blendByte bilinear box zeroPoint point (Function.update taps c value) =
      blendByte bilinear box zeroPoint point taps := by
  have same : ∀ d, (if bilinearBoundCheck box.x box.y box.w box.h point.xp point.yp d then
      zeroPoint else Function.update taps c value d) =
      if bilinearBoundCheck box.x box.y box.w box.h point.xp point.yp d then zeroPoint
      else taps d := by
    intro d
    -- The changed tap is the one that is left out, and the others keep their values.
    by_cases equal : d = c
    · rw [equal, if_pos out, if_pos out]
    · rw [Function.update_of_ne equal]
  simp only [blendByte, same]

/-- Taps may be changed where none of them has an effect. -/
theorem blendByte_idle {other : Fin 4 → UInt8}
    (idle : ∀ c, taps c ≠ other c → ¬ Visible bilinear box zeroPoint point c) :
    blendByte bilinear box zeroPoint point taps = blendByte bilinear box zeroPoint point other := by
  have step : ∀ (now : Fin 4 → UInt8) c,
      (taps c ≠ other c → ¬ Visible bilinear box zeroPoint point c) → now c = taps c →
        blendByte bilinear box zeroPoint point (Function.update now c (other c)) =
          blendByte bilinear box zeroPoint point now := by
    intro now c idle same
    by_cases equal : taps c = other c
    · rw [← equal, ← same, Function.update_eq_self]
    · by_contra differ
      exact idle equal ⟨now, other c, differ⟩
  -- The taps are changed one after the other.
  have all : other = Function.update (Function.update (Function.update (Function.update taps 0
      (other 0)) 1 (other 1)) 2 (other 2)) 3 (other 3) := by
    funext c
    match c with
    | 0 | 1 | 2 | 3 => rfl
  have first := step taps 0 (idle 0) rfl
  have second := step (Function.update taps 0 (other 0)) 1 (idle 1) rfl
  have third := step (Function.update (Function.update taps 0 (other 0)) 1 (other 1)) 2 (idle 2) rfl
  have fourth := step (Function.update (Function.update (Function.update taps 0 (other 0)) 1
    (other 1)) 2 (other 2)) 3 (idle 3) rfl
  rw [all]
  exact (fourth.trans (third.trans (second.trans first))).symm

/-- A part gives the bytes of the whole box exactly where it lets through what has an effect. -/
theorem blendByte_iff
    (within : ∀ c, bilinearBoundCheck sub.x sub.y sub.w sub.h point.xp point.yp c = false →
      bilinearBoundCheck whole.x whole.y whole.w whole.h point.xp point.yp c = false) :
    (∀ taps, blendByte bilinear sub zeroPoint point taps =
        blendByte bilinear whole zeroPoint point taps) ↔
      ∀ c, Visible bilinear whole zeroPoint point c →
        bilinearBoundCheck sub.x sub.y sub.w sub.h point.xp point.yp c = false := by
  constructor
  · rintro same c ⟨taps, value, differ⟩
    by_contra out
    apply differ
    rw [← same, ← same]
    exact blendByte_outside value (by simpa using out)
  · intro through taps
    -- The taps that the part leaves out may as well be the zero point in the whole box.
    have masked : blendByte bilinear whole zeroPoint point taps =
        blendByte bilinear whole zeroPoint point
          fun c => if bilinearBoundCheck sub.x sub.y sub.w sub.h point.xp point.yp c then zeroPoint
            else taps c := by
      apply blendByte_idle
      intro c differ visible
      rw [through c visible] at differ
      exact differ rfl
    have shown : ∀ c, (if bilinearBoundCheck sub.x sub.y sub.w sub.h point.xp point.yp c then
        zeroPoint else taps c) =
        if bilinearBoundCheck whole.x whole.y whole.w whole.h point.xp point.yp c then zeroPoint
        else if bilinearBoundCheck sub.x sub.y sub.w sub.h point.xp point.yp c then zeroPoint
        else taps c := by
      intro c
      cases out : bilinearBoundCheck sub.x sub.y sub.w sub.h point.xp point.yp c with
      | true => simp
      | false => rw [within c out]; simp
    rw [masked]
    simp only [blendByte, ← shown]

/-- Boxes that let the same weighted taps through give the same byte. -/
theorem blendByte_congr (weighs : bilinear.Weighs) (same : ∀ c, tapWeight point c ≠ 0 →
    bilinearBoundCheck sub.x sub.y sub.w sub.h point.xp point.yp c =
      bilinearBoundCheck whole.x whole.y whole.w whole.h point.xp point.yp c) :
    blendByte bilinear sub zeroPoint point taps =
      blendByte bilinear whole zeroPoint point taps := by
  -- A tap with a weight is let through by both boxes or by neither.
  have shown : ∀ c, tapWeight point c ≠ 0 →
      (if bilinearBoundCheck sub.x sub.y sub.w sub.h point.xp point.yp c then zeroPoint
        else taps c) =
      if bilinearBoundCheck whole.x whole.y whole.w whole.h point.xp point.yp c then zeroPoint
        else taps c := by
    intro c weight
    rw [same c weight]
  exact weighs point (fun c =>
    if bilinearBoundCheck sub.x sub.y sub.w sub.h point.xp point.yp c then zeroPoint
    else taps c) _ shown

/-- A byte of the box resizer is blended from the four bytes around its source point. -/
theorem chnByte_blend {one : BsBox} {point : SrcPoint} {origin : Int}
    (base : one.base0 = origin + one.sboxY * one.stride0 + one.sboxX * bpp) (k : Nat) :
    chnByte mem one bpp zeroPoint point k =
      blendByte (chnBilinear bpp) ⟨one.sboxX, one.sboxY, one.sboxW, one.sboxH⟩ zeroPoint point
        fun c => load mem (origin + (point.yp * one.stride0 + point.xp * bpp +
          ![0, (bpp : Int), one.stride0, one.stride0 + bpp] c + k)) := by
  -- The place of the box cancels out in the addresses of the taps.
  have place : ∀ more : Int, one.base0 + ((point.yp - one.sboxY) * one.stride0 +
      (point.xp - one.sboxX) * bpp + more) = origin +
        (point.yp * one.stride0 + point.xp * bpp + more) := by
    intro more
    rw [base]
    ring
  have first := place k
  have second := place (bpp + k)
  have third := place (one.stride0 + k)
  have fourth := place (one.stride0 + bpp + k)
  simp only [← add_assoc] at first second third fourth
  simp only [chnByte, blendByte, Matrix.cons_val, ← add_assoc, add_zero, first, second, third,
    fourth]

/-- The affine unit makes the same bytes of four-byte pixels. -/
theorem rgbByte_chn (one : BsBox) (point : SrcPoint) :
    rgbByte mem one zeroPoint point = chnByte mem one 4 zeroPoint point := rfl

end Aip.Bscaler
