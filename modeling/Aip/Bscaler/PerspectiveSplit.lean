import Aip.Bscaler.PerspectiveOrder
import Aip.Bscaler.SplitRgb

/-! A perspective box cut into destination boxes of 64 by 64, each with a footprint in the source. -/

namespace Aip.Bscaler

/-- `DST_MAX_WIDTH`. -/
def dstMaxWidth : Int := 8192

/-- A configuration with what the columns of its box are given. -/
structure PerspectiveCfg extends BscHwOnceCfg where
  guides : Guides

/-- The whole source coordinates of a corner in `perspective_cac_sub_box`. -/
def perspectiveCorner (matrix : Matrix) (x y : Int) : Int × Int :=
  let sx := s64 (x * (matrix mscalex).toInt + y * (matrix mskewx).toInt + (matrix mtransx).toInt)
  let sy := s64 (x * (matrix mskewy).toInt + y * (matrix mscaley).toInt + (matrix mtransy).toInt)
  let sz := s64 (x * (matrix mpersp0).toInt + y * (matrix mpersp1).toInt + (matrix mpersp2).toInt)
  if sz ≠ 0 then
    (fixWhole (clip (s64 ((s64 (sx * 65536)).tdiv sz)) s32Min s32Max),
      fixWhole (clip (s64 ((s64 (sy * 65536)).tdiv sz)) s32Min s32Max))
  else (-2, -2)

/-- One side of `perspective_cac_sub_box`, which is empty where the clipped ends are the same. -/
def footprintSide (s0 s1 s2 s3 size : Int) : Int × Int :=
  let maxSide := clip (max (max s0 s1) (max s2 s3) + 1) 0 (size - 1)
  let minSide := clip (min (min s0 s1) (min s2 s3)) 0 (size - 1)
  let start := if minSide % 2 ≠ 0 then minSide - 1 else minSide
  let length := if maxSide = minSide then 0 else maxSide - start + 1
  (start, if length % 2 ≠ 0 then length + 1 else length)

/-- A side of a footprint spans the clipped ends of a range, and is empty where they are the same. -/
theorem footprintSide_range (s0 s1 s2 s3 size : Int) : ∃ low high : Int, low ≤ high ∧
    (footprintSide s0 s1 s2 s3 size).1 = clip low 0 (size - 1) - clip low 0 (size - 1) % 2 ∧
      ((footprintSide s0 s1 s2 s3 size).2 ≠ 0 →
        clip (high + 1) 0 (size - 1) ≠ clip low 0 (size - 1) ∧
          (footprintSide s0 s1 s2 s3 size).1 + (footprintSide s0 s1 s2 s3 size).2 =
            clip (high + 1) 0 (size - 1) + 1 + (clip (high + 1) 0 (size - 1) + 1) % 2) := by
  refine ⟨min (min s0 s1) (min s2 s3), max (max s0 s1) (max s2 s3), ?_, ?_⟩
  · calc min (min s0 s1) (min s2 s3) ≤ s0 := (min_le_left _ _).trans (min_le_left _ _)
      _ ≤ max (max s0 s1) (max s2 s3) := (le_max_left _ _).trans (le_max_left _ _)
  · -- Both ends are made even, and the length with them.
    simp only [footprintSide]
    generalize clip (min (min s0 s1) (min s2 s3)) 0 (size - 1) = first
    generalize clip (max (max s0 s1) (max s2 s3) + 1) 0 (size - 1) = last
    split_ifs <;> omega

/-- `perspective_cac_sub_box`. -/
def perspectiveCacSubBox (matrix : Matrix) (dst wbox : BoxInfo) : BoxInfo :=
  let dstXr := dst.x + dst.w - 1
  let dstYb := dst.y + dst.h - 1
  let s0 := perspectiveCorner matrix dst.x dst.y
  let s1 := perspectiveCorner matrix dstXr dst.y
  let s2 := perspectiveCorner matrix dst.x dstYb
  let s3 := perspectiveCorner matrix dstXr dstYb
  let horizontal := footprintSide s0.1 s1.1 s2.1 s3.1 wbox.w
  let vertical := footprintSide s0.2 s1.2 s2.2 s3.2 wbox.h
  { x := horizontal.1, y := vertical.1, w := horizontal.2, h := vertical.2 }

/--
`perspective_box_split` from the fixed-point matrix on, with `none` where an assertion fails.

The guides of a destination box, which floating-point numbers decide, are given.
-/
def perspectiveBoxSplit (matrix : Matrix) (guides : BoxInfo → Guides) (nv2bgrAlpha : UInt8)
    (info : BoxAffineInfo) (src dst : DataInfo) (coef : Fin 9 → UInt32) (offset : Fin 2 → UInt32) :
    Option (List PerspectiveCfg) :=
  if affineBoxAsserts info src dst ∧ dst.width < dstMaxWidth then
    some ((dstSboxes dst).filterMap fun dstSbox =>
      let srcSbox := perspectiveCacSubBox matrix dstSbox info.wbox
      -- A box without a footprint is left out.
      if srcSbox.w ≠ 0 ∧ srcSbox.h ≠ 0 then
        some { sboxCfg matrix nv2bgrAlpha info src dst coef offset dstSbox srcSbox with
          guides := guides dstSbox }
      else none)
  else none

/-- `bs_perspective_box_rgb_simple` on each configuration in turn. -/
def perspectiveSplitRgb (mem : Memory) (cfgs : List PerspectiveCfg) (image : Memory) :
    Option Memory :=
  cfgs.foldlM (fun image cfg => bsPerspectiveBoxRgbSimple mem cfg.src cfg.dst cfg.matrix
    cfg.zeroPoint (abgrOrder cfg.dstFormat.nv2bgrOrder) cfg.nv2bgrAlpha image) image

/-- `bs_perspective_box_rgb_simple` in one run. -/
def perspectiveWholeRgb (mem : Memory) (matrix : Matrix) (nv2bgrAlpha : UInt8)
    (info : BoxAffineInfo) (src dst : DataInfo) (image : Memory) : Option Memory :=
  bsPerspectiveBoxRgbSimple mem (wholeSrc src info.box) (wholeDst dst) matrix info.zeroPoint
    (abgrOrder dst.format.nv2bgrOrder) nv2bgrAlpha image

end Aip.Bscaler
