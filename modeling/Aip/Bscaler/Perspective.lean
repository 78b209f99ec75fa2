import Aip.Bscaler.Columns
import Aip.Lib.Merge

/-! The perspective box of the scaler model, in plain order and in the order of the source rows. -/

namespace Aip.Bscaler

/-- `perspective_dst2src` in arithmetic of 64 bits, with `none` where an assertion fails. -/
def perspectiveDst2src (matrix : Matrix) (dx dy : Int) : Option SrcPoint :=
  if dx < 65536 ∧ dy < 65536 then
    let sx := s64 (dx * (matrix mscalex).toInt + dy * (matrix mskewx).toInt +
      (matrix mtransx).toInt)
    let sy := s64 (dx * (matrix mskewy).toInt + dy * (matrix mscaley).toInt +
      (matrix mtransy).toInt)
    let sz := s64 (dx * (matrix mpersp0).toInt + dy * (matrix mpersp1).toInt +
      (matrix mpersp2).toInt)
    if sz ≠ 0 then
      let sxClip := clip (s64 ((s64 (sx * 65536)).tdiv sz)) s32Min s32Max
      let syClip := clip (s64 ((s64 (sy * 65536)).tdiv sz)) s32Min s32Max
      some { xp := s16 (fixWhole sxClip), yp := s16 (fixWhole syClip)
             xw := u16 (fixFraction sxClip), yw := u16 (fixFraction syClip) }
    else some { xp := -2, yp := -2, xw := 0, yw := 0 }
  else none

/-- `bs_perspective_box_rgb_simple`, with `none` where a loop does not end or an assertion fails. -/
def bsPerspectiveBoxRgbSimple (mem : Memory) (src dst : BsBox) (matrix : Matrix)
    (zeroPoint : UInt8) (isAbgrOrder : Nat) (nv2bgrAlpha : UInt8) (image : Memory) :
    Option Memory := do
  let dyLast := dst.sboxH + dst.sboxY
  let dxLast := dst.sboxW + dst.sboxX
  let ys ← intCounter dst.sboxY dyLast
  ys.foldlM (fun image dy => do
    let xs ← intCounter dst.sboxX dxLast
    xs.foldlM (fun image dx => do
      let point ← perspectiveDst2src matrix dx dy
      some (Paint.paint image (rgbStores dst isAbgrOrder nv2bgrAlpha dx dy
        (rgbByte mem src zeroPoint point)))) image) image

/-- A source point packed into one `s32_point_s`, whole parts above fractions. -/
def packPoint (point : SrcPoint) : S32Point :=
  { x := point.xp * 65536 + u16 point.xw, y := point.yp * 65536 + u16 point.yw }

/-- What the columns of a perspective box are given: their directions and limits. -/
structure Guides where
  monoX : UInt8
  monoY : UInt8
  extremePoint : Nat → Int8

/-- `mono[i]`: bit 1 for the columns and bit 0 for the rows, turned over in front of a position. -/
def Guides.mono (guides : Guides) (dst : BsBox) (i : Nat) : Nat :=
  let monoXPos := (guides.monoX &&& 0x7F).toNat
  let monoYPos := (guides.monoY &&& 0x7F).toNat
  let monoXInit : Bool := guides.monoX >>> 7 ≠ 0
  let monoYInit : Bool := guides.monoY >>> 7 ≠ 0
  if (i : Int) < dst.sboxW then
    (if monoXPos ≤ i then monoXInit else !monoXInit).toNat <<< 1 |||
      (if monoYPos ≤ i then monoYInit else !monoYInit).toNat
  else 0

/-- `limit[i]`, the row that the column starts at when it lies in the box. -/
def Guides.limit (guides : Guides) (dst : BsBox) (i : Nat) : Int :=
  if (i : Int) < dst.sboxW then (guides.extremePoint i).toInt + dst.sboxY else 0

/-- The columns that `dst_col_point_init` sets up. -/
def dstColPointInit (guides : Guides) (dst : BsBox) (i : Nat) : S32Point :=
  let limit := guides.limit dst i
  if (i : Int) < dst.sboxW then
    { x := i + dst.sboxX
      y := if limit ≥ dst.sboxY ∧ limit < dst.sboxY + dst.sboxH then limit
        else if yIncreases (guides.mono dst i) then dst.sboxY else dst.sboxH - 1 + dst.sboxY }
  else { x := 0, y := 0 }

/-- `col_point_update` on column `idx`, with `none` where an assertion of the conversion fails. -/
def colPointUpdate (guides : Guides) (dst : BsBox) (matrix : Matrix) (idx : Nat)
    (columns : Columns) : Option Columns :=
  let limit := guides.limit dst idx
  let yMono := yIncreases (guides.mono dst idx)
  let limitOverflow : Bool := limit > dst.sboxY + dst.sboxH - 1 || limit < dst.sboxY
  let point := columns.dstColPoint idx
  -- A column whose limit is in the box comes round at the border.
  let y :=
    if columns.mask idx then point.y
    else if yMono then
      if !limitOverflow ∧ point.y + 1 = dst.sboxY + dst.sboxH then dst.sboxY else point.y + 1
    else
      if !limitOverflow ∧ point.y - 1 = dst.sboxY - 1 then dst.sboxY + dst.sboxH - 1
      else point.y - 1
  -- It ends where it started, or else at the border.
  let ended : Bool :=
    if yMono then
      if !limitOverflow then y = limit else y = dst.sboxY + dst.sboxH
    else
      if !limitOverflow then y = limit else y = dst.sboxY - 1
  let masked := columns.mask idx || ended
  let moved : S32Point := { point with y := y }
  -- An ended column keeps its last source point.
  let source :=
    if masked then some (columns.srcColPoint idx)
    else (perspectiveDst2src matrix moved.x moved.y).map packPoint
  source.map fun source =>
    { dstColPoint := Function.update columns.dstColPoint idx moved
      srcColPoint := Function.update columns.srcColPoint idx source
      mask := Function.update columns.mask idx masked }

/-- The parts of a traversal that differ between its two phases. -/
structure Phase where
  pick : (Nat → S32Point) → (Nat → Bool) → (Nat → Nat) → Option Nat
  allowed : Nat → Bool
  settle : Int → Int

/-- The phase of the unified columns, whose coordinates are clipped to the 16 bits they have. -/
def unified : Phase where
  pick := getMinPointUnified
  allowed mono := mono = 0 || mono = 3
  settle value := clip value s16Min s16Max

/-- The phase of the other columns. -/
def ununified : Phase where
  pick := getMinPointUnunified
  allowed mono := mono = 1 || mono = 2
  settle value := value

/-- The source point of a picked column. -/
def Phase.point (phase : Phase) (source : S32Point) : SrcPoint :=
  { xp := phase.settle (s16 (fixWhole source.x)), yp := phase.settle (s16 (fixWhole source.y))
    xw := u16 (fixFraction source.x), yw := u16 (fixFraction source.y) }

/-- The loop body of a phase, without what it prints, with `none` where an assertion fails. -/
def perspectiveRound (phase : Phase) (guides : Guides) (mem : Memory) (src dst : BsBox)
    (matrix : Matrix) (zeroPoint : UInt8) (isAbgrOrder : Nat) (nv2bgrAlpha : UInt8)
    (traversal : Traversal) : Option Traversal := do
  let idx ← phase.pick traversal.srcColPoint traversal.mask (guides.mono dst)
  guard (phase.allowed (guides.mono dst idx))
  let pixel := traversal.dstColPoint idx
  let columns ← colPointUpdate guides dst matrix idx traversal.toColumns
  some
    { toColumns := columns
      image := Paint.paint traversal.image (rgbStores dst isAbgrOrder nv2bgrAlpha pixel.x pixel.y
        (rgbByte mem src zeroPoint (phase.point (traversal.srcColPoint idx))))
      visits := traversal.visits ++ [traversal.visit idx] }

/-- The rounds of a phase: the height of the box for each column it is for. -/
def Phase.size (phase : Phase) (guides : Guides) (dst : BsBox) : Nat :=
  ((List.range dst.sboxW.toNat).map fun i =>
    if phase.allowed (guides.mono dst i) then dst.sboxH.toNat else 0).sum

/-- The arrays before the first round, with `none` where a conversion fails an assertion. -/
def perspectiveStart (guides : Guides) (dst : BsBox) (matrix : Matrix) (image : Memory) :
    Option Traversal := do
  let dstColPoint := dstColPointInit guides dst
  let mask : Nat → Bool := fun i => dst.sboxW ≤ i
  let source : Nat → Option S32Point := fun i =>
    if mask i then some { x := 0, y := 0 }
    else (perspectiveDst2src matrix (dstColPoint i).x (dstColPoint i).y).map packPoint
  -- All columns are converted before the first round.
  guard ((List.range oboxSize).all fun i => (source i).isSome)
  some
    { dstColPoint := dstColPoint
      srcColPoint := fun i => (source i).getD { x := 0, y := 0 }
      mask := mask
      image := image
      visits := [] }

/-- `bs_perspective_box_rgb_complex`, with `none` where one of its assertions fails. -/
def bsPerspectiveBoxRgbComplex (guides : Guides) (mem : Memory) (src dst : BsBox) (matrix : Matrix)
    (zeroPoint : UInt8) (isAbgrOrder : Nat) (nv2bgrAlpha : UInt8) (image : Memory) :
    Option Traversal := do
  guard (dst.sboxW ≤ 64 ∧ dst.sboxH ≤ 64 ∧ dst.base0 ≠ 0 ∧ src.base0 ≠ 0)
  let start ← perspectiveStart guides dst matrix image
  -- The unified columns first, and the others behind them.
  let half ← Merge.loop (perspectiveRound unified guides mem src dst matrix zeroPoint isAbgrOrder
    nv2bgrAlpha) (unified.size guides dst) start
  Merge.loop (perspectiveRound ununified guides mem src dst matrix zeroPoint isAbgrOrder
    nv2bgrAlpha) (ununified.size guides dst) half

end Aip.Bscaler
