import Aip.Bscaler.PerspectiveSplit
import Aip.Bscaler.Resize

/-! The plane addresses in the configurations of an NV12 image, whole and in pieces. -/

namespace Aip.Bscaler

/-- The assertions of `bs_affine_cfg_stuff`, which `bs_perspective_cfg_stuff` makes too. -/
def WholeAsserts (info : BoxAffineInfo) (src : DataInfo) : Prop :=
  src.format ∉ [.vbgr, .vrgb, .fmu2, .fmu4, .fmu8] ∧ (src.format = .nv12 → EvenBox info.box)

instance (info : BoxAffineInfo) (src : DataInfo) : Decidable (WholeAsserts info src) :=
  inferInstanceAs (Decidable (_ ∧ _))

/-- The configuration of a box in one piece, with what the second plane holds when it is not set. -/
def wholeCfg (matrix : Matrix) (leftover : Int) (nv2bgrAlpha : UInt8) (info : BoxAffineInfo)
    (src dst : DataInfo) (coef : Fin 9 → UInt32) (offset : Fin 2 → UInt32) : BscHwOnceCfg :=
  let box := info.box
  { srcBase0 := (srcWboxBase src box).1
    -- The address that the caller may give is not looked at, for either image.
    srcBase1 := if src.format = .nv12 then
      src.base + src.height * src.lineStride + box.y / 2 * src.lineStride + box.x else 0
    srcFormat := src.format
    srcLineStride := src.lineStride
    srcBoxX := 0
    srcBoxY := 0
    srcBoxW := box.w
    srcBoxH := box.h
    dstFormat := dst.format
    dstLineStride := dst.lineStride
    dstBoxX := 0
    dstBoxY := 0
    dstBoxW := dst.width
    dstBoxH := dst.height
    dstBase0 := dst.base
    dstBase1 := if dst.format = .nv12 then dst.base + dst.height * dst.lineStride else leftover
    zeroPoint := info.zeroPoint
    nv2bgrAlpha := nv2bgrAlpha
    coef := coef
    offset := fun i => (offset i).toUInt8
    matrix := matrix }

/-- `bs_affine_cfg_stuff` from the fixed-point matrix on, with `none` where an assertion fails. -/
def bsAffineCfgStuff (matrix : Matrix) (leftover : Int) (nv2bgrAlpha : UInt8) (info : BoxAffineInfo)
    (src dst : DataInfo) (coef : Fin 9 → UInt32) (offset : Fin 2 → UInt32) :
    Option (List BscHwOnceCfg) :=
  if WholeAsserts info src then some [wholeCfg matrix leftover nv2bgrAlpha info src dst coef offset]
  else none

/-- `bs_perspective_cfg_stuff` from the fixed-point matrix on, for the guides of its box. -/
def bsPerspectiveCfgStuff (matrix : Matrix) (guides : Guides) (leftover : Int)
    (nv2bgrAlpha : UInt8) (info : BoxAffineInfo) (src dst : DataInfo) (coef : Fin 9 → UInt32)
    (offset : Fin 2 → UInt32) : Option (List PerspectiveCfg) :=
  if WholeAsserts info src then
    some [{ wholeCfg matrix leftover nv2bgrAlpha info src dst coef offset with guides := guides }]
  else none

/-- The plane addresses of a configuration, and the corners of its boxes. -/
structure Planes where
  srcBase0 : Int
  srcBase1 : Int
  srcX : Int
  srcY : Int
  dstBase0 : Int
  dstBase1 : Option Int
  dstX : Int
  dstY : Int
  deriving DecidableEq, Repr

/-- Those of an affine or a perspective configuration. -/
def BscHwOnceCfg.planes (cfg : BscHwOnceCfg) : Planes :=
  { srcBase0 := cfg.srcBase0, srcBase1 := cfg.srcBase1, srcX := cfg.srcBoxX, srcY := cfg.srcBoxY
    dstBase0 := cfg.dstBase0, dstBase1 := some cfg.dstBase1, dstX := cfg.dstBoxX
    dstY := cfg.dstBoxY }

/-- Those of a resize configuration. -/
def ResizeCfg.planes (cfg : ResizeCfg) : Planes :=
  { srcBase0 := cfg.srcBase0, srcBase1 := cfg.srcBase1, srcX := cfg.srcBox.x, srcY := cfg.srcBox.y
    dstBase0 := cfg.dstBase0, dstBase1 := cfg.dstBase1, dstX := cfg.dstBox.x
    dstY := cfg.dstBox.y }

/-- The functions that configure one box, each with the one that cuts it. -/
inductive CfgFunction where
  | bsAffineCfgStuff
  | affineBoxSplit
  | bsPerspectiveCfgStuff
  | perspectiveBoxSplit
  | bsResizeCfgStuff
  | resizeBoxSplit
  deriving DecidableEq, Repr

/-- A box with everything that one of the functions is given for it. -/
structure CfgCall where
  matrix : Matrix
  guides : BoxInfo → Guides
  leftover : Int
  nv2bgrAlpha : UInt8
  box : BoxInfo
  zeroPoint : UInt32
  src : ImageInfo
  dst : ImageInfo
  coef : Fin 9 → UInt32
  offset : Fin 2 → UInt32

/-- The box of an affine or a perspective call. -/
def CfgCall.affineInfo (call : CfgCall) : BoxAffineInfo :=
  { box := call.box, zeroPoint := call.zeroPoint.toUInt8 }

/-- The box of a resize call. -/
def CfgCall.resizeInfo (call : CfgCall) : BoxResizeInfo :=
  { box := call.box, zeroPoint := call.zeroPoint }

/-- The planes of the configurations that a function emits, with `none` where it fails an assertion. -/
def CfgCall.planes (call : CfgCall) : CfgFunction → Option (List Planes)
  | .bsAffineCfgStuff =>
    (bsAffineCfgStuff call.matrix call.leftover call.nv2bgrAlpha call.affineInfo call.src.toDataInfo
      call.dst.toDataInfo call.coef call.offset).map (List.map BscHwOnceCfg.planes)
  | .affineBoxSplit =>
    (affineBoxSplit call.matrix call.nv2bgrAlpha call.affineInfo call.src.toDataInfo
      call.dst.toDataInfo call.coef call.offset).map (List.map BscHwOnceCfg.planes)
  | .bsPerspectiveCfgStuff =>
    (bsPerspectiveCfgStuff call.matrix
      (call.guides { x := 0, y := 0, w := call.dst.width, h := call.dst.height }) call.leftover
      call.nv2bgrAlpha call.affineInfo call.src.toDataInfo call.dst.toDataInfo call.coef
      call.offset).map (List.map fun cfg => cfg.toBscHwOnceCfg.planes)
  | .perspectiveBoxSplit =>
    (perspectiveBoxSplit call.matrix call.guides call.nv2bgrAlpha call.affineInfo
      call.src.toDataInfo call.dst.toDataInfo call.coef call.offset).map
      (List.map fun cfg => cfg.toBscHwOnceCfg.planes)
  | .bsResizeCfgStuff =>
    (bsResizeCfgStuff [] call.resizeInfo call.src call.dst call.coef call.offset).map
      (List.map ResizeCfg.planes)
  | .resizeBoxSplit =>
    (resizeBoxSplit [] call.resizeInfo call.src call.dst call.coef call.offset).map
      (List.map ResizeCfg.planes)

/-- Where the second plane of an NV12 image starts, given or implied. -/
def DataInfo.chroma (image : DataInfo) : Int :=
  if image.base1 = 0 then image.base + image.height * image.lineStride else image.base1

/-- The caller gives no second plane, or the one that is implied. -/
def DataInfo.Implied (image : DataInfo) : Prop :=
  image.base1 = 0 ∨ image.base1 = image.base + image.height * image.lineStride

/-- Two addresses are those of one pixel in both planes of an image. -/
def AtPixel (image : DataInfo) (base0 : Int) (base1 : Option Int) (x y : Int) : Prop :=
  base0 = image.base + y * image.lineStride + x ∧
    base1 = some (image.chroma + y / 2 * image.lineStride + x)

/-- The planes of a configuration start at the corner of its part, of either image that has two. -/
def SamePixel (call : CfgCall) (planes : Planes) : Prop :=
  (call.src.format = .nv12 → AtPixel call.src.toDataInfo planes.srcBase0 (some planes.srcBase1)
      (call.box.x + planes.srcX) (call.box.y + planes.srcY)) ∧
    (call.dst.format = .nv12 → AtPixel call.dst.toDataInfo planes.dstBase0 planes.dstBase1
      planes.dstX planes.dstY)

/-- The source images whose second plane a function gets right. -/
def CfgCall.SourceRead (call : CfgCall) : CfgFunction → Prop
  | .bsAffineCfgStuff | .bsPerspectiveCfgStuff => call.src.toDataInfo.Implied
  -- A second plane that is given is taken to start at the box.
  | .affineBoxSplit | .perspectiveBoxSplit | .bsResizeCfgStuff | .resizeBoxSplit =>
    call.src.base1 = 0 ∨ call.box.y / 2 * call.src.lineStride + call.box.x = 0

/-- The destination images whose second plane it gets right. -/
def CfgCall.DestinationRead (call : CfgCall) : CfgFunction → Prop
  | .bsResizeCfgStuff | .resizeBoxSplit => True
  | .bsAffineCfgStuff | .affineBoxSplit | .bsPerspectiveCfgStuff | .perspectiveBoxSplit =>
    call.dst.toDataInfo.Implied

section Addresses

variable {image : DataInfo}

/-- The implied plane is the one of the image exactly when no other one is given. -/
theorem implied_iff (place : Int) :
    image.base + image.height * image.lineStride + place = image.chroma + place ↔
      image.Implied := by
  unfold DataInfo.chroma DataInfo.Implied
  split
  · simp [*]
  · rename_i given
    simp only [given, false_or]
    omega

/-- Two planes start at a pixel when the first does and the second is right. -/
theorem atPixel_iff {base0 base1 x y : Int} (luma : base0 = image.base + y * image.lineStride + x) :
    AtPixel image base0 (some base1) x y ↔
      base1 = image.chroma + y / 2 * image.lineStride + x := by
  simp [AtPixel, luma]

/-- The part of a box is at its pixel in a plane exactly when the plane of the box is right. -/
theorem box_part_iff {box : BoxInfo} (even : box.y % 2 = 0) (plane x y : Int) :
    plane + y / 2 * image.lineStride + x =
        image.chroma + (box.y + y) / 2 * image.lineStride + (box.x + x) ↔
      plane = image.chroma + (box.y / 2 * image.lineStride + box.x) := by
  -- The rows of the box and of the part are halved one by one.
  have rows : (box.y + y) / 2 = box.y / 2 + y / 2 := by omega
  rw [rows, add_mul]
  constructor
  · intro same
    linarith
  · intro same
    linarith

/-- A given plane is taken to be that of the box, which it is for a box in the corner. -/
theorem given_iff (box : BoxInfo) :
    (if image.base1 = 0 then
        image.base + image.height * image.lineStride + box.y / 2 * image.lineStride + box.x
      else image.base1) = image.chroma + (box.y / 2 * image.lineStride + box.x) ↔
      image.base1 = 0 ∨ box.y / 2 * image.lineStride + box.x = 0 := by
  unfold DataInfo.chroma
  by_cases implied : image.base1 = 0
  · rw [if_pos implied, if_pos implied]
    refine iff_of_true ?_ (.inl implied)
    ring
  · rw [if_neg implied, if_neg implied, or_iff_right implied]
    constructor <;> intro same <;> linarith

end Addresses

section Configurations

variable (call : CfgCall)

/-- A box in one piece, affine or perspective: only the implied planes are known. -/
theorem wholeCfg_iff (leftover : Int) (nv2bgrAlpha : UInt8) :
    SamePixel call (wholeCfg call.matrix leftover nv2bgrAlpha call.affineInfo call.src.toDataInfo
        call.dst.toDataInfo call.coef call.offset).planes ↔
      (call.src.format = .nv12 → call.src.toDataInfo.Implied) ∧
        (call.dst.format = .nv12 → call.dst.toDataInfo.Implied) := by
  apply and_congr
  · apply imp_congr_right
    intro nv12
    have luma : (srcWboxBase call.src.toDataInfo call.box).1 =
        call.src.base + (call.box.y + 0) * call.src.lineStride + (call.box.x + 0) := by
      simp [srcWboxBase, nv12]
    refine (atPixel_iff luma).trans ?_
    rw [← implied_iff (call.box.y / 2 * call.src.lineStride + call.box.x)]
    simp [wholeCfg, CfgCall.affineInfo, nv12, BscHwOnceCfg.planes, add_assoc]
  · apply imp_congr_right
    intro nv12
    refine (atPixel_iff (by simp [wholeCfg, BscHwOnceCfg.planes])).trans ?_
    rw [← implied_iff 0]
    simp [wholeCfg, nv12, BscHwOnceCfg.planes]

/-- A piece of an affine or a perspective box. -/
theorem sboxCfg_iff (even : call.src.format = .nv12 → call.box.y % 2 = 0) (nv2bgrAlpha : UInt8)
    (dstSbox srcSbox : BoxInfo) :
    SamePixel call (sboxCfg call.matrix nv2bgrAlpha call.affineInfo call.src.toDataInfo
        call.dst.toDataInfo call.coef call.offset dstSbox srcSbox).planes ↔
      (call.src.format = .nv12 → call.src.base1 = 0 ∨
          call.box.y / 2 * call.src.lineStride + call.box.x = 0) ∧
        (call.dst.format = .nv12 → call.dst.toDataInfo.Implied) := by
  apply and_congr
  · apply imp_congr_right
    intro nv12
    have luma : (sboxCfg call.matrix nv2bgrAlpha call.affineInfo call.src.toDataInfo
        call.dst.toDataInfo call.coef call.offset dstSbox srcSbox).srcBase0 =
        call.src.base + (call.box.y + srcSbox.y) * call.src.lineStride +
          (call.box.x + srcSbox.x) := by
      simp only [sboxCfg, srcWboxBase, CfgCall.affineInfo, nv12, if_true]
      ring
    refine (atPixel_iff luma).trans ?_
    rw [← given_iff, ← box_part_iff (even nv12) _ srcSbox.x srcSbox.y]
    simp [sboxCfg, srcWboxBase, CfgCall.affineInfo, nv12, BscHwOnceCfg.planes]
  · apply imp_congr_right
    intro nv12
    refine (atPixel_iff (by simp [sboxCfg, BscHwOnceCfg.planes, nv12])).trans ?_
    rw [← implied_iff (dstSbox.y / 2 * call.dst.lineStride + dstSbox.x)]
    simp [sboxCfg, nv12, BscHwOnceCfg.planes, add_assoc]

/-- Where a resize takes the second plane of a destination to be. -/
theorem dstWboxBase1_eq (dst : ImageInfo) : dstWboxBase1 dst = dst.toDataInfo.chroma := rfl

/-- A resize in one piece. -/
theorem resizeCfg_iff (even : call.src.format = .nv12 → call.box.y % 2 = 0) (gain : Nat) :
    SamePixel call (resizeCfg call.resizeInfo call.src call.dst call.coef call.offset gain).planes ↔
      (call.src.format = .nv12 → call.src.base1 = 0 ∨
          call.box.y / 2 * call.src.lineStride + call.box.x = 0) := by
  rw [SamePixel, and_iff_left]
  · apply imp_congr_right
    intro nv12
    have luma : (resizeCfg call.resizeInfo call.src call.dst call.coef call.offset gain).srcBase0 =
        call.src.base + (call.box.y + 0) * call.src.lineStride + (call.box.x + 0) := by
      simp [resizeCfg, resizeWboxBase, CfgCall.resizeInfo, nv12, columnBytes]
    refine (atPixel_iff luma).trans ?_
    rw [← given_iff, ← box_part_iff (even nv12) _ 0 0]
    simp [resizeCfg, resizeWboxBase, CfgCall.resizeInfo, nv12, ResizeCfg.planes]
  · intro nv12
    simp [resizeCfg, ResizeCfg.planes, AtPixel, nv12, dstWboxBase1_eq]

/-- A piece of a resize. -/
theorem resizeSboxCfg_iff (even : call.src.format = .nv12 → call.box.y % 2 = 0) (gain : Nat)
    (dstSbox : BoxInfo) :
    SamePixel call (resizeSboxCfg call.resizeInfo call.src call.dst call.coef call.offset gain
        dstSbox).planes ↔
      (call.src.format = .nv12 → call.src.base1 = 0 ∨
          call.box.y / 2 * call.src.lineStride + call.box.x = 0) := by
  rw [SamePixel, and_iff_left]
  · apply imp_congr_right
    intro nv12
    set srcSbox := (resizeSboxCfg call.resizeInfo call.src call.dst call.coef call.offset gain
      dstSbox).srcBox with part
    have luma : (resizeSboxCfg call.resizeInfo call.src call.dst call.coef call.offset gain
        dstSbox).srcBase0 = call.src.base + (call.box.y + srcSbox.y) * call.src.lineStride +
          (call.box.x + srcSbox.x) := by
      simp only [part, resizeSboxCfg, resizeWboxBase, CfgCall.resizeInfo, nv12, columnBytes]
      ring
    refine (atPixel_iff luma).trans ?_
    rw [← given_iff, ← box_part_iff (even nv12) _ srcSbox.x srcSbox.y]
    simp [part, resizeSboxCfg, resizeWboxBase, CfgCall.resizeInfo, nv12, ResizeCfg.planes]
  · intro nv12
    simp [resizeSboxCfg, ResizeCfg.planes, AtPixel, nv12, dstWboxBase1_eq, columnBytes]

end Configurations

section Emitted

variable {call : CfgCall} {emitted : List Planes} {planes : Planes}

/-- The pieces of an affine box. -/
theorem affineBoxSplit_iff (split : call.planes .affineBoxSplit = some emitted)
    (member : planes ∈ emitted) : SamePixel call planes ↔
      (call.src.format = .nv12 → call.SourceRead .affineBoxSplit) ∧
        (call.dst.format = .nv12 → call.DestinationRead .affineBoxSplit) := by
  obtain ⟨cfgs, made, rfl⟩ := Option.map_eq_some_iff.mp split
  obtain ⟨cfg, listed, rfl⟩ := List.mem_map.mp member
  obtain ⟨box, _, sub, _, rfl⟩ := Matching.forall₂_right (affineBoxSplit_parts made) listed
  refine sboxCfg_iff call ?_ call.nv2bgrAlpha box sub
  -- A box that is cut has passed the assertions.
  intro nv12
  unfold affineBoxSplit at made
  split at made
  · rename_i asserted
    exact (asserted.2 (.inl nv12)).2.1
  · cases made

/-- The pieces of a perspective box. -/
theorem perspectiveBoxSplit_iff (split : call.planes .perspectiveBoxSplit = some emitted)
    (member : planes ∈ emitted) : SamePixel call planes ↔
      (call.src.format = .nv12 → call.SourceRead .perspectiveBoxSplit) ∧
        (call.dst.format = .nv12 → call.DestinationRead .perspectiveBoxSplit) := by
  obtain ⟨cfgs, made, rfl⟩ := Option.map_eq_some_iff.mp split
  obtain ⟨cfg, listed, rfl⟩ := List.mem_map.mp member
  unfold perspectiveBoxSplit at made
  split at made
  · rename_i asserted
    cases made
    obtain ⟨box, _, found⟩ := List.mem_filterMap.mp listed
    dsimp only at found
    split at found
    · cases found
      exact sboxCfg_iff call (fun nv12 => (asserted.1.2 (.inl nv12)).2.1) call.nv2bgrAlpha box _
    · cases found
  · cases made

/-- The pieces of a resize box. -/
theorem resizeBoxSplit_iff (split : call.planes .resizeBoxSplit = some emitted)
    (member : planes ∈ emitted) : SamePixel call planes ↔
      (call.src.format = .nv12 → call.SourceRead .resizeBoxSplit) ∧
        (call.dst.format = .nv12 → call.DestinationRead .resizeBoxSplit) := by
  obtain ⟨cfgs, made, rfl⟩ := Option.map_eq_some_iff.mp split
  obtain ⟨cfg, listed, rfl⟩ := List.mem_map.mp member
  unfold resizeBoxSplit at made
  split at made
  · rename_i asserted
    obtain ⟨gain, _, pieces⟩ := Option.bind_eq_some_iff.mp made
    obtain ⟨cut, mapped, rfl⟩ := Option.map_eq_some_iff.mp pieces
    obtain ⟨box, _, piece⟩ := Matching.forall₂_right (Matching.forall₂_mapM mapped) listed
    split at piece
    · cases piece
      refine (resizeSboxCfg_iff call (fun nv12 => (asserted.2 nv12).2.1) gain box).trans ?_
      exact (and_iff_left fun _ => trivial).symm
    · cases piece
  · cases made

end Emitted

/--
The plane addresses of a configuration are those of one pixel exactly when the function that emits it
takes the second plane of an NV12 source, and of an NV12 destination, to be where it is.
-/
theorem samePixel_iff (call : CfgCall) (function : CfgFunction) {emitted : List Planes}
    (emits : call.planes function = some emitted) {planes : Planes} (member : planes ∈ emitted) :
    SamePixel call planes ↔ (call.src.format = .nv12 → call.SourceRead function) ∧
      (call.dst.format = .nv12 → call.DestinationRead function) := by
  cases function with
  | bsAffineCfgStuff =>
    obtain ⟨cfgs, made, rfl⟩ := Option.map_eq_some_iff.mp emits
    obtain ⟨cfg, listed, rfl⟩ := List.mem_map.mp member
    unfold bsAffineCfgStuff at made
    split at made
    · cases made
      rw [List.mem_singleton.mp listed]
      exact wholeCfg_iff call call.leftover call.nv2bgrAlpha
    · cases made
  | affineBoxSplit => exact affineBoxSplit_iff emits member
  | bsPerspectiveCfgStuff =>
    obtain ⟨cfgs, made, rfl⟩ := Option.map_eq_some_iff.mp emits
    obtain ⟨cfg, listed, rfl⟩ := List.mem_map.mp member
    unfold bsPerspectiveCfgStuff at made
    split at made
    · cases made
      rw [List.mem_singleton.mp listed]
      exact wholeCfg_iff call call.leftover call.nv2bgrAlpha
    · cases made
  | perspectiveBoxSplit => exact perspectiveBoxSplit_iff emits member
  | bsResizeCfgStuff =>
    obtain ⟨cfgs, made, rfl⟩ := Option.map_eq_some_iff.mp emits
    obtain ⟨cfg, listed, rfl⟩ := List.mem_map.mp member
    unfold bsResizeCfgStuff at made
    split at made
    · rename_i asserted
      obtain ⟨gain, _, rfl⟩ := Option.map_eq_some_iff.mp made
      rw [List.mem_singleton.mp listed]
      refine (resizeCfg_iff call (fun nv12 => (asserted.2 nv12).2.1) gain).trans ?_
      exact (and_iff_left fun _ => trivial).symm
    · cases made
  | resizeBoxSplit => exact resizeBoxSplit_iff emits member

/-- An affine call that copies a box of an NV12 image with a second plane of its own. -/
def copyCall (box : BoxInfo) (base1 : Int) : CfgCall :=
  let image : ImageInfo :=
    { base := 4096, base1 := base1, format := .nv12, width := 16, height := 16, lineStride := 16
      locate := .nmem }
  { matrix := ![65536, 0, 0, 0, 65536, 0, 0, 0, 65536]
    guides := fun _ => { monoX := 0, monoY := 0, extremePoint := fun _ => 0 }
    leftover := 0, nv2bgrAlpha := 0, box := box, zeroPoint := 0, src := image
    dst := { image with base1 := 0 }
    coef := fun _ => 0, offset := fun _ => 0 }

/-- With implied planes both addresses are those of one pixel. -/
theorem samePixel_iff_implied : SamePixel (copyCall ⟨2, 2, 8, 8⟩ 0)
    { srcBase0 := 4130, srcBase1 := 4370, srcX := 0, srcY := 0, dstBase0 := 4096
      dstBase1 := some 4352, dstX := 0, dstY := 0 } :=
  (samePixel_iff (copyCall ⟨2, 2, 8, 8⟩ 0) .bsAffineCfgStuff rfl List.mem_cons_self).mpr
    ⟨fun _ => .inl rfl, fun _ => .inl rfl⟩

/--
A source with a second plane of its own is read behind its first plane by a box in one piece, and
from its corner by a box that is cut, which is at no pixel of a line.
-/
theorem not_samePixel_given :
    (∃ emitted, (copyCall ⟨2, 2, 8, 8⟩ 8192).planes .bsAffineCfgStuff = some emitted ∧
      ∃ planes ∈ emitted, ¬SamePixel (copyCall ⟨2, 2, 8, 8⟩ 8192) planes ∧
        ∀ x y, 0 ≤ x → x < 16 → ¬AtPixel (copyCall ⟨2, 2, 8, 8⟩ 8192).src.toDataInfo
          planes.srcBase0 (some planes.srcBase1) x y) ∧
    ∃ emitted, (copyCall ⟨2, 2, 8, 8⟩ 8192).planes .affineBoxSplit = some emitted ∧
      ∃ planes ∈ emitted, ¬SamePixel (copyCall ⟨2, 2, 8, 8⟩ 8192) planes ∧
        ∀ x y, 0 ≤ x → x < 16 → ¬AtPixel (copyCall ⟨2, 2, 8, 8⟩ 8192).src.toDataInfo
          planes.srcBase0 (some planes.srcBase1) x y := by
  have elsewhere (place x y : Int) (wrong : place ≠ 8210) (first : 0 ≤ x) (last : x < 16) :
      ¬AtPixel (copyCall ⟨2, 2, 8, 8⟩ 8192).src.toDataInfo 4130 (some place) x y := by
    rintro ⟨luma, chroma⟩
    have row : (4130 : Int) = 4096 + y * 16 + x := luma
    have plane : place = 8192 + y / 2 * 16 + x := Option.some.inj chroma
    omega
  refine ⟨⟨_, rfl, _, List.mem_cons_self, ?_, ?_⟩, ⟨_, rfl, _, List.mem_cons_self, ?_, ?_⟩⟩
  · intro same
    exact absurd (same.1 rfl).2 (by decide)
  · exact fun x y => elsewhere 4370 x y (by decide)
  · intro same
    exact absurd (same.1 rfl).2 (by decide)
  · exact fun x y => elsewhere 8192 x y (by decide)

end Aip.Bscaler
