import Aip.Bscaler.Split
import Aip.Lib.Cutting
import Aip.Lib.Raster

/-! A destination cut into boxes of limited sides, row after row. -/

namespace Aip.Bscaler

open Raster (Point)
open Cutting (side_within side_reaches side_named)

variable {limitW limitH : Int} {dst : DataInfo} {box : BoxInfo} {p : Point}

/-- The pixels of a box. -/
def BoxInfo.pixels (box : BoxInfo) : List Point :=
  Raster.columns box.x box.w.toNat box.y box.h.toNat

/-- The pixels of an image. -/
def DataInfo.pixels (dst : DataInfo) : List Point :=
  Raster.columns 0 dst.width.toNat 0 dst.height.toNat

/-- The boxes in exact numbers, row after row. -/
def gridBoxes (limitW limitH : Int) (dst : DataInfo) : List BoxInfo :=
  (List.range (Cutting.count dst.height limitH)).flatMap fun j : Nat =>
    (List.range (Cutting.count dst.width limitW)).map fun i : Nat =>
      { x := i * limitW, y := j * limitH
        w := Cutting.side dst.width limitW i, h := Cutting.side dst.height limitH j }

/-- A side can be cut by limits that are positive. -/
structure Limits (limitW limitH : Int) : Prop where
  left : 0 < limitW
  top : 0 < limitH

/-- The boxes by their number in the row and in the column. -/
theorem mem_gridBoxes : box ∈ gridBoxes limitW limitH dst ↔
    ∃ i < Cutting.count dst.width limitW, ∃ j < Cutting.count dst.height limitH,
      box = { x := i * limitW, y := j * limitH
              w := Cutting.side dst.width limitW i, h := Cutting.side dst.height limitH j } := by
  -- The outer loop goes over the rows, the inner one over the columns.
  simp only [gridBoxes, List.mem_flatMap, List.mem_map, List.mem_range]
  constructor
  · rintro ⟨j, below, i, within, rfl⟩
    exact ⟨i, within, j, below, rfl⟩
  · rintro ⟨i, within, j, below, rfl⟩
    exact ⟨j, below, i, within, rfl⟩

/-- There are as many boxes as the two sides have pieces. -/
theorem length_gridBoxes : (gridBoxes limitW limitH dst).length =
    Cutting.count dst.height limitH * Cutting.count dst.width limitW := by
  simp [gridBoxes, List.length_flatMap]

/-- The box that a pixel belongs to. -/
def ownerBox (limitW limitH : Int) (dst : DataInfo) (p : Point) : BoxInfo :=
  { x := ((p.1 / limitW).toNat : Int) * limitW
    y := ((p.2 / limitH).toNat : Int) * limitH
    w := Cutting.side dst.width limitW (p.1 / limitW).toNat
    h := Cutting.side dst.height limitH (p.2 / limitH).toNat }

namespace Limits

/-- A box is not empty, keeps to the limits and ends within the destination. -/
theorem box_within (limits : Limits limitW limitH) (member : box ∈ gridBoxes limitW limitH dst) :
    (0 ≤ box.x ∧ 0 ≤ box.y) ∧ (1 ≤ box.w ∧ box.w ≤ limitW) ∧ (1 ≤ box.h ∧ box.h ≤ limitH) ∧
      box.x + box.w ≤ dst.width ∧ box.y + box.h ≤ dst.height := by
  -- Both sides are pieces of a cut.
  obtain ⟨i, within, j, below, rfl⟩ := mem_gridBoxes.mp member
  obtain ⟨width, right⟩ := side_within limits.left within
  obtain ⟨height, bottom⟩ := side_within limits.top below
  refine ⟨⟨?_, ?_⟩, width, height, right, bottom⟩
  · exact mul_nonneg (Int.natCast_nonneg i) limits.left.le
  · exact mul_nonneg (Int.natCast_nonneg j) limits.top.le

/-- No box is there twice. -/
theorem nodup (limits : Limits limitW limitH) : (gridBoxes limitW limitH dst).Nodup := by
  have column : ∀ a b : Nat, (a : Int) * limitW = b * limitW → a = b := fun a b same =>
    Int.ofNat_inj.mp (mul_right_cancel₀ (ne_of_gt limits.left) same)
  have row : ∀ a b : Nat, (a : Int) * limitH = b * limitH → a = b := fun a b same =>
    Int.ofNat_inj.mp (mul_right_cancel₀ (ne_of_gt limits.top) same)
  -- Boxes of one row differ in their column, boxes of two rows in their row.
  refine List.nodup_flatMap.mpr ⟨fun j _ => ?_, ?_⟩
  · apply List.nodup_range.map
    intro i i' same
    exact column i i' (BoxInfo.mk.inj same).1
  · apply List.nodup_range.imp
    intro j j' differ box here there
    obtain ⟨_, _, rfl⟩ := List.mem_map.mp here
    obtain ⟨_, _, same⟩ := List.mem_map.mp there
    exact differ (row j j' (BoxInfo.mk.inj same).2.1.symm)

/-- A pixel of a box belongs to no other box. -/
theorem owner (limits : Limits limitW limitH) (member : box ∈ gridBoxes limitW limitH dst)
    (here : p ∈ box.pixels) : ownerBox limitW limitH dst p = box := by
  -- The quotients of its coordinates name the column and the row.
  obtain ⟨i, within, j, below, rfl⟩ := mem_gridBoxes.mp member
  have width := (side_within limits.left within).1
  have height := (side_within limits.top below).1
  simp only [BoxInfo.pixels, Raster.mem_columns] at here
  have column := side_named (z := p.1) limits.left within (by omega)
  have row := side_named (z := p.2) limits.top below (by omega)
  rw [ownerBox, column, row]
  rfl

/-- A pixel of the destination lies in the box it belongs to. -/
theorem reaches (limits : Limits limitW limitH) (inside : p ∈ dst.pixels) :
    ownerBox limitW limitH dst p ∈ gridBoxes limitW limitH dst ∧
      p ∈ (ownerBox limitW limitH dst p).pixels := by
  rw [DataInfo.pixels, Raster.mem_columns] at inside
  obtain ⟨within, right⟩ := side_reaches limits.left (show 0 ≤ p.1 by omega)
    (show p.1 < dst.width by omega)
  obtain ⟨below, bottom⟩ := side_reaches limits.top (show 0 ≤ p.2 by omega)
    (show p.2 < dst.height by omega)
  refine ⟨mem_gridBoxes.mpr ⟨_, within, _, below, rfl⟩, ?_⟩
  have side := (side_within limits.left within).1
  have other := (side_within limits.top below).1
  -- A box starts at its quotient times the limit, which is not behind the pixel.
  have column := Int.ediv_nonneg (show 0 ≤ p.1 by omega) limits.left.le
  have row := Int.ediv_nonneg (show 0 ≤ p.2 by omega) limits.top.le
  have start := Int.ediv_mul_le p.1 (ne_of_gt limits.left)
  have first := Int.ediv_mul_le p.2 (ne_of_gt limits.top)
  simp only [BoxInfo.pixels, Raster.mem_columns, ownerBox]
  rw [Int.toNat_of_nonneg column, Int.toNat_of_nonneg row]
  omega

/-- The boxes have the pixels of the destination, each of them once. -/
theorem tiles (limits : Limits limitW limitH) :
    ((gridBoxes limitW limitH dst).flatMap BoxInfo.pixels).Perm dst.pixels := by
  -- Each pixel has one owner, which is one of the boxes.
  refine Raster.parts_perm (ownerBox limitW limitH dst) limits.nodup (fun _ _ => Raster.nodup_columns)
    (fun box member p here => limits.owner member here) Raster.nodup_columns ?_
  intro p
  constructor
  · intro inside
    obtain ⟨member, here⟩ := limits.reaches inside
    exact ⟨_, member, here⟩
  · rintro ⟨box, member, here⟩
    have bounds := limits.box_within member
    rw [BoxInfo.pixels, Raster.mem_columns] at here
    rw [DataInfo.pixels, Raster.mem_columns]
    omega

end Limits

end Aip.Bscaler
