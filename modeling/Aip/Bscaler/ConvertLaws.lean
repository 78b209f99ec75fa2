import Aip.Bscaler.Convert
import Aip.Bscaler.Nv12Laws
import Aip.Lib.Transfer

/-! What `bst_mdl` leaves in every byte of the destination, and what it adds to its sums. -/

namespace Aip.Bscaler

open Checksum (total)
open Transfer (Filled)

/-- A byte of an image: its plane, its row and its column of bytes. -/
abbrev ImageByte := Nat × Nat × Nat

/-- The bytes of an NV12 image, one plane after the other. -/
def nv12Bytes (w h : Nat) : List ImageByte :=
  (pixels w h).map (fun at' => (0, at')) ++ (pixels w (h / 2)).map fun at' => (1, at')

/-- The bytes of an image of four-byte pixels. -/
def bgrBytes (w h : Nat) : List ImageByte :=
  (bytePasses w h).map fun at' => (0, at'.1, at'.2.1 * 4 + at'.2.2)

/-- The bytes of an image of one of these formats. -/
def imageBytes (format : BstFormat) (w h : Nat) : List ImageByte :=
  if format = .nv12 then nv12Bytes w h else bgrBytes w h

/-- The address of a byte of an image. -/
def byteCell (base0 base1 : Int) (stride : UInt32) (i : ImageByte) : Int :=
  cell (if i.1 = 0 then base0 else base1) (i.2.1 * stride.toNat + i.2.2)

namespace BstHwOnceCfg

variable (cfg : BstHwOnceCfg)

def srcBytes : List ImageByte := imageBytes cfg.srcFormat cfg.srcW.toNat cfg.srcH.toNat

def dstBytes : List ImageByte := imageBytes cfg.dstFormat cfg.dstW.toNat cfg.dstH.toNat

def srcCell (i : ImageByte) : Int := byteCell cfg.srcBase0 cfg.srcBase1 cfg.srcLineStride i

def dstCell (i : ImageByte) : Int := byteCell cfg.dstBase0 cfg.dstBase1 cfg.dstLineStride i

/-- The bytes of a pixel of an NV12 source, in the order of the destination. -/
def rgbaAt (mem : Memory) (x y : Nat) : List UInt8 :=
  yuv2rgb (mem (cfg.srcCell (0, y, x))) (mem (cfg.srcCell (1, y / 2, x / 2 * 2)))
    (mem (cfg.srcCell (1, y / 2, x / 2 * 2 + 1))) cfg.nv2bgrCoef cfg.nv2bgrOfst cfg.nv2bgrAlpha
    cfg.order

/-- What a byte of the destination becomes. -/
def converted (mem : Memory) (i : ImageByte) : UInt8 :=
  if cfg.srcFormat = .nv12 then
    if cfg.dstFormat = .nv12 then mem (cfg.srcCell i)
    else (cfg.rgbaAt mem (i.2.2 / 4) i.2.1).getD (i.2.2 % 4) 0
  else if cfg.dstFormat = .nv12 then mem (cfg.dstCell i)
  else if isAlpha cfg.order (i.2.2 % 4) then cfg.nv2bgrAlpha
  else mem (cfg.srcCell i)

/-- The formats without virtual channels. -/
def Pixels (format : BstFormat) : Prop := format = .nv12 ∨ bstFormatIsBgr format = true

/--
Two images of one size, the destination of different bytes and none of them a byte of the source.

Where one of them is of NV12 the size is even, and where the other one is not, a line of the source
starts below `2 ^ 32`.
-/
structure Convertible : Prop where
  src : Pixels cfg.srcFormat
  dst : Pixels cfg.dstFormat
  width : cfg.dstW = cfg.srcW
  height : cfg.dstH = cfg.srcH
  even : cfg.srcFormat = .nv12 ∨ cfg.dstFormat = .nv12 →
    cfg.srcW.toNat % 2 = 0 ∧ cfg.srcH.toNat % 2 = 0
  short : cfg.srcFormat = .nv12 → cfg.dstFormat ≠ .nv12 →
    cfg.srcLineStride.toNat * cfg.srcH.toNat ≤ 2 ^ 32
  once : (cfg.dstBytes.map cfg.dstCell).Nodup
  apart : ∀ i ∈ cfg.srcBytes, ∀ j ∈ cfg.dstBytes, cfg.srcCell i ≠ cfg.dstCell j

end BstHwOnceCfg

section Bytes

variable {w h : Nat} {i : ImageByte}

theorem mem_nv12Bytes : i ∈ nv12Bytes w h ↔
    i.2.2 < w ∧ (i.1 = 0 ∧ i.2.1 < h ∨ i.1 = 1 ∧ i.2.1 < h / 2) := by
  obtain ⟨plane, row, column⟩ := i
  simp only [nv12Bytes, pixels, List.mem_append, List.mem_map, List.mem_product, List.mem_range,
    Prod.exists, Prod.mk.injEq]
  constructor
  · rintro (⟨y, x, inside, rfl, rfl, rfl⟩ | ⟨y, x, inside, rfl, rfl, rfl⟩)
    · omega
    · omega
  · rintro ⟨inside, ⟨rfl, top⟩ | ⟨rfl, top⟩⟩
    · exact .inl ⟨row, column, ⟨top, inside⟩, rfl, rfl, rfl⟩
    · exact .inr ⟨row, column, ⟨top, inside⟩, rfl, rfl, rfl⟩

theorem mem_bytePasses {y x k : Nat} : (y, x, k) ∈ bytePasses w h ↔ y < h ∧ x < w ∧ k < 4 := by
  simp only [bytePasses, List.mem_product, List.mem_range]

theorem mem_bgrBytes : i ∈ bgrBytes w h ↔ i.1 = 0 ∧ i.2.1 < h ∧ i.2.2 < w * 4 := by
  obtain ⟨plane, row, column⟩ := i
  simp only [bgrBytes, List.mem_map, Prod.exists, Prod.mk.injEq]
  constructor
  · rintro ⟨y, x, k, passed, rfl, rfl, rfl⟩
    obtain ⟨low, left, few⟩ := mem_bytePasses.mp passed
    exact ⟨rfl, low, by omega⟩
  · rintro ⟨rfl, low, left⟩
    exact ⟨row, column / 4, column % 4, mem_bytePasses.mpr ⟨low, by omega, by omega⟩, rfl, rfl,
      by omega⟩

/-- An address does not depend on how often a sum has come round. -/
theorem cell_index (pointer : Int) (y x : Nat) (stride : UInt32) :
    cell pointer ((y.toUInt32 * stride + x.toUInt32).toNat : Int) =
      cell pointer (y * stride.toNat + x) := by
  have around : ((y.toUInt32 * stride + x.toUInt32).toNat : Int) =
      ((y * stride.toNat + x : Nat) : Int) % 4294967296 := by
    have number : (y.toUInt32 * stride + x.toUInt32).toNat = (y * stride.toNat + x) % 2 ^ 32 := by
      simp [Nat.add_mod, Nat.mul_mod]
    rw [number]
    omega
  rw [around]
  simp only [cell]
  push_cast
  omega

/-- A loop that adds the bytes of some places adds their total. -/
theorem foldl_add_total {α : Type*} (mem : α → UInt8) (places : List α) (sum : UInt32) :
    places.foldl (fun sum place => sum + (mem place).toUInt32) sum = sum + total mem places := by
  induction places generalizing sum with
  | nil => simp
  | cons place places ih => rw [List.foldl_cons, ih, Checksum.total_cons, UInt32.add_assoc]

/-- Bytes that are found by way of an address have the total of their addresses. -/
theorem total_map {α β : Type*} (mem : β → UInt8) (address : α → β) (places : List α) :
    total mem (places.map address) = total (fun place => mem (address place)) places := by
  rw [total, total, List.map_map]
  rfl

/-- The bytes that `bst_nv12_isum` and `bst_nv12_osum` add up. -/
theorem bstNv12Sum_eq (mem : Memory) (yBase cBase : Int) (stride sum : UInt32) :
    bstNv12Sum mem yBase cBase w h stride sum =
      sum + total mem ((nv12Bytes w h).map (byteCell yBase cBase stride)) := by
  -- Each of both loops adds the bytes of one plane.
  have plane : ∀ (rows : Nat) (place : Nat → SrcByte) (s : Isum),
      ((pixels w rows).foldl (fun s at' => s.add (nv12Planes mem yBase cBase)
        (place (at'.1.toUInt32 * stride + at'.2.toUInt32).toNat)) s).sum =
      s.sum + total (nv12Planes mem yBase cBase) ((pixels w rows).map fun at' =>
        place (at'.1.toUInt32 * stride + at'.2.toUInt32).toNat) := by
    intro rows place s
    rw [← List.foldl_map, foldl_isum_add]
  rw [bstNv12Sum, bstNv12Isum, plane, plane, nv12Bytes, List.map_append, List.map_map, List.map_map,
    Checksum.total_append, UInt32.add_assoc, total_map, total_map, total_map, total_map]
  simp only [nv12Planes, cell_index, byteCell, Function.comp_apply, if_true, one_ne_zero, if_false]

/-- The bytes that `bst_bgr_isum` and `bst_bgr_osum` add up. -/
theorem bstBgrSum_eq (mem : Memory) (base0 base1 : Int) (stride sum : UInt32) :
    bstBgrSum mem base0 w h stride sum =
      sum + total mem ((bgrBytes w h).map (byteCell base0 base1 stride)) := by
  rw [bstBgrSum, foldl_add_total (fun at' => mem (cell base0 (byteIndex stride at'))), bgrBytes,
    List.map_map, total_map]
  simp only [byteCell, byteIndex, Function.comp_apply, if_true]
  push_cast
  simp only [Int.add_assoc]

end Bytes

namespace BstHwOnceCfg.Convertible

variable {cfg : BstHwOnceCfg} {mem : Memory} {i : ImageByte}

/-- A place that the conversion may look at. -/
def Reads (cfg : BstHwOnceCfg) (place : Int) : Prop := ∃ i ∈ cfg.srcBytes, cfg.srcCell i = place

theorem is_bgr (pixels : Pixels cfg.srcFormat) (other : cfg.srcFormat ≠ .nv12) :
    bstFormatIsBgr cfg.srcFormat = true := pixels.resolve_left other

theorem src_nv12 (nv12 : cfg.srcFormat = .nv12) :
    cfg.srcBytes = nv12Bytes cfg.srcW.toNat cfg.srcH.toNat := by
  rw [srcBytes, imageBytes, if_pos nv12]

theorem src_bgr (other : cfg.srcFormat ≠ .nv12) :
    cfg.srcBytes = bgrBytes cfg.srcW.toNat cfg.srcH.toNat := by
  rw [srcBytes, imageBytes, if_neg other]

theorem dst_nv12 (convertible : cfg.Convertible) (nv12 : cfg.dstFormat = .nv12) :
    cfg.dstBytes = nv12Bytes cfg.srcW.toNat cfg.srcH.toNat := by
  rw [dstBytes, imageBytes, if_pos nv12, convertible.width, convertible.height]

theorem dst_bgr (convertible : cfg.Convertible) (other : cfg.dstFormat ≠ .nv12) :
    cfg.dstBytes = bgrBytes cfg.srcW.toNat cfg.srcH.toNat := by
  rw [dstBytes, imageBytes, if_neg other, convertible.width, convertible.height]

/-- A byte of the destination is not one that is looked at. -/
theorem spares (convertible : cfg.Convertible) (member : i ∈ cfg.dstBytes) :
    ¬ Reads cfg (cfg.dstCell i) := by
  rintro ⟨j, source, same⟩
  exact convertible.apart j source i member same

/-- From four bytes to four bytes, the opacity is set and the rest is copied as it is. -/
theorem bgr_filled (convertible : cfg.Convertible) (src : cfg.srcFormat ≠ .nv12)
    (dst : cfg.dstFormat ≠ .nv12) :
    Filled mem (bstBgrToBgr mem cfg.srcBase0 cfg.srcLineStride cfg.dstBase0 cfg.dstLineStride
      cfg.srcW.toNat cfg.srcH.toNat cfg.order cfg.nv2bgrAlpha) cfg.dstBytes cfg.dstCell
      (cfg.converted mem) := by
  set w := cfg.srcW.toNat
  set h := cfg.srcH.toNat
  set stores := fun (mem : Memory) (at' : Nat × Nat × Nat) =>
    [(cell cfg.dstBase0 (byteIndex cfg.dstLineStride at'),
      if isAlpha cfg.order at'.2.2 then cfg.nv2bgrAlpha
      else mem (cell cfg.srcBase0 (byteIndex cfg.srcLineStride at')))] with stored
  -- A pass has its byte in both images.
  have index : ∀ (base0 base1 : Int) (stride : UInt32) (at' : Nat × Nat × Nat),
      cell base0 (byteIndex stride at') =
        byteCell base0 base1 stride (0, at'.1, at'.2.1 * 4 + at'.2.2) := by
    intro base0 base1 stride at'
    simp only [byteCell, byteIndex, if_true]
    push_cast
    simp only [Int.add_assoc]
  have inSrc : ∀ at' ∈ bytePasses w h,
      Reads cfg (cell cfg.srcBase0 (byteIndex cfg.srcLineStride at')) := by
    intro at' passed
    refine ⟨(0, at'.1, at'.2.1 * 4 + at'.2.2), ?_, (index _ cfg.srcBase1 _ at').symm⟩
    rw [src_bgr src]
    exact List.mem_map.mpr ⟨at', passed, rfl⟩
  have inDst : ∀ at' ∈ bytePasses w h, (0, at'.1, at'.2.1 * 4 + at'.2.2) ∈ cfg.dstBytes := by
    intro at' passed
    rw [convertible.dst_bgr dst]
    exact List.mem_map.mpr ⟨at', passed, rfl⟩
  have apart : Transfer.Apart stores (bytePasses w h) (Reads cfg) := by
    constructor
    · intro image other same at' passed
      simp only [stored, same _ (inSrc at' passed)]
    · intro image at' passed store member
      rw [List.mem_singleton.mp member]
      simp only [index cfg.dstBase0 cfg.dstBase1]
      exact convertible.spares (inDst at' passed)
  have painted : bstBgrToBgr mem cfg.srcBase0 cfg.srcLineStride cfg.dstBase0 cfg.dstLineStride w h
      cfg.order cfg.nv2bgrAlpha = Paint.paint mem ((bytePasses w h).flatMap (stores mem)) :=
    apart.foldl_eq
  rw [painted]
  refine Filled.of_paint ?_ convertible.once
  intro store
  -- The byte of a pass is the one of its pixel.
  have value : ∀ at' ∈ bytePasses w h, stores mem at' =
      [(cfg.dstCell (0, at'.1, at'.2.1 * 4 + at'.2.2),
        cfg.converted mem (0, at'.1, at'.2.1 * 4 + at'.2.2))] := by
    intro at' passed
    have few : at'.2.2 < 4 := (mem_bytePasses.mp passed).2.2
    have own : (at'.2.1 * 4 + at'.2.2) % 4 = at'.2.2 := by omega
    simp only [stored, converted, if_neg src, if_neg dst, own, index cfg.dstBase0 cfg.dstBase1,
      index cfg.srcBase0 cfg.srcBase1]
    rfl
  rw [convertible.dst_bgr dst]
  constructor
  · intro member
    obtain ⟨at', passed, here⟩ := List.mem_flatMap.mp member
    rw [value at' passed, List.mem_singleton] at here
    exact ⟨_, List.mem_map.mpr ⟨at', passed, rfl⟩, here⟩
  · rintro ⟨i, member, rfl⟩
    obtain ⟨at', passed, rfl⟩ := List.mem_map.mp member
    refine List.mem_flatMap.mpr ⟨at', passed, ?_⟩
    rw [value at' passed]
    exact List.mem_singleton.mpr rfl

/-- The stores of a line that is copied. -/
def lineStores (cfg : BstHwOnceCfg) (mem : Memory) (line : Nat × Nat) : List (Int × UInt8) :=
  (List.range cfg.srcW.toNat).map fun column : Nat =>
    (cfg.dstCell (line.1, line.2, column), mem (cfg.srcCell (line.1, line.2, column)))

/-- The lines of so many passes, in the order that they are copied in. -/
def lines (passes : Nat) : List (Nat × Nat) :=
  (List.range passes).flatMap fun i => [(0, 2 * i), (0, 2 * i + 1), (1, i)]

theorem mem_lines {passes : Nat} {line : Nat × Nat} :
    line ∈ lines passes ↔ line.1 = 0 ∧ line.2 < 2 * passes ∨ line.1 = 1 ∧ line.2 < passes := by
  obtain ⟨plane, row⟩ := line
  simp only [lines, List.mem_flatMap, List.mem_range, List.mem_cons, Prod.mk.injEq,
    List.not_mem_nil, or_false]
  constructor
  · rintro ⟨i, before, here⟩
    omega
  · rintro (⟨rfl, before⟩ | ⟨rfl, before⟩)
    · exact ⟨row / 2, by omega, by omega⟩
    · exact ⟨row, before, .inr (.inr ⟨rfl, rfl⟩)⟩

theorem lines_succ (passes : Nat) :
    lines (passes + 1) = lines passes ++ [(0, 2 * passes), (0, 2 * passes + 1), (1, passes)] := by
  rw [lines, List.range_succ, List.flatMap_append, List.flatMap_singleton, ← lines]

/-- After so many passes the offsets are those of the next lines. -/
theorem passes_eq (cfg : BstHwOnceCfg) (mem : Memory) (passes : Nat) :
    (List.range passes).foldl (fun s _ => Nv12Copy.pass cfg.srcBase0 cfg.srcBase1
        cfg.srcLineStride cfg.dstBase0 cfg.dstBase1 cfg.dstLineStride cfg.srcW.toNat s)
      { mem := mem, srcYOffset := 0, srcCOffset := 0, dstYOffset := 0, dstCOffset := 0 } =
    { mem := (lines passes).foldl (fun mem line => Paint.paint mem (lineStores cfg mem line)) mem
      srcYOffset := (2 * passes : Nat) * cfg.srcLineStride.toNat
      srcCOffset := passes * cfg.srcLineStride.toNat
      dstYOffset := (2 * passes : Nat) * cfg.dstLineStride.toNat
      dstCOffset := passes * cfg.dstLineStride.toNat } := by
  induction passes with
  | zero => simp [lines]
  | succ passes ih =>
    -- The odd line follows the even one by a stride.
    have odd (stride : UInt32) : ((2 * passes : Nat) : Int) * stride.toNat + stride.toNat =
        (2 * passes + 1 : Nat) * stride.toNat := by
      push_cast
      ring
    have next (stride : UInt32) : ((2 * passes + 1 : Nat) : Int) * stride.toNat + stride.toNat =
        (2 * (passes + 1) : Nat) * stride.toNat := by
      push_cast
      ring
    have chroma (stride : UInt32) : (passes : Int) * stride.toNat + stride.toNat =
        (passes + 1 : Nat) * stride.toNat := by
      push_cast
      ring
    rw [List.range_succ, List.foldl_append, ih, lines_succ, List.foldl_append]
    simp only [List.foldl_cons, List.foldl_nil, Nv12Copy.pass, Nv12Copy.lumaLine,
      Nv12Copy.chromaLine, odd, next, chroma]
    rfl

/-- From NV12 to NV12, every line is copied. -/
theorem nv12_filled (convertible : cfg.Convertible) (src : cfg.srcFormat = .nv12)
    (dst : cfg.dstFormat = .nv12) :
    Filled mem (bstNv12ToNv12 mem cfg.srcBase0 cfg.srcBase1 cfg.srcLineStride cfg.dstBase0
      cfg.dstBase1 cfg.dstLineStride cfg.srcW.toNat cfg.srcH.toNat) cfg.dstBytes cfg.dstCell
      (cfg.converted mem) := by
  set w := cfg.srcW.toNat with width
  set h := cfg.srcH.toNat with height
  have even : h % 2 = 0 := (convertible.even (.inl src)).2
  -- The lines of all passes are those of the image.
  have byte : ∀ line ∈ lines (h / 2), ∀ column < w, (line.1, line.2, column) ∈ nv12Bytes w h := by
    intro line listed column inside
    refine mem_nv12Bytes.mpr ⟨inside, ?_⟩
    have place := mem_lines.mp listed
    simp only
    omega
  have apart : Transfer.Apart (lineStores cfg) (lines (h / 2)) (Reads cfg) := by
    constructor
    · intro image other same line listed
      refine List.map_congr_left fun column member => ?_
      have inside := byte line listed column (List.mem_range.mp member)
      rw [same _ ⟨_, by rwa [src_nv12 src], rfl⟩]
    · intro image line listed store member
      obtain ⟨column, inside, rfl⟩ := List.mem_map.mp member
      refine convertible.spares ?_
      rw [convertible.dst_nv12 dst]
      exact byte line listed column (List.mem_range.mp inside)
  have painted : bstNv12ToNv12 mem cfg.srcBase0 cfg.srcBase1 cfg.srcLineStride cfg.dstBase0
      cfg.dstBase1 cfg.dstLineStride w h =
        Paint.paint mem ((lines (h / 2)).flatMap (lineStores cfg mem)) := by
    rw [bstNv12ToNv12, passes_eq, ← apart.foldl_eq]
  rw [painted]
  refine Filled.of_paint ?_ convertible.once
  intro store
  have value : ∀ i, cfg.converted mem i = mem (cfg.srcCell i) := fun i => by
    rw [converted, if_pos src, if_pos dst]
  simp only [value]
  rw [convertible.dst_nv12 dst]
  constructor
  · intro member
    obtain ⟨line, listed, here⟩ := List.mem_flatMap.mp member
    obtain ⟨column, inside, rfl⟩ := List.mem_map.mp here
    exact ⟨_, byte line listed column (List.mem_range.mp inside), rfl⟩
  · rintro ⟨⟨plane, row, column⟩, member, rfl⟩
    obtain ⟨inside, place⟩ := mem_nv12Bytes.mp member
    simp only at inside place
    refine List.mem_flatMap.mpr ⟨(plane, row), mem_lines.mpr ?_, ?_⟩
    · simp only
      omega
    · exact List.mem_map.mpr ⟨column, List.mem_range.mpr inside, rfl⟩

/-- The stores of a pixel that is converted. -/
def pixelStores (cfg : BstHwOnceCfg) (mem : Memory) (x y : Nat) : List (Int × UInt8) :=
  cellStores cfg.dstBase0 (y * cfg.dstLineStride.toNat + x * 4) (cfg.rgbaAt mem x y)

/-- The pixels of a block, which share the chroma bytes of its corner. -/
theorem bstBlock_eq (cfg : BstHwOnceCfg) (mem : Memory) (a b : Nat)
    (short : cfg.srcLineStride.toNat * (2 * b) < 2 ^ 32) :
    bstBlock mem cfg.srcBase0 cfg.srcBase1 cfg.srcLineStride cfg.dstBase0 cfg.dstLineStride cfg.order
        cfg.nv2bgrCoef cfg.nv2bgrOfst cfg.nv2bgrAlpha ((2 * a : Nat) : Int) ((2 * b : Nat) : Int) =
      pixelStores cfg mem (2 * a) (2 * b) ++ pixelStores cfg mem (2 * a + 1) (2 * b) ++
        pixelStores cfg mem (2 * a) (2 * b + 1) ++ pixelStores cfg mem (2 * a + 1) (2 * b + 1) := by
  -- The product does not come round, so its half is a line of the chroma plane.
  have half : u32 (cfg.srcLineStride.toNat * ((2 * b : Nat) : Int)) / 2 =
      (b : Int) * cfg.srcLineStride.toNat := by
    have twice : (cfg.srcLineStride.toNat : Int) * ((2 * b : Nat) : Int) =
        2 * ((b : Int) * cfg.srcLineStride.toNat) := by
      push_cast
      ring
    have small : 2 * ((b : Int) * cfg.srcLineStride.toNat) < 4294967296 := by
      rw [← twice]
      exact_mod_cast short
    have least : 0 ≤ (b : Int) * cfg.srcLineStride.toNat := by positivity
    rw [twice, u32, Int.emod_eq_of_lt (by omega) small]
    omega
  have rows : ∀ r : Nat, r = 0 ∨ r = 1 → (2 * b + r) / 2 = b := by omega
  have columns : ∀ r : Nat, r = 0 ∨ r = 1 → (2 * a + r) / 2 * 2 = 2 * a := by omega
  have row := rows 0 (.inl rfl)
  have column := columns 0 (.inl rfl)
  rw [Nat.add_zero] at row column
  simp only [bstBlock, pixelStores, BstHwOnceCfg.rgbaAt, BstHwOnceCfg.srcCell, byteCell, if_true,
    one_ne_zero, if_false, half, row, column, rows 1 (.inr rfl), columns 1 (.inr rfl)]
  push_cast
  -- What is left is the order of factors and terms in the indices.
  simp only [mul_comm (cfg.srcLineStride.toNat : Int), mul_comm (cfg.dstLineStride.toNat : Int),
    add_mul, one_mul, add_assoc, add_comm (cfg.dstLineStride.toNat : Int)]

/-- Every format names an order that the colour conversion knows. -/
theorem rgbaAt_length (cfg : BstHwOnceCfg) (mem : Memory) (x y : Nat) :
    (cfg.rgbaAt mem x y).length = 4 := by
  unfold BstHwOnceCfg.rgbaAt BstHwOnceCfg.order
  cases cfg.dstFormat <;> rfl

theorem mem_cellStores {pointer index : Int} {bytes : List UInt8} {store : Int × UInt8} :
    store ∈ cellStores pointer index bytes ↔
      ∃ (k : Nat) (short : k < bytes.length), store = (cell pointer (index + k), bytes[k]) := by
  simp only [cellStores, List.mem_mapIdx, eq_comm]

theorem mem_blocks {width height : Int} {corner : Int × Int} : corner ∈ blocks width height ↔
    corner.1 ∈ evens width ∧ corner.2 ∈ evens height := by
  obtain ⟨x, y⟩ := corner
  simp only [blocks, List.mem_flatMap, List.mem_map, Prod.mk.injEq]
  constructor
  · rintro ⟨_, row, _, column, rfl, rfl⟩
    exact ⟨column, row⟩
  · rintro ⟨column, row⟩
    exact ⟨y, row, x, column, rfl, rfl⟩

/-- A pixel stores the bytes of the destination that are its own. -/
theorem mem_pixelStores (src : cfg.srcFormat = .nv12) (dst : cfg.dstFormat ≠ .nv12) {x y : Nat}
    {store : Int × UInt8} :
    store ∈ pixelStores cfg mem x y ↔ ∃ k < 4,
      store = (cfg.dstCell (0, y, x * 4 + k), cfg.converted mem (0, y, x * 4 + k)) := by
  have own : ∀ k < 4, (x * 4 + k) / 4 = x ∧ (x * 4 + k) % 4 = k := by omega
  have each : ∀ (k : Nat) (short : k < (cfg.rgbaAt mem x y).length), k < 4 →
      (cell cfg.dstBase0 (y * cfg.dstLineStride.toNat + x * 4 + k), (cfg.rgbaAt mem x y)[k]) =
        (cfg.dstCell (0, y, x * 4 + k), cfg.converted mem (0, y, x * 4 + k)) := by
    intro k short few
    simp only [BstHwOnceCfg.dstCell, byteCell, BstHwOnceCfg.converted, if_true, if_pos src, if_neg dst,
      own k few, List.getD_eq_getElem?_getD, List.getElem?_eq_getElem short, Option.getD_some]
    push_cast
    rw [Int.add_assoc]
  rw [pixelStores, mem_cellStores]
  constructor
  · rintro ⟨k, short, rfl⟩
    have few : k < 4 := by rwa [rgbaAt_length] at short
    exact ⟨k, few, each k short few⟩
  · rintro ⟨k, few, rfl⟩
    have short : k < (cfg.rgbaAt mem x y).length := by rwa [rgbaAt_length]
    exact ⟨k, short, (each k short few).symm⟩

/-- The bytes that a pixel is converted from are all read. -/
theorem rgbaAt_congr (convertible : cfg.Convertible) (src : cfg.srcFormat = .nv12)
    {image other : Memory} (same : ∀ place, Reads cfg place → image place = other place) {x y : Nat}
    (column : x < cfg.srcW.toNat) (row : y < cfg.srcH.toNat) :
    cfg.rgbaAt image x y = cfg.rgbaAt other x y := by
  obtain ⟨wide, tall⟩ := convertible.even (.inl src)
  have read : ∀ i ∈ nv12Bytes cfg.srcW.toNat cfg.srcH.toNat,
      image (cfg.srcCell i) = other (cfg.srcCell i) := by
    intro i member
    exact same _ ⟨i, by rwa [src_nv12 src], rfl⟩
  have luma := read (0, y, x) (mem_nv12Bytes.mpr ⟨column, .inl ⟨rfl, row⟩⟩)
  have first := read (1, y / 2, x / 2 * 2)
    (mem_nv12Bytes.mpr ⟨by simp only; omega, .inr ⟨rfl, by simp only; omega⟩⟩)
  have second := read (1, y / 2, x / 2 * 2 + 1)
    (mem_nv12Bytes.mpr ⟨by simp only; omega, .inr ⟨rfl, by simp only; omega⟩⟩)
  rw [BstHwOnceCfg.rgbaAt, BstHwOnceCfg.rgbaAt, luma, first, second]

/-- The stores of a block, for its corner. -/
def cornerStores (cfg : BstHwOnceCfg) (mem : Memory) (corner : Int × Int) : List (Int × UInt8) :=
  bstBlock mem cfg.srcBase0 cfg.srcBase1 cfg.srcLineStride cfg.dstBase0 cfg.dstLineStride cfg.order
    cfg.nv2bgrCoef cfg.nv2bgrOfst cfg.nv2bgrAlpha corner.1 corner.2

/-- The corner of the block that a pixel is in. -/
def cornerOf (x y : Nat) : Int × Int := (((2 * (x / 2) : Nat) : Int), ((2 * (y / 2) : Nat) : Int))

/-- The blocks are those of the pixels. -/
theorem mem_blocks_iff {w h : Nat} (wide : w % 2 = 0) (tall : h % 2 = 0) {corner : Int × Int} :
    corner ∈ blocks w h ↔ ∃ x < w, ∃ y < h, corner = cornerOf x y := by
  obtain ⟨cx, cy⟩ := corner
  rw [mem_blocks, mem_evens, mem_evens]
  simp only [cornerOf, Prod.mk.injEq]
  constructor
  · rintro ⟨column, row⟩
    exact ⟨cx.toNat, by omega, cy.toNat, by omega, by omega, by omega⟩
  · rintro ⟨x, column, y, row, rfl, rfl⟩
    omega

/-- The stores of the block of a pixel, pixel after pixel. -/
theorem cornerStores_eq (convertible : cfg.Convertible) (src : cfg.srcFormat = .nv12)
    (dst : cfg.dstFormat ≠ .nv12) (mem : Memory) (x : Nat) {y : Nat} (row : y < cfg.srcH.toNat) :
    cornerStores cfg mem (cornerOf x y) =
      pixelStores cfg mem (2 * (x / 2)) (2 * (y / 2)) ++
        pixelStores cfg mem (2 * (x / 2) + 1) (2 * (y / 2)) ++
        pixelStores cfg mem (2 * (x / 2)) (2 * (y / 2) + 1) ++
        pixelStores cfg mem (2 * (x / 2) + 1) (2 * (y / 2) + 1) := by
  have tall := (convertible.even (.inl src)).2
  have room := convertible.short src dst
  refine bstBlock_eq cfg mem (x / 2) (y / 2) ?_
  rcases Nat.eq_zero_or_pos cfg.srcLineStride.toNat with none | some
  · simp [none]
  · exact (Nat.mul_lt_mul_of_pos_left (by omega) some).trans_le room

/-- They are those of the pixels that share its corner. -/
theorem mem_cornerStores (convertible : cfg.Convertible) (src : cfg.srcFormat = .nv12)
    (dst : cfg.dstFormat ≠ .nv12) (mem : Memory) {x y : Nat} (column : x < cfg.srcW.toNat)
    (row : y < cfg.srcH.toNat) {store : Int × UInt8} :
    store ∈ cornerStores cfg mem (cornerOf x y) ↔ ∃ x' < cfg.srcW.toNat, ∃ y' < cfg.srcH.toNat,
      (x' / 2 = x / 2 ∧ y' / 2 = y / 2) ∧ store ∈ pixelStores cfg mem x' y' := by
  obtain ⟨wide, tall⟩ := convertible.even (.inl src)
  rw [cornerStores_eq convertible src dst mem x row]
  simp only [List.mem_append]
  constructor
  · rintro (((here | right) | under) | across)
    · exact ⟨2 * (x / 2), by omega, 2 * (y / 2), by omega, by omega, here⟩
    · exact ⟨2 * (x / 2) + 1, by omega, 2 * (y / 2), by omega, by omega, right⟩
    · exact ⟨2 * (x / 2), by omega, 2 * (y / 2) + 1, by omega, by omega, under⟩
    · exact ⟨2 * (x / 2) + 1, by omega, 2 * (y / 2) + 1, by omega, by omega, across⟩
  · rintro ⟨x', _, y', _, shared, member⟩
    obtain left | right : x' = 2 * (x / 2) ∨ x' = 2 * (x / 2) + 1 := by omega
    · obtain top | bottom : y' = 2 * (y / 2) ∨ y' = 2 * (y / 2) + 1 := by omega
      · exact .inl (.inl (.inl (left ▸ top ▸ member)))
      · exact .inl (.inr (left ▸ bottom ▸ member))
    · obtain top | bottom : y' = 2 * (y / 2) ∨ y' = 2 * (y / 2) + 1 := by omega
      · exact .inl (.inl (.inr (right ▸ top ▸ member)))
      · exact .inr (right ▸ bottom ▸ member)

/-- From NV12 to four bytes, every pixel is converted. -/
theorem nv2bgr_filled (convertible : cfg.Convertible) (src : cfg.srcFormat = .nv12)
    (dst : cfg.dstFormat ≠ .nv12) :
    Filled mem (bstNv2bgr mem cfg.srcBase0 cfg.srcBase1 cfg.srcLineStride cfg.dstBase0
      cfg.dstLineStride cfg.srcW.toNat cfg.srcH.toNat cfg.order cfg.nv2bgrCoef cfg.nv2bgrOfst
      cfg.nv2bgrAlpha) cfg.dstBytes cfg.dstCell (cfg.converted mem) := by
  obtain ⟨wide, tall⟩ := convertible.even (.inl src)
  have block := fun {corner : Int × Int} =>
    @mem_blocks_iff cfg.srcW.toNat cfg.srcH.toNat wide tall corner
  have byte : ∀ x < cfg.srcW.toNat, ∀ y < cfg.srcH.toNat, ∀ k < 4,
      (0, y, x * 4 + k) ∈ cfg.dstBytes := by
    intro x column y row k few
    rw [convertible.dst_bgr dst]
    exact mem_bgrBytes.mpr ⟨rfl, row, by simp only; omega⟩
  have apart : Transfer.Apart (cornerStores cfg) (blocks cfg.srcW.toNat cfg.srcH.toNat) (Reads cfg) := by
    constructor
    · intro image other same corner listed
      obtain ⟨x, column, y, row, rfl⟩ := block.mp listed
      rw [cornerStores_eq convertible src dst image x row,
        cornerStores_eq convertible src dst other x row]
      -- All four pixels are in the image.
      have pixel : ∀ x' < cfg.srcW.toNat, ∀ y' < cfg.srcH.toNat,
          pixelStores cfg image x' y' = pixelStores cfg other x' y' := by
        intro x' column' y' row'
        rw [pixelStores, rgbaAt_congr convertible src same column' row', ← pixelStores]
      rw [pixel _ (by omega) _ (by omega), pixel _ (by omega) _ (by omega),
        pixel _ (by omega) _ (by omega), pixel _ (by omega) _ (by omega)]
    · intro image corner listed store member
      obtain ⟨x, column, y, row, rfl⟩ := block.mp listed
      obtain ⟨x', column', y', row', _, here⟩ :=
        (mem_cornerStores convertible src dst image column row).mp member
      obtain ⟨k, few, rfl⟩ := (mem_pixelStores src dst).mp here
      exact convertible.spares (byte x' column' y' row' k few)
  have painted : bstNv2bgr mem cfg.srcBase0 cfg.srcBase1 cfg.srcLineStride cfg.dstBase0
      cfg.dstLineStride cfg.srcW.toNat cfg.srcH.toNat cfg.order cfg.nv2bgrCoef cfg.nv2bgrOfst
      cfg.nv2bgrAlpha = Paint.paint mem ((blocks cfg.srcW.toNat cfg.srcH.toNat).flatMap
        (cornerStores cfg mem)) := apart.foldl_eq
  rw [painted]
  refine Filled.of_paint ?_ convertible.once
  intro store
  constructor
  · intro member
    obtain ⟨corner, listed, here⟩ := List.mem_flatMap.mp member
    obtain ⟨x, column, y, row, rfl⟩ := block.mp listed
    obtain ⟨x', column', y', row', _, here⟩ :=
      (mem_cornerStores convertible src dst mem column row).mp here
    obtain ⟨k, few, rfl⟩ := (mem_pixelStores src dst).mp here
    exact ⟨_, byte x' column' y' row' k few, rfl⟩
  · rintro ⟨⟨plane, row, column⟩, member, rfl⟩
    rw [convertible.dst_bgr dst, mem_bgrBytes] at member
    obtain ⟨rfl, low, left⟩ := member
    -- The byte belongs to a pixel, and the pixel to a block.
    have inside : column / 4 < cfg.srcW.toNat := by
      simp only at left
      omega
    refine List.mem_flatMap.mpr ⟨cornerOf (column / 4) row, block.mpr ⟨_, inside, row, low, rfl⟩, ?_⟩
    refine (mem_cornerStores convertible src dst mem inside low).mpr
      ⟨_, inside, row, low, ⟨rfl, rfl⟩, (mem_pixelStores src dst).mpr ⟨column % 4, by omega, ?_⟩⟩
    have whole : column / 4 * 4 + column % 4 = column := by omega
    rw [whole]

/-- What is selected for the formats fills the destination, from four bytes to NV12 with itself. -/
theorem select_filled (convertible : cfg.Convertible) (malloc : Int) (s : BstMdl) :
    ∃ image, bstSelect cfg malloc s = some { s with mem := image } ∧
      Filled s.mem image cfg.dstBytes cfg.dstCell (cfg.converted s.mem) := by
  by_cases src : cfg.srcFormat = .nv12
  · have other : bstFormatIsBgr cfg.srcFormat = false := by rw [src]; rfl
    by_cases dst : cfg.dstFormat = .nv12
    · exact ⟨_, by simp [bstSelect, src, dst], convertible.nv12_filled src dst⟩
    · have bgr : bstFormatIsBgr cfg.dstFormat = true := convertible.dst.resolve_left dst
      refine ⟨_, ?_, convertible.nv2bgr_filled src dst⟩
      rw [bstSelect, if_neg fun both => dst both.2, if_neg (by simp [other]), if_pos ⟨src, bgr⟩]
  · have bgr : bstFormatIsBgr cfg.srcFormat = true := is_bgr convertible.src src
    by_cases dst : cfg.dstFormat = .nv12
    · have other : bstFormatIsBgr cfg.dstFormat = false := by rw [dst]; rfl
      refine ⟨s.mem, ?_, fun i _ => ?_, fun _ _ => rfl⟩
      · -- None of the conversions is for these formats.
        have plain : ¬ (cfg.dstFormat = .vbgr ∨ cfg.dstFormat = .vrgb) := by simp [dst]
        rw [bstSelect, if_neg fun both => src both.1, if_neg (by simp [other]),
          if_neg fun both => src both.1, if_neg plain]
      · rw [BstHwOnceCfg.converted, if_neg src, if_pos dst]
    · have bgr' : bstFormatIsBgr cfg.dstFormat = true := convertible.dst.resolve_left dst
      refine ⟨_, ?_, convertible.bgr_filled src dst⟩
      rw [bstSelect, if_neg fun both => src both.1, if_pos ⟨bgr, bgr'⟩]

/-- The first part adds the bytes of the source. -/
theorem isumPart_eq (convertible : cfg.Convertible) (s : BstMdl) :
    bstIsumPart cfg s =
      some { s with bstIsum := s.bstIsum + total s.mem (cfg.srcBytes.map cfg.srcCell) } := by
  have cells : cfg.srcCell = byteCell cfg.srcBase0 cfg.srcBase1 cfg.srcLineStride := rfl
  by_cases src : cfg.srcFormat = .nv12
  · rw [bstIsumPart, if_pos src, bstNv12Sum_eq, src_nv12 src, cells]
  · rw [bstIsumPart, if_neg src, if_pos (is_bgr convertible.src src),
      bstBgrSum_eq _ _ cfg.srcBase1, src_bgr src, cells]

/-- The third part adds the bytes of the destination. -/
theorem osumPart_eq (convertible : cfg.Convertible) (s : BstMdl) :
    bstOsumPart cfg s =
      { s with bstOsum := s.bstOsum + total s.mem (cfg.dstBytes.map cfg.dstCell) } := by
  have cells : cfg.dstCell = byteCell cfg.dstBase0 cfg.dstBase1 cfg.dstLineStride := rfl
  by_cases dst : cfg.dstFormat = .nv12
  · rw [bstOsumPart, if_pos dst, bstNv12Sum_eq, BstHwOnceCfg.dstBytes, imageBytes, if_pos dst, cells]
  · have odd : cfg.dstFormat.code &&& 0x1 = 1 := by
      have bgr : bstFormatIsBgr cfg.dstFormat = true := convertible.dst.resolve_left dst
      revert bgr
      cases cfg.dstFormat <;> decide
    rw [bstOsumPart, if_neg dst, if_pos odd, bstBgrSum_eq _ _ cfg.dstBase1, BstHwOnceCfg.dstBytes,
      imageBytes, if_neg dst, cells]

end BstHwOnceCfg.Convertible

/-- The destination is filled, and both sums have grown by the bytes of their images. -/
structure BstMdl.Converted (cfg : BstHwOnceCfg) (before after : BstMdl) : Prop where
  filled : Filled before.mem after.mem cfg.dstBytes cfg.dstCell (cfg.converted before.mem)
  isum : after.bstIsum = before.bstIsum + total before.mem (cfg.srcBytes.map cfg.srcCell)
  osum : after.bstOsum = before.bstOsum + total after.mem (cfg.dstBytes.map cfg.dstCell)

/-- `bst_mdl` converts every image, and touches no byte but those of the destination. -/
theorem bstMdl_converts {cfg : BstHwOnceCfg} (convertible : cfg.Convertible) (malloc : Int)
    (s : BstMdl) : ∃ after, bstMdl cfg malloc s = some after ∧ s.Converted cfg after := by
  obtain ⟨image, selected, filled⟩ := convertible.select_filled malloc
    { s with bstIsum := s.bstIsum + total s.mem (cfg.srcBytes.map cfg.srcCell) }
  have made : bstMdl cfg malloc s = some
      { mem := image
        bstIsum := s.bstIsum + total s.mem (cfg.srcBytes.map cfg.srcCell)
        bstOsum := s.bstOsum + total image (cfg.dstBytes.map cfg.dstCell) } := by
    rw [bstMdl, convertible.isumPart_eq, Option.bind_some, selected, Option.map_some,
      convertible.osumPart_eq]
  exact ⟨_, made, filled, rfl, rfl⟩

section Covert

variable {src dst : DataInfo} {coef : Fin 9 → UInt32} {offset : Fin 2 → UInt32} {task : TaskInfo}
  {kernelSize : UInt8}

/-- A source that can be converted passes the assertions on its format. -/
theorem bsCovertMdl_eq {cfg : BstHwOnceCfg}
    (made : covertCfg src dst coef offset task kernelSize = some cfg)
    (pixels : BstHwOnceCfg.Pixels cfg.srcFormat) (malloc : Int) (s : BstMdl) :
    bsCovertMdl src dst coef offset task kernelSize malloc s = bstMdl cfg malloc s := by
  obtain ⟨format, known, rest⟩ := Option.bind_eq_some_iff.mp made
  obtain ⟨format', _, is⟩ := Option.bind_eq_some_iff.mp rest
  cases is
  have allowed : src.format ∉ [.fmu2, .fmu4, .fmu8, .vbgr, .vrgb] := by
    revert known pixels
    unfold BstHwOnceCfg.Pixels
    cases src.format <;> simp [bsFormatToBst] <;> rintro rfl <;> decide
  rw [bsCovertMdl, if_pos allowed, made, Option.bind_some]

/-- Virtual channels need a kernel that is moved on. -/
theorem select_virtual {cfg : BstHwOnceCfg} (virtual : cfg.dstFormat = .vbgr ∨ cfg.dstFormat = .vrgb)
    (still : cfg.kernelXstride = 0) (malloc : Int) (s : BstMdl) : bstSelect cfg malloc s = none := by
  have none (stride : UInt32) : cfg.kernelArgs stride = none := by
    rw [BstHwOnceCfg.kernelArgs, dif_neg (by simp [still])]
  have planar : cfg.dstFormat ≠ .nv12 := by
    rcases virtual with is | is <;> simp [is]
  have other : bstFormatIsBgr cfg.dstFormat = false := by
    rcases virtual with is | is <;> rw [is] <;> rfl
  rw [bstSelect, if_neg fun both => planar both.2, if_neg (by simp [other]),
    if_neg (by simp [other]), if_pos virtual]
  split <;> simp [none]

/-- A destination of virtual channels is never filled, because the strides are left at zero. -/
theorem bsCovertMdl_virtual (virtual : dst.format = .vbgr ∨ dst.format = .vrgb) (malloc : Int)
    (s : BstMdl) : bsCovertMdl src dst coef offset task kernelSize malloc s = none := by
  rw [bsCovertMdl]
  split
  · rw [Option.bind_eq_none_iff]
    intro cfg made
    obtain ⟨format, _, rest⟩ := Option.bind_eq_some_iff.mp made
    obtain ⟨format', known, is⟩ := Option.bind_eq_some_iff.mp rest
    cases is
    have virtual' : format' = .vbgr ∨ format' = .vrgb := by
      rcases virtual with is | is <;> rw [is] at known <;> cases known
      · exact .inl rfl
      · exact .inr rfl
    rw [bstMdl, Option.bind_eq_none_iff]
    intro s' _
    rw [select_virtual virtual' rfl, Option.map_none]
  · rfl

end Covert

/-- `bs_covert_mdl` converts every image, and touches no byte but those of the destination. -/
theorem bsCovertMdl_converts (src dst : DataInfo) (coef : Fin 9 → UInt32) (offset : Fin 2 → UInt32)
    (task : TaskInfo) (kernelSize : UInt8) (malloc : Int) {cfg : BstHwOnceCfg}
    (made : covertCfg src dst coef offset task kernelSize = some cfg)
    (convertible : cfg.Convertible) (s : BstMdl) :
    ∃ after, bsCovertMdl src dst coef offset task kernelSize malloc s = some after ∧
      s.Converted cfg after := by
  rw [bsCovertMdl_eq made convertible.src]
  exact bstMdl_converts convertible malloc s

/-- A square of two by two pixels at an address. -/
def twoByTwo (base : Int) (format : DataFormat) (lineStride : Int) : DataInfo :=
  { base := base, base1 := 0, format := format, width := 2, height := 2, lineStride := lineStride }

/-- The configuration of its conversion from NV12. -/
def twoByTwoCfg : BstHwOnceCfg :=
  { srcFormat := .nv12, srcW := 2, srcH := 2, srcBase0 := 0, srcBase1 := 4, srcLineStride := 2
    dstFormat := .bgra, dstW := 2, dstH := 2, dstBase0 := 16, dstBase1 := 0, dstLineStride := 8
    dstPlaneStride := 0, kernelSize := 0, kernelXstride := 0, kernelYstride := 0, zeroPoint := 0
    padLeft := 0, padRight := 0, padTop := 0, padBottom := 0, nv2bgrAlpha := 0
    nv2bgrCoef := fun _ => 0, nv2bgrOfst := fun _ => 0 }

theorem twoByTwoCfg_convertible : twoByTwoCfg.Convertible where
  src := .inl rfl
  dst := .inr rfl
  width := rfl
  height := rfl
  even _ := by decide
  short _ _ := by decide
  once := by decide
  apart := by decide

/-- The square is converted. -/
theorem bsCovertMdl_converts_square : ∃ after, bsCovertMdl (twoByTwo 0 .nv12 2) (twoByTwo 16 .bgra 8)
      (fun _ => 0) (fun _ => 0) ⟨0, 0⟩ 0 64 ⟨fun _ => 0, 0, 0⟩ = some after ∧
    BstMdl.Converted twoByTwoCfg ⟨fun _ => 0, 0, 0⟩ after :=
  bsCovertMdl_converts (twoByTwo 0 .nv12 2) (twoByTwo 16 .bgra 8) (fun _ => 0) (fun _ => 0) ⟨0, 0⟩ 0 64
    rfl twoByTwoCfg_convertible ⟨fun _ => 0, 0, 0⟩

end Aip.Bscaler
