import Mathlib.Data.List.ProdSigma
import Aip.Lib.Checksum
import Aip.Lib.Raster

/-! The input checksum of the scaler model counts the bytes of the source box. -/

namespace Aip.Bscaler

open Checksum

/-- A byte of a source plane, by its offset from the base of the plane. -/
inductive SrcByte where
  | luma (offset : Nat)
  | chroma (offset : Nat)
deriving DecidableEq

/-- What the loops of a checksum hold: the sum, `byte_num`, and the bytes read so far. -/
structure Isum where
  sum : UInt32
  byteNum : UInt32
  read : List SrcByte

/-- Adds one byte of a plane. -/
def Isum.add (mem : SrcByte → UInt8) (s : Isum) (place : SrcByte) : Isum :=
  { s with sum := s.sum + (mem place).toUInt32, read := s.read ++ [place] }

/-- The arguments of `bscaler_frmc_calc_isum` but its two bases. -/
structure IsumArgs where
  wSrc : UInt32
  hSrc : UInt32
  psSrc : UInt32
  formatSrc : UInt32
  bpp : UInt32

namespace IsumArgs

/-- `bpp_sel`. -/
def bppSel (a : IsumArgs) : UInt32 := if a.formatSrc = 0 then 1 else a.bpp

/-- The index of both loops, of 32 bits. -/
def offset (a : IsumArgs) (y x byteNum : UInt32) : Nat :=
  (y * a.psSrc + x * a.bppSel + byteNum).toNat

/-- One pass of the luma loops; their counter outlives them. -/
def lumaPass (a : IsumArgs) (mem : SrcByte → UInt8) (s : Isum) (at' : Nat × Nat) : Isum :=
  let read := (List.range a.bppSel.toNat).foldl (fun s n =>
    s.add mem (.luma (a.offset at'.1.toUInt32 at'.2.toUInt32 n.toUInt32))) s
  { read with byteNum := a.bppSel }

/-- One pass of the chroma loops. -/
def chromaPass (a : IsumArgs) (mem : SrcByte → UInt8) (s : Isum) (at' : Nat × Nat) : Isum :=
  s.add mem (.chroma (a.offset at'.1.toUInt32 at'.2.toUInt32 s.byteNum))

end IsumArgs

/-- The rows and columns in the order of two loops. -/
def pixels (w h : Nat) : List (Nat × Nat) := List.range h ×ˢ List.range w

/-- `bscaler_frmc_calc_isum`, from `bsc_isum` and whatever `byte_num` holds at its start. -/
def bscalerFrmcCalcIsum (a : IsumArgs) (mem : SrcByte → UInt8) (s : Isum) : Isum :=
  let s := (pixels a.wSrc.toNat a.hSrc.toNat).foldl (a.lumaPass mem) s
  if a.formatSrc = 0 then
    (pixels a.wSrc.toNat (a.hSrc / 2).toNat).foldl (a.chromaPass mem) s
  else s

/-- `bst_nv12_isum`, from `bst_isum`. -/
def bstNv12Isum (mem : SrcByte → UInt8) (w h : Nat) (stride : UInt32) (s : Isum) : Isum :=
  let s := (pixels w h).foldl (fun s at' =>
    s.add mem (.luma (at'.1.toUInt32 * stride + at'.2.toUInt32).toNat)) s
  (pixels w (h / 2)).foldl (fun s at' =>
    s.add mem (.chroma (at'.1.toUInt32 * stride + at'.2.toUInt32).toNat)) s

namespace IsumArgs

/-- The bytes of a row of the first plane. -/
def rowBytes (a : IsumArgs) : Nat := a.wSrc.toNat * a.bppSel.toNat

/-- The bytes of the box: its rows, and for NV12 half as many rows of chroma. -/
def box (a : IsumArgs) : List SrcByte :=
  (pixels a.rowBytes a.hSrc.toNat).map (fun at' => .luma (at'.1 * a.psSrc.toNat + at'.2)) ++
    if a.formatSrc = 0 then
      (pixels a.wSrc.toNat (a.hSrc / 2).toNat).map fun at' =>
        .chroma (at'.1 * a.psSrc.toNat + at'.2)
    else []

/-- The checksum gains what the box holds, from whatever it starts, and no other byte is read. -/
def CountsBox (a : IsumArgs) : Prop :=
  ∀ (mem : SrcByte → UInt8) (bscIsum byteNum : UInt32),
    (bscalerFrmcCalcIsum a mem ⟨bscIsum, byteNum, []⟩).sum = bscIsum + total mem a.box ∧
      ∀ place ∈ (bscalerFrmcCalcIsum a mem ⟨bscIsum, byteNum, []⟩).read, place ∈ a.box

/-- An index of 32 bits reaches every byte of the first plane. -/
def Fits (a : IsumArgs) : Prop :=
  ∀ y < a.hSrc.toNat, ∀ b < a.rowBytes, y * a.psSrc.toNat + b < 2 ^ 32

end IsumArgs

section Loops

variable {mem : SrcByte → UInt8} {s : Isum} {a : IsumArgs}

/-- Adding byte after byte adds their total and leaves the counter alone. -/
theorem foldl_isum_add (places : List SrcByte) : places.foldl (Isum.add mem) s =
    ⟨s.sum + total mem places, s.byteNum, s.read ++ places⟩ := by
  -- The sum is carried along, so the induction is over all sums.
  induction places generalizing s with
  | nil => simp [total]
  | cons place places ih =>
    rw [List.foldl_cons, ih, total_cons]
    simp [Isum.add, UInt32.add_assoc]

/-- The bytes of one pass of the luma loops. -/
def IsumArgs.passBytes (a : IsumArgs) (at' : Nat × Nat) : List SrcByte :=
  (List.range a.bppSel.toNat).map fun n =>
    .luma (a.offset at'.1.toUInt32 at'.2.toUInt32 n.toUInt32)

/-- One pass of the luma loops adds its bytes and leaves the counter at their number. -/
theorem lumaPass_eq (at' : Nat × Nat) : a.lumaPass mem s at' =
    ⟨s.sum + total mem (a.passBytes at'), a.bppSel, s.read ++ a.passBytes at'⟩ := by
  have read : (a.passBytes at').foldl (Isum.add mem) s = _ := foldl_isum_add _
  -- The loop over the bytes of a pixel is a fold over their offsets.
  rw [IsumArgs.passBytes, List.foldl_map] at read
  rw [IsumArgs.lumaPass, read]
  rfl

/-- Behind the luma loops the counter is where its last loop left it, if that ever ran. -/
theorem foldl_lumaPass (passes : List (Nat × Nat)) : passes.foldl (a.lumaPass mem) s =
    ⟨s.sum + total mem (passes.flatMap a.passBytes), if passes = [] then s.byteNum else a.bppSel,
      s.read ++ passes.flatMap a.passBytes⟩ := by
  -- The counter is set anew in each pass.
  induction passes generalizing s with
  | nil => simp [total]
  | cons at' passes ih =>
    rw [List.foldl_cons, ih, lumaPass_eq, List.flatMap_cons, total_append]
    simp [UInt32.add_assoc]

/-- The chroma loops leave the counter alone. -/
theorem foldl_chromaPass (passes : List (Nat × Nat)) : passes.foldl (a.chromaPass mem) s =
    (passes.map fun at' => SrcByte.chroma
      (a.offset at'.1.toUInt32 at'.2.toUInt32 s.byteNum)).foldl (Isum.add mem) s := by
  -- A chroma pass reads the counter and never sets it.
  rw [List.foldl_map]
  induction passes generalizing s with
  | nil => rfl
  | cons at' passes ih => exact ih

end Loops

/-- Two loops over the parts of a row go once over the row. -/
theorem flatMap_range_parts {β : Type*} (f : Nat → β) (w b : Nat) :
    ((List.range w).flatMap fun x => (List.range b).map fun n => f (x * b + n)) =
      (List.range (w * b)).map f := by
  -- A row gets longer by the parts of its last element.
  induction w with
  | zero => simp
  | succ w ih =>
    rw [List.range_succ, List.flatMap_append, ih, Nat.succ_mul, List.range_add, List.map_append]
    simp

/-- The pixels row by row. -/
theorem pixels_eq (w h : Nat) :
    pixels w h = (List.range h).flatMap fun y => (List.range w).map (Prod.mk y) := rfl

/-- What is done with each pixel is done row by row. -/
theorem map_pixels {β : Type*} (f : Nat × Nat → β) (w h : Nat) : (pixels w h).map f =
    (List.range h).flatMap fun y => (List.range w).map fun x => f (y, x) := by
  rw [pixels_eq, List.map_flatMap]
  simp only [List.map_map, Function.comp_def]

/-- So is what is collected from each pixel. -/
theorem flatMap_pixels {β : Type*} (f : Nat × Nat → List β) (w h : Nat) : (pixels w h).flatMap f =
    (List.range h).flatMap fun y => (List.range w).flatMap fun x => f (y, x) := by
  rw [pixels_eq, List.flatMap_assoc]
  simp only [List.flatMap_map]

namespace IsumArgs

variable {a : IsumArgs}

/-- An offset is computed on 32 bits. -/
theorem offset_eq (y x n : Nat) : a.offset y.toUInt32 x.toUInt32 n.toUInt32 =
    (y * a.psSrc.toNat + x * a.bppSel.toNat + n) % 2 ^ 32 := by
  simp [offset, Nat.add_mod, Nat.mul_mod]

/-- The bytes that the loops read, when `byte_num` starts with some value. -/
def reads (a : IsumArgs) (byteNum : UInt32) : List SrcByte :=
  (pixels a.wSrc.toNat a.hSrc.toNat).flatMap a.passBytes ++
    if a.formatSrc = 0 then
      (pixels a.wSrc.toNat (a.hSrc / 2).toNat).map fun at' => .chroma (a.offset at'.1.toUInt32
        at'.2.toUInt32 (if pixels a.wSrc.toNat a.hSrc.toNat = [] then byteNum else a.bppSel))
    else []

/-- The loops add what they read. -/
theorem calc_reads (mem : SrcByte → UInt8) (bscIsum byteNum : UInt32) :
    (bscalerFrmcCalcIsum a mem ⟨bscIsum, byteNum, []⟩).sum =
        bscIsum + total mem (a.reads byteNum) ∧
      (bscalerFrmcCalcIsum a mem ⟨bscIsum, byteNum, []⟩).read = a.reads byteNum := by
  -- The chroma loops start from the state that the luma loops leave.
  unfold bscalerFrmcCalcIsum reads
  rw [foldl_lumaPass]
  -- Only NV12 has chroma loops.
  by_cases nv12 : a.formatSrc = 0
  · simp only [if_pos nv12]
    rw [foldl_chromaPass, foldl_isum_add, total_append]
    exact ⟨UInt32.add_assoc .., rfl⟩
  · simp [if_neg nv12]

/-- The luma loops read the rows of the box in order, when an index reaches them all. -/
theorem lumaReads_eq (fits : a.Fits) :
    (pixels a.wSrc.toNat a.hSrc.toNat).flatMap a.passBytes =
      (pixels a.rowBytes a.hSrc.toNat).map fun at' =>
        .luma (at'.1 * a.psSrc.toNat + at'.2) := by
  rw [flatMap_pixels, map_pixels]
  refine List.flatMap_congr fun y row => ?_
  have parts := flatMap_range_parts (fun b => SrcByte.luma (y * a.psSrc.toNat + b))
    a.wSrc.toNat a.bppSel.toNat
  refine Eq.trans (List.flatMap_congr fun x column => List.map_congr_left fun n part => ?_) parts
  -- The byte lies in its row, where the index does not come round.
  have inRow : x * a.bppSel.toNat + n < a.rowBytes := by
    have last := Nat.mul_le_mul_right a.bppSel.toNat (List.mem_range.mp column)
    have := List.mem_range.mp part
    rw [Nat.succ_mul] at last
    exact lt_of_lt_of_le (by omega) last
  have small := fits y (List.mem_range.mp row) _ inRow
  rw [offset_eq, Nat.add_assoc, Nat.mod_eq_of_lt small]

/-- Nothing but the bytes of the box is read where the chroma loops do not run. -/
theorem reads_eq_box (fits : a.Fits) (byteNum : UInt32)
    (flat : a.formatSrc = 0 → pixels a.wSrc.toNat (a.hSrc / 2).toNat = []) :
    a.reads byteNum = a.box := by
  -- The luma bytes agree already.
  rw [reads, box, lumaReads_eq fits]
  by_cases nv12 : a.formatSrc = 0
  · rw [flat nv12]
    rfl
  · rw [if_neg nv12, if_neg nv12]

/-- NV12 has half as many rows of chroma. -/
theorem halfRows : (a.hSrc / 2).toNat = a.hSrc.toNat / 2 := UInt32.toNat_div ..

/-- The luma plane of NV12 has one byte a pixel. -/
theorem bppSel_nv12 (nv12 : a.formatSrc = 0) : a.bppSel = 1 := if_pos nv12

/-- A row of NV12 has a byte for each pixel. -/
theorem rowBytes_nv12 (nv12 : a.formatSrc = 0) : a.rowBytes = a.wSrc.toNat := by
  rw [rowBytes, bppSel_nv12 nv12]
  exact Nat.mul_one _

/-- Rows that a stride keeps apart share no byte. -/
theorem offsets_nodup {n h stride : Nat} (narrow : n ≤ stride) :
    ((pixels n h).map fun at' => at'.1 * stride + at'.2).Nodup := by
  refine List.Nodup.map_on ?_ (List.nodup_range.product List.nodup_range)
  rintro ⟨y, x⟩ here ⟨y', x'⟩ there same
  have inRow := List.mem_range.mp (List.mem_product.mp here).2
  have inRow' := List.mem_range.mp (List.mem_product.mp there).2
  have equal : (y : Int) * stride + x = y' * stride + x' := by exact_mod_cast same
  -- A column is below the stride, so row and column are determined by the offset.
  obtain ⟨row, column⟩ := Raster.offset_unique ⟨by omega, by omega⟩ ⟨by omega, by omega⟩ equal
  rw [Int.natCast_inj.mp row, Int.natCast_inj.mp column]

/-- No byte of a box is counted twice. -/
theorem box_nodup (stride : a.rowBytes ≤ a.psSrc.toNat) : a.box.Nodup := by
  unfold box
  -- Luma and chroma bytes are of different planes.
  refine List.Nodup.append ?_ ?_ ?_
  · rw [← Function.comp_def SrcByte.luma, ← List.map_map]
    exact (offsets_nodup stride).map fun _ _ same => SrcByte.luma.inj same
  · by_cases nv12 : a.formatSrc = 0
    · rw [if_pos nv12, ← Function.comp_def SrcByte.chroma, ← List.map_map]
      rw [rowBytes_nv12 nv12] at stride
      exact (offsets_nodup stride).map fun _ _ same => SrcByte.chroma.inj same
    · rw [if_neg nv12]
      exact List.nodup_nil
  · intro place luma chroma
    obtain ⟨_, _, rfl⟩ := List.mem_map.mp luma
    split at chroma
    · obtain ⟨_, _, differ⟩ := List.mem_map.mp chroma
      cases differ
    · cases chroma

/-- `bst_nv12_isum` counts every NV12 box whose bytes an index reaches. -/
theorem bstNv12Isum_counts (fits : a.Fits) (nv12 : a.formatSrc = 0) (mem : SrcByte → UInt8)
    (s : Isum) : bstNv12Isum mem a.wSrc.toNat a.hSrc.toNat a.psSrc s =
      ⟨s.sum + total mem a.box, s.byteNum, s.read ++ a.box⟩ := by
  have wide := rowBytes_nv12 nv12
  -- In no row does an index come round, and the chroma has fewer rows than the luma.
  have plane : ∀ {h : Nat}, h ≤ a.hSrc.toNat → ∀ (place : Nat → SrcByte) (s : Isum),
      (pixels a.wSrc.toNat h).foldl (fun s at' =>
        s.add mem (place (at'.1.toUInt32 * a.psSrc + at'.2.toUInt32).toNat)) s =
      ((pixels a.wSrc.toNat h).map fun at' =>
        place (at'.1 * a.psSrc.toNat + at'.2)).foldl (Isum.add mem) s := by
    intro h few place s
    rw [List.foldl_map]
    refine List.foldl_ext _ _ _ fun s at' passed => ?_
    obtain ⟨row, column⟩ := List.mem_product.mp passed
    have row := List.mem_range.mp row
    have column := List.mem_range.mp column
    have small := fits at'.1 (by omega) at'.2 (by omega)
    have around : (at'.1.toUInt32 * a.psSrc + at'.2.toUInt32).toNat =
        (at'.1 * a.psSrc.toNat + at'.2) % 2 ^ 32 := by
      simp [Nat.add_mod, Nat.mul_mod]
    rw [around, Nat.mod_eq_of_lt small]
  unfold bstNv12Isum box
  simp only [plane (Nat.le_refl _) .luma, plane (Nat.div_le_self _ 2) .chroma]
  rw [foldl_isum_add, foldl_isum_add, wide, if_pos nv12, halfRows, total_append, UInt32.add_assoc,
    List.append_assoc]

/-- A luma byte that is read has an index of 32 bits. -/
theorem luma_lt {byteNum : UInt32} {offset : Nat} (read : .luma offset ∈ a.reads byteNum) :
    offset < 2 ^ 32 := by
  -- A chroma byte is none of the luma plane.
  rcases List.mem_append.mp read with luma | chroma
  · obtain ⟨at', _, byte⟩ := List.mem_flatMap.mp luma
    obtain ⟨n, _, same⟩ := List.mem_map.mp byte
    rw [← SrcByte.luma.inj same]
    exact UInt32.toNat_lt _
  · split at chroma
    · obtain ⟨_, _, differ⟩ := List.mem_map.mp chroma
      cases differ
    · cases chroma

/-- The first chroma byte of an NV12 box is never read: the counter still stands behind it. -/
theorem chroma_zero_not_read {byteNum : UInt32} (fits : a.Fits) (nv12 : a.formatSrc = 0)
    (stride : a.rowBytes ≤ a.psSrc.toNat) : .chroma 0 ∉ a.reads byteNum := by
  intro read
  rcases List.mem_append.mp read with luma | chroma
  · obtain ⟨at', _, byte⟩ := List.mem_flatMap.mp luma
    obtain ⟨n, _, differ⟩ := List.mem_map.mp byte
    cases differ
  · rw [if_pos nv12] at chroma
    obtain ⟨⟨y, x⟩, passed, same⟩ := List.mem_map.mp chroma
    obtain ⟨row, column⟩ := List.mem_product.mp passed
    have row := List.mem_range.mp row
    have column := List.mem_range.mp column
    rw [halfRows] at row
    have half : y + 1 < a.hSrc.toNat := by omega
    -- The last byte of the luma row behind this one bounds the index, so that it does not wrap.
    have wide := rowBytes_nv12 nv12
    have below := fits (y + 1) half x (by omega)
    rw [Nat.succ_mul] at below
    -- With a chroma row there are luma rows, so that the counter has been set to 1.
    have ran : pixels a.wSrc.toNat a.hSrc.toNat ≠ [] :=
      List.ne_nil_of_mem (List.mem_product.mpr
        ⟨List.mem_range.mpr half, List.mem_range.mpr column⟩)
    have index := offset_eq (a := a) y x 1
    rw [if_neg ran, bppSel_nv12 nv12] at same
    rw [bppSel_nv12 nv12, show (1 : UInt32).toNat = 1 from rfl] at index
    -- An index that is one more than a product is not zero.
    have zero := index.symm.trans (SrcByte.chroma.inj same)
    omega

/-- Where rows do not overlap, exactly the box is counted when an index reaches all of its bytes
and there are no chroma loops: their index goes on from where the luma loops left the counter. -/
theorem countsBox_iff (stride : a.rowBytes ≤ a.psSrc.toNat) :
    a.CountsBox ↔ a.Fits ∧ (a.formatSrc ≠ 0 ∨ a.wSrc = 0 ∨ a.hSrc < 2) := by
  constructor
  · intro counts
    -- A sum that is right for every content reads every byte of the box.
    have met : ∀ byteNum, ∀ place ∈ a.box, place ∈ a.reads byteNum := by
      intro byteNum place member
      refine mem_of_total (fun mem => ?_) (box_nodup stride) member
      have sum := (counts mem 0 byteNum).1
      rw [(calc_reads mem 0 byteNum).1, UInt32.zero_add, UInt32.zero_add] at sum
      exact sum
    have fits : a.Fits := by
      intro y row b part
      have member : SrcByte.luma (y * a.psSrc.toNat + b) ∈ a.box :=
        List.mem_append_left _ (List.mem_map.mpr ⟨(y, b), List.mem_product.mpr
          ⟨List.mem_range.mpr row, List.mem_range.mpr part⟩, rfl⟩)
      exact luma_lt (met 0 _ member)
    refine ⟨fits, ?_⟩
    -- The first chroma byte of the box is one that the loops pass over.
    by_contra chroma
    push Not at chroma
    obtain ⟨nv12, wide, high⟩ := chroma
    have wide : 0 < a.wSrc.toNat := UInt32.pos_iff_ne_zero.mpr wide
    have high : ¬ a.hSrc.toNat < 2 := fun low => high (UInt32.lt_iff_toNat_lt.mpr low)
    have first : SrcByte.chroma 0 ∈ a.box := by
      refine List.mem_append_right _ ?_
      rw [if_pos nv12, halfRows]
      refine List.mem_map.mpr ⟨(0, 0), List.mem_product.mpr ⟨?_, ?_⟩, by simp⟩
      · exact List.mem_range.mpr (by omega)
      · exact List.mem_range.mpr wide
    exact chroma_zero_not_read fits nv12 stride (met 0 _ first)
  · rintro ⟨fits, still⟩ mem bscIsum byteNum
    -- Without a pixel in a row, or without two rows, there is no chroma.
    have flat : a.formatSrc = 0 → pixels a.wSrc.toNat (a.hSrc / 2).toNat = [] := by
      intro nv12
      rw [halfRows, pixels_eq]
      rcases still with other | narrow | low
      · exact absurd nv12 other
      · simp [narrow]
      · have low : a.hSrc.toNat < 2 := UInt32.lt_iff_toNat_lt.mp low
        rw [Nat.div_eq_of_lt low]
        rfl
    have exact' := reads_eq_box fits byteNum flat
    obtain ⟨sum, read⟩ := calc_reads (a := a) mem bscIsum byteNum
    rw [exact'] at sum read
    exact ⟨sum, fun place member => read ▸ member⟩

/-- A box of two rows of two pixels in the middle of a picture is counted exactly. -/
theorem countsBox_iff_rgb : (⟨2, 2, 64, 1, 4⟩ : IsumArgs).CountsBox :=
  (countsBox_iff (by decide)).mpr ⟨by unfold Fits; decide, Or.inl (by decide)⟩

/-- Of an NV12 box the first chroma byte is missed. -/
theorem not_countsBox_nv12 : ¬ (⟨2, 2, 2, 0, 4⟩ : IsumArgs).CountsBox := by
  intro counts
  have sum := (counts (mark (.chroma 0)) 0 0).1
  revert sum
  decide

end IsumArgs

end Aip.Bscaler
