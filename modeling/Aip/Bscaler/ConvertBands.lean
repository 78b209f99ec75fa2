import Aip.Bscaler.ConvertLaws

/-! An image converted in bands of rows, one after the other. -/

namespace Aip.Bscaler

open Checksum (total)
open Transfer (Filled)

/-- So many rows of both images, from a row on. -/
def BstHwOnceCfg.band (cfg : BstHwOnceCfg) (top rows : Nat) : BstHwOnceCfg :=
  { cfg with
    srcH := rows.toUInt16
    dstH := rows.toUInt16
    srcBase0 := cfg.srcBase0 + top * cfg.srcLineStride.toNat
    srcBase1 := cfg.srcBase1 + (top / 2 : Nat) * cfg.srcLineStride.toNat
    dstBase0 := cfg.dstBase0 + top * cfg.dstLineStride.toNat
    dstBase1 := cfg.dstBase1 + (top / 2 : Nat) * cfg.dstLineStride.toNat }

/-- `bst_mdl` for one band after the other, from a row on. -/
def bstBands (cfg : BstHwOnceCfg) (malloc : Int) : Nat → List Nat → BstMdl → Option BstMdl
  | _, [], s => some s
  | top, rows :: bands, s =>
    (bstMdl (cfg.band top rows) malloc s).bind (bstBands cfg malloc (top + rows) bands)

/-- A byte of a band as one of the image. -/
def below (top : Nat) (i : ImageByte) : ImageByte :=
  (i.1, i.2.1 + (if i.1 = 0 then top else top / 2), i.2.2)

/-- The bytes of the bands from a row on. -/
def bandBytes (format : BstFormat) (w : Nat) : Nat → List Nat → List ImageByte
  | _, [] => []
  | top, rows :: bands =>
    (imageBytes format w rows).map (below top) ++ bandBytes format w (top + rows) bands

section Bytes

variable {format : BstFormat} {w h top rows : Nat} {bands : List Nat} {i : ImageByte}

theorem nodup_pixels : (pixels w h).Nodup := List.nodup_range.product List.nodup_range

theorem nodup_imageBytes : (imageBytes format w h).Nodup := by
  unfold imageBytes
  split
  · -- Bytes of different planes are different.
    refine List.Nodup.append ?_ ?_ ?_
    · exact nodup_pixels.map fun _ _ same => (Prod.mk.inj same).2
    · exact nodup_pixels.map fun _ _ same => (Prod.mk.inj same).2
    · intro i luma chroma
      obtain ⟨_, _, rfl⟩ := List.mem_map.mp luma
      obtain ⟨_, _, same⟩ := List.mem_map.mp chroma
      cases same
  · have passes : (bytePasses w h).Nodup :=
      List.nodup_range.product (List.nodup_range.product List.nodup_range)
    refine (List.nodup_map_iff_inj_on passes).mpr ?_
    rintro ⟨y, x, k⟩ passed ⟨y', x', k'⟩ passed' same
    have few := (mem_bytePasses.mp passed).2.2
    have few' := (mem_bytePasses.mp passed').2.2
    simp only [Prod.mk.injEq, true_and] at same
    obtain ⟨rfl, column⟩ := same
    have here : x = x' ∧ k = k' := by omega
    rw [here.1, here.2]

/-- Where the bytes of an image are. -/
theorem mem_imageBytes : i ∈ imageBytes format w h ↔
    if format = .nv12 then i.2.2 < w ∧ (i.1 = 0 ∧ i.2.1 < h ∨ i.1 = 1 ∧ i.2.1 < h / 2)
    else i.1 = 0 ∧ i.2.1 < h ∧ i.2.2 < w * 4 := by
  unfold imageBytes
  split
  · exact mem_nv12Bytes
  · exact mem_bgrBytes

/-- Where the bytes of one band are. -/
theorem mem_band : i ∈ (imageBytes format w rows).map (below top) ↔
    if format = .nv12 then i.2.2 < w ∧ (i.1 = 0 ∧ top ≤ i.2.1 ∧ i.2.1 < top + rows ∨
      i.1 = 1 ∧ top / 2 ≤ i.2.1 ∧ i.2.1 < top / 2 + rows / 2)
    else i.1 = 0 ∧ (top ≤ i.2.1 ∧ i.2.1 < top + rows) ∧ i.2.2 < w * 4 := by
  obtain ⟨plane, row, column⟩ := i
  simp only [List.mem_map, mem_imageBytes, below, Prod.exists, Prod.mk.injEq]
  split
  · constructor
    · rintro ⟨_, row', _, ⟨inside, ⟨rfl, low⟩ | ⟨rfl, low⟩⟩, rfl, rfl, rfl⟩
      · exact ⟨inside, .inl ⟨rfl, by simp, by simp; omega⟩⟩
      · exact ⟨inside, .inr ⟨rfl, by simp, by simp; omega⟩⟩
    · rintro ⟨inside, ⟨rfl, low⟩ | ⟨rfl, low⟩⟩
      · exact ⟨0, row - top, column, ⟨inside, .inl ⟨rfl, by omega⟩⟩, rfl, by simp; omega, rfl⟩
      · exact ⟨1, row - top / 2, column, ⟨inside, .inr ⟨rfl, by omega⟩⟩, rfl, by simp; omega, rfl⟩
  · constructor
    · rintro ⟨_, row', _, ⟨rfl, low, inside⟩, rfl, rfl, rfl⟩
      exact ⟨rfl, ⟨by simp, by simp; omega⟩, inside⟩
    · rintro ⟨rfl, low, inside⟩
      exact ⟨0, row - top, column, ⟨rfl, by omega, inside⟩, rfl, by simp; omega, rfl⟩

/-- Where the bytes of the bands are. -/
theorem mem_bandBytes (even : format = .nv12 → top % 2 = 0 ∧ ∀ rows ∈ bands, rows % 2 = 0) :
    i ∈ bandBytes format w top bands ↔
      if format = .nv12 then i.2.2 < w ∧ (i.1 = 0 ∧ top ≤ i.2.1 ∧ i.2.1 < top + bands.sum ∨
        i.1 = 1 ∧ top / 2 ≤ i.2.1 ∧ i.2.1 < (top + bands.sum) / 2)
      else i.1 = 0 ∧ (top ≤ i.2.1 ∧ i.2.1 < top + bands.sum) ∧ i.2.2 < w * 4 := by
  -- The induction is on the bands; the first one ends where the others start.
  induction bands generalizing top with
  | nil =>
    simp only [bandBytes, List.not_mem_nil, List.sum_nil, Nat.add_zero, false_iff]
    split <;> omega
  | cons rows bands ih =>
    have rest := @ih (top + rows) fun nv12 => by
      obtain ⟨first, all⟩ := even nv12
      have own := all rows List.mem_cons_self
      exact ⟨by omega, fun other member => all other (List.mem_cons_of_mem rows member)⟩
    rw [bandBytes, List.mem_append, mem_band, rest, List.sum_cons]
    split
    · rename_i nv12
      obtain ⟨first, all⟩ := even nv12
      have own := all rows List.mem_cons_self
      omega
    · omega

/-- No byte is in two bands. -/
theorem nodup_bandBytes (even : format = .nv12 → top % 2 = 0 ∧ ∀ rows ∈ bands, rows % 2 = 0) :
    (bandBytes format w top bands).Nodup := by
  induction bands generalizing top with
  | nil => exact List.nodup_nil
  | cons rows bands ih =>
    have later : format = .nv12 → (top + rows) % 2 = 0 ∧ ∀ rows ∈ bands, rows % 2 = 0 := by
      intro nv12
      obtain ⟨first, all⟩ := even nv12
      have own := all rows List.mem_cons_self
      exact ⟨by omega, fun other member => all other (List.mem_cons_of_mem rows member)⟩
    rw [bandBytes]
    refine List.Nodup.append (nodup_imageBytes.map ?_) (ih later) ?_
    · rintro ⟨plane, row, column⟩ ⟨plane', row', column'⟩ same
      simp only [below, Prod.mk.injEq] at same
      obtain ⟨rfl, place, rfl⟩ := same
      have equal : row = row' := by omega
      rw [equal]
    · intro i first others
      rw [mem_band] at first
      rw [mem_bandBytes later] at others
      split at first
      · rename_i nv12
        obtain ⟨even', all⟩ := even nv12
        have own := all rows List.mem_cons_self
        rw [if_pos nv12] at others
        omega
      · rename_i other
        rw [if_neg other] at others
        omega

/-- The bands from the first row on have the bytes of the image. -/
theorem bandBytes_perm (even : format = .nv12 → ∀ rows ∈ bands, rows % 2 = 0) :
    (bandBytes format w 0 bands).Perm (imageBytes format w bands.sum) := by
  have even' : format = .nv12 → 0 % 2 = 0 ∧ ∀ rows ∈ bands, rows % 2 = 0 :=
    fun nv12 => ⟨rfl, even nv12⟩
  rw [List.perm_ext_iff_of_nodup (nodup_bandBytes even') nodup_imageBytes]
  intro i
  rw [mem_bandBytes even', mem_imageBytes]
  split <;> omega

end Bytes

namespace BstHwOnceCfg

variable {cfg : BstHwOnceCfg} {mem : Memory} {top rows : Nat} {i : ImageByte}

/-- A band of the image, which starts and ends between blocks where it has any. -/
structure Band (cfg : BstHwOnceCfg) (top rows : Nat) : Prop where
  within : top + rows ≤ cfg.srcH.toNat
  even : cfg.srcFormat = .nv12 ∨ cfg.dstFormat = .nv12 → top % 2 = 0 ∧ rows % 2 = 0

/-- A byte of a band is found where the image has it. -/
theorem byteCell_below (base0 base1 : Int) (stride : UInt32) (top : Nat) (i : ImageByte) :
    byteCell (base0 + top * stride.toNat) (base1 + (top / 2 : Nat) * stride.toNat) stride i =
      byteCell base0 base1 stride (below top i) := by
  obtain ⟨plane, row, column⟩ := i
  simp only [byteCell, below, cell]
  by_cases luma : plane = 0
  · simp only [luma, if_true]
    push_cast
    ring_nf
  · simp only [luma, if_false]
    push_cast
    ring_nf

theorem band_srcCell : (cfg.band top rows).srcCell i = cfg.srcCell (below top i) :=
  byteCell_below _ _ _ _ _

theorem band_dstCell : (cfg.band top rows).dstCell i = cfg.dstCell (below top i) :=
  byteCell_below _ _ _ _ _

namespace Band

theorem height (band : cfg.Band top rows) : rows.toUInt16.toNat = rows := by
  have small := cfg.srcH.toNat_lt
  have within := band.within
  simp only [Nat.toUInt16_eq, UInt16.toNat_ofNat']
  omega

theorem srcBytes (band : cfg.Band top rows) :
    (cfg.band top rows).srcBytes = imageBytes cfg.srcFormat cfg.srcW.toNat rows := by
  rw [BstHwOnceCfg.srcBytes, BstHwOnceCfg.band, band.height]

theorem dstBytes (band : cfg.Band top rows) :
    (cfg.band top rows).dstBytes = imageBytes cfg.dstFormat cfg.dstW.toNat rows := by
  rw [BstHwOnceCfg.dstBytes, BstHwOnceCfg.band, band.height]

/-- The bytes of a band are bytes of the image. -/
theorem below_mem (band : cfg.Band top rows) {format : BstFormat} {w : Nat}
    (among : format = cfg.srcFormat ∨ format = cfg.dstFormat)
    (member : i ∈ imageBytes format w rows) :
    below top i ∈ imageBytes format w cfg.srcH.toNat := by
  have within := band.within
  have listed := List.mem_map_of_mem (f := below top) member
  rw [mem_band] at listed
  rw [mem_imageBytes]
  split at listed
  · rename_i nv12
    have even : top % 2 = 0 ∧ rows % 2 = 0 := by
      rcases among with rfl | rfl
      · exact band.even (.inl nv12)
      · exact band.even (.inr nv12)
    rw [if_pos nv12]
    omega
  · rename_i other
    rw [if_neg other]
    omega

theorem src_mem (band : cfg.Band top rows) (member : i ∈ (cfg.band top rows).srcBytes) :
    below top i ∈ cfg.srcBytes := by
  rw [band.srcBytes] at member
  exact band.below_mem (.inl rfl) member

theorem dst_mem (band : cfg.Band top rows) (height : cfg.dstH = cfg.srcH)
    (member : i ∈ (cfg.band top rows).dstBytes) : below top i ∈ cfg.dstBytes := by
  rw [band.dstBytes] at member
  rw [BstHwOnceCfg.dstBytes, height]
  exact band.below_mem (.inr rfl) member

/-- A byte of a band is converted as the image has it. -/
theorem converted_eq (band : cfg.Band top rows) (luma : cfg.dstFormat ≠ .nv12 → i.1 = 0) :
    (cfg.band top rows).converted mem i = cfg.converted mem (below top i) := by
  have rgba : cfg.srcFormat = .nv12 → ∀ x y : Nat,
      (cfg.band top rows).rgbaAt mem x y = cfg.rgbaAt mem x (y + top) := by
    intro nv12 x y
    have even := (band.even (.inl nv12)).1
    have half : (y + top) / 2 = y / 2 + top / 2 := by omega
    simp only [rgbaAt, band_srcCell, below, if_true, one_ne_zero, if_false, half]
    rfl
  have formats : (cfg.band top rows).srcFormat = cfg.srcFormat ∧
      (cfg.band top rows).dstFormat = cfg.dstFormat := ⟨rfl, rfl⟩
  simp only [converted, formats.1, formats.2, band_srcCell, band_dstCell]
  by_cases src : cfg.srcFormat = .nv12
  · by_cases dst : cfg.dstFormat = .nv12
    · simp only [src, dst, if_true]
    · simp only [src, dst, if_true, if_false, rgba src, below, luma dst]
  · by_cases dst : cfg.dstFormat = .nv12
    · simp only [src, dst, if_true, if_false]
    · simp only [src, dst, if_false, below]
      rfl

end Band

/-- A band of two images that can be converted can be converted. -/
theorem Convertible.band (convertible : cfg.Convertible) (band : cfg.Band top rows) :
    (cfg.band top rows).Convertible where
  src := convertible.src
  dst := convertible.dst
  width := convertible.width
  height := rfl
  even some := by
    have width := (convertible.even some).1
    have rows := (band.even some).2
    exact ⟨width, by rw [BstHwOnceCfg.band, band.height]; exact rows⟩
  short src dst := by
    have room := convertible.short src dst
    have within := band.within
    rw [BstHwOnceCfg.band, band.height]
    exact (Nat.mul_le_mul_left _ (by omega)).trans room
  once := by
    have nodup : (cfg.band top rows).dstBytes.Nodup := nodup_imageBytes
    refine (List.nodup_map_iff_inj_on nodup).mpr fun i first j second same => ?_
    rw [band_dstCell, band_dstCell] at same
    have equal := List.inj_on_of_nodup_map convertible.once (band.dst_mem convertible.height first)
      (band.dst_mem convertible.height second) same
    obtain ⟨plane, row, column⟩ := i
    obtain ⟨plane', row', column'⟩ := j
    simp only [below, Prod.mk.injEq] at equal
    obtain ⟨rfl, place, rfl⟩ := equal
    have here : row = row' := by omega
    rw [here]
  apart i first j second := by
    rw [band_srcCell, band_dstCell]
    exact convertible.apart _ (band.src_mem first) _ (band.dst_mem convertible.height second)

/-- What is converted depends on the source, and where nothing is converted on the byte itself. -/
theorem Convertible.converted_congr (convertible : cfg.Convertible) {other : Memory}
    (same : ∀ place, Convertible.Reads cfg place → mem place = other place)
    (own : mem (cfg.dstCell i) = other (cfg.dstCell i)) (member : i ∈ cfg.dstBytes) :
    cfg.converted mem i = cfg.converted other i := by
  simp only [converted]
  by_cases src : cfg.srcFormat = .nv12
  · by_cases dst : cfg.dstFormat = .nv12
    · rw [convertible.dst_nv12 dst, ← Convertible.src_nv12 src] at member
      simp only [src, dst, if_true]
      exact same _ ⟨i, member, rfl⟩
    · rw [convertible.dst_bgr dst, mem_bgrBytes] at member
      obtain ⟨_, row, column⟩ := member
      simp only [src, dst, if_true, if_false,
        convertible.rgbaAt_congr src same (by omega : i.2.2 / 4 < cfg.srcW.toNat) row]
  · by_cases dst : cfg.dstFormat = .nv12
    · simp only [src, dst, if_true, if_false]
      exact own
    · rw [convertible.dst_bgr dst, ← Convertible.src_bgr src] at member
      simp only [src, dst, if_false, same _ ⟨i, member, rfl⟩]

end BstHwOnceCfg

/-- The bytes of the bands are filled, and the sums have grown by those of both images. -/
structure BstMdl.Banded (cfg : BstHwOnceCfg) (top : Nat) (bands : List Nat)
    (before after : BstMdl) : Prop where
  filled : Filled before.mem after.mem (bandBytes cfg.dstFormat cfg.dstW.toNat top bands) cfg.dstCell
    (cfg.converted before.mem)
  isum : after.bstIsum = before.bstIsum +
    total before.mem ((bandBytes cfg.srcFormat cfg.srcW.toNat top bands).map cfg.srcCell)
  osum : after.bstOsum = before.bstOsum +
    total after.mem ((bandBytes cfg.dstFormat cfg.dstW.toNat top bands).map cfg.dstCell)

section Run

variable {cfg : BstHwOnceCfg} {s : BstMdl} {top : Nat} {bands : List Nat}

/-- Memories that agree at some places have one total of them. -/
theorem total_congr {α : Type*} {mem other : α → UInt8} {places : List α}
    (same : ∀ place ∈ places, mem place = other place) : total mem places = total other places := by
  rw [total, total, List.map_congr_left fun place member => by rw [same place member]]

/-- The order of the places does not matter. -/
theorem total_perm {α : Type*} (mem : α → UInt8) {places more : List α} (same : places.Perm more) :
    total mem places = total mem more := by
  rw [total, total, (same.map _).sum_eq]

/-- The bands end and start between blocks where the image has any. -/
def Cuts (cfg : BstHwOnceCfg) (top : Nat) (bands : List Nat) : Prop :=
  cfg.srcFormat = .nv12 ∨ cfg.dstFormat = .nv12 → top % 2 = 0 ∧ ∀ rows ∈ bands, rows % 2 = 0

/-- The bytes of the bands are bytes of the image. -/
theorem bandBytes_subset (cuts : Cuts cfg top bands) (within : top + bands.sum ≤ cfg.srcH.toNat)
    {format : BstFormat} {w : Nat} (among : format = cfg.srcFormat ∨ format = cfg.dstFormat) :
    ∀ i ∈ bandBytes format w top bands, i ∈ imageBytes format w cfg.srcH.toNat := by
  have even : format = .nv12 → top % 2 = 0 ∧ ∀ rows ∈ bands, rows % 2 = 0 := by
    intro nv12
    rcases among with rfl | rfl
    · exact cuts (.inl nv12)
    · exact cuts (.inr nv12)
  intro i member
  rw [mem_bandBytes even] at member
  rw [mem_imageBytes]
  split at member
  · rename_i nv12
    rw [if_pos nv12]
    omega
  · rename_i other
    rw [if_neg other]
    omega

/-- A band that is converted first does not change what the others become. -/
theorem BstMdl.Converted.cons {rows : Nat} {middle after : BstMdl}
    (convertible : cfg.Convertible) (band : cfg.Band top rows) (cuts : Cuts cfg top (rows :: bands))
    (later : Cuts cfg (top + rows) bands) (within : top + rows + bands.sum ≤ cfg.srcH.toNat)
    (converted : s.Converted (cfg.band top rows) middle)
    (banded : middle.Banded cfg (top + rows) bands after) :
    s.Banded cfg top (rows :: bands) after := by
  set own := (imageBytes cfg.dstFormat cfg.dstW.toNat rows).map (below top) with named
  set others := bandBytes cfg.dstFormat cfg.dstW.toNat (top + rows) bands
  have among : ∀ i ∈ own ++ others, i ∈ cfg.dstBytes := by
    rw [BstHwOnceCfg.dstBytes, convertible.height]
    exact bandBytes_subset cuts (by rw [List.sum_cons]; omega) (.inr rfl)
  have nodup : (own ++ others).Nodup := nodup_bandBytes fun nv12 => cuts (.inr nv12)
  have first : Filled s.mem middle.mem own cfg.dstCell (cfg.converted s.mem) := by
    have filled := converted.filled
    rw [band.dstBytes] at filled
    refine filled.of_map fun i member => ⟨BstHwOnceCfg.band_dstCell, band.converted_eq ?_⟩
    intro other
    rw [mem_imageBytes, if_neg other] at member
    exact member.1
  -- No byte of the source is stored to, and none of the other bands.
  have kept : ∀ place, BstHwOnceCfg.Convertible.Reads cfg place →
      middle.mem place = s.mem place := by
    intro place read
    refine first.keeps place fun i member here => ?_
    exact convertible.spares (among i (List.mem_append_left others member)) (here ▸ read)
  have apart : ∀ i ∈ own, ∀ j ∈ others, cfg.dstCell j ≠ cfg.dstCell i := by
    intro i earlier j after' same
    have equal := List.inj_on_of_nodup_map convertible.once
      (among j (List.mem_append_right own after')) (among i (List.mem_append_left others earlier)) same
    exact (List.nodup_append.mp nodup).2.2 i earlier j after' equal.symm
  have value : ∀ j ∈ others, cfg.converted middle.mem j = cfg.converted s.mem j := by
    intro j member
    refine convertible.converted_congr kept ?_ (among j (List.mem_append_right own member))
    exact first.keeps _ fun i earlier here => apart i earlier j member here.symm
  refine ⟨first.append (banded.filled.congr value) apart, ?_, ?_⟩
  · have same : total middle.mem
        ((bandBytes cfg.srcFormat cfg.srcW.toNat (top + rows) bands).map cfg.srcCell) =
        total s.mem ((bandBytes cfg.srcFormat cfg.srcW.toNat (top + rows) bands).map cfg.srcCell) := by
      refine total_congr fun place member => ?_
      obtain ⟨i, listed, rfl⟩ := List.mem_map.mp member
      exact kept _ ⟨i, bandBytes_subset later within (.inl rfl) i listed, rfl⟩
    have cells : (cfg.band top rows).srcBytes.map (cfg.band top rows).srcCell =
        ((imageBytes cfg.srcFormat cfg.srcW.toNat rows).map (below top)).map cfg.srcCell := by
      rw [band.srcBytes, List.map_map]
      exact List.map_congr_left fun i _ => BstHwOnceCfg.band_srcCell
    rw [banded.isum, converted.isum, same, cells, bandBytes, List.map_append, Checksum.total_append,
      UInt32.add_assoc]
  · have same : total middle.mem (own.map cfg.dstCell) = total after.mem (own.map cfg.dstCell) := by
      refine total_congr fun place member => ?_
      obtain ⟨i, listed, rfl⟩ := List.mem_map.mp member
      exact (banded.filled.keeps _ fun j after' => apart i listed j after').symm
    have cells : (cfg.band top rows).dstBytes.map (cfg.band top rows).dstCell =
        own.map cfg.dstCell := by
      rw [band.dstBytes, named, List.map_map]
      exact List.map_congr_left fun i _ => BstHwOnceCfg.band_dstCell
    rw [banded.osum, converted.osum, cells, same, bandBytes, List.map_append, Checksum.total_append,
      UInt32.add_assoc]

/-- Bands that are converted one after the other leave what each of them fills. -/
theorem bstBands_banded (convertible : cfg.Convertible) (malloc : Int)
    (within : top + bands.sum ≤ cfg.srcH.toNat) (cuts : Cuts cfg top bands) :
    ∃ after, bstBands cfg malloc top bands s = some after ∧ s.Banded cfg top bands after := by
  -- The induction is on the bands, from the memory that the first of them leaves.
  induction bands generalizing top s with
  | nil =>
    refine ⟨s, rfl, Filled.nil, ?_, ?_⟩
    · simp [bandBytes]
    · simp [bandBytes]
  | cons rows bands ih =>
    rw [List.sum_cons] at within
    have band : cfg.Band top rows :=
      ⟨by omega, fun some => ⟨(cuts some).1, (cuts some).2 rows List.mem_cons_self⟩⟩
    have later : Cuts cfg (top + rows) bands := by
      intro some
      obtain ⟨first, own⟩ := band.even some
      exact ⟨by omega, fun other member => (cuts some).2 other (List.mem_cons_of_mem rows member)⟩
    obtain ⟨middle, made, converted⟩ := bstMdl_converts (convertible.band band) malloc s
    obtain ⟨after, rest, banded⟩ := @ih middle (top + rows) (by omega) later
    refine ⟨after, by rw [bstBands, made, Option.bind_some, rest], ?_⟩
    exact converted.cons convertible band cuts later (by omega) banded

end Run

/--
An image may be converted in any bands that end between blocks: the memory and both sums become what
they become in one piece.
-/
theorem bstBands_eq {cfg : BstHwOnceCfg} (convertible : cfg.Convertible) (malloc : Int)
    {bands : List Nat} (all : bands.sum = cfg.srcH.toNat)
    (even : cfg.srcFormat = .nv12 ∨ cfg.dstFormat = .nv12 → ∀ rows ∈ bands, rows % 2 = 0)
    (s : BstMdl) : bstBands cfg malloc 0 bands s = bstMdl cfg malloc s := by
  obtain ⟨whole, made, converted⟩ := bstMdl_converts convertible malloc s
  obtain ⟨after, run, banded⟩ := @bstBands_banded cfg s 0 bands convertible malloc
    (by omega) fun some => ⟨rfl, even some⟩
  rw [run, made]
  -- The bytes of the bands are those of the image, in another order.
  have src : (bandBytes cfg.srcFormat cfg.srcW.toNat 0 bands).Perm cfg.srcBytes := by
    rw [BstHwOnceCfg.srcBytes, ← all]
    exact bandBytes_perm fun nv12 => even (.inl nv12)
  have dst : (bandBytes cfg.dstFormat cfg.dstW.toNat 0 bands).Perm cfg.dstBytes := by
    rw [BstHwOnceCfg.dstBytes, convertible.height, ← all]
    exact bandBytes_perm fun nv12 => even (.inr nv12)
  have mem : after.mem = whole.mem :=
    (banded.filled.of_mem_iff fun i => dst.mem_iff.symm).unique converted.filled
  have isum : after.bstIsum = whole.bstIsum := by
    rw [banded.isum, converted.isum, total_perm _ (src.map _)]
  have osum : after.bstOsum = whole.bstOsum := by
    rw [banded.osum, converted.osum, mem, total_perm _ (dst.map _)]
  obtain ⟨wholeMem, wholeIsum, wholeOsum⟩ := whole
  obtain ⟨afterMem, afterIsum, afterOsum⟩ := after
  simp only at mem isum osum
  rw [mem, isum, osum]

/-- Two pixels by four. -/
def twoByFourCfg : BstHwOnceCfg := { twoByTwoCfg with srcH := 4, dstH := 4, srcBase1 := 8 }

theorem twoByFourCfg_convertible : twoByFourCfg.Convertible where
  src := .inl rfl
  dst := .inr rfl
  width := rfl
  height := rfl
  even _ := by decide
  short _ _ := by decide
  once := by decide
  apart := by decide

/-- They are converted in two bands as in one piece. -/
theorem bstBands_eq_rows : bstBands twoByFourCfg 64 0 [2, 2] ⟨fun _ => 0, 0, 0⟩ =
    bstMdl twoByFourCfg 64 ⟨fun _ => 0, 0, 0⟩ :=
  bstBands_eq twoByFourCfg_convertible 64 (by decide) (fun _ => by decide) ⟨fun _ => 0, 0, 0⟩

end Aip.Bscaler
