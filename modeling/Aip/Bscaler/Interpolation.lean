import Mathlib.Data.Fintype.EquivFin
import Mathlib.Data.Fintype.Lattice
import Aip.Bscaler.Blend

/-! The bilinear kernels of the scaler model as interpolations between their four taps. -/

namespace Aip.Bscaler

/-- The weighted mean of two numbers that the kernels compute three times. -/
def mean (a b w : Int) : Int := (a * (matOne - w) + b * w + matHalfOne) / 2 ^ matAcc

/-- The values that a mean passes through, in the order in which they are computed. -/
def passed (a b w : Int) : List Int :=
  [matOne - w, a * (matOne - w), b * w, a * (matOne - w) + b * w,
    a * (matOne - w) + b * w + matHalfOne]

/-- The mean of the upper row, that of the lower row, and the mean of these two. -/
def rowMeans (taps : Fin 4 → Int) (xw yw : Int) : Fin 3 → Int :=
  ![mean (taps 0) (taps 1) xw, mean (taps 2) (taps 3) xw,
    mean (mean (taps 0) (taps 1) xw) (mean (taps 2) (taps 3) xw) yw]

/-- All values that a kernel passes through for one number of each tap. -/
def passes (taps : Fin 4 → Int) (xw yw : Int) : List Int :=
  passed (taps 0) (taps 1) xw ++ passed (taps 2) (taps 3) xw ++
    passed (rowMeans taps xw yw 0) (rowMeans taps xw yw 1) yw

/-- The number that a byte holds at a shift. -/
def lane (sel shift p : UInt8) : Nat := ((p >>> shift) &&& sel).toNat

/-- The byte that a kernel makes of four taps. -/
def Bilinear.at (bilinear : Bilinear) (xw yw : UInt16) (taps : Fin 4 → UInt8) : UInt8 :=
  bilinear (taps 0) (taps 1) (taps 2) (taps 3) xw.toNat yw.toNat

/-- A kernel interpolates the numbers that the taps hold in one lane. -/
structure Interpolates (bilinear : Bilinear) (sel shift : UInt8) (xw yw : UInt16) : Prop where
  /-- No value on the way is negative or leaves an `int`. -/
  fits : ∀ taps : Fin 4 → UInt8,
    ∀ value ∈ passes (fun c => lane sel shift (taps c)) xw.toNat yw.toNat,
      0 ≤ value ∧ value < 2 ^ 31
  /-- No mean leaves the lane, so nothing is cut off where one is stored. -/
  narrow : ∀ (taps : Fin 4 → UInt8) k,
    0 ≤ rowMeans (fun c => lane sel shift (taps c)) xw.toNat yw.toNat k ∧
      rowMeans (fun c => lane sel shift (taps c)) xw.toNat yw.toNat k ≤ sel.toNat
  /-- The lane of the result is the last mean: no clip and no other lane changes it. -/
  exact : ∀ taps : Fin 4 → UInt8, (lane sel shift (bilinear.at xw yw taps) : Int) =
    rowMeans (fun c => lane sel shift (taps c)) xw.toNat yw.toNat 2
  /-- The lane of the result depends on the same lane of the taps alone. -/
  own : ∀ taps other : Fin 4 → UInt8,
    (∀ c, lane sel shift (taps c) = lane sel shift (other c)) →
      lane sel shift (bilinear.at xw yw taps) = lane sel shift (bilinear.at xw yw other)
  /-- It is not below the smallest tap, -/
  least : ∀ taps : Fin 4 → UInt8, ∃ c,
    lane sel shift (taps c) ≤ lane sel shift (bilinear.at xw yw taps)
  /-- not above the largest, -/
  greatest : ∀ taps : Fin 4 → UInt8, ∃ c,
    lane sel shift (bilinear.at xw yw taps) ≤ lane sel shift (taps c)
  /-- equal to taps that are equal, -/
  even : ∀ p : UInt8, lane sel shift (bilinear.at xw yw fun _ => p) = lane sel shift p
  /-- and monotone in every tap. -/
  monotone : ∀ (taps : Fin 4 → UInt8) c value,
    lane sel shift (taps c) ≤ lane sel shift value →
      lane sel shift (bilinear.at xw yw taps) ≤
        lane sel shift (bilinear.at xw yw (Function.update taps c value))

section Means

variable {a b a' b' w lo hi xw yw : Int} {taps other : Fin 4 → Int}

/-- A mean is monotone in both of its numbers. -/
theorem mean_mono (first : a ≤ a') (second : b ≤ b') (low : 0 ≤ w) (high : w ≤ matOne) :
    mean a b w ≤ mean a' b' w := by
  -- Neither weight is negative.
  have left : a * (matOne - w) ≤ a' * (matOne - w) :=
    mul_le_mul_of_nonneg_right first (sub_nonneg.mpr high)
  have right : b * w ≤ b' * w := mul_le_mul_of_nonneg_right second low
  apply Int.ediv_le_ediv
  · exact pow_pos (by decide) matAcc
  · omega

/-- The mean of a number with itself is the number: the half that is added makes up for weights
that add up to one too little. -/
theorem mean_self (low : 0 ≤ a) (high : a ≤ matHalfOne) : mean a a w = a := by
  -- The sum falls short of a multiple by the number itself, for which the half makes up.
  have sum : a * (matOne - w) + a * w + matHalfOne = (matHalfOne - a) + a * 2 ^ matAcc := by
    simp only [matOne]
    ring
  have short : matHalfOne - a < 2 ^ matAcc := by
    simp only [matHalfOne, matAcc] at high ⊢
    omega
  rw [mean, sum, Int.add_mul_ediv_right _ _ (pow_ne_zero matAcc (by decide)),
    Int.ediv_eq_zero_of_lt (sub_nonneg.mpr high) short, zero_add]

/-- A mean lies between bounds of its numbers. -/
theorem mean_within (first : lo ≤ a ∧ a ≤ hi) (second : lo ≤ b ∧ b ≤ hi) (low : 0 ≤ w)
    (high : w ≤ matOne) (start : 0 ≤ lo) (stop : hi ≤ matHalfOne) :
    lo ≤ mean a b w ∧ mean a b w ≤ hi := by
  -- The mean of the bounds with themselves are the bounds.
  have bounds : lo ≤ hi := first.1.trans first.2
  constructor
  · calc lo = mean lo lo w := (mean_self start (bounds.trans stop)).symm
      _ ≤ mean a b w := mean_mono first.1 second.1 low high
  · calc mean a b w ≤ mean hi hi w := mean_mono first.2 second.2 low high
      _ = hi := mean_self (start.trans bounds) stop

/-- What a mean of two bytes passes through fits an `int`. -/
theorem passed_fits (first : 0 ≤ a ∧ a ≤ 255) (second : 0 ≤ b ∧ b ≤ 255) (low : 0 ≤ w)
    (high : w ≤ matOne) : ∀ value ∈ passed a b w, 0 ≤ value ∧ value < 2 ^ 31 := by
  -- Each product is at most that of a byte and a weight.
  have other : 0 ≤ matOne - w := sub_nonneg.mpr high
  have below : matOne - w ≤ matOne := sub_le_self matOne low
  have left : 0 ≤ a * (matOne - w) := mul_nonneg first.1 other
  have right : 0 ≤ b * w := mul_nonneg second.1 low
  have leftTop : a * (matOne - w) ≤ 255 * matOne := mul_le_mul first.2 below other (by decide)
  have rightTop : b * w ≤ 255 * matOne := mul_le_mul second.2 high low (by decide)
  intro value member
  simp only [passed, List.mem_cons, List.not_mem_nil, or_false] at member
  simp only [matOne, matAcc, matHalfOne] at *
  rcases member with rfl | rfl | rfl | rfl | rfl
  all_goals omega

/-- All three means lie between bounds of the taps. -/
theorem rowMeans_within (within : ∀ c, lo ≤ taps c ∧ taps c ≤ hi) (xLow : 0 ≤ xw)
    (xHigh : xw ≤ matOne) (yLow : 0 ≤ yw) (yHigh : yw ≤ matOne) (start : 0 ≤ lo)
    (stop : hi ≤ matHalfOne) (k : Fin 3) :
    lo ≤ rowMeans taps xw yw k ∧ rowMeans taps xw yw k ≤ hi := by
  -- Both rows first, and then the column between them.
  have upper := mean_within (within 0) (within 1) xLow xHigh start stop
  have lower := mean_within (within 2) (within 3) xLow xHigh start stop
  match k with
  | 0 => exact upper
  | 1 => exact lower
  | 2 => exact mean_within upper lower yLow yHigh start stop

/-- The last mean is monotone in the taps. -/
theorem rowMeans_mono (below : ∀ c, taps c ≤ other c) (xLow : 0 ≤ xw) (xHigh : xw ≤ matOne)
    (yLow : 0 ≤ yw) (yHigh : yw ≤ matOne) : rowMeans taps xw yw 2 ≤ rowMeans other xw yw 2 :=
  mean_mono (mean_mono (below 0) (below 1) xLow xHigh) (mean_mono (below 2) (below 3) xLow xHigh)
    yLow yHigh

end Means

section Kernels

variable {bilinear : Bilinear} {sel shift : UInt8} {xw yw : UInt16}

/-- A 16-bit weight is not above one. -/
theorem weight_le (w : UInt16) : (w.toNat : Int) ≤ matOne := by
  have small := w.toNat_lt
  simp only [matOne, matAcc]
  omega

/-- A lane holds nothing above its mask. -/
theorem lane_le (sel shift p : UInt8) : lane sel shift p ≤ sel.toNat := by
  rw [lane, UInt8.toNat_and]
  exact Nat.and_le_right

/-- The means of a lane stay in it. -/
theorem lane_means (sel shift : UInt8) (xw yw : UInt16) (taps : Fin 4 → UInt8) (k : Fin 3) :
    0 ≤ rowMeans (fun c => lane sel shift (taps c)) xw.toNat yw.toNat k ∧
      rowMeans (fun c => lane sel shift (taps c)) xw.toNat yw.toNat k ≤ sel.toNat := by
  -- A lane and its weights are in the ranges that the means ask for.
  apply rowMeans_within
  · intro c
    have bound := lane_le sel shift (taps c)
    omega
  · exact Int.natCast_nonneg _
  · exact weight_le xw
  · exact Int.natCast_nonneg _
  · exact weight_le yw
  · exact le_refl 0
  · have small := sel.toNat_lt
    simp only [matHalfOne, matAcc]
    omega

/-- What a lane passes through fits an `int`. -/
theorem lane_passes (taps : Fin 4 → UInt8) :
    ∀ value ∈ passes (fun c => lane sel shift (taps c)) xw.toNat yw.toNat,
      0 ≤ value ∧ value < 2 ^ 31 := by
  -- The taps and the means of both rows are bytes.
  have tap : ∀ c, 0 ≤ (lane sel shift (taps c) : Int) ∧
      (lane sel shift (taps c) : Int) ≤ 255 := by
    intro c
    have small := ((taps c >>> shift) &&& sel).toNat_lt
    rw [lane]
    omega
  have row : ∀ k, 0 ≤ rowMeans (fun c => lane sel shift (taps c)) xw.toNat yw.toNat k ∧
      rowMeans (fun c => lane sel shift (taps c)) xw.toNat yw.toNat k ≤ 255 := by
    intro k
    have bound := lane_means sel shift xw yw taps k
    have small := sel.toNat_lt
    omega
  have xLow : 0 ≤ (xw.toNat : Int) := Int.natCast_nonneg _
  have yLow : 0 ≤ (yw.toNat : Int) := Int.natCast_nonneg _
  intro value member
  rcases List.mem_append.mp member with rows | column
  · rcases List.mem_append.mp rows with upper | lower
    · exact passed_fits (tap 0) (tap 1) xLow (weight_le xw) value upper
    · exact passed_fits (tap 2) (tap 3) xLow (weight_le xw) value lower
  · exact passed_fits (row 0) (row 1) yLow (weight_le yw) value column

/-- A kernel whose result holds the last mean in a lane interpolates that lane. -/
theorem interpolates_of_exact (spelled : ∀ taps : Fin 4 → UInt8,
    (lane sel shift (bilinear.at xw yw taps) : Int) =
      rowMeans (fun c => lane sel shift (taps c)) xw.toNat yw.toNat 2) :
    Interpolates bilinear sel shift xw yw := by
  have xLow : 0 ≤ (xw.toNat : Int) := Int.natCast_nonneg _
  have yLow : 0 ≤ (yw.toNat : Int) := Int.natCast_nonneg _
  have byte : ∀ p : UInt8, (lane sel shift p : Int) ≤ matHalfOne := by
    intro p
    have small := ((p >>> shift) &&& sel).toNat_lt
    simp only [lane, matHalfOne, matAcc]
    omega
  -- Larger taps give a larger result, and bounds of the taps bound it.
  have grow : ∀ taps other : Fin 4 → UInt8,
      (∀ c, lane sel shift (taps c) ≤ lane sel shift (other c)) →
        lane sel shift (bilinear.at xw yw taps) ≤ lane sel shift (bilinear.at xw yw other) := by
    intro taps other below
    have lanes : ∀ c, (lane sel shift (taps c) : Int) ≤ lane sel shift (other c) := fun c =>
      Int.ofNat_le.mpr (below c)
    have means := rowMeans_mono lanes xLow (weight_le xw) yLow (weight_le yw)
    rw [← spelled taps, ← spelled other] at means
    exact Int.ofNat_le.mp means
  have between : ∀ (taps : Fin 4 → UInt8) (lo hi : UInt8),
      (∀ c, lane sel shift lo ≤ lane sel shift (taps c) ∧
        lane sel shift (taps c) ≤ lane sel shift hi) →
        lane sel shift lo ≤ lane sel shift (bilinear.at xw yw taps) ∧
          lane sel shift (bilinear.at xw yw taps) ≤ lane sel shift hi := by
    intro taps lo hi within
    have lanes : ∀ c, (lane sel shift lo : Int) ≤ lane sel shift (taps c) ∧
        (lane sel shift (taps c) : Int) ≤ lane sel shift hi := fun c =>
      ⟨Int.ofNat_le.mpr (within c).1, Int.ofNat_le.mpr (within c).2⟩
    have means := rowMeans_within lanes xLow (weight_le xw) yLow (weight_le yw)
      (Int.natCast_nonneg _) (byte hi) 2
    rw [← spelled taps] at means
    exact ⟨Int.ofNat_le.mp means.1, Int.ofNat_le.mp means.2⟩
  refine ⟨lane_passes, lane_means sel shift xw yw, spelled, ?_, ?_, ?_, ?_, ?_⟩
  · intro taps other same
    exact le_antisymm (grow taps other fun c => (same c).le)
      (grow other taps fun c => (same c).ge)
  · intro taps
    obtain ⟨c, least⟩ := Finite.exists_min fun c => lane sel shift (taps c)
    obtain ⟨d, greatest⟩ := Finite.exists_max fun c => lane sel shift (taps c)
    exact ⟨c, (between taps (taps c) (taps d) fun e => ⟨least e, greatest e⟩).1⟩
  · intro taps
    obtain ⟨c, least⟩ := Finite.exists_min fun c => lane sel shift (taps c)
    obtain ⟨d, greatest⟩ := Finite.exists_max fun c => lane sel shift (taps c)
    exact ⟨d, (between taps (taps c) (taps d) fun e => ⟨least e, greatest e⟩).2⟩
  · intro p
    obtain ⟨low, high⟩ := between (fun _ => p) p p fun _ => ⟨le_refl _, le_refl _⟩
    exact le_antisymm high low
  · intro taps c value above
    apply grow
    intro d
    by_cases same : d = c
    · rw [same, Function.update_self]
      exact above
    · rw [Function.update_of_ne same]

/-- The byte kernel clips nothing: a byte is one lane. -/
theorem bilinearU8_exact (taps : Fin 4 → UInt8) :
    (lane 0xFF 0 (Bilinear.at bilinearU8 xw yw taps) : Int) =
      rowMeans (fun c => lane 0xFF 0 (taps c)) xw.toNat yw.toNat 2 := by
  have whole : ∀ p : UInt8, lane 0xFF 0 p = p.toNat := by
    intro p
    have small := p.toNat_lt
    simpa [lane] using Nat.and_two_pow_sub_one_of_lt_two_pow small
  have bound := lane_means 0xFF 0 xw yw taps 2
  simp only [whole] at bound ⊢
  -- The last mean is at most 255 and is stored as it is.
  have top : (UInt8.toNat 0xFF : Int) = 255 := rfl
  rw [top] at bound
  have stored : Bilinear.at bilinearU8 xw yw taps =
      UInt8.ofNat (rowMeans (fun c => (taps c).toNat) xw.toNat yw.toNat 2).toNat := by
    have clip : ∀ v : Int, v ≤ 255 → (if v > 255 then 255 else v) = v := fun v small =>
      if_neg (not_lt.mpr small)
    exact congrArg (fun v : Int => UInt8.ofNat v.toNat) (clip _ bound.2)
  rw [stored, UInt8.toNat_ofNat']
  omega

/-- Numbers up to the mask may be put at these shifts without meeting each other. -/
def Apart (sel : UInt8) (shifts : List UInt8) : Prop :=
  ∀ part ≤ sel, ∀ s ∈ shifts, ∀ t ∈ shifts,
    ((part <<< s) >>> t) &&& sel = if s = t then part else 0

/-- Or-ing a number into a byte at its own shift sets its lane and no other. -/
theorem Apart.lane_fold {shifts rest : List UInt8} {t : UInt8} {parts : UInt8 → UInt8}
    (apart : Apart sel shifts) (inside : rest ⊆ shifts) (member : t ∈ shifts)
    (small : ∀ s, parts s ≤ sel) (val : UInt8) :
    ((rest.foldl (fun val s => val ||| parts s <<< s) val) >>> t) &&& sel =
      ((val >>> t) &&& sel) ||| if t ∈ rest then parts t else 0 := by
  have distrib : ∀ a b : UInt8, (a ||| b) &&& sel = (a &&& sel) ||| (b &&& sel) := by
    intro a b
    apply UInt8.toNat_inj.mp
    simp only [UInt8.toNat_and, UInt8.toNat_or]
    exact Nat.and_or_distrib_right _ _ _
  -- The induction is on the numbers still to be stored.
  induction rest generalizing val with
  | nil => simp
  | cons s rest ih =>
    have own := apart (parts s) (small s) s (inside List.mem_cons_self) t member
    rw [List.foldl_cons, ih (fun r more => inside (List.mem_cons_of_mem _ more)),
      UInt8.shiftRight_or, distrib, own, UInt8.or_assoc]
    by_cases same : s = t
    · subst same
      by_cases again : s ∈ rest <;> simp [again]
    · simp [same, Ne.symm same]

/-- In a packed kernel, each lane of the result is the last mean of that lane. -/
theorem bilinearPacked_exact {shifts : List UInt8} (apart : Apart sel shifts)
    (member : shift ∈ shifts) (taps : Fin 4 → UInt8) :
    (lane sel shift ((bilinearPacked sel shifts).at xw yw taps) : Int) =
      rowMeans (fun c => lane sel shift (taps c)) xw.toNat yw.toNat 2 := by
  let means := fun s => rowMeans (fun c => lane sel s (taps c)) xw.toNat yw.toNat
  have bound : ∀ s k, 0 ≤ means s k ∧ means s k ≤ sel.toNat := fun s k => lane_means sel s xw yw taps k
  have small := sel.toNat_lt
  -- Each mean is stored as a byte, which holds it.
  have byte : ∀ s k, ((UInt8.ofNat (means s k).toNat).toNat : Int) = means s k := by
    intro s k
    have between := bound s k
    rw [UInt8.toNat_ofNat']
    omega
  have parts : (bilinearPacked sel shifts).at xw yw taps =
      shifts.foldl (fun val s => val ||| UInt8.ofNat (means s 2).toNat <<< s) 0 := by
    refine congrArg (fun step => List.foldl step 0 shifts) (funext₂ fun val s => ?_)
    show val ||| UInt8.ofNat (mean (UInt8.ofNat (means s 0).toNat).toNat
      (UInt8.ofNat (means s 1).toNat).toNat yw.toNat).toNat <<< s = _
    rw [byte s 0, byte s 1]
    rfl
  have low : ∀ s, UInt8.ofNat (means s 2).toNat ≤ sel := by
    intro s
    have same := byte s 2
    have between := bound s 2
    rw [UInt8.le_iff_toNat_le]
    omega
  rw [lane, parts, apart.lane_fold (fun _ => id) member low, if_pos member]
  simpa using byte shift 2

/-- Whether shifts keep the numbers up to the mask apart, tried out on all of them. -/
def apart (sel : UInt8) (shifts : List UInt8) : Bool :=
  (List.range (sel.toNat + 1)).all fun k => shifts.all fun s => shifts.all fun t =>
    (((UInt8.ofNat k <<< s) >>> t) &&& sel) == if s == t then UInt8.ofNat k else 0

/-- The numbers up to the mask are all there are to try out. -/
theorem apart_sound {shifts : List UInt8} (tried : apart sel shifts = true) :
    Apart sel shifts := by
  intro part small s first t second
  -- A part of a lane is one of the numbers that are tried.
  have below : part.toNat < sel.toNat + 1 := Nat.lt_succ_of_le (UInt8.le_iff_toNat_le.mp small)
  have numbers := List.all_eq_true.mp tried part.toNat (List.mem_range.mpr below)
  have found := List.all_eq_true.mp (List.all_eq_true.mp numbers s first) t second
  simpa using found

/-- The two lanes of four bits. -/
theorem apart_u4 : Apart 0xF [0, 4] := apart_sound (by decide)

/-- The four lanes of two bits. -/
theorem apart_u2 : Apart 3 [0, 2, 4, 6] := apart_sound (by decide)

end Kernels

/-- The kernels interpolate between their taps, in the whole byte and in each lane of four or two
bits, whatever the weights. -/
theorem kernels_interpolate (xw yw : UInt16) :
    Interpolates bilinearU8 0xFF 0 xw yw ∧
      (∀ shift ∈ [0, 4], Interpolates bilinearU4 0xF shift xw yw) ∧
        ∀ shift ∈ [0, 2, 4, 6], Interpolates bilinearU2 3 shift xw yw := by
  -- Each kernel computes the exact means, lane by lane.
  refine ⟨interpolates_of_exact bilinearU8_exact, fun shift member => ?_, fun shift member => ?_⟩
  · apply interpolates_of_exact
    exact bilinearPacked_exact apart_u4 member
  · apply interpolates_of_exact
    exact bilinearPacked_exact apart_u2 member

end Aip.Bscaler
