import Aip.Bscaler.Columns
import Aip.Lib.Merge

/-! Columns that each go through all rows of a box once, whatever the order they are picked in. -/

namespace Aip.Bscaler

open Raster (Point turn)

/-- The way each column of a box takes through the rows: where it starts, and up or down. -/
structure Walk where
  low : Int
  height : Nat
  width : Nat
  left : Nat → Int
  start : Nat → Int
  direction : Nat → Int
  unit : ∀ i, direction i = 1 ∨ direction i = -1
  within : ∀ i, low ≤ start i ∧ start i < low + height

/-- A direction is up or down. -/
theorem direction_unit (up : Bool) :
    (if up then (1 : Int) else -1) = 1 ∨ (if up then (1 : Int) else -1) = -1 := by
  cases up
  · exact Or.inr rfl
  · exact Or.inl rfl

/-- The first and the last row of a box that has rows lie in the box. -/
theorem end_within {low size : Int} (up : Bool) (positive : 0 < size) :
    low ≤ (if up then low else low + size.toNat - 1) ∧
      (if up then low else low + size.toNat - 1) < low + size.toNat := by
  split <;> omega

namespace Walk

variable (walk : Walk) {done : Nat → Nat} {columns : Columns} {source : S32Point → S32Point}
  {i idx : Nat} {point : Point} {rest : List Point}

/-- The pixel that a column meets after so many rows. -/
def pixel (i steps : Nat) : Point :=
  (walk.left i, turn walk.low walk.height (walk.start i) (walk.direction i) steps)

/-- The pixels that a column still has before it. -/
def lane (done : Nat → Nat) (i : Nat) : List Point :=
  ((List.range walk.height).map (walk.pixel i)).drop (done i)

/-- The arrays of a traversal stand where the number of rows done in each column says. -/
structure Stands (source : S32Point → S32Point) (columns : Columns) (done : Nat → Nat) : Prop where
  bound : ∀ i, done i ≤ walk.height
  idle : ∀ i, walk.width ≤ i → done i = walk.height
  mask : ∀ i, columns.mask i = decide (done i = walk.height)
  place : ∀ i, done i < walk.height →
    columns.dstColPoint i = ⟨(walk.pixel i (done i)).1, (walk.pixel i (done i)).2⟩
  source : ∀ i, done i < walk.height →
    columns.srcColPoint i = source (columns.dstColPoint i)

variable {walk}

theorem positive : 0 < walk.height := by
  have := walk.within 0
  omega

/-- A column stays in the rows of the box. -/
theorem pixel_within (walk : Walk) (i steps : Nat) :
    walk.low ≤ (walk.pixel i steps).2 ∧ (walk.pixel i steps).2 < walk.low + walk.height :=
  Raster.turn_within positive

/-- A column that is not done has its next pixel in front. -/
theorem lane_cons (more : done i < walk.height) :
    walk.lane done i =
      walk.pixel i (done i) :: walk.lane (Function.update done i (done i + 1)) i := by
  unfold lane
  rw [Function.update_self, List.drop_eq_getElem_cons (by simpa using more), List.getElem_map,
    List.getElem_range]

/-- A column that is done has nothing before it. -/
theorem lane_done (ended : done i = walk.height) : walk.lane done i = [] := by
  unfold lane
  rw [ended, List.drop_eq_nil_iff]
  simp

/-- A step in one column leaves the others alone. -/
theorem lane_update (idx : Nat) (steps : Nat) :
    walk.lane (Function.update done idx steps) =
      Function.update (walk.lane done) idx (walk.lane (Function.update done idx steps) idx) := by
  funext i
  by_cases same : i = idx
  · subst same
    rw [Function.update_self]
  · rw [Function.update_of_ne same]
    unfold lane
    rw [Function.update_of_ne same]

/-- A column with pixels before it is not done, and stands at the first of them. -/
theorem Stands.front (stands : walk.Stands source columns done)
    (shape : walk.lane done i = point :: rest) : done i < walk.height ∧
      columns.mask i = false ∧ columns.dstColPoint i = ⟨point.1, point.2⟩ ∧
      columns.srcColPoint i = source ⟨point.1, point.2⟩ := by
  -- The lane of a column that is done would be empty.
  have more : done i < walk.height := by
    by_contra ended
    rw [lane_done (le_antisymm (stands.bound i) (not_lt.mp ended))] at shape
    cases shape
  rw [lane_cons more] at shape
  obtain ⟨rfl, -⟩ := List.cons.inj shape
  refine ⟨more, ?_, stands.place i more, ?_⟩
  · rw [stands.mask i, decide_eq_false (by omega)]
  · rw [stands.source i more, stands.place i more]

/-- An open column has pixels before it. -/
theorem Stands.opened (stands : walk.Stands source columns done) (free : columns.mask i = false) :
    done i < walk.height ∧ i < walk.width := by
  have unequal : done i ≠ walk.height := by
    intro ended
    rw [stands.mask i, ended] at free
    simp at free
  have bound := stands.bound i
  refine ⟨by omega, ?_⟩
  by_contra outside
  exact unequal (stands.idle i (by omega))

/-- A step of one column to its next pixel keeps the arrays in step with the count. -/
theorem Stands.advance (stands : walk.Stands source columns done) (more : done idx < walk.height)
    {place origin : S32Point} {masked : Bool}
    (closes : masked = decide (done idx + 1 = walk.height))
    (moves : done idx + 1 < walk.height →
      place = ⟨(walk.pixel idx (done idx + 1)).1, (walk.pixel idx (done idx + 1)).2⟩ ∧
        origin = source place) :
    walk.Stands source
      { dstColPoint := Function.update columns.dstColPoint idx place
        srcColPoint := Function.update columns.srcColPoint idx origin
        mask := Function.update columns.mask idx masked }
      (Function.update done idx (done idx + 1)) where
  bound i := by
    by_cases same : i = idx
    · subst same
      rw [Function.update_self]
      omega
    · rw [Function.update_of_ne same]
      exact stands.bound i
  idle i outside := by
    -- Only columns of the box have anything left, so the column that steps is one of them.
    have other : i ≠ idx := by
      rintro rfl
      have := stands.idle i outside
      omega
    rw [Function.update_of_ne other]
    exact stands.idle i outside
  mask i := by
    by_cases same : i = idx
    · subst same
      simp only [Function.update_self]
      exact closes
    · simp only [Function.update_of_ne same]
      exact stands.mask i
  place i unfinished := by
    by_cases same : i = idx
    · subst same
      simp only [Function.update_self] at unfinished ⊢
      exact (moves unfinished).1
    · simp only [Function.update_of_ne same] at unfinished ⊢
      exact stands.place i unfinished
  source i unfinished := by
    by_cases same : i = idx
    · subst same
      simp only [Function.update_self] at unfinished ⊢
      exact (moves unfinished).2
    · simp only [Function.update_of_ne same] at unfinished ⊢
      exact stands.source i unfinished

/-- The count before a traversal: nothing is done in the box, and nothing is left outside it. -/
def fresh (walk : Walk) (i : Nat) : Nat := if i < walk.width then 0 else walk.height

/-- A column of the box that nothing is done in has all its pixels. -/
theorem lane_fresh (inside : i < walk.width) :
    walk.lane walk.fresh i = (List.range walk.height).map (walk.pixel i) := by
  rw [lane, fresh, if_pos inside, List.drop_zero]

/-- The columns of a walk make up the box, whatever order they stand in and wherever they start. -/
theorem covers {low : Int} (index : Int → Nat)
    (inside : ∀ i < walk.width, low ≤ walk.left i ∧ walk.left i < low + walk.width ∧
      index (walk.left i) = i)
    (onto : ∀ x, low ≤ x → x < low + walk.width →
      index x < walk.width ∧ walk.left (index x) = x) :
    ((List.range walk.width).flatMap (walk.lane walk.fresh)).Perm
      (Raster.columns low walk.width walk.low walk.height) := by
  -- Each column meets every row once, and a pixel belongs to the column over its place.
  have full : ∀ i, ((List.range walk.height).map fun steps =>
      turn walk.low walk.height (walk.start i) (walk.direction i) steps).Perm
      (Raster.span walk.low walk.height) := fun i => Raster.turn_perm (walk.unit i)
  have pixels : ∀ i < walk.width, ∀ p : Point, p ∈ walk.lane walk.fresh i ↔
      p.1 = walk.left i ∧ walk.low ≤ p.2 ∧ p.2 < walk.low + walk.height := by
    intro i within p
    have row := (full i).mem_iff (a := p.2)
    rw [Raster.mem_span] at row
    rw [lane_fresh within, ← row]
    constructor
    · intro member
      obtain ⟨steps, range, rfl⟩ := List.mem_map.mp member
      exact ⟨rfl, List.mem_map.mpr ⟨steps, range, rfl⟩⟩
    · rintro ⟨column, member⟩
      obtain ⟨steps, range, same⟩ := List.mem_map.mp member
      exact List.mem_map.mpr ⟨steps, range, Prod.ext column.symm same⟩
  refine Raster.parts_perm (fun p => index p.1) List.nodup_range ?_ ?_ Raster.nodup_columns ?_
  · intro i member
    rw [lane_fresh (List.mem_range.mp member)]
    apply List.Nodup.of_map Prod.snd
    rw [List.map_map]
    exact (full i).nodup_iff.mpr Raster.nodup_span
  · intro i member p here
    have within := List.mem_range.mp member
    have column := ((pixels i within p).mp here).1
    rw [column]
    exact (inside i within).2.2
  · intro p
    rw [Raster.mem_columns]
    constructor
    · rintro ⟨⟨lower, upper⟩, row⟩
      obtain ⟨below, column⟩ := onto p.1 lower upper
      exact ⟨index p.1, List.mem_range.mpr below, (pixels _ below p).mpr ⟨column.symm, row⟩⟩
    · rintro ⟨i, member, here⟩
      have within := List.mem_range.mp member
      obtain ⟨column, row⟩ := (pixels i within p).mp here
      obtain ⟨lower, upper, _⟩ := inside i within
      exact ⟨⟨by omega, by omega⟩, row⟩

/-- What a traversal shows of the columns that count: their lanes, the image, and its rounds. -/
structure Shows (walk : Walk) (source : S32Point → S32Point) (counts : Nat → Bool)
    (before : Nat → Nat) (canvas : Memory) (stores : Point → List (Int × UInt8))
    (describes : Visit → Prop) (done : Nat → Nat) (traversal : Traversal)
    (lanes : Nat → List Point) : Prop where
  stands : walk.Stands source traversal.toColumns done
  lanes : ∀ i, lanes i = if counts i then walk.lane done i else []
  others : ∀ i, counts i = false → done i = before i
  image : traversal.image = Paint.paint canvas (traversal.pixels.flatMap stores)
  visits : ∀ visit ∈ traversal.visits, describes visit

variable {counts : Nat → Bool} {before : Nat → Nat} {canvas : Memory}
  {stores : Point → List (Int × UInt8)} {describes : Visit → Prop} {traversal next : Traversal}
  {lanes : Nat → List Point}

/-- A lane with pixels belongs to an open column that counts, at the first of the pixels. -/
theorem Shows.front (shows : Shows walk source counts before canvas stores describes done traversal
    lanes) (shape : lanes i = point :: rest) : counts i ∧ i < walk.width ∧
      traversal.mask i = false ∧ traversal.srcColPoint i = source ⟨point.1, point.2⟩ := by
  have lane := shows.lanes i
  rw [shape] at lane
  -- The lane of a column that does not count is empty.
  by_cases counted : counts i
  · rw [if_pos counted] at lane
    obtain ⟨_, free, _, origin⟩ := shows.stands.front lane.symm
    exact ⟨counted, (shows.stands.opened free).2, free, origin⟩
  · rw [if_neg counted] at lane
    cases lane

/-- Columns outside the box have no lane. -/
theorem Shows.outside (shows : Shows walk source counts before canvas stores describes done
    traversal lanes) (absent : i ∉ List.range walk.width) : lanes i = [] := by
  rw [shows.lanes i, lane_done (shows.stands.idle i (by simpa using absent)), ite_self]

/-- A round in an open column takes the front of its lane and keeps what the traversal shows. -/
theorem Shows.round (shows : Shows walk source counts before canvas stores describes done traversal
    lanes) (counted : counts idx) (free : traversal.mask idx = false)
    {place origin : S32Point} {masked : Bool} {visit : Visit}
    (closes : masked = decide (done idx + 1 = walk.height))
    (moves : done idx + 1 < walk.height →
      place = ⟨(walk.pixel idx (done idx + 1)).1, (walk.pixel idx (done idx + 1)).2⟩ ∧
        origin = source place)
    (painted : next.image = Paint.paint traversal.image (stores visit.pixel))
    (columns : next.toColumns =
      { dstColPoint := Function.update traversal.dstColPoint idx place
        srcColPoint := Function.update traversal.srcColPoint idx origin
        mask := Function.update traversal.mask idx masked })
    (logged : next.visits = traversal.visits ++ [visit])
    (stood : visit.pixel = walk.pixel idx (done idx)) (told : describes visit) :
    ∃ rest, lanes idx = visit.pixel :: rest ∧ next.pixels = traversal.pixels ++ [visit.pixel] ∧
      Shows walk source counts before canvas stores describes
        (Function.update done idx (done idx + 1)) next (Function.update lanes idx rest) := by
  obtain ⟨more, _⟩ := shows.stands.opened free
  have trace : next.pixels = traversal.pixels ++ [visit.pixel] := by
    rw [Traversal.pixels, logged, List.map_append]
    rfl
  refine ⟨walk.lane (Function.update done idx (done idx + 1)) idx, ?_, trace, ?_, ?_, ?_, ?_, ?_⟩
  · rw [shows.lanes idx, if_pos counted, lane_cons more, stood]
  · rw [columns]
    exact shows.stands.advance more closes moves
  · intro i
    rw [lane_update idx (done idx + 1)]
    by_cases same : i = idx
    · subst same
      rw [Function.update_self, Function.update_self, if_pos counted]
    · rw [Function.update_of_ne same, Function.update_of_ne same]
      exact shows.lanes i
  · intro i leftOut
    have other : i ≠ idx := by
      rintro rfl
      rw [counted] at leftOut
      cases leftOut
    rw [Function.update_of_ne other]
    exact shows.others i leftOut
  · -- The stores of the round are painted over what the earlier rounds painted.
    rw [painted, shows.image, trace, List.flatMap_append, Paint.paint_append, List.flatMap_singleton]
  · intro other member
    rw [logged] at member
    rcases List.mem_append.mp member with earlier | here
    · exact shows.visits other earlier
    · rw [List.mem_singleton.mp here]
      exact told

end Walk

end Aip.Bscaler
