import Aip.Nndma.Loading
import Aip.Nndma.Ring

/-! What the engine moves when it is started with the command words, over all calls of the driver. -/

namespace Aip

namespace Descriptor

/-- The descriptors of a chain that the engine goes through, up to the first without a link. -/
def fetch : List UInt32 → Option (List Descriptor)
  | first :: second :: words =>
    let des := decode first second
    if des.link then (fetch words).map (des :: ·) else some [des]
  -- The engine runs over the end of the DESRAM.
  | _ => none

/-- What holds of no words, and of two words more, holds of the words of whole descriptors. -/
theorem whole_induction {motive : (words : List UInt32) → words.length % 2 = 0 → Prop}
    (nil : motive [] rfl)
    (cons : ∀ first second words (whole : words.length % 2 = 0), motive words whole →
      motive (first :: second :: words) (by simp only [List.length_cons]; omega)) :
    ∀ words whole, motive words whole := by
  intro words
  induction words using decodeAll.induct with
  | case1 first second words ih =>
    intro whole
    have rest : words.length % 2 = 0 := by
      simp only [List.length_cons] at whole
      omega
    exact cons first second words rest (ih rest)
  | case2 words short =>
    intro whole
    cases words with
    | nil => exact nil
    | cons first words =>
      cases words with
      | nil => simp at whole
      | cons second words => exact absurd rfl (short first second words)

/-- The words of whole descriptors are read in front of those behind them. -/
theorem decodeAll_whole {words : List UInt32} (whole : words.length % 2 = 0)
    (others : List UInt32) : decodeAll (words ++ others) = decodeAll words ++ decodeAll others := by
  induction words, whole using whole_induction with
  | nil => rfl
  | cons first second words _ ih => simp only [List.cons_append, decodeAll, ih]

/-- Linked descriptors are gone through, and then what is behind them. -/
theorem fetch_linked {words : List UInt32} (whole : words.length % 2 = 0)
    (linked : ∀ des ∈ decodeAll words, des.link = true) (behind : List UInt32) :
    fetch (words ++ behind) = (fetch behind).map (decodeAll words ++ ·) := by
  induction words, whole using whole_induction with
  | nil => simp [decodeAll]
  | cons first second words _ ih =>
    obtain ⟨link, others⟩ := List.forall_mem_cons.mp linked
    simp only [List.cons_append, fetch, if_pos link, ih others, Option.map_map]
    rfl

/-- The engine stops behind a descriptor without a link that linked ones lead to. -/
theorem fetch_closed {words : List UInt32} (whole : words.length % 2 = 0) {others : Nat}
    (links : (decodeAll words).map link = List.replicate others true ++ [false])
    (behind : List UInt32) : fetch (words ++ behind) = some (decodeAll words) := by
  -- The words are taken descriptor by descriptor, of which the last one is without a link.
  induction words, whole using whole_induction generalizing others with
  | nil => simp [decodeAll] at links
  | cons first second words _ ih =>
    rw [List.cons_append, List.cons_append, fetch]
    cases others with
    | zero =>
      obtain ⟨last, none⟩ := List.cons.inj links
      have none : decodeAll words = [] := List.map_eq_nil_iff.mp none
      rw [decodeAll, none, if_neg (by simpa using last)]
    | succ others =>
      obtain ⟨link, rest⟩ := List.cons.inj links
      rw [if_pos link, ih rest, decodeAll, Option.map_some]

end Descriptor

open Descriptor

/-- What the engine moves when it is given a command word. -/
def transfer (desram : List UInt32) (word : UInt32) : Option (List (Nat × Nat)) :=
  (fetch (desram.drop (pointer word))).map fun des => des.flatMap moves

/-- What the read and the write channel move when they are given the command words, two by two. -/
def transfers (desram : List UInt32) :
    List UInt32 → Option (List (List (Nat × Nat) × List (Nat × Nat)))
  | rword :: wword :: words =>
    (transfer desram rword).bind fun read =>
      (transfer desram wword).bind fun written =>
        (transfers desram words).map ((read, written) :: ·)
  | [] => some []
  | [_] => none

/-- What the engine moves over a number of calls, each of whose command words it is given. -/
def transfersOfCalls : List DmaLoad → Option (List (List (Nat × Nat) × List (Nat × Nat)))
  | [] => some []
  | load :: loads =>
    (transfers load.desram load.dmaCmdBuf).bind fun first =>
      (transfersOfCalls loads).map (first ++ ·)

/-- The bytes that a pair of chains asks for. -/
def askedOf (memory : NndmaMemory) (pair : List NndmaCmdBuf × List NndmaCmdBuf) :
    List (Nat × Nat) × List (Nat × Nat) :=
  (pair.1.flatMap (NndmaCmdBuf.asked memory), pair.2.flatMap (NndmaCmdBuf.asked memory))

variable {memory : NndmaMemory} {desram words : List UInt32} {cmds chain : List NndmaCmdBuf}
  {pairs : List (List NndmaCmdBuf × List NndmaCmdBuf)} {loads : List DmaLoad}

/-- The words of several commands are read command by command. -/
theorem decodeAll_wordsOf (memory : NndmaMemory) (cmds : List NndmaCmdBuf) :
    decodeAll (wordsOf memory cmds) = cmds.flatMap (NndmaCmdBuf.descriptors memory) := by
  induction cmds with
  | nil => rfl
  | cons cmd cmds ih =>
    rw [wordsOf_cons, decodeAll_whole (length_words memory cmd).2, ih, List.flatMap_cons]
    rfl

/-- The engine goes through the descriptors of all commands of a chain, and no further. -/
theorem fetch_wordsOf (closed : Closed chain)
    (faithful : ∀ cmd ∈ chain, cmd.Faithful memory) (behind : List UInt32) :
    fetch (wordsOf memory chain ++ behind) =
      some (chain.flatMap (NndmaCmdBuf.descriptors memory)) := by
  obtain ⟨linked, last, rfl, links, stop⟩ := closed
  obtain ⟨others, ends⟩ := (faithful last (by simp)).links
  -- The descriptors of the linked commands all have a link, the last one of them included.
  have all : ∀ des ∈ decodeAll (wordsOf memory linked), des.link = true := by
    intro des member
    rw [decodeAll_wordsOf] at member
    obtain ⟨cmd, inside, here⟩ := List.mem_flatMap.mp member
    obtain ⟨count, flags⟩ := (faithful cmd (by simp [inside])).links
    have flag : des.link ∈ (cmd.descriptors memory).map link := List.mem_map_of_mem here
    rw [flags, links cmd inside] at flag
    rcases List.mem_append.mp flag with linked | final
    · exact List.eq_of_mem_replicate linked
    · simpa using final
  have final : fetch (last.words memory ++ behind) = some (last.descriptors memory) := by
    refine @fetch_closed _ (length_words memory last).2 others ?_ behind
    rw [← decide_eq_false stop]
    exact ends
  rw [wordsOf_append, wordsOf_cons, wordsOf_nil, List.append_nil, List.append_assoc,
    fetch_linked (even_wordsOf memory linked) all, final, Option.map_some, decodeAll_wordsOf,
    List.flatMap_append, List.flatMap_singleton]

/-- A command word that points to the words of a chain makes the engine move what the chain asks. -/
theorem transfer_chain {word : UInt32} (stands : Segment.At desram (pointer word)
    (wordsOf memory chain)) (closed : Closed chain) (faithful : ∀ cmd ∈ chain, cmd.Faithful memory) :
    transfer desram word = some (chain.flatMap (NndmaCmdBuf.asked memory)) := by
  obtain ⟨front, back, rfl, place⟩ := stands
  rw [transfer, ← place, List.append_assoc, List.drop_left, fetch_wordsOf closed faithful,
    Option.map_some, List.flatMap_assoc]
  refine congrArg some (List.flatMap_congr fun cmd member => ?_)
  exact (faithful cmd member).moves

/-- The command words of a call move what the pairs of chains ask for that it has loaded. -/
theorem Loaded.transfers (loaded : Loaded memory desram words pairs)
    (closed : ∀ pair ∈ pairs, Closed pair.1 ∧ Closed pair.2)
    (faithful : ∀ pair ∈ pairs, ∀ cmd ∈ pair.1 ++ pair.2, cmd.Faithful memory) :
    Aip.transfers desram words = some (pairs.map (askedOf memory)) := by
  -- The induction is on the pairs, each of which has two words.
  induction pairs generalizing words with
  | nil =>
    cases words with
    | nil => rfl
    | cons word words => cases words <;> exact False.elim loaded
  | cons pair pairs ih =>
    cases words with
    | nil => exact False.elim loaded
    | cons rword words =>
      cases words with
      | nil => exact False.elim loaded
      | cons wword words =>
        obtain ⟨reads, writes, rest⟩ := loaded
        obtain ⟨⟨rclosed, wclosed⟩, others⟩ := List.forall_mem_cons.mp closed
        obtain ⟨first, more⟩ := List.forall_mem_cons.mp faithful
        have read := transfer_chain reads rclosed fun cmd member => first cmd (by simp [member])
        have written := transfer_chain writes wclosed fun cmd member => first cmd (by simp [member])
        rw [Aip.transfers, read, Option.bind_some, written, Option.bind_some, ih rest others more,
          Option.map_some]
        rfl

/-- Calls that have loaded all pairs move what all of them ask for. -/
theorem Complete.transfers (complete : Complete memory loads pairs)
    (closed : ∀ pair ∈ pairs, Closed pair.1 ∧ Closed pair.2)
    (faithful : ∀ pair ∈ pairs, ∀ cmd ∈ pair.1 ++ pair.2, cmd.Faithful memory) :
    transfersOfCalls loads = some (pairs.map (askedOf memory)) := by
  obtain ⟨groups, rfl, each⟩ := complete
  -- Each call has its group of the pairs.
  induction each with
  | nil => rfl
  | @cons load group loads groups first _ ih =>
    rw [List.flatten_cons] at closed faithful
    have here := first.1.transfers (fun pair member => closed pair (by simp [member]))
      fun pair member => faithful pair (by simp [member])
    have rest := ih (fun pair member => closed pair (List.mem_append_right _ member))
      fun pair member => faithful pair (List.mem_append_right _ member)
    rw [transfersOfCalls, here, Option.bind_some, rest, Option.map_some, List.flatten_cons,
      List.map_append]

/--
For lists with as many chains, whose words fit their arrays and pair by pair the DESRAM, and whose
commands are valid and meet the end of their ring inside a part if at all: the calls come to an end,
and the engine, started with the command words of one call after the other, moves for every pair of
chains the bytes that its commands ask for, in order and no others.
-/
theorem engine_moves (memory : NndmaMemory) (rcmds wcmds : List NndmaCmdBuf) (desram : List UInt32)
    (size : desram.length = 4096) (same : (chainsOf rcmds).length = (chainsOf wcmds).length)
    (each : ∀ pair ∈ (chainsOf rcmds).zip (chainsOf wcmds),
      (wordsOf memory pair.1).length + (wordsOf memory pair.2).length ≤ 4096)
    (fits : (wordsOf memory rcmds).length ≤ DesInfo.capacity ∧
      (wordsOf memory wcmds).length ≤ DesInfo.capacity)
    (valid : ∀ cmd ∈ rcmds ++ wcmds, cmd.Valid memory ∧ cmd.Clear memory) :
    ∃ calls loads, nnaDmaCalls memory rcmds wcmds calls 0 0 desram = some loads ∧
      transfersOfCalls loads =
        some (((chainsOf rcmds).zip (chainsOf wcmds)).map (askedOf memory)) := by
  obtain ⟨rclosed, rtail, rsame, _⟩ := chainsOf_spec rcmds
  obtain ⟨wclosed, wtail, wsame, _⟩ := chainsOf_spec wcmds
  have complete := (complete_iff memory rcmds wcmds desram size same each).mpr fits
  obtain ⟨calls, loads, found, complete⟩ := complete
  refine ⟨calls, loads, found, complete.transfers ?_ ?_⟩
  · intro pair member
    exact ⟨rclosed pair.1 (List.of_mem_zip member).1, wclosed pair.2 (List.of_mem_zip member).2⟩
  · intro pair member cmd inside
    obtain ⟨read, written⟩ := List.of_mem_zip member
    have listed : cmd ∈ rcmds ++ wcmds := by
      rcases List.mem_append.mp inside with here | here
      · rw [rsame]
        simp only [List.mem_append, List.mem_flatten]
        exact .inl (.inl ⟨pair.1, read, here⟩)
      · rw [wsame]
        simp only [List.mem_append, List.mem_flatten]
        exact .inr (.inl ⟨pair.2, written, here⟩)
    obtain ⟨asked, clear⟩ := valid cmd listed
    exact (NndmaCmdBuf.faithful_iff_clear memory cmd asked).mpr clear

/-- Two chains of one and of two commands are moved. -/
theorem engine_moves_units : ∃ calls loads,
    nnaDmaCalls unitMemory [oneUnit, { oneUnit with desLink := 1 }, oneUnit] [oneUnit, oneUnit]
      calls 0 0 (List.replicate 4096 0) = some loads ∧
    transfersOfCalls loads = some (([([oneUnit], [oneUnit]),
      ([{ oneUnit with desLink := 1 }, oneUnit], [oneUnit])]).map (askedOf unitMemory)) := by
  refine engine_moves unitMemory [oneUnit, { oneUnit with desLink := 1 }, oneUnit]
    [oneUnit, oneUnit] (List.replicate 4096 0) List.length_replicate (by decide) (by decide)
    (by decide) fun cmd member => ?_
  have valid : oneUnit.Valid unitMemory ∧ { oneUnit with desLink := 1 }.Valid unitMemory := by
    constructor <;> constructor <;> decide
  simp only [List.cons_append, List.nil_append, List.mem_cons, List.not_mem_nil, or_false] at member
  rcases member with rfl | rfl | rfl | rfl | rfl
  · exact ⟨valid.1, by decide⟩
  · exact ⟨valid.2, by decide⟩
  · exact ⟨valid.1, by decide⟩
  · exact ⟨valid.1, by decide⟩
  · exact ⟨valid.1, by decide⟩

end Aip
