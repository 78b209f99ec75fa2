import Aip.Nndma.Desram
import Aip.Nndma.Start

/-! All chains get into the DESRAM over several calls, as long as one call can hold their words. -/

namespace Aip

/-- The words of several commands. -/
def wordsOf (memory : NndmaMemory) (cmds : List NndmaCmdBuf) : List UInt32 :=
  cmds.flatMap (NndmaCmdBuf.words memory)

/-- The chains of a list: each goes up to a command that is not linked to the next one. -/
def chainsOf : List NndmaCmdBuf → List (List NndmaCmdBuf)
  -- Commands that are linked up to the end of the list make no chain.
  | [] => []
  | cmd :: cmds =>
    if cmd.desLink = 1 then
      match chainsOf cmds with
      | [] => []
      | chain :: chains => (cmd :: chain) :: chains
    else [cmd] :: chainsOf cmds

/-- The word of the DESRAM that a command word points to. -/
def pointer (word : UInt32) : Nat := 2 * (word.toNat % 2 ^ 12)

/-- For each pair of chains there are two command words, which point to the words of the chains. -/
def Loaded (memory : NndmaMemory) (desram : List UInt32) :
    List UInt32 → List (List NndmaCmdBuf × List NndmaCmdBuf) → Prop
  | [], [] => True
  | rword :: wword :: words, pair :: pairs =>
    Segment.At desram (pointer rword) (wordsOf memory pair.1) ∧
      Segment.At desram (pointer wword) (wordsOf memory pair.2) ∧
      Loaded memory desram words pairs
  | _, _ => False

/-- A call has loaded a group of pairs of chains, and says how many. -/
def DmaLoad.Loads (memory : NndmaMemory) (load : DmaLoad)
    (group : List (List NndmaCmdBuf × List NndmaCmdBuf)) : Prop :=
  Loaded memory load.desram load.dmaCmdBuf group ∧ load.result.dmaCmdNum = group.length

/-- The calls have loaded all pairs of chains, each one once and in order. -/
def Complete (memory : NndmaMemory) (loads : List DmaLoad)
    (pairs : List (List NndmaCmdBuf × List NndmaCmdBuf)) : Prop :=
  ∃ groups, groups.flatten = pairs ∧ List.Forall₂ (DmaLoad.Loads memory) loads groups

variable {memory : NndmaMemory} {cmd : NndmaCmdBuf} {cmds chain : List NndmaCmdBuf}
  {info : DesInfo} {idx : Nat}

section Words

/-- A part is described by one or two descriptors. -/
theorem length_describe (st ed link : UInt32) (last : Bool) (cur : DesCursor) :
    (cur.describe st ed link last).1.length = 2 ∨ (cur.describe st ed link last).1.length = 4 := by
  rw [DesCursor.describe]
  split
  · exact .inl rfl
  · exact .inr rfl

/-- A loop writes an even number of words. -/
theorem even_describeLoop (st ed link : UInt32) (parts : Nat) (cur : DesCursor) :
    (cur.describeLoop st ed link parts).length % 2 = 0 := by
  -- The induction is on the number of parts.
  induction parts generalizing cur with
  | zero => rfl
  | succ parts ih =>
    have first := length_describe st ed link (parts = 0) cur
    have rest := ih (cur.describe st ed link (parts = 0)).2
    rw [DesCursor.describeLoop, List.length_append]
    omega

/-- A command has at least one part, whatever its number of bytes. -/
theorem c64kNum_pos (cmd : NndmaCmdBuf) : 0 < cmd.c64kNum.toNat := by
  have bound := (cmd.dataBytes - 1).toNat_lt
  have shift : ((cmd.dataBytes - 1) >>> 16).toNat = (cmd.dataBytes - 1).toNat / 2 ^ 16 := by
    rw [UInt32.toNat_shiftRight]
    exact Nat.shiftRight_eq_div_pow _ 16
  rw [NndmaCmdBuf.c64kNum, UInt32.toNat_add, shift]
  show 0 < ((cmd.dataBytes - 1).toNat / 2 ^ 16 + 1) % 2 ^ 32
  omega

/-- A command writes at least one descriptor, and whole ones. -/
theorem length_words (memory : NndmaMemory) (cmd : NndmaCmdBuf) :
    2 ≤ (cmd.words memory).length ∧ (cmd.words memory).length % 2 = 0 := by
  refine ⟨?_, even_describeLoop _ _ _ _ _⟩
  obtain ⟨parts, count⟩ : ∃ parts, cmd.c64kNum.toNat = parts + 1 :=
    ⟨cmd.c64kNum.toNat - 1, (Nat.sub_add_cancel (c64kNum_pos cmd)).symm⟩
  have first := length_describe (cmd.oMlcStAddr memory) (cmd.oMlcEdAddr memory) cmd.desLink
    (parts = 0) (cmd.cursor memory)
  rw [NndmaCmdBuf.words, count, DesCursor.describeLoop, List.length_append]
  omega

/-- So do several commands. -/
theorem even_wordsOf (memory : NndmaMemory) (cmds : List NndmaCmdBuf) :
    (wordsOf memory cmds).length % 2 = 0 := by
  induction cmds with
  | nil => rfl
  | cons cmd cmds ih =>
    have first := (length_words memory cmd).2
    rw [wordsOf, List.flatMap_cons, List.length_append]
    rw [wordsOf] at ih
    omega

@[simp] theorem wordsOf_append (memory : NndmaMemory) (cmds others : List NndmaCmdBuf) :
    wordsOf memory (cmds ++ others) = wordsOf memory cmds ++ wordsOf memory others :=
  List.flatMap_append

@[simp] theorem wordsOf_cons (memory : NndmaMemory) (cmd : NndmaCmdBuf) (cmds : List NndmaCmdBuf) :
    wordsOf memory (cmd :: cmds) = cmd.words memory ++ wordsOf memory cmds := List.flatMap_cons

@[simp] theorem wordsOf_nil (memory : NndmaMemory) : wordsOf memory [] = [] := rfl

end Words

section Chains

/-- A chain is a number of linked commands and one that is not linked. -/
def Closed (chain : List NndmaCmdBuf) : Prop :=
  ∃ linked last, chain = linked ++ [last] ∧ (∀ cmd ∈ linked, cmd.desLink = 1) ∧ last.desLink ≠ 1

/-- A chain has a descriptor at least. -/
theorem Closed.words (closed : Closed chain) (memory : NndmaMemory) :
    2 ≤ (wordsOf memory chain).length := by
  obtain ⟨linked, last, rfl, _, _⟩ := closed
  have one := (length_words memory last).1
  simp only [wordsOf_append, wordsOf_cons, List.length_append]
  omega

/-- A list is its chains one after the other, and linked commands behind the last one. -/
theorem chainsOf_spec (cmds : List NndmaCmdBuf) : (∀ chain ∈ chainsOf cmds, Closed chain) ∧
    ∃ tail, cmds = (chainsOf cmds).flatten ++ tail ∧ ∀ cmd ∈ tail, cmd.desLink = 1 := by
  induction cmds with
  | nil => exact ⟨by simp [chainsOf], [], rfl, by simp⟩
  | cons cmd cmds ih =>
    obtain ⟨closed, tail, same, linked⟩ := ih
    rw [chainsOf]
    split
    case isFalse last =>
      refine ⟨?_, tail, by simp [← same], linked⟩
      exact List.forall_mem_cons.mpr ⟨⟨[], cmd, rfl, by simp, last⟩, closed⟩
    case isTrue link =>
      split
      case h_1 none =>
        -- No chain follows, so the command is one more of those behind the last chain.
        rw [none, List.flatten_nil, List.nil_append] at same
        exact ⟨by simp, cmd :: tail, by simp [same], List.forall_mem_cons.mpr ⟨link, linked⟩⟩
      case h_2 chain chains some =>
        rw [some] at closed same
        refine ⟨?_, tail, by simpa using same, linked⟩
        obtain ⟨first, others⟩ := List.forall_mem_cons.mp closed
        obtain ⟨front, last, rfl, fronts, stop⟩ := first
        exact List.forall_mem_cons.mpr
          ⟨⟨cmd :: front, last, rfl, List.forall_mem_cons.mpr ⟨link, fronts⟩, stop⟩, others⟩

end Chains

section Analysis

/-- The analysis goes on with what it has found so far. -/
theorem analyseFrom_append (cmds others : List NndmaCmdBuf) : info.analyseFrom memory idx
    (cmds ++ others) = (info.analyseFrom memory idx cmds).bind fun next =>
      next.analyseFrom memory (idx + cmds.length) others := by
  induction cmds generalizing info idx with
  | nil => rfl
  | cons cmd cmds ih =>
    simp only [List.cons_append, DesInfo.analyseFrom, Option.bind_assoc, List.length_cons]
    refine congrArg _ (funext fun next => ?_)
    rw [ih, Nat.add_assoc, Nat.add_comm 1]

/-- The words of the commands have all been written when the analysis returns. -/
theorem analyseFrom_words {result : DesInfo} (short : info.desData.length ≤ DesInfo.capacity)
    (found : info.analyseFrom memory idx cmds = some result) :
    (info.desData ++ wordsOf memory cmds).length ≤ DesInfo.capacity := by
  -- The induction is on the commands; each has passed the test on the capacity.
  induction cmds generalizing info idx with
  | nil => simpa [wordsOf] using short
  | cons cmd cmds ih =>
    obtain ⟨next, first, rest⟩ := Option.bind_eq_some_iff.mp found
    simp only [DesInfo.analyse, Option.ite_none_right_eq_some] at first
    obtain ⟨fits, first⟩ := first
    have more : next.desData = info.desData ++ cmd.words memory := by
      split at first
      · cases first
        rfl
      · obtain ⟨_, same⟩ := Option.ite_none_right_eq_some.mp first
        cases same
        rfl
    have all := ih (by rw [more, List.length_append]; exact fits) rest
    rw [more] at all
    simpa using all

/-- Linked commands only add to the chain that is being analysed. -/
theorem analyseFrom_linked (memory : NndmaMemory) (info : DesInfo) (idx : Nat)
    (linked : ∀ cmd ∈ cmds, cmd.desLink = 1)
    (fits : (info.desData ++ wordsOf memory cmds).length ≤ DesInfo.capacity) :
    ∃ totalBytes, info.analyseFrom memory idx cmds = some { info with
      desData := info.desData ++ wordsOf memory cmds
      desNum := info.desNum + (wordsOf memory cmds).length
      totalBytes := totalBytes } := by
  -- The induction is on the commands; a linked one opens no chain.
  induction cmds generalizing info idx with
  | nil => exact ⟨info.totalBytes, by simp [DesInfo.analyseFrom, wordsOf]⟩
  | cons cmd cmds ih =>
    obtain ⟨link, others⟩ := List.forall_mem_cons.mp linked
    rw [wordsOf_cons, ← List.append_assoc] at fits
    have enough : info.desData.length + (cmd.words memory).length ≤ DesInfo.capacity := by
      simp only [List.length_append] at fits
      omega
    obtain ⟨total, rest⟩ := ih { info with
      desData := info.desData ++ cmd.words memory
      desNum := info.desNum + (cmd.words memory).length
      totalBytes := info.totalBytes + cmd.dataBytes } (idx + 1) others fits
    refine ⟨total, ?_⟩
    simp only [DesInfo.analyseFrom, DesInfo.analyse, if_pos enough, if_pos link, Option.bind_some,
      rest, wordsOf_cons, List.append_assoc, List.length_append, Nat.add_assoc]

/-- The records of chains that start at an index of their list. -/
def Recorded (memory : NndmaMemory) : Nat → List (List NndmaCmdBuf) → List DesChain → Prop
  | _, [], [] => True
  | idx, chain :: chains, record :: records =>
    record.desNum = (wordsOf memory chain).length ∧ record.chainStIdx = idx ∧
      Recorded memory (idx + chain.length) chains records
  | _, _, _ => False

/-- A chain is recorded with its number of words and its first command. -/
theorem analyseFrom_chain (memory : NndmaMemory) (info : DesInfo) (idx : Nat) (closed : Closed chain)
    (fresh : info.desNum = 0)
    (fits : (info.desData ++ wordsOf memory chain).length ≤ DesInfo.capacity)
    (room : info.chains.length < DesInfo.capacity) :
    ∃ totalBytes, info.analyseFrom memory idx chain = some
      { desData := info.desData ++ wordsOf memory chain
        chains := info.chains ++ [⟨(wordsOf memory chain).length, totalBytes, info.chainStIdx⟩]
        desNum := 0
        totalBytes := 0
        chainStIdx := idx + chain.length } := by
  obtain ⟨linked, last, rfl, links, stop⟩ := closed
  simp only [wordsOf_append, List.length_append] at fits
  obtain ⟨total, first⟩ := analyseFrom_linked memory info idx links
    (by simp only [List.length_append]; omega)
  -- The last command is not linked, so it ends the chain.
  have enough : (info.desData ++ wordsOf memory linked).length + (last.words memory).length
      ≤ DesInfo.capacity := by
    rw [wordsOf_cons, wordsOf_nil, List.append_nil] at fits
    rw [List.length_append]
    omega
  refine ⟨total + last.dataBytes, ?_⟩
  rw [analyseFrom_append, first, Option.bind_some]
  simp only [DesInfo.analyseFrom, DesInfo.analyse, if_pos enough, if_neg stop, if_pos room,
    Option.bind_some, fresh, Nat.zero_add]
  simp [Nat.add_assoc]

/-- Chains one after the other are recorded one after the other. -/
theorem analyseFrom_chains (memory : NndmaMemory) (chains : List (List NndmaCmdBuf))
    (info : DesInfo) (idx : Nat) (closed : ∀ chain ∈ chains, Closed chain)
    (fresh : info.desNum = 0) (start : info.chainStIdx = idx)
    (fits : (info.desData ++ wordsOf memory chains.flatten).length ≤ DesInfo.capacity)
    (paired : 2 * info.chains.length ≤ info.desData.length) :
    ∃ result records, info.analyseFrom memory idx chains.flatten = some result ∧
      result.desData = info.desData ++ wordsOf memory chains.flatten ∧
      result.chains = info.chains ++ records ∧ Recorded memory idx chains records := by
  induction chains generalizing info idx with
  | nil => exact ⟨info, [], rfl, by simp [wordsOf], by simp, trivial⟩
  | cons chain chains ih =>
    obtain ⟨first, others⟩ := List.forall_mem_cons.mp closed
    have words := first.words memory
    simp only [List.flatten_cons, wordsOf_append, List.length_append] at fits
    -- Each chain has a descriptor at least, so the records are fewer than the words.
    obtain ⟨total, done⟩ := analyseFrom_chain memory info idx first fresh
      (by simp only [List.length_append]; omega) (by omega)
    obtain ⟨result, records, rest, data, list, recorded⟩ := ih
      ⟨info.desData ++ wordsOf memory chain,
        info.chains ++ [⟨(wordsOf memory chain).length, total, info.chainStIdx⟩], 0, 0,
        idx + chain.length⟩ (idx + chain.length) others rfl rfl
      (by simp only [List.length_append]; omega)
      (by simp only [List.length_append, List.length_singleton]; omega)
    refine ⟨result, ⟨(wordsOf memory chain).length, total, info.chainStIdx⟩ :: records, ?_, ?_, ?_,
      rfl, start, recorded⟩
    · rw [List.flatten_cons, analyseFrom_append, done, Option.bind_some, rest]
    · rw [data, List.flatten_cons, wordsOf_append, List.append_assoc]
    · rw [list, List.append_assoc]
      rfl

/-- A call analyses all chains from the one that it is told to start with. -/
theorem nnaDesAnalysis_spec {done rest : List (List NndmaCmdBuf)} {tail : List NndmaCmdBuf}
    (same : cmds = (done ++ rest).flatten ++ tail) (closed : ∀ chain ∈ rest, Closed chain)
    (linked : ∀ cmd ∈ tail, cmd.desLink = 1)
    (fits : (wordsOf memory cmds).length ≤ DesInfo.capacity) :
    ∃ result, nnaDesAnalysis memory cmds done.flatten.length = some result ∧
      result.desData = wordsOf memory rest.flatten ++ wordsOf memory tail ∧
      Recorded memory done.flatten.length rest result.chains := by
  subst same
  simp only [List.flatten_append, List.append_assoc, wordsOf_append, List.length_append] at fits
  -- First the closed chains, then the linked commands behind them.
  obtain ⟨result, records, found, data, list, recorded⟩ := analyseFrom_chains memory
    rest ⟨[], [], 0, 0, done.flatten.length⟩ done.flatten.length closed rfl rfl
    (by simp only [List.nil_append]; omega) (Nat.le_refl _)
  rw [List.nil_append] at data list
  obtain ⟨total, last⟩ := analyseFrom_linked memory result
    (done.flatten.length + rest.flatten.length) linked
    (by rw [data, List.length_append]; omega)
  refine ⟨{ result with
    desData := result.desData ++ wordsOf memory tail
    desNum := result.desNum + (wordsOf memory tail).length
    totalBytes := total }, ?_, ?_, ?_⟩
  · rw [nnaDesAnalysis, List.flatten_append, List.append_assoc, List.drop_left, analyseFrom_append,
      found, Option.bind_some, last]
  · rw [data]
  · rw [list]
    exact recorded

end Analysis

section Update

variable {rdData wrData rtail wtail : List UInt32} {s next : DesramUpdate}
  {pairs : List (List NndmaCmdBuf × List NndmaCmdBuf)} {rcmds wcmds : List NndmaCmdBuf}

/-- A command word points to the word of the DESRAM that it was made for, if that is an even one. -/
theorem pointer_dmaCmd (totalBytes : UInt32) (desWptr : Nat) (even : desWptr % 2 = 0)
    (small : desWptr < 4096) : pointer (dmaCmd totalBytes desWptr) = desWptr := by
  have low : (UInt32.ofNat (desWptr / 2) &&& 0xFFF).toNat = desWptr / 2 := by
    show (UInt32.ofNat (desWptr / 2)).toNat &&& 0xFFF = _
    rw [UInt32.toNat_ofNat', Nat.and_two_pow_sub_one_eq_mod _ 12]
    omega
  have high : ((totalBytes &&& 0x3FFF) <<< 12).toNat % 2 ^ 12 = 0 := by
    show (totalBytes.toNat &&& 0x3FFF) <<< 12 % 2 ^ 32 % 2 ^ 12 = 0
    rw [Nat.shiftLeft_eq]
    omega
  -- The pointer fills the bits below the number of bytes.
  rw [pointer, dmaCmd, UInt32.toNat_or, low, NndmaRequest.or_low (k := 12) high (by omega)]
  omega

/-- Where the loop stands: the data of the chains ahead, and the room behind the last chain. -/
structure Ahead (memory : NndmaMemory) (rdData wrData : List UInt32)
    (pairs : List (List NndmaCmdBuf × List NndmaCmdBuf)) (s : DesramUpdate) : Prop where
  size : s.desram.length = 4096
  even : s.rdDesWptr % 2 = 0
  room : s.rdDesWptr + s.desramRemain = 4096
  reads : ∃ tail, rdData.drop s.desRdBufStPtr = wordsOf memory (pairs.map Prod.fst).flatten ++ tail
  writes : ∃ tail, wrData.drop s.desWrBufStPtr = wordsOf memory (pairs.map Prod.snd).flatten ++ tail

/-- What a pair of chains leaves behind: the words where the command words point, and all before. -/
structure Copied (memory : NndmaMemory) (pair : List NndmaCmdBuf × List NndmaCmdBuf)
    (s : DesramUpdate) (rword wword : UInt32) (next : DesramUpdate) : Prop where
  dmaCmdBuf : next.dmaCmdBuf = s.dmaCmdBuf ++ [rword, wword]
  reads : Segment.At next.desram (pointer rword) (wordsOf memory pair.1) ∧
    pointer rword + (wordsOf memory pair.1).length ≤ next.rdDesWptr
  writes : Segment.At next.desram (pointer wword) (wordsOf memory pair.2) ∧
    pointer wword + (wordsOf memory pair.2).length ≤ next.rdDesWptr
  frame : ∀ place words, place + words.length ≤ s.rdDesWptr →
    Segment.At s.desram place words → Segment.At next.desram place words
  onward : s.rdDesWptr ≤ next.rdDesWptr
  finished : next.finishChainNum = s.finishChainNum + 1

/-- A pair of chains that fits is copied behind the others, and its command words point to it. -/
theorem Ahead.load (ahead : Ahead memory rdData wrData ((rcmds, wcmds) :: pairs) s)
    {rd wr : DesChain} (rnum : rd.desNum = (wordsOf memory rcmds).length)
    (wnum : wr.desNum = (wordsOf memory wcmds).length)
    (positive : 0 < rd.desNum ∧ 0 < wr.desNum)
    (fits : rd.desNum + wr.desNum ≤ s.desramRemain) :
    ∃ next rword wword, s.load rdData wrData rd wr = some next ∧
      Ahead memory rdData wrData pairs next ∧
      Copied memory (rcmds, wcmds) s rword wword next := by
  obtain ⟨rtail, rest⟩ := ahead.reads
  obtain ⟨wtail, west⟩ := ahead.writes
  simp only [List.map_cons, List.flatten_cons, wordsOf_append, List.append_assoc] at rest west
  have size := ahead.size
  have room := ahead.room
  have even := ahead.even
  have reven := even_wordsOf memory rcmds
  have weven := even_wordsOf memory wcmds
  -- What is copied from each list are the words of its chain.
  have rwords : (rdData.drop s.desRdBufStPtr).take rd.desNum = wordsOf memory rcmds := by
    rw [rest, rnum, List.take_left]
  have wwords : (wrData.drop s.desWrBufStPtr).take wr.desNum = wordsOf memory wcmds := by
    rw [west, wnum, List.take_left]
  obtain ⟨first, done, length, there⟩ := Segment.write_fits s.desram s.rdDesWptr
    (wordsOf memory rcmds) (by omega)
  obtain ⟨second, done', length', there'⟩ := Segment.write_fits first
    (s.rdDesWptr + rd.desNum) (wordsOf memory wcmds) (by omega)
  have rpointer := pointer_dmaCmd rd.totalBytes s.rdDesWptr even (by omega)
  have wpointer := pointer_dmaCmd wr.totalBytes (s.rdDesWptr + rd.desNum) (by omega)
    (by omega)
  refine ⟨_, dmaCmd rd.totalBytes s.rdDesWptr, dmaCmd wr.totalBytes (s.rdDesWptr + rd.desNum),
    by rw [DesramUpdate.load, rwords, wwords, done, Option.bind_some, done', Option.map_some],
    ⟨?_, ?_, ?_, ?_, ?_⟩, ⟨rfl, ?_, ?_, ?_, ?_, rfl⟩⟩
  · exact length'.trans (length.trans size)
  · show (s.rdDesWptr + rd.desNum + wr.desNum) % 2 = 0
    omega
  · show s.rdDesWptr + rd.desNum + wr.desNum + (s.desramRemain - (rd.desNum + wr.desNum)) = 4096
    omega
  · refine ⟨rtail, ?_⟩
    show rdData.drop (s.desRdBufStPtr + rd.desNum) = _
    rw [← List.drop_drop, rest, rnum, List.drop_left]
  · refine ⟨wtail, ?_⟩
    show wrData.drop (s.desWrBufStPtr + wr.desNum) = _
    rw [← List.drop_drop, west, wnum, List.drop_left]
  · rw [rpointer]
    refine ⟨there.write (by omega) done', ?_⟩
    show s.rdDesWptr + (wordsOf memory rcmds).length ≤ s.rdDesWptr + rd.desNum + wr.desNum
    omega
  · rw [wpointer]
    refine ⟨there', ?_⟩
    show s.rdDesWptr + rd.desNum + (wordsOf memory wcmds).length ≤
      s.rdDesWptr + rd.desNum + wr.desNum
    omega
  · intro place words before stands
    exact (stands.write before done).write (by omega) done'
  · show s.rdDesWptr ≤ s.rdDesWptr + rd.desNum + wr.desNum
    omega

/-- What a run of the loop has done: the first pairs are loaded, and the others are left for later. -/
structure Stopped (memory : NndmaMemory) (ridx widx : Nat) (s : DesramUpdate)
    (done rest : List (List NndmaCmdBuf × List NndmaCmdBuf)) (load : DmaLoad) : Prop where
  size : load.desram.length = 4096
  loaded : ∃ words, load.dmaCmdBuf = s.dmaCmdBuf ++ words ∧ Loaded memory load.desram words done
  frame : ∀ place words, place + words.length ≤ s.rdDesWptr →
    Segment.At s.desram place words → Segment.At load.desram place words
  count : load.result.dmaCmdNum = s.finishChainNum + done.length
  finish : load.result.finish = if rest = [] then 1 else 0
  restart : rest ≠ [] → load.result.rcmdStIdx = ridx + (done.map Prod.fst).flatten.length ∧
    load.result.wcmdStIdx = widx + (done.map Prod.snd).flatten.length
  full : done = [] → ∀ pair ∈ rest.head?, s.desramRemain <
    (wordsOf memory pair.1).length + (wordsOf memory pair.2).length

/-- The loop loads pairs of chains as long as they fit. -/
theorem loop_spec (pairs : List (List NndmaCmdBuf × List NndmaCmdBuf)) (s : DesramUpdate)
    {ridx widx : Nat} {rds wrs : List DesChain} (ahead : Ahead memory rdData wrData pairs s)
    (closed : ∀ pair ∈ pairs, Closed pair.1 ∧ Closed pair.2)
    (rrecorded : Recorded memory ridx (pairs.map Prod.fst) rds)
    (wrecorded : Recorded memory widx (pairs.map Prod.snd) wrs) :
    ∃ load done rest, DesramUpdate.loop rdData wrData rds wrs s = some load ∧
      pairs = done ++ rest ∧ Stopped memory ridx widx s done rest load := by
  -- The induction follows the loop over the chains.
  induction pairs generalizing s ridx widx rds wrs with
  | nil =>
    cases rds with
    | cons rd rds => exact rrecorded.elim
    | nil =>
      refine ⟨_, [], [], rfl, rfl, ahead.size, ⟨[], by simp, trivial⟩, fun _ _ _ stands => stands,
        rfl, rfl, fun some => absurd rfl some, by simp⟩
  | cons pair pairs ih =>
    cases rds with
    | nil => exact rrecorded.elim
    | cons rd rds =>
      cases wrs with
      | nil => exact wrecorded.elim
      | cons wr wrs =>
        obtain ⟨rnum, rstart, rrecorded⟩ := rrecorded
        obtain ⟨wnum, wstart, wrecorded⟩ := wrecorded
        obtain ⟨⟨rclosed, wclosed⟩, others⟩ := List.forall_mem_cons.mp closed
        rw [DesramUpdate.loop]
        split
        case isTrue fits =>
          have positive : 0 < rd.desNum ∧ 0 < wr.desNum := by
            have first := rclosed.words memory
            have second := wclosed.words memory
            omega
          obtain ⟨next, rword, wword, done, onward, copied⟩ :=
            ahead.load rnum wnum positive fits
          obtain ⟨load, front, rest, found, split, stopped⟩ :=
            ih next onward others rrecorded wrecorded
          refine ⟨load, pair :: front, rest, by rw [done, Option.bind_some, found],
            by rw [split]; rfl, stopped.size, ?_, ?_, ?_, stopped.finish, ?_, by simp⟩
          · -- The words of the pair are in front of all that is loaded later.
            obtain ⟨words, buffer, loaded⟩ := stopped.loaded
            refine ⟨rword :: wword :: words, by rw [buffer, copied.dmaCmdBuf]; simp, ?_, ?_, loaded⟩
            · exact stopped.frame _ _ copied.reads.2 copied.reads.1
            · exact stopped.frame _ _ copied.writes.2 copied.writes.1
          · intro place words before stands
            exact stopped.frame place words (before.trans copied.onward)
              (copied.frame place words before stands)
          · rw [stopped.count, copied.finished, List.length_cons]
            omega
          · intro more
            obtain ⟨rnext, wnext⟩ := stopped.restart more
            rw [rnext, wnext]
            simp only [List.map_cons, List.flatten_cons, List.length_append]
            omega
        case isFalse full =>
          refine ⟨_, [], pair :: pairs, rfl, rfl, ahead.size, ⟨[], by simp, trivial⟩,
            fun _ _ _ stands => stands, rfl, rfl, fun _ => ⟨rstart, wstart⟩, ?_⟩
          intro _ first head
          cases head
          omega

end Update

section Calls

variable {rcmds wcmds rtail wtail : List NndmaCmdBuf} {desram : List UInt32}
  {pairs done rest : List (List NndmaCmdBuf × List NndmaCmdBuf)}

/-- Both lists are pairs of chains, and linked commands behind them; their words fit one call. -/
structure Paired (memory : NndmaMemory) (rcmds wcmds : List NndmaCmdBuf)
    (pairs : List (List NndmaCmdBuf × List NndmaCmdBuf)) : Prop where
  closed : ∀ pair ∈ pairs, Closed pair.1 ∧ Closed pair.2
  reads : ∃ tail, rcmds = (pairs.map Prod.fst).flatten ++ tail ∧ ∀ cmd ∈ tail, cmd.desLink = 1
  writes : ∃ tail, wcmds = (pairs.map Prod.snd).flatten ++ tail ∧ ∀ cmd ∈ tail, cmd.desLink = 1
  each : ∀ pair ∈ pairs, (wordsOf memory pair.1).length + (wordsOf memory pair.2).length ≤ 4096
  rfits : (wordsOf memory rcmds).length ≤ DesInfo.capacity
  wfits : (wordsOf memory wcmds).length ≤ DesInfo.capacity

/-- A call loads pairs from the one on that it is told to start with. -/
theorem Paired.driver (paired : Paired memory rcmds wcmds (done ++ rest))
    (size : desram.length = 4096) : ∃ load now later,
      nnaDmaDriver memory rcmds wcmds (done.map Prod.fst).flatten.length
        (done.map Prod.snd).flatten.length desram = some load ∧ rest = now ++ later ∧
      Stopped memory (done.map Prod.fst).flatten.length (done.map Prod.snd).flatten.length
        ⟨desram, [], 0, 4096, 0, 0, 0⟩ now later load := by
  obtain ⟨rtail, rsame, rlinked⟩ := paired.reads
  obtain ⟨wtail, wsame, wlinked⟩ := paired.writes
  have closed : ∀ pair ∈ rest, Closed pair.1 ∧ Closed pair.2 := fun pair member =>
    paired.closed pair (List.mem_append_right done member)
  rw [List.map_append] at rsame wsame
  obtain ⟨rd, rfound, rdata, rrecorded⟩ := nnaDesAnalysis_spec rsame
    (by simpa using fun chain other member => (closed (chain, other) member).1) rlinked paired.rfits
  obtain ⟨wr, wfound, wdata, wrecorded⟩ := nnaDesAnalysis_spec wsame
    (by simpa using fun other chain member => (closed (chain, other) member).2) wlinked paired.wfits
  rw [nnaDmaDriver, rfound, Option.bind_some, wfound, Option.bind_some]
  exact loop_spec rest _ ⟨size, rfl, rfl, ⟨_, rdata⟩, ⟨_, wdata⟩⟩ closed rrecorded wrecorded

/-- From any pair on, some number of calls loads all pairs that are left. -/
theorem Paired.calls (paired : Paired memory rcmds wcmds (done ++ rest))
    (size : desram.length = 4096) : ∃ calls loads,
      nnaDmaCalls memory rcmds wcmds calls (done.map Prod.fst).flatten.length
        (done.map Prod.snd).flatten.length desram = some loads ∧ Complete memory loads rest := by
  -- The induction is on the number of pairs that are left, which each call makes smaller.
  induction count : rest.length using Nat.strong_induction_on generalizing done rest desram with
  | _ left ih =>
    obtain ⟨load, now, later, found, split, stopped⟩ := paired.driver size
    obtain ⟨words, buffer, loaded⟩ := stopped.loaded
    have loads : load.Loads memory now := by
      refine ⟨by rw [buffer]; exact loaded, by rw [stopped.count]; exact Nat.zero_add _⟩
    by_cases last : later = []
    · refine ⟨1, [load], ?_, [now], by simp [split, last], .cons loads .nil⟩
      rw [nnaDmaCalls, found, Option.bind_some, if_pos (by rw [stopped.finish, if_pos last])]
    · have finish : load.result.finish ≠ 1 := by rw [stopped.finish, if_neg last]; decide
      obtain ⟨rnext, wnext⟩ := stopped.restart last
      -- The first pair that is left fits the empty DESRAM, so something has been loaded.
      have some : now ≠ [] := by
        intro none
        obtain ⟨pair, others, shape⟩ := List.exists_cons_of_ne_nil last
        have full := stopped.full none pair (by simp [shape])
        have each := paired.each pair (by simp [split, shape])
        simp only at full
        omega
      have fewer : later.length < left := by
        have long := List.length_pos_iff.mpr some
        rw [← count, split, List.length_append]
        omega
      subst split
      rw [← List.append_assoc] at paired
      obtain ⟨calls, others, rest, groups, together, each⟩ := ih later.length fewer paired
        stopped.size rfl
      refine ⟨calls + 1, load :: others, ?_, now :: groups, by simp [together], .cons loads each⟩
      rw [nnaDmaCalls, found, Option.bind_some, if_neg finish, rnext, wnext, ← List.length_append,
        ← List.length_append, ← List.flatten_append, ← List.flatten_append, ← List.map_append,
        ← List.map_append, rest, Option.map_some]

/-- Calls that return have written all words of both lists into their arrays. -/
theorem fits_of_calls {calls : Nat} {loads : List DmaLoad}
    (found : nnaDmaCalls memory rcmds wcmds calls 0 0 desram = some loads) :
    (wordsOf memory rcmds).length ≤ DesInfo.capacity ∧
      (wordsOf memory wcmds).length ≤ DesInfo.capacity := by
  -- The first call analyses both lists from their starts.
  cases calls with
  | zero => cases found
  | succ calls =>
    obtain ⟨load, first, _⟩ := Option.bind_eq_some_iff.mp found
    obtain ⟨rd, rfound, more⟩ := Option.bind_eq_some_iff.mp first
    obtain ⟨wr, wfound, _⟩ := Option.bind_eq_some_iff.mp more
    exact ⟨analyseFrom_words (Nat.zero_le _) rfound, analyseFrom_words (Nat.zero_le _) wfound⟩

/-- Commands that are not linked are a chain each. -/
theorem chainsOf_single (single : ∀ cmd ∈ cmds, cmd.desLink ≠ 1) :
    chainsOf cmds = cmds.map fun cmd => [cmd] := by
  induction cmds with
  | nil => rfl
  | cons cmd cmds ih =>
    obtain ⟨first, others⟩ := List.forall_mem_cons.mp single
    rw [chainsOf, if_neg first, ih others, List.map_cons]

end Calls

/--
For lists with as many chains, pairs of which fit the DESRAM, the calls come to an end and load all
chains in order with command words that point to them, none of them writing behind an array,
exactly when all words of the read list fit `des_data`, and all words of the write list do.
-/
theorem complete_iff (memory : NndmaMemory) (rcmds wcmds : List NndmaCmdBuf) (desram : List UInt32)
    (size : desram.length = 4096) (same : (chainsOf rcmds).length = (chainsOf wcmds).length)
    (each : ∀ pair ∈ (chainsOf rcmds).zip (chainsOf wcmds),
      (wordsOf memory pair.1).length + (wordsOf memory pair.2).length ≤ 4096) :
    (∃ calls loads, nnaDmaCalls memory rcmds wcmds calls 0 0 desram = some loads ∧
      Complete memory loads ((chainsOf rcmds).zip (chainsOf wcmds))) ↔
    (wordsOf memory rcmds).length ≤ DesInfo.capacity ∧
      (wordsOf memory wcmds).length ≤ DesInfo.capacity := by
  constructor
  · intro given
    obtain ⟨calls, loads, found, _⟩ := given
    exact fits_of_calls found
  · intro fits
    obtain ⟨rclosed, rtail, rsame, rlinked⟩ := chainsOf_spec rcmds
    obtain ⟨wclosed, wtail, wsame, wlinked⟩ := chainsOf_spec wcmds
    -- The invariant of the calls holds before the first one, with nothing loaded.
    have paired : Paired memory rcmds wcmds ([] ++ (chainsOf rcmds).zip (chainsOf wcmds)) := by
      refine ⟨?_, ⟨rtail, ?_, rlinked⟩, ⟨wtail, ?_, wlinked⟩, each, fits.1, fits.2⟩
      · intro pair member
        exact ⟨rclosed pair.1 (List.of_mem_zip member).1, wclosed pair.2 (List.of_mem_zip member).2⟩
      · rw [List.nil_append, List.map_fst_zip (Nat.le_of_eq same)]
        exact rsame
      · rw [List.nil_append, List.map_snd_zip (Nat.le_of_eq same.symm)]
        exact wsame
    exact paired.calls size

/-- A command for one unit, which is a chain of its own. -/
def oneUnit : NndmaCmdBuf := ⟨0x60000000, 0x50100000, 0x50100000, 0x80000, 64, 0⟩

/-- The memories as they are mapped for it. -/
def unitMemory : NndmaMemory := ⟨0x50000000, 0x12500000, 0x60000000, 0x0e000000⟩

/-- Two units are read, and one is written in each of two chains. -/
theorem complete_iff_units : ∃ calls loads,
    nnaDmaCalls unitMemory [oneUnit, { oneUnit with desLink := 1 }, oneUnit] [oneUnit, oneUnit]
      calls 0 0 (List.replicate 4096 0) = some loads ∧
    Complete unitMemory loads
      [([oneUnit], [oneUnit]), ([{ oneUnit with desLink := 1 }, oneUnit], [oneUnit])] :=
  (complete_iff unitMemory [oneUnit, { oneUnit with desLink := 1 }, oneUnit] [oneUnit, oneUnit]
    (List.replicate 4096 0) List.length_replicate (by decide) (by decide)).mpr (by decide)

/-- Of 2049 chains of one unit each the words of the last one are behind the array. -/
theorem complete_overflows : ∃ rcmds wcmds,
    (chainsOf rcmds).length = (chainsOf wcmds).length ∧
    (∀ pair ∈ (chainsOf rcmds).zip (chainsOf wcmds),
      (wordsOf unitMemory pair.1).length + (wordsOf unitMemory pair.2).length ≤ 4096) ∧
    ∀ calls, nnaDmaCalls unitMemory rcmds wcmds calls 0 0 (List.replicate 4096 0) = none := by
  have two : (wordsOf unitMemory [oneUnit]).length = 2 := by decide
  have chains : chainsOf (List.replicate 2049 oneUnit) = List.replicate 2049 [oneUnit] := by
    rw [chainsOf_single, List.map_replicate]
    intro cmd member
    rw [List.eq_of_mem_replicate member]
    decide
  refine ⟨List.replicate 2049 oneUnit, List.replicate 2049 oneUnit, rfl, ?_, fun calls => ?_⟩
  · intro pair member
    rw [chains] at member
    obtain ⟨first, second⟩ := List.of_mem_zip member
    rw [List.eq_of_mem_replicate first, List.eq_of_mem_replicate second, two]
    decide
  · cases found : nnaDmaCalls unitMemory (List.replicate 2049 oneUnit)
      (List.replicate 2049 oneUnit) calls 0 0 (List.replicate 4096 0) with
    | none => rfl
    | some loads =>
      -- There are 4098 words, which would all have been written.
      have fits := (fits_of_calls found).1
      have unit : (oneUnit.words unitMemory).length = 2 := by decide
      rw [wordsOf, List.length_flatMap, List.map_replicate, List.sum_replicate_nat, unit] at fits
      exact absurd fits (by decide)

end Aip
