import Cycology.LogPages
import Cycology.Lib.Runs

/- The summary a log header keeps of its log: how many pages were allocated, how
   many blocks, how often these were erased, and which the first, the last and
   the one before the last are.

   `getLogForFile` sets the fields for the log's first block. `getFreePage` counts
   the pages, but when it takes a block it only moves `last`: the number of
   blocks, their erasures and `prev` stay what they were. So the header is right
   until the log is given its second block, and never again. -/
namespace Cycology
open ByteMem LinkedChain Nand Runs

/-- A log, the number of pages allocated from it, and the blocks handed to it
    with their erase counts, the latest first. -/
structure LogUse where
  log : ActiveLog
  pages : Nat
  blocks : List (Int × Int)

/-- What a call of `getFreePage` finds on the device and on the free lists, and in
    the page it allocates. Other calls may have changed them since the last one. -/
structure PageCall where
  nand : Nand
  lists : FreeList
  mem : FullPage

/-- The next page is the second to last of its block: `getFreePage` takes a block. -/
def TakesBlock (log : ActiveLog) : Prop := (cint (log.nextPage + 2)).tmod blockSize = 0

instance (log : ActiveLog) : Decidable (TakesBlock log) := inferInstanceAs (Decidable (_ = _))

/-- The log after a call. -/
def LogUse.call (s : LogUse) (c : PageCall) : LogUse where
  log := (getFreePage c.nand c.lists s.log c.mem).log
  pages := s.pages + 1
  blocks :=
    if TakesBlock s.log then
      (blockOf (getFreeBlock c.nand c.lists 0).freePage,
        (getFreeBlock c.nand c.lists 0).freePageErases) :: s.blocks
    else s.blocks

/-- A call that takes a block finds one, which is not in the log yet. -/
def EnoughBlocks (s : LogUse) (c : PageCall) : Prop :=
  TakesBlock s.log → c.lists.completeHead ≠ 0 ∧
    blockOf (getFreeBlock c.nand c.lists 0).freePage ∉ s.blocks.map Prod.fst

/-- The header describes the log. -/
structure Accounted (s : LogUse) : Prop where
  active : s.log.log.active = s.pages
  total : s.log.log.total = ((s.blocks.map Prod.fst).dedup.length : Nat)
  erases : s.log.log.erases = (s.blocks.map Prod.snd).sum % 18446744073709551616
  first : (s.blocks.map Prod.fst).getLast? = some s.log.log.first
  last : (s.blocks.map Prod.fst).head? = some s.log.last
  prev : s.log.log.prev = ((s.blocks.map Prod.fst)[1]?).getD (-1)

/-- How many calls a log with one block makes from page `a` of it before the one
    that takes a block. After the third to last page come page -1 and then the
    second to last. -/
def callsInBlock (a : Int) : Nat :=
  if a % 16 ≤ 13 then (15 - a % 16).toNat else if a % 16 = 14 then 0 else 1

/-! ## One call -/

section
variable {d : Nand} {l : FreeList} {log : ActiveLog} {mem : FullPage}

theorem header_getFreePage :
    (getFreePage d l log mem).log.log = log.log.setActive (log.log.active + 1) := by
  unfold getFreePage
  dsimp only
  split_ifs <;> rfl

/-- A call at page -1 goes on to the second to last page of the last block. -/
theorem getFreePage_negative (h : log.nextPage = -1) :
    (getFreePage d l log mem).log =
      log.movedTo (cint (log.last * blockSize + (blockSize - 2))) := by
  unfold getFreePage
  rw [h]
  rfl

theorem isInt_freePageErases (d : Nand) (l : FreeList) (newFile : Int) :
    IsInt (getFreeBlock d l newFile).freePageErases := by
  simp only [getFreeBlock]
  split
  · exact Buf.isInt_int _ _
  · exact Buf.isInt_int _ _

end

section
variable {s : LogUse} {c : PageCall} {b : Nat}

theorem takesBlock_iff {k : Nat} (h : s.log.nextPage = k) (hk : k < 2147483600) :
    TakesBlock s.log ↔ k % 16 = 14 := by
  have hmod : (cint ((k : Int) + 2)).tmod blockSize = ((k + 2) % 16 : Nat) := by
    rw [cint_eq (by unfold IsInt; omega)]
    exact (Int.ofNat_tmod (k + 2) 16).symm
  unfold TakesBlock
  rw [h, hmod]
  omega

/-- A log whose only block is `b`. -/
structure OneBlock (s : LogUse) (b : Nat) : Prop where
  blocks : ∃ e, s.blocks = [((b : Int), e)] ∧ s.log.log.erases = e % 18446744073709551616
  active : s.log.log.active = s.pages
  total : s.log.log.total = 1
  first : s.log.log.first = b
  last : s.log.last = b
  prev : s.log.log.prev = -1
  nextPage : s.log.nextPage = -1 ∨ ∃ j < 16, s.log.nextPage = (16 * b + j : Nat)
  pages : s.pages + callsInBlock s.log.nextPage ≤ 15

/-- A log with another block, which the header does not know of. -/
structure MoreBlocks (s : LogUse) : Prop where
  total : s.log.log.total = 1
  nodup : (s.blocks.map Prod.fst).Nodup
  two : 2 ≤ s.blocks.length

theorem OneBlock.accounted (h : OneBlock s b) : Accounted s := by
  obtain ⟨e, hblocks, herases⟩ := h.blocks
  refine ⟨h.active, ?_, ?_, ?_, ?_, ?_⟩
  · rw [h.total, hblocks]; rfl
  · rw [herases, hblocks]; simp
  · rw [h.first, hblocks]; rfl
  · rw [h.last, hblocks]; rfl
  · rw [h.prev, hblocks]; rfl

theorem MoreBlocks.not_accounted (h : MoreBlocks s) : ¬ Accounted s := by
  intro ha
  have htotal := ha.total
  rw [h.total, List.Nodup.dedup h.nodup, List.length_map] at htotal
  have := h.two
  omega

theorem callsInBlock_page (b : Nat) {j : Nat} (hj : j < 16) :
    callsInBlock (16 * b + j : Nat) = if j ≤ 13 then 15 - j else if j = 14 then 0 else 1 := by
  unfold callsInBlock
  split_ifs <;> omega

theorem OneBlock.moved (h : OneBlock s b) (hb : 16 * b + 16 < 2147483600)
    (hleft : 0 < callsInBlock s.log.nextPage) (c : PageCall) :
    ∃ a, (getFreePage c.nand c.lists s.log c.mem).log = s.log.movedTo a ∧ ¬ TakesBlock s.log ∧
      (a = -1 ∨ ∃ j < 16, a = (16 * b + j : Nat)) ∧
      callsInBlock a + 1 = callsInBlock s.log.nextPage := by
  have hsecond : cint (s.log.last * blockSize + (blockSize - 2)) = (16 * b + 14 : Nat) := by
    rw [h.last]
    simp only [blockSize]
    rw [cint_eq (by unfold IsInt; omega)]
    omega
  have hnegative : cint (s.log.log.prev * blockSize + (blockSize - 1)) = -1 := by
    rw [h.prev]
    rfl
  obtain hneg | ⟨j, hj, hk⟩ := h.nextPage
  · refine ⟨(16 * b + 14 : Nat), ?_, ?_, .inr ⟨14, by omega, rfl⟩, ?_⟩
    · rw [getFreePage_negative hneg, hsecond]
    · unfold TakesBlock
      rw [hneg]
      decide
    · rw [hneg, callsInBlock_page b (by omega)]
      rfl
  · have htakes := takesBlock_iff hk (by omega)
    have heq : getFreePage c.nand c.lists s.log c.mem = _ := getFreePage_eq hk (by omega)
    rw [show (16 * b + j) % 16 = j by omega] at htakes heq
    rw [hk, callsInBlock_page b hj] at hleft ⊢
    have h14 : j ≠ 14 := by
      rintro rfl
      exact absurd hleft (by decide)
    rw [htakes, heq]
    by_cases h13 : j = 13
    · refine ⟨-1, ?_, h14, .inl rfl, ?_⟩
      · rw [if_pos h13, hnegative]
      · rw [h13]
        rfl
    · rw [if_neg h13, if_neg h14]
      by_cases h15 : j = 15
      · refine ⟨(16 * b + 14 : Nat), ?_, h14, .inr ⟨14, by omega, rfl⟩, ?_⟩
        · rw [if_pos h15, hsecond]
        · rw [h15, callsInBlock_page b (by omega)]
          rfl
      · refine ⟨(16 * b + j + 1 : Nat), ?_, h14, .inr ⟨j + 1, by omega, rfl⟩, ?_⟩
        · rw [if_neg h15]
        · rw [Nat.add_assoc, callsInBlock_page b (by omega), if_pos (by omega), if_pos (by omega)]
          omega

theorem OneBlock.stays (h : OneBlock s b) (hb : 16 * b + 16 < 2147483600)
    (hleft : 0 < callsInBlock s.log.nextPage) (c : PageCall) :
    OneBlock (s.call c) b ∧
      callsInBlock (s.call c).log.nextPage + 1 = callsInBlock s.log.nextPage := by
  obtain ⟨a, hlog, htakes, ha, hcalls⟩ := h.moved hb hleft c
  obtain ⟨e, hblocks, herases⟩ := h.blocks
  have hpages := h.pages
  refine ⟨⟨⟨e, ?_, ?_⟩, ?_, ?_, ?_, ?_, ?_, ?_, ?_⟩, ?_⟩
  · rw [LogUse.call, if_neg htakes, hblocks]
  · simp only [LogUse.call, hlog, ActiveLog.movedTo, erases_setActive, herases]
  · simp only [LogUse.call, hlog, ActiveLog.movedTo, active_setActive, h.active]
    omega
  · simp only [LogUse.call, hlog, ActiveLog.movedTo, total_setActive, h.total]
  · simp only [LogUse.call, hlog, ActiveLog.movedTo, first_setActive, h.first]
  · simp only [LogUse.call, hlog, ActiveLog.movedTo, h.last]
  · simp only [LogUse.call, hlog, ActiveLog.movedTo, prev_setActive, h.prev]
  · simp only [LogUse.call, hlog, ActiveLog.movedTo]
    exact ha
  · simp only [LogUse.call, hlog, ActiveLog.movedTo]
    omega
  · simp only [LogUse.call, hlog, ActiveLog.movedTo]
    exact hcalls

/-- The header does not count the block a call takes. -/
theorem OneBlock.grows (h : OneBlock s b) (hb : 16 * b + 16 < 2147483600)
    (hleft : callsInBlock s.log.nextPage = 0) (henough : EnoughBlocks s c) :
    MoreBlocks (s.call c) := by
  have htakes : TakesBlock s.log := by
    obtain hneg | ⟨j, hj, hk⟩ := h.nextPage
    · rw [hneg] at hleft
      exact absurd hleft (by decide)
    · rw [takesBlock_iff hk (by omega)]
      rw [hk, callsInBlock_page b hj] at hleft
      split_ifs at hleft <;> omega
  obtain ⟨e, hblocks, -⟩ := h.blocks
  have hfresh := (henough htakes).2
  rw [hblocks] at hfresh
  refine ⟨?_, ?_, ?_⟩
  · rw [LogUse.call, header_getFreePage, total_setActive, h.total]
  · rw [LogUse.call, if_pos htakes, hblocks]
    exact List.nodup_cons.mpr ⟨hfresh, by simp⟩
  · rw [LogUse.call, if_pos htakes, hblocks]
    exact le_refl 2

theorem MoreBlocks.call (h : MoreBlocks s) (henough : EnoughBlocks s c) : MoreBlocks (s.call c) := by
  have htwo := h.two
  refine ⟨?_, ?_, ?_⟩
  · rw [LogUse.call, header_getFreePage, total_setActive, h.total]
  · simp only [LogUse.call]
    split
    · rename_i htakes
      exact List.nodup_cons.mpr ⟨(henough htakes).2, h.nodup⟩
    · exact h.nodup
  · simp only [LogUse.call]
    split
    · rw [List.length_cons]
      omega
    · exact htwo

end

/-! ## Runs -/

/-- The calls that take no block keep the header right, and no others. -/
theorem OneBlock.accounted_iff {b : Nat} (hb : 16 * b + 16 < 2147483600) (calls : List PageCall) :
    ∀ {s : LogUse}, OneBlock s b → EveryStep LogUse.call EnoughBlocks s calls →
    (Accounted (after LogUse.call s calls) ↔ calls.length ≤ callsInBlock s.log.nextPage) := by
  induction calls with
  | nil => exact fun h _ => ⟨fun _ => Nat.zero_le _, fun _ => h.accounted⟩
  | cons c calls ih =>
    intro s h henough
    rw [after, List.length_cons]
    by_cases hleft : callsInBlock s.log.nextPage = 0
    · have hmore : MoreBlocks (after LogUse.call (s.call c) calls) :=
        henough.2.invariant (fun s c hs hc => hs.call hc) (h.grows hb hleft henough.1)
      constructor
      · intro ha
        exact absurd ha hmore.not_accounted
      · intro hlen
        omega
    · obtain ⟨hone, hcalls⟩ := h.stays hb (by omega) c
      rw [ih hone henough.2]
      omega

/-- Until the log has a second block, a call finds enough blocks when it finds a
    block that is not the log's first. -/
theorem OneBlock.everyEnough {b : Nat} (hb : 16 * b + 16 < 2147483600) (calls : List PageCall)
    (hfind : ∀ c ∈ calls, c.lists.completeHead ≠ 0 ∧
      blockOf (getFreeBlock c.nand c.lists 0).freePage ≠ b) :
    ∀ {s : LogUse}, OneBlock s b → calls.length ≤ callsInBlock s.log.nextPage + 1 →
    EveryStep LogUse.call EnoughBlocks s calls := by
  induction calls with
  | nil => exact fun _ _ => trivial
  | cons c calls ih =>
    intro s h hlen
    obtain ⟨e, hblocks, -⟩ := h.blocks
    obtain ⟨hhead, hne⟩ := hfind c List.mem_cons_self
    refine ⟨fun _ => ⟨hhead, by rw [hblocks]; simpa using hne⟩, ?_⟩
    rw [List.length_cons] at hlen
    by_cases hleft : callsInBlock s.log.nextPage = 0
    · obtain rfl : calls = [] := List.length_eq_zero_iff.mp (by omega)
      trivial
    · obtain ⟨hone, hcalls⟩ := h.stays hb (by omega) c
      exact ih (fun c hc => hfind c (List.mem_cons_of_mem _ hc)) hone (by omega)

section
variable {s s' : CYCstate} {n : Nat} {ps cs : List Nat} {theLog : Ptr} {header : Int}
  {fileID : Int} {mode : UInt32} {mem : ActiveLog}

/-- The log that `getLogForFile` has just made in `s'`, with the block it took from
    the lists of `s`. -/
def newLogUse (s s' : CYCstate) (theLog : Ptr) : LogUse :=
  ⟨s'.activeLogs theLog, 0, [(blockOf (getFreeBlock s.nand s.lists 1).freePage,
    (getFreeBlock s.nand s.lists 1).freePageErases)]⟩

theorem oneBlock_newLogUse (hs : s.nand.Sound n) (hl : FreeLists s.nand n s.lists ps cs)
    (hne : ps ++ cs ≠ []) (hr : getLogForFile s fileID mode mem = (s', theLog, header)) :
    ∃ k : Nat, header = k ∧ k < 16 * n ∧ (s'.activeLogs theLog).nextPage = k ∧
      OneBlock (newLogUse s s' theLog) (k / 16) := by
  obtain ⟨k, hheader, hnew⟩ := newLog_getLogForFile hs hl hne hr
  have hfits := hs.fits
  have hlog : ∃ ps' cs', NewLog s' n theLog k ps' cs' := by
    obtain ⟨ps', h⟩ | ⟨cs', h, -⟩ := hnew
    · exact ⟨ps', cs, h⟩
    · exact ⟨[], cs', h⟩
  obtain ⟨ps', cs', h⟩ := hlog
  have hk := h.inRange
  have hdef := congrArg (fun r => (r.1.activeLogs r.2.1).log) hr
  have hpage := congrArg (fun r => r.2.2) hr
  simp only [getLogForFile, update_same] at hdef hpage
  have hblock := blockOf_natCast k
  refine ⟨k, hheader, hk, h.nextPage, ⟨⟨(getFreeBlock s.nand s.lists 1).freePageErases, ?_, ?_⟩,
    ?_, ?_, ?_, h.last, h.prev, ?_, ?_⟩⟩
  · rw [newLogUse, hpage, hheader, hblock]
  · rw [newLogUse, ← hdef, erases_newLogHeader _ _ _ _ _ _ (isInt_freePageErases _ _ _)]
  · rw [newLogUse, ← hdef, active_newLogHeader]
    rfl
  · rw [newLogUse, ← hdef, total_newLogHeader]
  · rw [newLogUse, ← hdef, first_newLogHeader, hpage, hheader]
    rw [show ((k : Int).tdiv blockSize) = (k / 16 : Nat) from hblock]
    exact cint_eq (by unfold IsInt; omega)
  · exact .inr ⟨k % 16, by omega, by rw [newLogUse, h.nextPage]; congr 1; omega⟩
  · rw [newLogUse, h.nextPage]
    unfold callsInBlock
    simp only
    split_ifs <;> omega

/-- **The log header is right for the first block only.** A log made by
    `getLogForFile` is described by its header after any calls of `getFreePage`,
    whatever happens in between, exactly if there were not more of them than stay
    in the log's first block. -/
theorem accounted_iff_first_block (hs : s.nand.Sound n) (hl : FreeLists s.nand n s.lists ps cs)
    (hne : ps ++ cs ≠ []) (hr : getLogForFile s fileID mode mem = (s', theLog, header))
    (calls : List PageCall)
    (henough : EveryStep LogUse.call EnoughBlocks (newLogUse s s' theLog) calls) :
    Accounted (after LogUse.call (newLogUse s s' theLog) calls) ↔
      calls.length ≤ callsInBlock header := by
  obtain ⟨k, hheader, hk, hnext, hone⟩ := oneBlock_newLogUse hs hl hne hr
  have hfits := hs.fits
  rw [hone.accounted_iff (by omega) calls henough, hheader, newLogUse, hnext]

end

/-- The complete list starts with block 3 of a device of four blocks. -/
def findBlockThree : PageCall :=
  ⟨(newFileSystem 4).nand, FreeList.setCompleteHead (Buf.zero 24) 48, Buf.zero 1048⟩

theorem findBlockThree_finds : findBlockThree.lists.completeHead ≠ 0 ∧
    blockOf (getFreeBlock findBlockThree.nand findBlockThree.lists 0).freePage ≠ (2 : Nat) := by
  have hhead : findBlockThree.lists.completeHead = 48 := by
    simp only [findBlockThree, FreeList.fields_setCompleteHead]
    rfl
  have hpage : (getFreeBlock findBlockThree.nand findBlockThree.lists 0).freePage =
      findBlockThree.lists.completeHead := rfl
  rw [hpage, hhead]
  decide

/-- The header of the first file's log is right after 14 calls. -/
theorem accounted_first_block :
    Accounted (after LogUse.call
      (newLogUse (newFileSystem 4) (getLogForFile (newFileSystem 4) 1 0 default).1
        (getLogForFile (newFileSystem 4) 1 0 default).2.1)
      (List.replicate 14 findBlockThree)) := by
  have hm := freshMount_newFileSystem (n := 4) (by omega) (by omega)
  generalize hr : getLogForFile (newFileSystem 4) 1 0 default = r
  obtain ⟨s', theLog, header⟩ := r
  obtain ⟨rfl, -⟩ := hm.first_log (le_refl 4) hr
  obtain ⟨k, hk, -, hnext, hone⟩ :=
    oneBlock_newLogUse hm.image.sound hm.freeLists (by decide) hr
  obtain rfl : k = 33 := by omega
  have henough := hone.everyEnough (by decide) (List.replicate 14 findBlockThree)
    (fun c hc => List.eq_of_mem_replicate hc ▸ findBlockThree_finds)
    (by rw [newLogUse, hnext]; decide)
  exact (accounted_iff_first_block hm.image.sound hm.freeLists (by decide) hr _ henough).mpr
    (by decide)

/-- The 15th call gives it block 3, which its header does not count. -/
theorem not_accounted_second_block :
    let s := newLogUse (newFileSystem 4) (getLogForFile (newFileSystem 4) 1 0 default).1
      (getLogForFile (newFileSystem 4) 1 0 default).2.1
    EveryStep LogUse.call EnoughBlocks s (List.replicate 15 findBlockThree) ∧
    ¬ Accounted (after LogUse.call s (List.replicate 15 findBlockThree)) := by
  have hm := freshMount_newFileSystem (n := 4) (by omega) (by omega)
  generalize hr : getLogForFile (newFileSystem 4) 1 0 default = r
  obtain ⟨s', theLog, header⟩ := r
  obtain ⟨k, hk, -, hnext, hone⟩ :=
    oneBlock_newLogUse hm.image.sound hm.freeLists (by decide) hr
  obtain ⟨rfl, -⟩ := hm.first_log (le_refl 4) hr
  obtain rfl : k = 33 := by omega
  have hcalls : callsInBlock (newLogUse (newFileSystem 4) s' theLog).log.nextPage = 14 := by
    rw [newLogUse, hnext]
    rfl
  have henough := hone.everyEnough (by decide) (List.replicate 15 findBlockThree)
    (fun c hc => List.eq_of_mem_replicate hc ▸ findBlockThree_finds) (by rw [hcalls]; decide)
  refine ⟨henough, fun ha => ?_⟩
  have hlen := (hone.accounted_iff (by decide) _ henough).mp ha
  rw [hcalls] at hlen
  exact absurd hlen (by decide)

end Cycology
