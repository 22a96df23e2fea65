import Cycology.Drain
import Cycology.Remount
import Cycology.Lib.Runs

/- The header pages of new files on a new file system.

   `xmp_create` takes a block with `getFreeBlock` and writes the log header to
   the address it returns, one past the head of the partial list. That page is
   the next free page of its block only if the page before it has been written,
   which `makefs` does when it links the block to the next one. The last block
   links to nothing and `makefs` leaves it alone, so its next free page is
   still the first, and the header write is refused. -/
namespace Cycology
open ByteMem LinkedChain Nand Runs

/-- The device and the free lists. -/
structure Disk where
  nand : Nand
  lists : FreeList

/-- A block is taken for a new file and the file's header goes to its page. -/
def Disk.writeHeader (s : Disk) (header : FullPage) : Disk :=
  let b := getFreeBlock s.nand s.lists 1
  let (d, _) := writeNAND b.nand header b.freePage 0
  ⟨d, b.lists⟩

/-- The page of the next new file is the next free page of its block, and the
    device takes whatever header is written there. -/
structure HeaderTaken (s : Disk) : Prop where
  nextFree : ∃ k : Nat, (getFreeBlock s.nand s.lists 1).freePage = k ∧
    (getFreeBlock s.nand s.lists 1).nand.nextPage (k / 16) = (k % 16 : Nat)
  taken : ∀ header, (writeNAND (getFreeBlock s.nand s.lists 1).nand header
    (getFreeBlock s.nand s.lists 1).freePage 0).2 ≠ -1

/-- `makefs` on the device `d`, and a mount of what it wrote. -/
def mountedDisk (d : Nand) (frame : Block) (mem : CYCstate) : Disk :=
  ⟨(xmpInit (makefs d).1.file frame mem).nand, (xmpInit (makefs d).1.file frame mem).lists⟩

/-! ## The rounds while the partial list lasts -/

/-- The disk after `i` blocks were taken: the blocks from `2 + i` on are still as
    `makefs` left them. -/
structure AfterRounds (s : Disk) (n i : Nat) : Prop where
  sound : s.nand.Sound n
  freeLists : FreeLists s.nand n s.lists (partialListFrom n i) []
  partialTail : s.lists.partialTail = (16 * (n - 1) : Nat)
  nextPage : ∀ b, 2 + i ≤ b → s.nand.nextPage b = if b + 1 < n then 1 else 0

section
variable {s : Disk} {n i : Nat}

theorem AfterRounds.of_freshMount {s : CYCstate} (h : FreshMount s n)
    (htail : s.lists.partialTail = (16 * (n - 1) : Nat)) : AfterRounds ⟨s.nand, s.lists⟩ n 0 where
  sound := h.image.sound
  freeLists := h.freeLists
  partialTail := htail
  nextPage b _ := h.image.nextPage b

theorem afterRounds_mountedDisk {d : Nand} (hz : Zeroed d n) (hn : 3 ≤ n) (frame : Block)
    (mem : CYCstate) : AfterRounds (mountedDisk d frame mem) n 0 := by
  have hlast : (newPartialList n).getLast? = some (16 * (n - 1)) := by
    rw [newPartialList, List.getLast?_map, List.getLast?_range', if_neg (by omega)]
    simp only [Option.map_some, Option.some.injEq]
    omega
  have htail := (wellFormedLists_makefs hz hn frame mem).partialTail
  rw [tailOf, hlast, Option.getD_some] at htail
  exact AfterRounds.of_freshMount (freshMount_makefs hz hn frame mem) htail

theorem AfterRounds.next_block (h : AfterRounds s n i) (hi : i + 2 < n) :
    SameStore s.nand (getFreeBlock s.nand s.lists 1).nand ∧
    (getFreeBlock s.nand s.lists 1).freePage = ((16 * (2 + i) + 1 : Nat) : Int) ∧
    FreeLists (getFreeBlock s.nand s.lists 1).nand n (getFreeBlock s.nand s.lists 1).lists
      (partialListFrom n (i + 1)) [] := by
  have hlists := h.freeLists
  rw [partialListFrom_cons hi] at hlists
  obtain ⟨hsame, hpage, hrest⟩ := freeLists_getFreeBlock_partial h.sound hlists one_ne_zero
  exact ⟨hsame, by rw [hpage, Nat.cast_succ], hrest⟩

/-- The header is taken on every block but the last. -/
theorem AfterRounds.headerTaken_iff (h : AfterRounds s n i) (hi : i + 2 < n) :
    HeaderTaken s ↔ i + 3 < n := by
  obtain ⟨hsame, hpage, -⟩ := h.next_block hi
  have hs := hsame.sound h.sound
  have hk : 16 * (2 + i) + 1 < 16 * n := by omega
  have hdiv : (16 * (2 + i) + 1) / 16 = 2 + i := by omega
  have hmod : (16 * (2 + i) + 1) % 16 = 1 := by omega
  have hnext : (getFreeBlock s.nand s.lists 1).nand.nextPage (2 + i) =
      if 2 + i + 1 < n then 1 else 0 := by
    rw [hsame.nextPage, h.nextPage _ (le_refl _)]
  constructor
  · rintro ⟨⟨k, hk', hptr⟩, -⟩
    obtain rfl : k = 16 * (2 + i) + 1 := by rw [hpage] at hk'; exact_mod_cast hk'.symm
    rw [hdiv, hmod, hnext] at hptr
    by_contra hlast
    rw [if_neg (by omega)] at hptr
    omega
  · intro hroom
    rw [if_pos (by omega)] at hnext
    refine ⟨⟨_, hpage, by rw [hdiv, hmod, hnext]; rfl⟩, fun header => ?_⟩
    rw [hpage, writeNAND_ret hs header hk]
    exact .inr (by rw [hdiv, hmod, hnext]; rfl)

/-- Before the last block the head of the list is not its tail. -/
theorem AfterRounds.head_ne_tail_iff (h : AfterRounds s n i) (hi : i + 2 < n) :
    s.lists.partialHead ≠ s.lists.partialTail ↔ i + 3 < n := by
  have hlists := h.freeLists
  rw [partialListFrom_cons hi] at hlists
  rw [hlists.partialHead_eq, h.partialTail]
  omega

theorem AfterRounds.writeHeader (h : AfterRounds s n i) (hi : i + 2 < n) (header : FullPage) :
    AfterRounds (s.writeHeader header) n (i + 1) := by
  obtain ⟨hsame, hpage, hrest⟩ := h.next_block hi
  have hs := hsame.sound h.sound
  have hk : 16 * (2 + i) + 1 < 16 * n := by omega
  have hfree : ∀ p ∈ partialListFrom n (i + 1) ++ [], p / 16 ≠ 2 + i := by
    intro p hp
    simp only [partialListFrom, List.append_nil, List.mem_map, List.mem_range'_1] at hp
    obtain ⟨b, hb, rfl⟩ := hp
    omega
  simp only [Disk.writeHeader, hpage]
  refine ⟨sound_writeNAND hs header _ 0, ?_, ?_, fun b hb => ?_⟩
  · refine hrest.congr rfl rfl (fun p hp k hkp => ?_)
    by_cases ha : (getFreeBlock s.nand s.lists 1).nand.Accepts (16 * (2 + i) + 1) 0
    · rw [page_writeNAND hs header hk ha, if_neg]
      have := hfree p hp
      omega
    · exact (writeNAND_refused hs header hk ha).2.page k
  · exact (tails_getFreeBlock _ _ _).1.trans h.partialTail
  · have hother : (getFreeBlock s.nand s.lists 1).nand.nextPage b =
        if b + 1 < n then 1 else 0 := by
      rw [hsame.nextPage, h.nextPage b (by omega)]
    by_cases ha : (getFreeBlock s.nand s.lists 1).nand.Accepts (16 * (2 + i) + 1) 0
    · rw [nextPage_writeNAND hs header hk ha, if_neg (by omega), hother]
    · rw [(writeNAND_refused hs header hk ha).2.nextPage, hother]

/-! ## Once it is empty -/

theorem partialHead_writeHeader (hp : s.lists.partialHead = 0) (header : FullPage) :
    (s.writeHeader header).lists.partialHead = 0 := by
  simp only [Disk.writeHeader, getFreeBlock, if_pos (Or.inr hp)]
  simp only [FreeList.fields_setCompleteHeadErases, FreeList.fields_setCompleteHead]
  exact hp

theorem afterRounds_or_empty (headers : List FullPage) : ∀ {s : Disk},
    ((∃ i, i + 2 ≤ n ∧ AfterRounds s n i) ∨ s.lists.partialHead = 0) →
    (∃ i, i + 2 < n ∧ AfterRounds (after Disk.writeHeader s headers) n i) ∨
      (after Disk.writeHeader s headers).lists.partialHead = 0 := by
  induction headers with
  | nil =>
    rintro s (⟨i, hi, h⟩ | h)
    · by_cases hi' : i + 2 < n
      · exact .inl ⟨i, hi', h⟩
      · have hlists := h.freeLists
        rw [partialListFrom, show n - 2 - i = 0 by omega] at hlists
        exact .inr hlists.partialHead_nil
    · exact .inr h
  | cons header headers ih =>
    rintro s (⟨i, hi, h⟩ | h)
    · by_cases hi' : i + 2 < n
      · exact ih (.inl ⟨i + 1, by omega, h.writeHeader hi' header⟩)
      · have hlists := h.freeLists
        rw [partialListFrom, show n - 2 - i = 0 by omega] at hlists
        exact ih (.inr (partialHead_writeHeader hlists.partialHead_nil header))
    · exact ih (.inr (partialHead_writeHeader h header))

end

/-- **A header is written on every block but the last.** After any number of new
    files on a file system `makefs` made, and while the partial list is not
    empty, the page `getFreeBlock` returns is the next free page of its block,
    and takes the header, exactly if the block is not the last of the list. -/
theorem header_taken_iff_not_last {d : Nand} {n : Nat} (hz : Zeroed d n) (hn : 3 ≤ n)
    (frame : Block) (mem : CYCstate) (headers : List FullPage)
    (hleft : (after Disk.writeHeader (mountedDisk d frame mem) headers).lists.partialHead ≠ 0) :
    HeaderTaken (after Disk.writeHeader (mountedDisk d frame mem) headers) ↔
      (after Disk.writeHeader (mountedDisk d frame mem) headers).lists.partialHead ≠
        (after Disk.writeHeader (mountedDisk d frame mem) headers).lists.partialTail := by
  obtain ⟨i, hi, h⟩ | hempty := afterRounds_or_empty headers
    (.inl ⟨0, by omega, afterRounds_mountedDisk hz hn frame mem⟩)
  · rw [h.headerTaken_iff hi, h.head_ne_tail_iff hi]
  · exact absurd hempty hleft

/-- On four blocks the first header is taken. -/
theorem header_taken_first :
    HeaderTaken (mountedDisk (blankNAND 4 default) default default) := by
  have hz : Zeroed (blankNAND 4 default) 4 := zeroed_blankNAND default (by decide)
  have h := afterRounds_mountedDisk hz (by decide) default default
  have hhead : (mountedDisk (blankNAND 4 default) default default).lists.partialHead = 32 :=
    h.freeLists.partialHead_eq
  refine (header_taken_iff_not_last hz (by decide) default default [] ?_).mpr ?_
  · change (mountedDisk (blankNAND 4 default) default default).lists.partialHead ≠ 0
    rw [hhead]
    decide
  · exact (h.head_ne_tail_iff (by decide)).mpr (by decide)

/-- On three blocks the only block on the list is its last, and the header of the
    first file is refused. -/
theorem header_refused_on_last :
    (mountedDisk (blankNAND 3 default) default default).lists.partialHead ≠ 0 ∧
    ¬ HeaderTaken (mountedDisk (blankNAND 3 default) default default) := by
  have h := afterRounds_mountedDisk (zeroed_blankNAND (n := 3) default (by decide)) (by decide)
    default default
  have hhead : (mountedDisk (blankNAND 3 default) default default).lists.partialHead = 32 :=
    h.freeLists.partialHead_eq
  refine ⟨by rw [hhead]; decide, ?_⟩
  rw [h.headerTaken_iff (by decide)]
  decide

end Cycology
