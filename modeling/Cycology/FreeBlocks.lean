import Cycology.VNand
import Cycology.Lib.Chain

/- The free lists, and `getFreeBlock` of `helper.c`, which takes a block off
   one of them.

   Both lists hold page addresses and end at 0. On the partial list the link to
   the next block is in the page at the address itself; on the complete list it
   is in the last page of the address's block. `FreeLists` says that two lists
   of addresses are what `getFreeBlock` would take off the partial and the
   complete list, in that order. Taking one off the partial list reads the
   device only; taking one off the complete list erases its block. -/
namespace Cycology
open ByteMem LinkedChain Nand

/-- What a call of `getFreeBlock` leaves: the device, the lists, `*freePage`
    and the erase count it returns. -/
structure FreeBlock where
  nand : Nand
  lists : FreeList
  freePage : Int
  freePageErases : Int

def getFreeBlock (d : Nand) (lists : FreeList) (newFile : Int) : FreeBlock :=
  let buf : FullPage := d.frame.slice 0 1048
  if newFile = 0 ∨ lists.partialHead = 0 then
    -- nothing checks that the complete list is not empty too
    let freePage := lists.completeHead
    let freePageErases := lists.completeHeadErases
    let lastPage := cint ((cint (freePage + blockSize)).tdiv blockSize * blockSize - 1)
    let (d, buf, _) := readNAND d buf lastPage
    let lists := lists.setCompleteHead (FullPage.nextLogBlock buf)
    let lists := lists.setCompleteHeadErases (FullPage.nextBlockErases buf)
    let (d, _) := eraseNAND d (freePage.tdiv blockSize)
    ⟨d, lists, freePage, freePageErases⟩
  else
    let freePage := cint (lists.partialHead + 1)
    let freePageErases := lists.partialHeadErases
    let (d, buf, _) := readNAND d buf lists.partialHead
    let lists := lists.setPartialHead (FullPage.nextLogBlock buf)
    let lists := lists.setPartialHeadErases (FullPage.nextBlockErases buf)
    ⟨d, lists, freePage, freePageErases⟩

/-! ## Reading the lists -/

/-- Where the partial list goes on from the page at `p`. -/
def partialNext (d : Nand) (p : Nat) : Option Nat := ofLink (d.page p).nextLogBlock

/-- Where the complete list goes on from the block of the page at `p`. -/
def completeNext (d : Nand) (p : Nat) : Option Nat :=
  ofLink (d.page (p / 16 * 16 + 15)).nextLogBlock

/-- `ps` and `cs` are the addresses on the two lists, on different blocks of an
    `n`-block device. After an address on the partial list its block has room. -/
structure FreeLists (d : Nand) (n : Nat) (l : FreeList) (ps cs : List Nat) : Prop where
  partialChain : Chain (partialNext d) (ofLink l.partialHead) ps
  completeChain : Chain (completeNext d) (ofLink l.completeHead) cs
  inRange : ∀ p ∈ ps ++ cs, 0 < p ∧ p < 16 * n
  room : ∀ p ∈ ps, p % 16 < 15
  apart : ((ps ++ cs).map (· / 16)).Nodup

namespace FreeLists
variable {d d' : Nand} {n p c : Nat} {l l' : FreeList} {ps cs : List Nat}

theorem partialHead_eq (h : FreeLists d n l (p :: ps) cs) : l.partialHead = p := by
  have hp := (h.inRange p (by simp)).1
  exact (ofLink_eq_some hp).mp h.partialChain.1

theorem partialHead_nil (h : FreeLists d n l [] cs) : l.partialHead = 0 :=
  ofLink_eq_none.mp h.partialChain

theorem completeHead_eq (h : FreeLists d n l ps (c :: cs)) : l.completeHead = c := by
  have hc := (h.inRange c (by simp)).1
  exact (ofLink_eq_some hc).mp h.completeChain.1

theorem completeHead_nil (h : FreeLists d n l ps []) : l.completeHead = 0 :=
  ofLink_eq_none.mp h.completeChain

/-- The lists only depend on their heads and on the pages of the free blocks. -/
theorem congr (h : FreeLists d n l ps cs) (hp : l'.partialHead = l.partialHead)
    (hc : l'.completeHead = l.completeHead)
    (hpage : ∀ p ∈ ps ++ cs, ∀ k, k / 16 = p / 16 → d'.page k = d.page k) :
    FreeLists d' n l' ps cs where
  partialChain := by
    rw [hp]
    refine h.partialChain.congr fun p hm => ?_
    rw [partialNext, hpage p (by simp [hm]) p rfl, partialNext]
  completeChain := by
    rw [hc]
    refine h.completeChain.congr fun p hm => ?_
    rw [completeNext, hpage p (by simp [hm]) _ (by omega), completeNext]
  inRange := h.inRange
  room := h.room
  apart := h.apart

theorem block_ne (h : FreeLists d n l (p :: ps) cs) {q : Nat} (hq : q ∈ ps ++ cs) :
    q / 16 ≠ p / 16 := by
  have hnd := h.apart
  rw [List.cons_append, List.map_cons, List.nodup_cons] at hnd
  rintro heq
  exact hnd.1 (heq ▸ List.mem_map_of_mem hq)

theorem complete_block_ne (h : FreeLists d n l ps (c :: cs)) {q : Nat} (hq : q ∈ ps ++ cs) :
    q / 16 ≠ c / 16 := by
  have hnd := h.apart
  rw [List.map_append, List.map_cons, List.nodup_middle, List.nodup_cons, ← List.map_append] at hnd
  rintro heq
  exact hnd.1 (heq ▸ List.mem_map_of_mem hq)

end FreeLists

/-! ## What a call does -/

section
variable {d : Nand} {n : Nat} {l : FreeList} {newFile : Int}

/-- Whatever the lists hold, the device keeps its blocks. -/
theorem sound_getFreeBlock (hs : d.Sound n) (l : FreeList) (newFile : Int) :
    (getFreeBlock d l newFile).nand.Sound n := by
  rw [getFreeBlock]
  split
  · exact sound_eraseNAND ((sameStore_readNAND d _ _).sound hs) _
  · exact (sameStore_readNAND d _ _).sound hs

theorem getFreeBlock_partial (hs : d.Sound n) {p : Nat} (hp : 0 < p) (hpn : p < 16 * n)
    (hf : newFile ≠ 0) (hl : l.partialHead = p) :
    SameStore d (getFreeBlock d l newFile).nand ∧
    (getFreeBlock d l newFile).lists =
      (l.setPartialHead (d.page p).nextLogBlock).setPartialHeadErases
        (d.page p).nextBlockErases ∧
    (getFreeBlock d l newFile).freePage = p + 1 ∧
    (getFreeBlock d l newFile).freePageErases = l.partialHeadErases := by
  have hfits := hs.fits
  have hne : ¬ (newFile = 0 ∨ l.partialHead = 0) := by
    rw [hl]
    rintro (h | h)
    · exact hf h
    · omega
  rw [getFreeBlock, if_neg hne]
  simp only [hl, readNAND_eq hs _ hpn]
  rw [cint_eq (by unfold IsInt; omega)]
  exact ⟨⟨rfl, rfl⟩, trivial, rfl, trivial⟩

/-- Taking the address `a` off the complete list, empty (`a = 0`) or not, erases
    the block of `a`. -/
theorem getFreeBlock_complete (hs : d.Sound n) {a : Nat} (ha : a < 16 * n)
    (hf : newFile = 0 ∨ l.partialHead = 0) (hl : l.completeHead = a) :
    ∃ d', SameStore d d' ∧ (getFreeBlock d l newFile).nand = (eraseNAND d' (a / 16 : Nat)).1 ∧
    (getFreeBlock d l newFile).lists =
      (l.setCompleteHead (d.page (a / 16 * 16 + 15)).nextLogBlock).setCompleteHeadErases
        (d.page (a / 16 * 16 + 15)).nextBlockErases ∧
    (getFreeBlock d l newFile).freePage = a ∧
    (getFreeBlock d l newFile).freePageErases = l.completeHeadErases := by
  have hfits := hs.fits
  have hlast : cint ((cint ((a : Int) + blockSize)).tdiv blockSize * blockSize - 1) =
      ((a / 16 * 16 + 15 : Nat) : Int) := by
    rw [cint_eq (show IsInt ((a : Int) + blockSize) by unfold IsInt blockSize; omega)]
    rw [show ((a : Int) + blockSize) = ((a + 16 : Nat) : Int) by push_cast; rfl,
      ← Int.ofNat_tdiv]
    simp only [blockSize]
    rw [cint_eq (by unfold IsInt; omega)]
    omega
  have hblk : (a : Int).tdiv blockSize = ((a / 16 : Nat) : Int) := (Int.ofNat_tdiv _ _).symm
  refine ⟨(readNAND d (d.frame.slice 0 1048) ((a / 16 * 16 + 15 : Nat) : Int)).1,
    sameStore_readNAND _ _ _, ?_⟩
  rw [getFreeBlock, if_pos hf]
  simp only [hl, hlast, hblk, readNAND_eq hs _ (show a / 16 * 16 + 15 < 16 * n by omega)]
  exact ⟨trivial, trivial, trivial, trivial⟩

theorem getFreeBlock_complete_views (hs : d.Sound n) {a : Nat} (ha : a < 16 * n)
    (hf : newFile = 0 ∨ l.partialHead = 0) (hl : l.completeHead = a) :
    (getFreeBlock d l newFile).nand.Sound n ∧
    (∀ k, (getFreeBlock d l newFile).nand.page k =
      if k / 16 = a / 16 then Buf.zero 1048 else d.page k) ∧
    (∀ b, (getFreeBlock d l newFile).nand.nextPage b =
      if b = a / 16 then 0 else d.nextPage b) ∧
    ∀ b, b ≠ a / 16 → (getFreeBlock d l newFile).nand.eraseCount b = d.eraseCount b := by
  obtain ⟨d', hsame, hnand, -⟩ := getFreeBlock_complete hs ha hf hl
  have hs' := hsame.sound hs
  have hb : a / 16 < n := by omega
  rw [hnand]
  refine ⟨sound_eraseNAND hs' _, fun k => ?_, fun b => ?_, fun b hne => ?_⟩
  · rw [page_eraseNAND hs' hb, hsame.page]
  · rw [nextPage_eraseNAND hs' hb, hsame.nextPage]
  · rw [eraseCount_eraseNAND hs' hb, if_neg hne, hsame.eraseCount]

end

/-! ## What a call does to the lists -/

section
variable {d : Nand} {n p c : Nat} {l : FreeList} {ps cs : List Nat} {newFile : Int}

/-- A new file's block comes off the partial list while that is not empty. -/
theorem freeLists_getFreeBlock_partial (hs : d.Sound n) (h : FreeLists d n l (p :: ps) cs)
    (hf : newFile ≠ 0) :
    SameStore d (getFreeBlock d l newFile).nand ∧
    (getFreeBlock d l newFile).freePage = p + 1 ∧
    FreeLists (getFreeBlock d l newFile).nand n (getFreeBlock d l newFile).lists ps cs := by
  obtain ⟨hp, hpn⟩ := h.inRange p (by simp)
  obtain ⟨hsame, hlists, hpage, -⟩ := getFreeBlock_partial hs hp hpn hf h.partialHead_eq
  refine ⟨hsame, hpage, ?_⟩
  have htail : FreeLists d n (getFreeBlock d l newFile).lists ps cs :=
    { partialChain := by
        rw [hlists]
        simp only [FreeList.fields_setPartialHeadErases, FreeList.fields_setPartialHead,
          FullPage.nextLogBlock, Buf.cint_int]
        exact h.partialChain.2
      completeChain := by
        rw [hlists]
        simp only [FreeList.fields_setPartialHeadErases, FreeList.fields_setPartialHead]
        exact h.completeChain
      inRange := fun q hq => h.inRange q (by simp at hq ⊢; tauto)
      room := fun q hq => h.room q (List.mem_cons_of_mem _ hq)
      apart := (List.nodup_cons.mp h.apart).2 }
  exact htail.congr rfl rfl fun q _ k _ => hsame.page k

/-- Otherwise it comes off the complete list, erased. -/
theorem freeLists_getFreeBlock_complete (hs : d.Sound n) (h : FreeLists d n l ps (c :: cs))
    (hf : newFile = 0 ∨ ps = []) :
    (getFreeBlock d l newFile).freePage = c ∧
    FreeLists (getFreeBlock d l newFile).nand n (getFreeBlock d l newFile).lists ps cs := by
  obtain ⟨hc, hcn⟩ := h.inRange c (by simp)
  have hf' : newFile = 0 ∨ l.partialHead = 0 := by
    rcases hf with hf | rfl
    · exact .inl hf
    · exact .inr h.partialHead_nil
  obtain ⟨-, -, -, hlists, hpage, -⟩ := getFreeBlock_complete hs hcn hf' h.completeHead_eq
  obtain ⟨-, hviews, -⟩ := getFreeBlock_complete_views hs hcn hf' h.completeHead_eq
  refine ⟨hpage, ?_⟩
  have htail : FreeLists d n (getFreeBlock d l newFile).lists ps cs :=
    { partialChain := by
        rw [hlists]
        simp only [FreeList.fields_setCompleteHeadErases, FreeList.fields_setCompleteHead]
        exact h.partialChain
      completeChain := by
        rw [hlists]
        simp only [FreeList.fields_setCompleteHeadErases, FreeList.fields_setCompleteHead,
          FullPage.nextLogBlock, Buf.cint_int]
        exact h.completeChain.2
      inRange := fun q hq => h.inRange q (by simp at hq ⊢; tauto)
      room := h.room
      apart := by
        have hnd := h.apart
        rw [List.map_append, List.map_cons, List.nodup_middle, ← List.map_append] at hnd
        exact (List.nodup_cons.mp hnd).2 }
  refine htail.congr rfl rfl fun q hq k hk => ?_
  rw [hviews, if_neg]
  rw [hk]
  exact h.complete_block_ne hq

end

end Cycology
