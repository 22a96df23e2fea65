import Cycology.Drain
import Cycology.Lib.Runs

/- The erase counts that travel with the free lists.

   `getFreeBlock` returns with a block the count its list holds for it, read
   from a link or set by `logs_recycle`, and the device keeps the real count in
   the block's trailer. A run takes blocks off the lists and recycles logs made
   of blocks taken earlier, headed by the counts those came with.

   Only the complete list erases, and `getFreeBlock` returns the count from
   before the erasure. As long as blocks come off the partial list no count on
   the device ever moves from the 0 it starts at, nor does any count on the
   lists (`counts_right`). The lists need not be well formed for that, but their
   links must lead to pages of the device (`NoErases`). -/
namespace Cycology
open ByteMem LinkedChain Nand Runs

/-! ## Runs -/

/-- A state, and the blocks handed out so far with their erase counts. -/
structure WearState where
  state : CYCstate
  given : List (Int × Int)

/-- A call of `getFreeBlock` or of `logs_recycle`. -/
inductive WearOp where
  | take (newFile : Int)
  | recycle (log : LogHeader) (nextPage nextErases : Int)

def WearOp.run (w : WearState) : WearOp → WearState
  | .take newFile =>
    let b := getFreeBlock w.state.nand w.state.lists newFile
    ⟨{ w.state with nand := b.nand, lists := b.lists },
      (blockOf b.freePage, b.freePageErases) :: w.given⟩
  | .recycle log nextPage nextErases => ⟨logsRecycle log nextPage nextErases w.state, w.given⟩

/-- A log of blocks handed out earlier, whose next page is in the last of them:
    its header has the first block with the count it came with and, if there are
    two blocks or more, the one before the last. -/
structure MadeOf (given : List (Int × Int)) (log : LogHeader) (nextPage : Int) : Prop where
  first : (log.first, log.firstErases) ∈ given
  nonneg : 0 ≤ nextPage
  last : ∃ e, (blockOf nextPage, e) ∈ given
  prev : blockOf nextPage = log.first ∨ ∃ e, (log.prev, e) ∈ given

/-- A call on a list that is not empty, or the recycling of such a log. -/
def WearOp.Allowed (w : WearState) : WearOp → Prop
  | .take newFile => ¬ NoneLeft w.state.lists newFile
  | .recycle log nextPage _ => MadeOf w.given log nextPage

/-- A call that takes a block takes it off the partial list. -/
def WearOp.OffPartial (w : WearState) : WearOp → Prop
  | .take newFile => newFile ≠ 0 ∧ w.state.lists.partialHead ≠ 0
  | .recycle _ _ _ => True

/-- The count returned is the one in the trailer of the block. -/
def WearOp.CountRight (w : WearState) : WearOp → Prop
  | .take newFile =>
    let b := getFreeBlock w.state.nand w.state.lists newFile
    b.freePageErases = b.nand.eraseCount (blockOf b.freePage).toNat
  | .recycle _ _ _ => True

/-! ## The device -/

/-- No block of the device was ever erased, and no link carries an erase count
    or leads off the device. -/
structure CleanLinks (d : Nand) (n : Nat) : Prop where
  sound : d.Sound n
  erases : ∀ b, d.eraseCount b = 0
  linkErases : ∀ k, k < 16 * n → (d.page k).nextBlockErases = 0
  link : ∀ k, k < 16 * n → 0 ≤ (d.page k).nextLogBlock ∧ (d.page k).nextLogBlock < 16 * n - 1

section
variable {d d' : Nand} {n : Nat}

theorem CleanLinks.of_sameStore (h : CleanLinks d n) (hsame : SameStore d d') : CleanLinks d' n where
  sound := hsame.sound h.sound
  erases b := by rw [hsame.eraseCount, h.erases]
  linkErases k hk := by rw [hsame.page, h.linkErases k hk]
  link k hk := by rw [hsame.page]; exact h.link k hk

theorem eraseCount_write (hs : d.Sound n) (buf : FullPage) {k : Nat} (hk : k < 16 * n) (r : Int)
    (b : Nat) : (writeNAND d buf k r).1.eraseCount b = d.eraseCount b := by
  by_cases ha : d.Accepts k r
  · exact eraseCount_writeNAND hs buf hk ha b
  · exact (writeNAND_refused hs buf hk ha).2.eraseCount b

theorem CleanLinks.write (h : CleanLinks d n) {buf : FullPage} {k : Nat} (hk : k < 16 * n)
    (r : Int) (he : buf.nextBlockErases = 0) (h0 : 0 ≤ buf.nextLogBlock)
    (hlt : buf.nextLogBlock < 16 * n - 1) : CleanLinks (writeNAND d buf k r).1 n := by
  by_cases ha : d.Accepts k r
  · refine ⟨sound_writeNAND h.sound buf _ r, fun b => ?_, fun j hj => ?_, fun j hj => ?_⟩
    · rw [eraseCount_write h.sound buf hk, h.erases]
    · rw [page_writeNAND h.sound buf hk ha]
      split
      · exact he
      · exact h.linkErases j hj
    · rw [page_writeNAND h.sound buf hk ha]
      split
      · exact ⟨h0, hlt⟩
      · exact h.link j hj
  · exact h.of_sameStore (writeNAND_refused h.sound buf hk ha).2

theorem nextBlockErases_setNextLogBlock (p : FullPage) (v : Int) :
    (p.setNextLogBlock v).nextBlockErases = p.nextBlockErases :=
  Buf.int_setInt_other _ _ (by omega)

theorem nextLogBlock_setNextBlockErases (p : FullPage) (v : Int) :
    (p.setNextBlockErases v).nextLogBlock = p.nextLogBlock :=
  Buf.int_setInt_other _ _ (by omega)

theorem nextBlockErases_setNextBlockErases (p : FullPage) (v : Int) :
    (p.setNextBlockErases v).nextBlockErases = cint v :=
  Buf.int_setInt_same _ _ (by omega)

theorem nextBlockErases_zero : FullPage.nextBlockErases (Buf.zero 1048) = 0 := Buf.int_zero _

end

/-! ## One step -/

/-- What a run whose blocks come off the partial list keeps. -/
structure NoErases (w : WearState) (n : Nat) : Prop extends CleanLinks w.state.nand n where
  headErases : w.state.lists.partialHeadErases = 0
  head : 0 ≤ w.state.lists.partialHead ∧ w.state.lists.partialHead < 16 * n - 1
  partialTail : 0 ≤ w.state.lists.partialTail ∧ w.state.lists.partialTail < 16 * n
  completeTail : 0 ≤ w.state.lists.completeTail ∧ w.state.lists.completeTail < 16 * n
  given : ∀ g ∈ w.given, (0 ≤ g.1 ∧ g.1 < n) ∧ g.2 = 0

section
variable {w : WearState} {n : Nat}

theorem NoErases.take (h : NoErases w n) {newFile : Int}
    (hp : (WearOp.take newFile).OffPartial w) :
    (WearOp.take newFile).CountRight w ∧ NoErases ((WearOp.take newFile).run w) n := by
  have hfits := h.sound.fits
  obtain ⟨h0, hlt⟩ := h.head
  obtain ⟨p, hpeq⟩ := Int.eq_ofNat_of_zero_le h0
  have hp0 : p ≠ 0 := fun hz => hp.2 (by rw [hpeq, hz]; rfl)
  rw [hpeq] at hlt
  obtain ⟨hsame, hlists, hpage, herases⟩ :=
    getFreeBlock_partial h.sound (show 0 < p by omega) (by omega) hp.1 hpeq
  have hblk : blockOf (getFreeBlock w.state.nand w.state.lists newFile).freePage =
      ((p + 1) / 16 : Nat) := by
    rw [hpage, show ((p : Int) + 1) = ((p + 1 : Nat) : Int) by push_cast; rfl, blockOf_natCast]
  have hclean := h.toCleanLinks.of_sameStore hsame
  obtain ⟨hlink0, hlinklt⟩ := h.link p (by omega)
  obtain ⟨hpt, hct⟩ := tails_getFreeBlock w.state.nand w.state.lists newFile
  constructor
  · show (getFreeBlock _ _ _).freePageErases = _
    rw [herases, h.headErases, hclean.erases]
  · refine ⟨hclean, ?_, ?_, ?_, ?_, fun g hg => ?_⟩
    · show FreeList.partialHeadErases (getFreeBlock _ _ _).lists = 0
      rw [hlists]
      simp [h.linkErases p (by omega)]
    · show 0 ≤ FreeList.partialHead (getFreeBlock _ _ _).lists ∧ _
      have hhead : FreeList.partialHead (getFreeBlock w.state.nand w.state.lists newFile).lists =
          (w.state.nand.page p).nextLogBlock := by
        rw [hlists]
        simp only [FreeList.fields_setPartialHeadErases, FreeList.fields_setPartialHead]
        exact cint_eq (by unfold IsInt; omega)
      rw [show (WearOp.run w (.take newFile)).state.lists =
        (getFreeBlock w.state.nand w.state.lists newFile).lists from rfl, hhead]
      exact ⟨hlink0, hlinklt⟩
    · exact hpt ▸ h.partialTail
    · exact hct ▸ h.completeTail
    · rcases List.mem_cons.mp hg with rfl | hg
      · rw [hblk, herases, h.headErases]
        omega
      · exact h.given g hg

theorem cint_address {n : Nat} (hfits : 8 + 16776 * n < 2147483648) {v : Int} (h0 : 0 ≤ v)
    (hlt : v < 16 * n) : cint v = v := cint_eq (by unfold IsInt; omega)

theorem NoErases.recycleLastBlock (h : NoErases w n) {log : LogHeader} {nextPage : Int}
    (hm : MadeOf w.given log nextPage) :
    NoErases ⟨(recycleLastBlock log nextPage w.state).1, w.given⟩ n ∧
    0 ≤ (recycleLastBlock log nextPage w.state).2 ∧
    (recycleLastBlock log nextPage w.state).2 < 16 * n := by
  have hfits := h.sound.fits
  obtain ⟨k, rfl⟩ := Int.eq_ofNat_of_zero_le hm.nonneg
  obtain ⟨e, hlast⟩ := hm.last
  obtain ⟨⟨-, hblk⟩, -⟩ := h.given _ hlast
  rw [blockOf_natCast] at hblk
  have hk : k < 16 * n := by omega
  have hkint : cint (k : Int) = k := cint_address hfits (by omega) (by omega)
  rw [Cycology.recycleLastBlock, tmod_natCast]
  by_cases hroom : k % 16 ≤ 13
  · rw [if_pos (by simp only [blockSize]; omega)]
    constructor
    · by_cases htail : w.state.lists.partialTail = 0
      · rw [if_pos htail]
        refine ⟨h.toCleanLinks, ?_, ?_, ?_, ?_, h.given⟩
        · simpa using h.headErases
        · simp only [FreeList.fields_setPartialTail, FreeList.fields_setPartialHead, hkint]
          omega
        · simp only [FreeList.fields_setPartialTail, hkint]
          omega
        · simpa using h.completeTail
      · -- the page of the old tail gets the link
        rw [if_neg htail]
        obtain ⟨ht0, htlt⟩ := h.partialTail
        obtain ⟨t, ht⟩ := Int.eq_ofNat_of_zero_le ht0
        rw [ht] at htlt
        have hlink : (FullPage.setNextLogBlock (Buf.zero 1048) (k : Int)).nextLogBlock = k :=
          nextLogBlock_setNextLogBlock _ (by omega)
        have hclean := h.toCleanLinks.write (k := t) (by omega) 0
          ((nextBlockErases_setNextLogBlock (Buf.zero 1048) k).trans nextBlockErases_zero)
          (by rw [hlink]; omega) (by rw [hlink]; omega)
        refine ⟨?_, ?_, ?_, ?_, ?_, h.given⟩
        · rw [ht]
          exact hclean
        · simpa using h.headErases
        · simpa using h.head
        · simp only [FreeList.fields_setPartialTail, hkint]
          omega
        · simpa using h.completeTail
    · show 0 ≤ (if blockOf k ≠ log.first then log.prev else 0) ∧
        (if blockOf k ≠ log.first then log.prev else 0) < 16 * (n : Int)
      split
      · rename_i hne
        obtain ⟨e', hprev⟩ := hm.prev.resolve_left hne
        obtain ⟨hb, -⟩ := h.given _ hprev
        omega
      · omega
  · rw [if_neg (by simp only [blockSize]; omega)]
    exact ⟨h, by omega, by omega⟩

theorem NoErases.recycleFullBlocks (h : NoErases w n) {log : LogHeader} {lastFullBlock : Int}
    (hfirst : (log.first, log.firstErases) ∈ w.given) (h0 : 0 ≤ lastFullBlock)
    (hlt : lastFullBlock < 16 * n) :
    NoErases ⟨recycleFullBlocks log lastFullBlock w.state, w.given⟩ n := by
  have hfits := h.sound.fits
  obtain ⟨⟨hf0, hfn⟩, hfe⟩ := h.given _ hfirst
  dsimp only at hf0 hfn hfe
  have hfint : cint log.first = log.first := cint_address hfits hf0 (by omega)
  have hlint : cint lastFullBlock = lastFullBlock := cint_address hfits h0 hlt
  obtain ⟨ht0, htlt⟩ := h.completeTail
  obtain ⟨t, ht⟩ := Int.eq_ofNat_of_zero_le ht0
  rw [ht] at htlt
  obtain ⟨-, -, hhead, htail, hctail⟩ := recycleFullBlocks_spec log lastFullBlock h.sound
    (show t < 16 * n by omega) ht
  refine ⟨?_, ?_, ?_, ?_, ?_, h.given⟩
  · rw [Cycology.recycleFullBlocks]
    split
    · have hlink : ((FullPage.setNextLogBlock (Buf.zero 1048) log.first).setNextBlockErases
          log.firstErases).nextLogBlock = log.first := by
        rw [nextLogBlock_setNextBlockErases]
        exact (Buf.int_setInt_same _ _ (by omega)).trans hfint
      have hclean := h.toCleanLinks.write (k := t) (by omega) 1
        ((nextBlockErases_setNextBlockErases (FullPage.setNextLogBlock (Buf.zero 1048) log.first)
          log.firstErases).trans (by rw [hfe, cint_zero]))
        (by rw [hlink]; exact hf0) (by rw [hlink]; omega)
      rw [ht]
      exact hclean
    · exact h.toCleanLinks
  · refine Eq.trans ?_ h.headErases
    rw [Cycology.recycleFullBlocks]
    split
    · simp
    · simp
  · dsimp only
    rw [hhead]
    exact h.head
  · dsimp only
    rw [htail]
    exact h.partialTail
  · show 0 ≤ (Cycology.recycleFullBlocks log lastFullBlock w.state).lists.completeTail ∧ _
    rw [hctail, hlint]
    exact ⟨h0, hlt⟩

theorem NoErases.recycle (h : NoErases w n) {log : LogHeader} {nextPage : Int}
    (hm : MadeOf w.given log nextPage) (nextErases : Int) :
    NoErases ((WearOp.recycle log nextPage nextErases).run w) n := by
  obtain ⟨hlast, h0, hlt⟩ := h.recycleLastBlock hm
  rw [WearOp.run]
  show NoErases ⟨if (Cycology.recycleLastBlock log nextPage w.state).2 ≠ 0 then
      Cycology.recycleFullBlocks log (Cycology.recycleLastBlock log nextPage w.state).2
        (Cycology.recycleLastBlock log nextPage w.state).1
    else (Cycology.recycleLastBlock log nextPage w.state).1, w.given⟩ n
  split
  · exact hlast.recycleFullBlocks hm.first h0 hlt
  · exact hlast

theorem NoErases.run (w : WearState) (op : WearOp) (h : NoErases w n)
    (hop : op.Allowed w ∧ op.OffPartial w) : op.CountRight w ∧ NoErases (op.run w) n := by
  cases op with
  | take newFile => exact h.take hop.2
  | recycle log nextPage nextErases => exact ⟨trivial, h.recycle hop.1 nextErases⟩

end

/-! ## From a new file system on -/

section
variable {n : Nat}

theorem eraseCount_linkBlocks (steps : Nat) : ∀ {d : Nand} {i : Nat} (page : FullPage),
    d.Sound n → i + steps < n → ∀ b, (linkBlocks d page i steps).1.eraseCount b = d.eraseCount b := by
  induction steps with
  | zero => exact fun _ _ _ _ => rfl
  | succ steps ih =>
    intro d i page hs hin b
    have haddr : ((i : Int) * blockSize) = ((16 * i : Nat) : Int) := by
      simp only [blockSize]
      push_cast
      ring
    have hk : 16 * i < 16 * n := by omega
    simp only [linkBlocks, haddr]
    rw [ih _ (sound_writeNAND hs _ _ 0) (by omega), eraseCount_write hs _ hk]

theorem eraseCount_makefs {d : Nand} (hs : d.Sound n) (hn : 3 ≤ n) (b : Nat) :
    (makefs d).1.eraseCount b = d.eraseCount b := by
  have h0 : 16 * 0 < 16 * n := by omega
  have h1 : 16 * 1 < 16 * n := by omega
  have hs₁ := sound_writeNAND hs (superImage d.features.numBlocks) (16 * 0 : Nat) 0
  have hs₂ := sound_writeNAND hs₁ vaddrMapImage (16 * 1 : Nat) 0
  rw [makefs_eq rfl rfl hs₂, eraseCount_linkBlocks (n - 3) _ hs₂ (by omega), eraseCount_write hs₁ _ h1,
    eraseCount_write hs _ h0]

theorem nextLinks_superImage (nb : Int) :
    (superImage nb).nextLogBlock = 0 ∧ (superImage nb).nextBlockErases = 0 := by
  simp only [superImage, FullPage.setPageType, FullPage.setEraseCount, FullPage.setContents,
    FullPage.nextLogBlock, FullPage.nextBlockErases, Buf.setNum]
  constructor <;>
    rw [Buf.int_blit_other _ _ (by omega), Buf.int_setInt_other _ _ (by omega),
      Buf.int_blit_other _ _ (by omega)] <;>
    exact Buf.int_zero _

theorem nextLinks_vaddrMapImage :
    vaddrMapImage.nextLogBlock = 0 ∧ vaddrMapImage.nextBlockErases = 0 := by
  have halloc : (initVaddrMap (AddrMap.ofPage clearPage) ((pageDataSize : Int) / 4 - 2)).alloc =
      1024 := alloc_initVaddrMap _ _
  simp only [vaddrMapImage, FullPage.setPageType, FullPage.setContents, FullPage.nextLogBlock,
    FullPage.nextBlockErases, Buf.setNum]
  constructor <;>
    rw [Buf.int_blit_other _ _ (by omega), Buf.int_blit_other _ _ (by omega)] <;>
    exact Buf.int_zero _

theorem Image.cleanLinks {d : Nand} (h : Image d n) (hn : 3 ≤ n) (he : ∀ b, d.eraseCount b = 0) :
    CleanLinks d n := by
  have hfits := h.sound.fits
  have hpage : ∀ k, k < 16 * n → d.page k = superImage n ∨ d.page k = vaddrMapImage ∨
      (∃ j, j < 16 * n - 1 ∧ d.page k = linkPage j) ∨ d.page k = Buf.zero 1048 := by
    intro k hk
    by_cases h0 : k = 0
    · exact .inl (h0 ▸ h.super)
    by_cases h16 : k = 16
    · exact .inr (.inl (h16 ▸ h.vaddrMap))
    by_cases hlink : k % 16 = 0 ∧ k / 16 + 1 < n
    · refine .inr (.inr (.inl ⟨16 * (k / 16 + 1), by omega, ?_⟩))
      rw [← h.link (k / 16) (by omega) hlink.2]
      congr 1
      omega
    · exact .inr (.inr (.inr (h.blank k (by omega))))
  refine ⟨h.sound, he, fun k hk => ?_, fun k hk => ?_⟩
  · rcases hpage k hk with hp | hp | ⟨j, -, hp⟩ | hp
    · rw [hp, (nextLinks_superImage n).2]
    · rw [hp, nextLinks_vaddrMapImage.2]
    · rw [hp, linkPage, nextBlockErases_setNextLogBlock]
      exact (Buf.int_blit_other _ _ (by omega)).trans (Buf.int_zero _)
    · rw [hp, nextBlockErases_zero]
  · rcases hpage k hk with hp | hp | ⟨j, hj, hp⟩ | hp
    · rw [hp, (nextLinks_superImage n).1]
      omega
    · rw [hp, nextLinks_vaddrMapImage.1]
      omega
    · rw [hp, nextLogBlock_linkPage (by omega)]
      omega
    · rw [hp, nextLogBlock_zero]
      omega

/-- A `makefs` image of `n` blocks, mounted, with no block handed out. -/
def newWearState (n : Nat) (frame₀ frame : Block) (mem : CYCstate) : WearState :=
  ⟨xmpInit (makefs (blankNAND n frame₀)).1.file frame mem, []⟩

theorem noErases_new (hn : 3 ≤ n) (hfit : 8 + 16776 * n < 2147483648) (frame₀ frame : Block)
    (mem : CYCstate) : NoErases (newWearState n frame₀ frame mem) n := by
  have hz := zeroed_blankNAND frame₀ hfit
  obtain ⟨himage, -⟩ := makefs_image hz hn
  have hinit := sameStore_initNAND himage.sound himage.labelled frame
  have himage' := himage.of_sameStore hinit
  have hsuper : SuperPage.ofPage ((initNAND (makefs (blankNAND n frame₀)).1.file frame).page 0) =
      newSuperBlock n := by
    rw [himage'.super, ofPage_superImage]
  obtain ⟨hsame, hlists, -⟩ := @initCYCstate_spec
    { mem with nand := initNAND (makefs (blankNAND n frame₀)).1.file frame } n 16 himage'.sound
    (by omega) (by omega) (by rw [hsuper, latestVaddrMap_newSuperBlock]; rfl)
  have hlists' : (newWearState n frame₀ frame mem).state.lists = (newSuperBlock n).freeLists := by
    rw [← hsuper]
    exact hlists
  have hl := wellFormedLists_makefs hz hn frame mem
  obtain ⟨hph, hpt, -, hct⟩ := freeLists_newSuperBlock (show 1 ≤ n by omega) (by omega)
  have hclean := himage'.cleanLinks hn fun b => by
    rw [hinit.eraseCount, eraseCount_makefs hz.sound hn, eraseCount_blankNAND]
  refine ⟨hclean.of_sameStore hsame, ?_, ?_, ?_, ?_, fun g hg => by cases hg⟩
  · rw [hlists', partialHeadErases_newSuperBlock]
  · rw [hlists', hph]
    omega
  · rw [hlists', hpt]
    omega
  · rw [hlists', hct]
    omega

/-- In every run from a new file system whose blocks all come off the partial
    list, each count returned is the one the device stores. -/
theorem counts_right (hn : 3 ≤ n) (hfit : 8 + 16776 * n < 2147483648) (frame₀ frame : Block)
    (mem : CYCstate) (ops : List WearOp)
    (hall : EveryStep WearOp.run WearOp.Allowed (newWearState n frame₀ frame mem) ops)
    (hpart : EveryStep WearOp.run WearOp.OffPartial (newWearState n frame₀ frame mem) ops) :
    EveryStep WearOp.run WearOp.CountRight (newWearState n frame₀ frame mem) ops :=
  (hall.and hpart).mono NoErases.run (noErases_new hn hfit frame₀ frame mem)

end

section
variable {w : WearState} {n p : Nat} {ps cs : List Nat}

theorem NoErases.takeHead (h : NoErases w n)
    (hl : FreeLists w.state.nand n w.state.lists (p :: ps) cs) :
    (WearOp.take 1).Allowed w ∧ (WearOp.take 1).OffPartial w ∧
    ((WearOp.take 1).run w).given = ((((p + 1) / 16 : Nat) : Int), (0 : Int)) :: w.given ∧
    FreeLists ((WearOp.take 1).run w).state.nand n ((WearOp.take 1).run w).state.lists ps cs := by
  have hone : (1 : Int) ≠ 0 := by omega
  obtain ⟨hp, hpn⟩ := hl.inRange p (by simp)
  have hhead : w.state.lists.partialHead ≠ 0 := by
    rw [hl.partialHead_eq]
    omega
  obtain ⟨-, -, hfree⟩ := freeLists_getFreeBlock_partial h.sound hl hone
  obtain ⟨-, -, hpage, herases⟩ := getFreeBlock_partial h.sound hp hpn hone hl.partialHead_eq
  refine ⟨fun hnone => hnone.1.elim hone hhead, ⟨hone, hhead⟩, ?_, hfree⟩
  show (blockOf (getFreeBlock w.state.nand w.state.lists 1).freePage,
    (getFreeBlock w.state.nand w.state.lists 1).freePageErases) :: w.given = _
  rw [hpage, herases, h.headErases, show ((p : Int) + 1) = ((p + 1 : Nat) : Int) by push_cast; rfl,
    blockOf_natCast]

/-- A page of the log's last block, nearly full, goes to an empty complete list
    as the number of the log's first block. -/
theorem lists_recycle_nearlyFull (log : LogHeader) {k : Nat} (nextErases : Int) (s : CYCstate)
    (hk : ¬ k % 16 ≤ 13) (hc : s.lists.completeTail = 0) :
    (logsRecycle log k nextErases s).lists =
      ((s.lists.setCompleteHead log.first).setCompleteHeadErases log.firstErases).setCompleteTail
        (k % 16 : Nat) := by
  have hlast : recycleLastBlock log k s = (s, ((k % 16 : Nat) : Int)) := by
    rw [recycleLastBlock, tmod_natCast, if_neg (by simp only [blockSize]; omega)]
  have hne : ((k % 16 : Nat) : Int) ≠ 0 := by omega
  simp only [logsRecycle, hlast, if_pos hne, recycleFullBlocks, hc, ne_eq, not_true_eq_false,
    if_false]

/-- Taking a block of block 0 off the complete list: the erasure is not in the
    count that is returned. -/
theorem NoErases.not_countRight (h : NoErases w n) (hn : 0 < n) {a : Nat} (ha : a < 16)
    (hhead : w.state.lists.completeHead = a) (herases : w.state.lists.completeHeadErases = 0) :
    ¬ (WearOp.take 0).CountRight w := by
  obtain ⟨d, hsame, hnand, -, hpage, hcount⟩ :=
    getFreeBlock_complete h.sound (show a < 16 * n by omega) (.inl rfl) hhead
  show ¬ (getFreeBlock w.state.nand w.state.lists 0).freePageErases = Nand.eraseCount
    (getFreeBlock w.state.nand w.state.lists 0).nand
    (blockOf (getFreeBlock w.state.nand w.state.lists 0).freePage).toNat
  have hzero : a / 16 = 0 := by omega
  have hword : d.eraseWord 0 = 0 := (hsame.eraseCount 0).trans (h.erases 0)
  rw [hcount, herases, hpage, hnand, blockOf_natCast, Int.toNat_natCast, hzero,
    eraseCount_eraseNAND (hsame.sound h.sound) hn, if_pos rfl, hword]
  decide

end

/-- Two files on a device of four blocks. -/
theorem counts_right_two_files :
    EveryStep WearOp.run WearOp.CountRight (newWearState 4 default default default)
      [.take 1, .take 1] := by
  have hno := noErases_new (n := 4) (by omega) (by omega) default default default
  have hl := (freshMount_newFileSystem (n := 4) (by omega) (by omega)).freeLists
  obtain ⟨hall₁, hpart₁, -, hl₁⟩ := hno.takeHead
    (show FreeLists (newWearState 4 default default default).state.nand 4
      (newWearState 4 default default default).state.lists (32 :: [48]) [] from hl)
  obtain ⟨hall₂, hpart₂, -⟩ := (hno.take hpart₁).2.takeHead hl₁
  exact counts_right (by omega) (by omega) default default default [.take 1, .take 1]
    ⟨hall₁, hall₂, trivial⟩ ⟨hpart₁, hpart₂, trivial⟩

/-- A one-block log is recycled nearly full, and then a log takes its block. -/
theorem NoErases.count_wrong {w : WearState} {n : Nat} {ps : List Nat} (h : NoErases w n)
    (hl : FreeLists w.state.nand n w.state.lists (32 :: ps) [])
    (htail : w.state.lists.completeTail = 0) :
    EveryStep WearOp.run WearOp.Allowed w
      [.take 1, .recycle (sampleLog 2 (-1)) (46 : Nat) 0, .take 0] ∧
    ¬ EveryStep WearOp.run WearOp.CountRight w
      [.take 1, .recycle (sampleLog 2 (-1)) (46 : Nat) 0, .take 0] := by
  obtain ⟨hall₁, hpart₁, hgiven, -⟩ := h.takeHead hl
  have h₁ := (h.take hpart₁).2
  have hm : MadeOf ((WearOp.take 1).run w).given (sampleLog 2 (-1)) (46 : Nat) := by
    rw [hgiven]
    refine ⟨List.mem_cons_self, by omega, ⟨0, List.mem_cons_self⟩, .inl rfl⟩
  have h₂ := h₁.recycle hm 0
  obtain ⟨-, hct⟩ := tails_getFreeBlock w.state.nand w.state.lists 1
  have hlists := lists_recycle_nearlyFull (k := 46) (sampleLog 2 (-1)) 0
    ((WearOp.take 1).run w).state (by omega) (hct.trans htail)
  have hhead : FreeList.completeHead ((WearOp.recycle (sampleLog 2 (-1)) (46 : Nat) 0).run
      ((WearOp.take 1).run w)).state.lists = (2 : Nat) := by
    refine (congrArg FreeList.completeHead hlists).trans ?_
    simp only [FreeList.fields_setCompleteTail, FreeList.fields_setCompleteHeadErases,
      FreeList.fields_setCompleteHead]
    rfl
  have herases : FreeList.completeHeadErases ((WearOp.recycle (sampleLog 2 (-1)) (46 : Nat) 0).run
      ((WearOp.take 1).run w)).state.lists = 0 := by
    refine (congrArg FreeList.completeHeadErases hlists).trans ?_
    simp only [FreeList.fields_setCompleteTail, FreeList.fields_setCompleteHeadErases]
    rfl
  have hn : 0 < n := by
    have := (hl.inRange 32 (by simp)).2
    omega
  refine ⟨⟨hall₁, hm, fun hnone => ?_, trivial⟩, fun hright => ?_⟩
  · have h0 := hhead.symm.trans hnone.2
    omega
  · exact h₂.not_countRight hn (show 2 < 16 by omega) hhead herases hright.2.2.1

/-- On a new file system of four blocks the count returned is 0, and the block
    erased has a count of 1. -/
theorem count_wrong_after_erasure :
    EveryStep WearOp.run WearOp.Allowed (newWearState 4 default default default)
      [.take 1, .recycle (sampleLog 2 (-1)) (46 : Nat) 0, .take 0] ∧
    ¬ EveryStep WearOp.run WearOp.CountRight (newWearState 4 default default default)
      [.take 1, .recycle (sampleLog 2 (-1)) (46 : Nat) 0, .take 0] := by
  have hno := noErases_new (n := 4) (by omega) (by omega) default default default
  have hl : FreeLists (newWearState 4 default default default).state.nand 4
      (newWearState 4 default default default).state.lists (32 :: [48]) [] :=
    (freshMount_newFileSystem (n := 4) (by omega) (by omega)).freeLists
  have htail : (newWearState 4 default default default).state.lists.completeTail = 0 :=
    (wellFormedLists_makefs (zeroed_blankNAND default (by omega)) (show 3 ≤ 4 by omega) default
      default).completeTail
  exact hno.count_wrong hl htail

end Cycology
