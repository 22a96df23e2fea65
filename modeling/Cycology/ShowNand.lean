import Cycology.Lib.Loops
import Cycology.VNand

/- `showNAND.c`, the inspector of a NAND image: the walks over the two free lists and
   the one over the free positions of the address map.

   Each walk follows links read from the image, whatever they are. The list walks mark
   the blocks they come by in one array they share, and stop at a marked block. That
   is what ends them on any image (`showFreeLists_terminate`): a turn marks a block or is
   the last.

   `printf` is the list of what was printed. -/
namespace Cycology
open ByteMem Nand Loops Runs.Fallible

/-! ## The C code -/

/-- `UNMARKED`, `COMPLETELY_FREE`, `PARTIALLY_FREE` and `USED`. -/
inductive BlockMark where
  | unmarked | completelyFree | partiallyFree | used
  deriving DecidableEq, Inhabited

/-- What a walk cannot go on from: an index off its array, or more turns than it was
    given. -/
inductive ShowFault where
  | index | fuel
  deriving DecidableEq

/-- What the inspector prints. -/
inductive Printed where
  /-- "%d, " -/
  | number (blockPtr : Int)
  | newline
  /-- "\n\n****** CYCLE DETECTED IN FREE BLOCK LIST!\n" -/
  | cycle
  /-- "\n\n****** BLOCK IS IN BOTH FREE LISTS!\n" -/
  | bothLists
  /-- "\n\n****** FREE BLOCK LIST TAIL INVALID IN SUPERBLOCK\n" -/
  | invalidTail
  /-- "\n\n" -/
  | blank
  /-- "Free entries in address map include:\n     " -/
  | freeEntries
  /-- "Free list in address map is empty \n" -/
  | noFreeEntries
  deriving DecidableEq

/-- The static variables: `page`, `superBlock` and `blockStat`, and the device. -/
structure ShowNand where
  nand : Nand
  page : FullPage
  superBlock : SuperPage
  blockStat : List BlockMark

namespace ShowNand

/-- `main`, up to `printFreeLists`. -/
def init (d : Nand) : ShowNand :=
  let (d, superBlockPage, _) := readNAND d (Buf.zero 1048) 0
  { nand := d
    page := Buf.zero 1048
    superBlock := SuperPage.ofPage superBlockPage
    blockStat := List.replicate d.features.numBlocks.toNat .unmarked }

def getFreeListHead (v : ShowNand) (freeListType : BlockMark) : Int :=
  if freeListType = .completelyFree then v.superBlock.freeLists.completeHead
  else v.superBlock.freeLists.partialHead

def printPageNumber (blockPtr position : Int) : List Printed :=
  .number blockPtr :: if position.tmod 10 = 9 then [.newline] else []

/-- `blockStat[i]`. -/
def getStat (v : ShowNand) (i : Int) : Except ShowFault BlockMark :=
  if 0 ≤ i then
    match v.blockStat[i.toNat]? with
    | some m => .ok m
    | none => .error .index
  else .error .index

/-- The error flag, and what is printed. -/
def markBlockStatistics (v : ShowNand) (freeListType : BlockMark) (freeBlockPtr : Int) :
    Except ShowFault (ShowNand × Int × List Printed) := do
  let blockType ← v.getStat (freeBlockPtr.tdiv blockSize)
  if blockType = .unmarked then
    .ok ({ v with blockStat :=
      v.blockStat.set (freeBlockPtr.tdiv blockSize).toNat freeListType }, 0, [])
  else
    -- `else if (blockType = freeListType)` assigns
    let blockType := freeListType
    if blockType ≠ .unmarked then .ok (v, 1, [.cycle])
    else .ok (v, 1, [.bothLists])

def getNextLogBlock (v : ShowNand) (freeListType : BlockMark) (freeBlockPtr : Int) :
    ShowNand × Int :=
  let k :=
    if freeListType = .completelyFree then cint (freeBlockPtr + blockSize - 1) else freeBlockPtr
  let (d, page, _) := readNAND v.nand v.page k
  ({ v with nand := d, page := page }, page.nextLogBlock)

def isValidTail (v : ShowNand) (previous : Int) (freeListType : BlockMark) : Bool :=
  if previous ≠ 0 then
    if freeListType = .completelyFree then previous = v.superBlock.freeLists.completeTail
    else previous = v.superBlock.freeLists.partialTail
  else true

/-- The locals of `showFreeList` with the state it works on. `stopped` is set by the
    `break`. -/
structure Listing where
  tool : ShowNand
  freeCount : Int
  previous : Int
  freeBlockPtr : Int
  stopped : Bool
  printed : List Printed

/-- The condition of the loop, after no `break`. -/
def Listing.GoesOn (w : Listing) : Prop := w.freeBlockPtr ≠ 0 ∧ w.stopped = false

instance : DecidablePred Listing.GoesOn := fun w =>
  inferInstanceAs (Decidable (w.freeBlockPtr ≠ 0 ∧ w.stopped = false))

/-- The body of the loop. -/
def listTurn (freeListType : BlockMark) (w : Listing) : Except ShowFault Listing := do
  let freeCount := cint (w.freeCount + 1)
  let printed := w.printed ++ printPageNumber w.freeBlockPtr freeCount
  let (tool, error, lines) ← w.tool.markBlockStatistics freeListType w.freeBlockPtr
  let printed := printed ++ lines
  if error ≠ 0 then
    .ok { w with tool := tool, freeCount := freeCount, stopped := true, printed := printed }
  else
    let (tool, next) := tool.getNextLogBlock freeListType w.freeBlockPtr
    .ok { w with tool := tool, freeCount := freeCount, previous := w.freeBlockPtr
                 freeBlockPtr := next, printed := printed }

/-- `showFreeList` before its loop. -/
def listStart (v : ShowNand) (freeListType : BlockMark) : Listing :=
  { tool := v, freeCount := 0, previous := 0, freeBlockPtr := v.getFreeListHead freeListType
    stopped := false, printed := [] }

/-- What is left of the inspector, and what was printed. The loop is given `fuel`
    turns. -/
def showFreeList (v : ShowNand) (freeListType : BlockMark) (fuel : Nat) :
    Except ShowFault (ShowNand × List Printed) := do
  let w ← loop Listing.GoesOn (listTurn freeListType) .fuel fuel (v.listStart freeListType)
  let tail := if w.tool.isValidTail w.previous freeListType then [] else [.invalidTail]
  .ok (w.tool, w.printed ++ tail ++ [.blank])

/-- The page of `getVaddrMap`. -/
def getVaddrMap (v : ShowNand) : ShowNand × AddrMap :=
  let (d, page, _) := readNAND v.nand v.page blockSize
  ({ v with nand := d, page := page }, AddrMap.ofPage page)

/-- The locals of `printFreePositions`. -/
structure FreePositions where
  freePos : Int
  freeCount : Int
  printed : List Printed
  deriving Inhabited

/-- The body of its loop. -/
def positionTurn (map : AddrMap) (w : FreePositions) : Except ShowFault FreePositions :=
  let printed := w.printed ++ [.number w.freePos]
  let freePos := cint (-map.map w.freePos.toNat)
  let freeCount := cint (w.freeCount + 1)
  let printed := printed ++ if freeCount.tmod 10 = 9 then [.newline] else []
  .ok { freePos := freePos, freeCount := freeCount, printed := printed }

/-- What was printed. The loop is given `fuel` turns. -/
def printFreePositions (map : AddrMap) (fuel : Nat) : Except ShowFault (List Printed) :=
  if map.freePtr ≠ 0 then
    (loop (fun w : FreePositions => 0 < w.freePos) (positionTurn map) .fuel fuel
      { freePos := map.freePtr, freeCount := 0, printed := [.freeEntries] }).map
        FreePositions.printed
  else .ok [.noFreeEntries]

/-! ## The start -/

section
variable {d : Nand} {n : Nat}

theorem sameStore_init (d : Nand) : SameStore d (init d).nand := by
  simp only [init]
  exact sameStore_readNAND d (Buf.zero 1048) 0

theorem blockStat_init (d : Nand) :
    (init d).blockStat = List.replicate d.features.numBlocks.toNat .unmarked := by
  simp only [init]
  rw [(sameStore_readNAND d (Buf.zero 1048) 0).2]

theorem superBlock_init (hs : d.Sound n) (hn : 0 < n) :
    (init d).superBlock = SuperPage.ofPage (d.page 0) := by
  have hread := readNAND_eq hs (Buf.zero 1048) (k := 0) (by omega)
  simp only [init, show (0 : Int) = ((0 : Nat) : Int) from rfl, hread]

end

/-! ## One turn of a list walk -/

/-- An address in one of the first `n` blocks, or none. -/
def InBlocks (n : Nat) (p : Int) : Prop := p = 0 ∨ 0 ≤ p ∧ p.tdiv blockSize < n

/-- The block of a list node has been marked. -/
def Marked (v : ShowNand) (p : Int) : Prop := v.blockStat[p.toNat / 16]? ≠ some .unmarked

/-- The inspector with the block of `p` marked. -/
def mark (v : ShowNand) (freeListType : BlockMark) (p : Int) : ShowNand :=
  { v with blockStat := v.blockStat.set (p.toNat / 16) freeListType }

/-- The number of blocks no walk came by. -/
def unmarkedCount (v : ShowNand) : Nat := v.blockStat.count .unmarked

section
variable {v : ShowNand} {t : BlockMark} {w : Listing} {p : Int}

theorem tdiv_blockSize (hp : 0 ≤ p) : p.tdiv blockSize = ((p.toNat / 16 : Nat) : Int) := by
  have hcast : p = (p.toNat : Int) := (Int.toNat_of_nonneg hp).symm
  rw [hcast, Int.toNat_natCast]
  exact (Int.ofNat_tdiv _ _).symm

theorem InBlocks.lt {n : Nat} (h : InBlocks n p) (h0 : p ≠ 0) : 0 ≤ p ∧ p.toNat / 16 < n := by
  obtain ⟨hp, hlt⟩ := h.resolve_left h0
  rw [tdiv_blockSize hp] at hlt
  exact ⟨hp, by omega⟩

theorem getStat_eq (hp : 0 ≤ p) (hlt : p.toNat / 16 < v.blockStat.length) :
    v.getStat (p.tdiv blockSize) = .ok v.blockStat[p.toNat / 16] := by
  rw [getStat, tdiv_blockSize hp, if_pos (by omega), Int.toNat_natCast,
    List.getElem?_eq_getElem hlt]

theorem markBlockStatistics_of_unmarked (hp : 0 ≤ p) (hm : ¬ v.Marked p) :
    v.markBlockStatistics t p = .ok (v.mark t p, 0, []) := by
  have hget : v.blockStat[p.toNat / 16]? = some .unmarked := not_not.mp hm
  obtain ⟨hlt, hval⟩ := List.getElem?_eq_some_iff.mp hget
  rw [markBlockStatistics, getStat_eq hp hlt, ok_bind, hval, if_pos rfl, mark, tdiv_blockSize hp,
    Int.toNat_natCast]

/-- Any other is taken for one of the same list. -/
theorem markBlockStatistics_of_marked (hp : 0 ≤ p) (hlt : p.toNat / 16 < v.blockStat.length)
    (ht : t ≠ .unmarked) (hm : v.Marked p) :
    v.markBlockStatistics t p = .ok (v, 1, [.cycle]) := by
  have hval : v.blockStat[p.toNat / 16] ≠ .unmarked := fun h =>
    hm (by rw [List.getElem?_eq_getElem hlt, h])
  rw [markBlockStatistics, getStat_eq hp hlt, ok_bind, if_neg hval]
  exact if_pos ht

theorem listTurn_of_unmarked (hp : 0 ≤ w.freeBlockPtr) (hm : ¬ w.tool.Marked w.freeBlockPtr) :
    listTurn t w = .ok
      { tool := ((w.tool.mark t w.freeBlockPtr).getNextLogBlock t w.freeBlockPtr).1
        freeCount := cint (w.freeCount + 1)
        previous := w.freeBlockPtr
        freeBlockPtr := ((w.tool.mark t w.freeBlockPtr).getNextLogBlock t w.freeBlockPtr).2
        stopped := w.stopped
        printed := w.printed ++ printPageNumber w.freeBlockPtr (cint (w.freeCount + 1)) } := by
  rw [listTurn, markBlockStatistics_of_unmarked hp hm, ok_bind]
  simp only [List.append_nil]
  rfl

theorem listTurn_of_marked (hp : 0 ≤ w.freeBlockPtr)
    (hlt : w.freeBlockPtr.toNat / 16 < w.tool.blockStat.length) (ht : t ≠ .unmarked)
    (hm : w.tool.Marked w.freeBlockPtr) :
    listTurn t w = .ok
      { w with
        freeCount := cint (w.freeCount + 1)
        stopped := true
        printed := w.printed ++ printPageNumber w.freeBlockPtr (cint (w.freeCount + 1)) ++
          [.cycle] } := by
  rw [listTurn, markBlockStatistics_of_marked hp hlt ht hm, ok_bind]
  rfl

@[simp] theorem blockStat_getNextLogBlock :
    (v.getNextLogBlock t p).1.blockStat = v.blockStat := rfl

@[simp] theorem blockStat_mark :
    (v.mark t p).blockStat = v.blockStat.set (p.toNat / 16) t := rfl

theorem length_mark : (v.mark t p).blockStat.length = v.blockStat.length := List.length_set

theorem unmarkedCount_mark (ht : t ≠ .unmarked) (hm : ¬ v.Marked p) :
    (v.mark t p).unmarkedCount < v.unmarkedCount := by
  obtain ⟨hlt, hval⟩ := List.getElem?_eq_some_iff.mp (not_not.mp hm)
  have hpos : 0 < v.blockStat.count .unmarked :=
    List.count_pos_iff.mpr (hval ▸ List.getElem_mem hlt)
  rw [unmarkedCount, unmarkedCount, blockStat_mark, List.count_set hlt, hval]
  simp only [beq_self_eq_true, if_true, beq_iff_eq, if_neg ht]
  omega

end

/-! ## Termination -/

/-- Every link the walk follows leads to a block there is, or nowhere. -/
def FollowsInRange (v : ShowNand) (t : BlockMark) : Prop :=
  ∀ w, Reaches Listing.GoesOn (listTurn t) (v.listStart t) w →
    InBlocks v.blockStat.length w.freeBlockPtr

section
variable {v : ShowNand} {t : BlockMark}

/-- Each turn but the last marks a block. -/
theorem showFreeList_returns (ht : t ≠ .unmarked) (h : v.FollowsInRange t) {fuel : Nat}
    (hfuel : v.unmarkedCount + 1 ≤ fuel) :
    ∃ v' out, v.showFreeList t fuel = .ok (v', out) ∧
      v'.blockStat.length = v.blockStat.length := by
  let I (w : Listing) : Prop := Reaches Listing.GoesOn (listTurn t) (v.listStart t) w ∧
    w.tool.blockStat.length = v.blockStat.length
  let μ (w : Listing) : Nat := if w.stopped then 0 else w.tool.unmarkedCount + 1
  have hturn : ∀ w, I w → w.GoesOn → ∃ w', listTurn t w = .ok w' ∧ I w' ∧ μ w' < μ w := by
    rintro w ⟨hreach, hlen⟩ hgo
    obtain ⟨hp, hlt⟩ := (h w hreach).lt hgo.1
    rw [← hlen] at hlt
    by_cases hm : w.tool.Marked w.freeBlockPtr
    · have hturn := listTurn_of_marked hp hlt ht hm
      exact ⟨_, hturn, ⟨hreach.tail ⟨hgo, hturn⟩, hlen⟩, by simp [μ, hgo.2]⟩
    · have hturn := listTurn_of_unmarked (t := t) hp hm
      refine ⟨_, hturn, ⟨hreach.tail ⟨hgo, hturn⟩, length_mark.trans hlen⟩, ?_⟩
      have hless := unmarkedCount_mark ht hm
      rw [unmarkedCount, unmarkedCount] at hless
      simp only [μ, hgo.2, Bool.false_eq_true, if_false, unmarkedCount, blockStat_getNextLogBlock]
      omega
  obtain ⟨w, hw, ⟨-, hlen⟩, -⟩ := loop_total (e := .fuel) hturn ⟨.refl, rfl⟩ hfuel
  exact ⟨w.tool, _, by rw [showFreeList, hw, ok_bind], hlen⟩

end

/-! ## Images whose links are addresses of blocks -/

/-- The address of a block, or none. -/
def BlockAddr (n : Nat) (p : Int) : Prop := ∃ b : Nat, p = 16 * b ∧ (b < n ∨ b = 0)

/-- An image of `n` blocks whose list heads and links lead to blocks. -/
structure BlockLinks (v : ShowNand) (n : Nat) : Prop where
  sound : v.nand.Sound n
  marks : v.blockStat.length = n
  head : ∀ t, BlockAddr n (v.getFreeListHead t)
  link : ∀ k, BlockAddr n (v.nand.page k).nextLogBlock

section
variable {v : ShowNand} {n : Nat} {t : BlockMark}

theorem BlockAddr.inBlocks {p : Int} (h : BlockAddr n p) : InBlocks n p := by
  obtain ⟨b, rfl, hb⟩ := h
  rcases hb with hb | rfl
  · right
    rw [tdiv_blockSize (by omega)]
    omega
  · exact .inl rfl

theorem getNextLogBlock_of_blockAddr (hs : v.nand.Sound n) {p : Int} (hp : BlockAddr n p)
    (h0 : p ≠ 0) : ∃ k, SameStore v.nand (v.getNextLogBlock t p).1.nand ∧
      (v.getNextLogBlock t p).2 = (v.nand.page k).nextLogBlock := by
  obtain ⟨b, rfl, hb⟩ := hp
  have hlt : b < n := by omega
  have hfits := hs.fits
  have hread : ∀ k : Nat, k < 16 * n →
      SameStore v.nand (readNAND v.nand v.page k).1 ∧
      (readNAND v.nand v.page k).2.1.nextLogBlock = (v.nand.page k).nextLogBlock := by
    intro k hk
    rw [readNAND_eq hs v.page hk]
    exact ⟨⟨rfl, rfl⟩, rfl⟩
  simp only [getNextLogBlock]
  split
  · have hlast : cint (16 * (b : Int) + blockSize - 1) = ((16 * b + 15 : Nat) : Int) := by
      rw [cint_eq (by simp only [IsInt, blockSize]; omega), blockSize]
      omega
    rw [hlast]
    exact ⟨_, hread _ (by omega)⟩
  · exact ⟨_, hread (16 * b) (by omega)⟩

theorem BlockLinks.reaches (h : v.BlockLinks n) {w : Listing}
    (hw : Reaches Listing.GoesOn (listTurn t) (v.listStart t) w) (ht : t ≠ .unmarked) :
    w.tool.BlockLinks n ∧ BlockAddr n w.freeBlockPtr := by
  refine hw.invariant (I := fun w => w.tool.BlockLinks n ∧ BlockAddr n w.freeBlockPtr)
    ⟨h, h.head t⟩ ?_
  rintro w w' ⟨hlinks, haddr⟩ ⟨hgo, hturn⟩
  obtain ⟨hp, hlt⟩ := haddr.inBlocks.lt hgo.1
  by_cases hm : w.tool.Marked w.freeBlockPtr
  · rw [listTurn_of_marked hp (hlinks.marks.symm ▸ hlt) ht hm] at hturn
    cases hturn
    exact ⟨hlinks, haddr⟩
  · rw [listTurn_of_unmarked hp hm] at hturn
    cases hturn
    obtain ⟨k, hstore, hnext⟩ := getNextLogBlock_of_blockAddr
      (v := w.tool.mark t w.freeBlockPtr) (t := t) hlinks.sound haddr hgo.1
    refine ⟨⟨hstore.sound hlinks.sound, length_mark.trans hlinks.marks, hlinks.head,
      fun j => ?_⟩, ?_⟩
    · rw [hstore.page]
      exact hlinks.link j
    · rw [hnext]
      exact hlinks.link k

theorem BlockLinks.followsInRange (h : v.BlockLinks n) (ht : t ≠ .unmarked) :
    v.FollowsInRange t := by
  intro w hw
  rw [h.marks]
  exact (h.reaches hw ht).2.inBlocks

theorem BlockLinks.showFreeList (h : v.BlockLinks n) (ht : t ≠ .unmarked) {fuel : Nat}
    {v' : ShowNand} {out : List Printed} (hok : v.showFreeList t fuel = .ok (v', out)) :
    v'.BlockLinks n := by
  obtain ⟨w, hw, hrest⟩ := bind_eq_ok.mp hok
  cases hrest
  exact (h.reaches (reaches_of_loop hw).1 ht).1

end

/-- An image of three blocks with nothing on it but the free lists. -/
def imageWith (lists : FreeList) : Nand :=
  (writeNAND (blankNAND 3 (Buf.zero 16776))
    (FullPage.setContents (Buf.zero 1048) (SuperPage.setFreeLists (Buf.zero 40) lists)) 0 1).1

section
variable (lists : FreeList)

theorem sound_imageWith : (imageWith lists).Sound 3 :=
  sound_writeNAND (sound_blankNAND _ (by decide)) _ 0 1

theorem page_imageWith (k : Nat) : (imageWith lists).page k =
    if k = 0 then FullPage.setContents (Buf.zero 1048) (SuperPage.setFreeLists (Buf.zero 40) lists)
    else Buf.zero 1048 := by
  have hpage := page_writeNAND (sound_blankNAND (n := 3) (Buf.zero 16776) (by decide))
    (FullPage.setContents (Buf.zero 1048) (SuperPage.setFreeLists (Buf.zero 40) lists))
    (k := 0) (by decide) (r := 1) (.inl (by decide)) k
  rw [page_blankNAND] at hpage
  exact hpage

theorem link_imageWith (k : Nat) : ((imageWith lists).page k).nextLogBlock = 0 := by
  rw [page_imageWith, FullPage.nextLogBlock]
  split
  · rw [FullPage.setContents, Buf.int_blit_other _ _ (by omega), Buf.int_zero]
  · exact Buf.int_zero _

theorem lists_imageWith : (init (imageWith lists)).superBlock.freeLists = lists := by
  rw [superBlock_init (sound_imageWith lists) (by decide), page_imageWith, if_pos rfl,
    FullPage.setContents, SuperPage.ofPage, Buf.slice_blit_same _ _ (by decide),
    SuperPage.freeLists_setFreeLists]

end

/-- Both lists of the image start at block 2. -/
def crossLinked : Nand :=
  imageWith (FreeList.setCompleteHead (FreeList.setPartialHead (Buf.zero 24) 32) 32)

theorem blockLinks_crossLinked : (init crossLinked).BlockLinks 3 := by
  have hs : crossLinked.Sound 3 := sound_imageWith _
  have hstore := sameStore_init crossLinked
  refine ⟨hstore.sound hs, ?_, fun t => ⟨2, ?_, .inl (by decide)⟩, fun k => ⟨0, ?_, .inr rfl⟩⟩
  · rw [blockStat_init, hs.numBlocks]
    rfl
  · rw [getFreeListHead, crossLinked, lists_imageWith]
    cases t <;> decide
  · rw [hstore.page]
    exact link_imageWith _ k

/-- **The list walks end on any image.** On every image whose list heads and links, as
    far as the walks follow them, lead to blocks there are, both walks return within a
    turn for each block and one more, without an index off the array of marks. -/
theorem showFreeLists_terminate (d : Nand)
    (hcomplete : (init d).FollowsInRange .completelyFree)
    (hsecond : ∀ fuel v out, (init d).showFreeList .completelyFree fuel = .ok (v, out) →
      v.FollowsInRange .partiallyFree) :
    ∃ v₁ out₁ v₂ out₂,
      (init d).showFreeList .completelyFree (d.features.numBlocks.toNat + 1) = .ok (v₁, out₁) ∧
      v₁.showFreeList .partiallyFree (d.features.numBlocks.toNat + 1) = .ok (v₂, out₂) := by
  have hcount : ∀ v : ShowNand, v.unmarkedCount ≤ v.blockStat.length := fun v =>
    List.count_le_length
  have hlen : (init d).blockStat.length = d.features.numBlocks.toNat := by
    rw [blockStat_init, List.length_replicate]
  have hfuel₁ : (init d).unmarkedCount + 1 ≤ d.features.numBlocks.toNat + 1 := by
    have hle := hcount (init d)
    omega
  obtain ⟨v₁, out₁, h₁, hlen₁⟩ := showFreeList_returns (by decide) hcomplete hfuel₁
  have hfuel₂ : v₁.unmarkedCount + 1 ≤ d.features.numBlocks.toNat + 1 := by
    have hle := hcount v₁
    omega
  obtain ⟨v₂, out₂, h₂, -⟩ := showFreeList_returns (by decide) (hsecond _ v₁ out₁ h₁) hfuel₂
  exact ⟨v₁, out₁, v₂, out₂, h₁, h₂⟩

theorem showFreeLists_terminate_crossLinked : ∃ v₁ out₁ v₂ out₂,
    (init crossLinked).showFreeList .completelyFree (crossLinked.features.numBlocks.toNat + 1) =
      .ok (v₁, out₁) ∧
    v₁.showFreeList .partiallyFree (crossLinked.features.numBlocks.toNat + 1) =
      .ok (v₂, out₂) :=
  showFreeLists_terminate crossLinked (blockLinks_crossLinked.followsInRange (by decide))
    fun _ _ _ hok =>
      (blockLinks_crossLinked.showFreeList (by decide) hok).followsInRange (by decide)

end ShowNand

end Cycology
