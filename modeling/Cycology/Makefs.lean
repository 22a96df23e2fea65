import Cycology.FreeBlocks

/- `makefs.c`: the empty file system it writes on a new device.

   The superblock goes to page 0 and the address map to page 16. Every other
   block is put on the partial list by a link in its first page, the last one
   by nothing at all: its first page stays unwritten and reads as link 0.

   `makefs_image` says what is on the device afterwards, page by page; the rest
   of the file reads the fields the mount looks at off those pages. -/
namespace Cycology
open ByteMem LinkedChain Nand

/-! ## The C code

   Each function gives the device and what its `writeNAND` calls returned; the
   code does not look at that. -/

def clearPage : FullPage := Buf.zero 1048

/-- The static `superBlock` once `writeOutSuperBlock` has filled it in. -/
def newSuperBlock (numBlocks : Int) : SuperPage :=
  let superBlock : SuperPage := Buf.zero 40
  let superBlock := superBlock.setLatestVaddrMap blockSize
  let lists := superBlock.freeLists.setPartialHead (blockSize * 2)
  let lists := lists.setPartialTail (blockSize * (numBlocks - 1))
  superBlock.setFreeLists lists

/-- The page `writeOutSuperBlock` writes. -/
def superImage (numBlocks : Int) : FullPage :=
  let page := clearPage.setContents (newSuperBlock numBlocks)
  (page.setEraseCount (-1)).setPageType ptypeSuper

def writeOutSuperBlock (d : Nand) : Nand × List Int :=
  let page := superImage d.features.numBlocks
  let (d, res) := writeNAND d page 0 0
  (d, [res])

/-- The loop of `writeOutVaddrMap`, `steps` iterations from `i` on: each slot's
    entry is the next slot, negated. -/
def linkEntries (map : AddrMap) (i : Nat) : Nat → AddrMap
  | 0 => map
  | steps + 1 => linkEntries (map.setMap i (-(i + 1))) (i + 1) steps

/-- What `writeOutVaddrMap` makes of the memory of an address map. -/
def initVaddrMap (map : AddrMap) (size : Int) : AddrMap :=
  let map := (map.setSize size).setFreePtr 1
  let map := linkEntries map 1 (map.size - 2).toNat
  map.setMap (map.size - 1).toNat 0

/-- The page `writeOutVaddrMap` writes. -/
def vaddrMapImage : FullPage :=
  let map := initVaddrMap (AddrMap.ofPage clearPage) (pageDataSize / 4 - 2)
  (clearPage.setContents map.mem).setPageType ptypeAddrmap

def writeOutVaddrMap (d : Nand) : Nand × List Int :=
  let page := vaddrMapImage
  let (d, res) := writeNAND d page blockSize 0
  (d, [res])

/-- The loop of `linkFreeBlocks`, `steps` iterations from `i` on. -/
def linkBlocks (d : Nand) (page : FullPage) (i : Nat) : Nat → Nand × List Int
  | 0 => (d, [])
  | steps + 1 =>
    let page := page.setNextLogBlock ((i + 1) * blockSize)
    let (d, res) := writeNAND d page (i * blockSize) 0
    let (d, ress) := linkBlocks d page (i + 1) steps
    (d, res :: ress)

def linkFreeBlocks (d : Nand) : Nand × List Int :=
  linkBlocks d (clearPage.setPageType ptypeNextlink) 2 (d.features.numBlocks - 1 - 2).toNat

/-- `main`, after `initNAND`. -/
def makefs (d : Nand) : Nand × List Int :=
  let (d, res₁) := writeOutSuperBlock d
  let (d, res₂) := writeOutVaddrMap d
  let (d, res₃) := linkFreeBlocks d
  (d, res₁ ++ res₂ ++ res₃)

/-! ## The image -/

/-- The page that links a block of the new partial list to the page at `k`. -/
def linkPage (k : Nat) : FullPage :=
  (clearPage.setPageType ptypeNextlink).setNextLogBlock k

/-- A device of `n` blocks as it comes from `makeVirtualNAND`: labelled, with
    nothing written on it. -/
structure Zeroed (d : Nand) (n : Nat) : Prop where
  sound : d.Sound n
  labelled : d.Labelled
  page : ∀ k, d.page k = Buf.zero 1048
  nextPage : ∀ b, d.nextPage b = 0

theorem zeroed_blankNAND {n : Nat} (frame : Block) (hn : 8 + 16776 * n < 2147483648) :
    Zeroed (blankNAND n frame) n :=
  ⟨sound_blankNAND frame hn, header_blankNAND frame n, page_blankNAND frame n,
    nextPage_blankNAND frame n⟩

/-- The device `makefs` leaves. -/
structure Image (d : Nand) (n : Nat) : Prop where
  sound : d.Sound n
  labelled : d.Labelled
  super : d.page 0 = superImage n
  vaddrMap : d.page 16 = vaddrMapImage
  link : ∀ i, 2 ≤ i → i + 1 < n → d.page (16 * i) = linkPage (16 * (i + 1))
  blank : ∀ k, k % 16 ≠ 0 ∨ n ≤ k / 16 + 1 → d.page k = Buf.zero 1048
  nextPage : ∀ b, d.nextPage b = if b + 1 < n then 1 else 0

theorem setNextLogBlock_linkPage (k j : Nat) : (linkPage j).setNextLogBlock k = linkPage k :=
  Buf.setInt_setInt_same _ _ _ _

theorem writeNAND_first {d : Nand} {n b : Nat} (hs : d.Sound n) (hl : d.Labelled)
    (hb : b < n) (hnp : d.nextPage b = 0) (page : FullPage) :
    (writeNAND d page (16 * b : Nat) 0).1.Sound n ∧
    (writeNAND d page (16 * b : Nat) 0).1.Labelled ∧
    (∀ k, (writeNAND d page (16 * b : Nat) 0).1.page k = if k = 16 * b then page else d.page k) ∧
    (∀ c, (writeNAND d page (16 * b : Nat) 0).1.nextPage c = if c = b then 1 else d.nextPage c) ∧
    (writeNAND d page (16 * b : Nat) 0).2 ≠ -1 := by
  have hk : 16 * b < 16 * n := by omega
  have hdiv : 16 * b / 16 = b := by omega
  have ha : d.Accepts (16 * b) 0 := by
    refine .inr ?_
    rw [hdiv, hnp]
    simp
  refine ⟨sound_writeNAND hs page _ 0, labelled_writeNAND hs hl page hk 0,
    page_writeNAND hs page hk ha, fun c => ?_, (writeNAND_ret hs page hk 0).mpr ha⟩
  rw [nextPage_writeNAND hs page hk ha, hdiv]
  by_cases hc : c = b
  · rw [if_pos ⟨hc, rfl⟩, if_pos hc, hc, hnp]; rfl
  · rw [if_neg (fun h => hc h.1), if_neg hc]

/-- The loop links the blocks it passes and touches no other page. -/
theorem linkBlocks_spec {n : Nat} (steps : Nat) : ∀ {d : Nand} {i : Nat} (page : FullPage),
    d.Sound n → d.Labelled → i + steps < n →
    (∀ k : Nat, page.setNextLogBlock k = linkPage k) →
    (∀ b, i ≤ b → d.nextPage b = 0) →
    (linkBlocks d page i steps).1.Sound n ∧ (linkBlocks d page i steps).1.Labelled ∧
    (∀ k, (linkBlocks d page i steps).1.page k =
      if k % 16 = 0 ∧ i ≤ k / 16 ∧ k / 16 < i + steps then linkPage (k + 16) else d.page k) ∧
    (∀ b, (linkBlocks d page i steps).1.nextPage b =
      if i ≤ b ∧ b < i + steps then 1 else d.nextPage b) ∧
    ∀ r ∈ (linkBlocks d page i steps).2, r ≠ -1 := by
  induction steps with
  | zero =>
    intro d i page hs hl _ _ _
    refine ⟨hs, hl, fun k => ?_, fun b => ?_, fun r hr => ?_⟩
    · rw [if_neg (by omega)]; rfl
    · rw [if_neg (by omega)]; rfl
    · simp [linkBlocks] at hr
  | succ steps ih =>
    intro d i page hs hl hin hpage hnp
    have hnext : page.setNextLogBlock (((i : Int) + 1) * blockSize) = linkPage (16 * (i + 1)) := by
      rw [← hpage]
      congr 1
      simp only [blockSize]
      push_cast
      ring
    have haddr : ((i : Int) * blockSize) = ((16 * i : Nat) : Int) := by
      simp only [blockSize]
      push_cast
      ring
    obtain ⟨hs', hl', hp', hn', hr'⟩ := writeNAND_first hs hl (show i < n by omega)
      (hnp i (le_refl i)) (linkPage (16 * (i + 1)))
    obtain ⟨hs'', hl'', hp'', hn'', hr''⟩ := ih (linkPage (16 * (i + 1))) hs' hl'
      (show i + 1 + steps < n by omega) (fun k => setNextLogBlock_linkPage k _)
      (fun b hb => by rw [hn', if_neg (by omega)]; exact hnp b (by omega))
    simp only [linkBlocks, hnext, haddr]
    refine ⟨hs'', hl'', fun k => ?_, fun b => ?_, fun r hr => ?_⟩
    · rw [hp'', hp']
      by_cases hk : k = 16 * i
      · rw [if_neg (by omega), if_pos hk, if_pos (by omega)]
        congr 1
        omega
      · by_cases hin' : k % 16 = 0 ∧ i + 1 ≤ k / 16 ∧ k / 16 < i + 1 + steps
        · rw [if_pos hin', if_pos (by omega)]
        · rw [if_neg hin', if_neg hk, if_neg (by omega)]
    · rw [hn'', hn']
      by_cases hb : b = i
      · rw [if_neg (by omega), if_pos hb, if_pos (by omega)]
      · by_cases hin' : i + 1 ≤ b ∧ b < i + 1 + steps
        · rw [if_pos hin', if_pos (by omega)]
        · rw [if_neg hin', if_neg hb, if_neg (by omega)]
    · rcases List.mem_cons.mp hr with rfl | hr
      · exact hr'
      · exact hr'' r hr

theorem makefs_eq {d d₁ d₂ : Nand} {n : Nat}
    (hd₁ : d₁ = (writeNAND d (superImage d.features.numBlocks) ((16 * 0 : Nat) : Int) 0).1)
    (hd₂ : d₂ = (writeNAND d₁ vaddrMapImage ((16 * 1 : Nat) : Int) 0).1) (hs : d₂.Sound n) :
    makefs d = ((linkBlocks d₂ (clearPage.setPageType ptypeNextlink) 2 (n - 3)).1,
      [(writeNAND d (superImage d.features.numBlocks) ((16 * 0 : Nat) : Int) 0).2] ++
      [(writeNAND d₁ vaddrMapImage ((16 * 1 : Nat) : Int) 0).2] ++
      (linkBlocks d₂ (clearPage.setPageType ptypeNextlink) 2 (n - 3)).2) := by
  have hsteps : (d₂.features.numBlocks - 1 - 2).toNat = n - 3 := by
    rw [hs.numBlocks]
    omega
  rw [← hsteps, hd₂, hd₁]
  rfl

/-- `makefs` writes the image, and no write is refused. -/
theorem makefs_image {d : Nand} {n : Nat} (hz : Zeroed d n) (hn : 3 ≤ n) :
    Image (makefs d).1 n ∧ ∀ r ∈ (makefs d).2, r ≠ -1 := by
  obtain ⟨hs₁, hl₁, hp₁, hn₁, hr₁⟩ := writeNAND_first hz.sound hz.labelled
    (show 0 < n by omega) (hz.nextPage 0) (superImage d.features.numBlocks)
  obtain ⟨hs₂, hl₂, hp₂, hn₂, hr₂⟩ := writeNAND_first hs₁ hl₁ (show 1 < n by omega)
    (by rw [hn₁, if_neg (by omega)]; exact hz.nextPage 1) vaddrMapImage
  set d₁ := (writeNAND d (superImage d.features.numBlocks) ((16 * 0 : Nat) : Int) 0).1 with hd₁
  set d₂ := (writeNAND d₁ vaddrMapImage ((16 * 1 : Nat) : Int) 0).1 with hd₂
  obtain ⟨hs₃, hl₃, hp₃, hn₃, hr₃⟩ := linkBlocks_spec (n - 3) (clearPage.setPageType ptypeNextlink)
    hs₂ hl₂ (show 2 + (n - 3) < n by omega) (fun _ => rfl)
    (fun b hb => by rw [hn₂, if_neg (by omega), hn₁, if_neg (by omega)]; exact hz.nextPage b)
  rw [makefs_eq hd₁ hd₂ hs₂]
  constructor
  · refine ⟨hs₃, hl₃, ?_, ?_, fun i h2 hin => ?_, fun k hk => ?_, fun b => ?_⟩
    · rw [hp₃, if_neg (by omega), hp₂, if_neg (by omega), hp₁, if_pos (by omega),
        hz.sound.numBlocks]
    · rw [hp₃, if_neg (by omega), hp₂, if_pos (by omega)]
    · rw [hp₃, if_pos (by omega), Nat.mul_add, Nat.mul_one]
    · rw [hp₃, if_neg (by omega), hp₂, if_neg (by omega), hp₁, if_neg (by omega)]
      exact hz.page k
    · rw [hn₃, hn₂, hn₁, hz.nextPage]
      by_cases h3 : 2 ≤ b ∧ b < 2 + (n - 3)
      · rw [if_pos h3, if_pos (by omega)]
      · rw [if_neg h3]
        by_cases hb1 : b = 1
        · rw [if_pos hb1, if_pos (by omega)]
        · rw [if_neg hb1]
          by_cases hb0 : b = 0
          · rw [if_pos hb0, if_pos (by omega)]
          · rw [if_neg hb0, if_neg (by omega)]
  · intro r hr
    simp only [List.mem_append, List.mem_singleton] at hr
    rcases hr with (rfl | rfl) | hr
    · exact hr₁
    · exact hr₂
    · exact hr₃ r hr

/-! ## What the mount reads -/

theorem ofPage_superImage (nb : Int) : SuperPage.ofPage (superImage nb) = newSuperBlock nb := by
  unfold SuperPage.ofPage superImage FullPage.setPageType FullPage.setEraseCount
    FullPage.setContents Buf.setNum
  rw [Buf.slice_blit_other _ _ (by omega), Buf.slice_setInt_other _ _ (by omega),
    Buf.slice_blit_same _ _ (by omega)]

theorem latestVaddrMap_newSuperBlock (nb : Int) : (newSuperBlock nb).latestVaddrMap = 16 := by
  simp only [newSuperBlock, SuperPage.latestVaddrMap_setFreeLists,
    SuperPage.latestVaddrMap_setLatestVaddrMap]
  rfl

theorem freeLists_blankSuperBlock (v : Int) :
    (SuperPage.setLatestVaddrMap (Buf.zero 40) v).freeLists = Buf.zero 24 := by
  rw [SuperPage.freeLists, SuperPage.setLatestVaddrMap, Buf.slice_setInt_other _ _ (by omega)]
  apply Buf.ext_lt
  intro i hi
  rw [Buf.byte_slice _ _ hi, Buf.byte_zero, Buf.byte_zero]

theorem partialHeadErases_newSuperBlock (nb : Int) :
    (newSuperBlock nb).freeLists.partialHeadErases = 0 := by
  simp only [newSuperBlock, freeLists_blankSuperBlock, SuperPage.freeLists_setFreeLists,
    FreeList.fields_setPartialTail, FreeList.fields_setPartialHead, FreeList.fields_zero]

theorem freeLists_newSuperBlock {n : Nat} (hn : 1 ≤ n) (hfit : 16 * n < 2147483648) :
    (newSuperBlock n).freeLists.partialHead = 32 ∧
    (newSuperBlock n).freeLists.partialTail = (16 * (n - 1) : Nat) ∧
    (newSuperBlock n).freeLists.completeHead = 0 ∧
    (newSuperBlock n).freeLists.completeTail = 0 := by
  simp only [newSuperBlock, freeLists_blankSuperBlock, SuperPage.freeLists_setFreeLists,
    FreeList.fields_setPartialTail, FreeList.fields_setPartialHead, FreeList.fields_zero,
    and_true, blockSize]
  refine ⟨rfl, ?_⟩
  rw [cint_eq (by unfold IsInt; omega)]
  omega

theorem nextLogBlock_linkPage {k : Nat} (hk : k < 2147483648) :
    (linkPage k).nextLogBlock = k := by
  unfold linkPage FullPage.nextLogBlock FullPage.setNextLogBlock
  rw [Buf.int_setInt_same _ _ (by omega), cint_eq (by unfold IsInt; omega)]

theorem nextLogBlock_zero : FullPage.nextLogBlock (Buf.zero 1048) = 0 := Buf.int_zero _

@[simp] theorem alloc_linkEntries (steps : Nat) (map : AddrMap) (i : Nat) :
    (linkEntries map i steps).alloc = map.alloc := by
  induction steps generalizing map i with
  | zero => rfl
  | succ steps ih => rw [linkEntries, ih, AddrMap.alloc_setMap]

theorem alloc_initVaddrMap (map : AddrMap) (size : Int) :
    (initVaddrMap map size).alloc = map.alloc := by
  unfold initVaddrMap
  dsimp only
  rw [AddrMap.alloc_setMap, alloc_linkEntries, AddrMap.alloc_setFreePtr, AddrMap.alloc_setSize]

@[simp] theorem size_linkEntries (steps : Nat) (map : AddrMap) (i : Nat) :
    (linkEntries map i steps).size = map.size := by
  induction steps generalizing map i with
  | zero => rfl
  | succ steps ih => rw [linkEntries, ih, AddrMap.size_setMap]

@[simp] theorem freePtr_linkEntries (steps : Nat) (map : AddrMap) (i : Nat) :
    (linkEntries map i steps).freePtr = map.freePtr := by
  induction steps generalizing map i with
  | zero => rfl
  | succ steps ih => rw [linkEntries, ih, AddrMap.freePtr_setMap]

theorem map_linkEntries (steps : Nat) : ∀ {map : AddrMap} {i : Nat},
    8 + 4 * (i + steps) ≤ map.alloc → i + steps < 2147483648 → ∀ j,
    (linkEntries map i steps).map j =
      if i ≤ j ∧ j < i + steps then -((j : Int) + 1) else map.map j := by
  induction steps with
  | zero =>
    intro map i _ _ j
    rw [if_neg (by omega)]; rfl
  | succ steps ih =>
    intro map i halloc hfit j
    rw [linkEntries, ih (by rw [AddrMap.alloc_setMap]; omega) (by omega)]
    by_cases hj : j = i
    · subst hj
      rw [if_neg (by omega), if_pos (by omega), AddrMap.map_setMap_same _ (by omega),
        cint_eq (by unfold IsInt; omega)]
    · rw [AddrMap.map_setMap_other _ hj]
      by_cases hin : i + 1 ≤ j ∧ j < i + 1 + steps
      · rw [if_pos hin, if_pos (by omega)]
      · rw [if_neg hin, if_neg (by omega)]

/-- The free slots of an address map of `s` slots are those from `f` on: each
    names the next, and the last names none. -/
structure FreeSlots (m : AddrMap) (s f : Nat) : Prop where
  alloc : 8 + 4 * s ≤ m.alloc
  fits : s < 2147483648
  size : m.size = s
  freePtr : m.freePtr = f
  chain : ∀ j, f ≤ j → j + 1 < s → m.map j = -((j : Int) + 1)
  last : m.map (s - 1) = 0

theorem freeSlots_initVaddrMap {map : AddrMap} {s : Nat} (hs : 2 ≤ s) (hfit : s < 2147483648)
    (halloc : 8 + 4 * s ≤ map.alloc) : FreeSlots (initVaddrMap map s) s 1 := by
  have hsize : ((map.setSize s).setFreePtr 1).size = s := by
    rw [AddrMap.size_setFreePtr, AddrMap.size_setSize _ (by omega),
      cint_eq (by unfold IsInt; omega)]
  have hsteps : ((s : Int) - 2).toNat = s - 2 := by omega
  have hlast : ((s : Int) - 1).toNat = s - 1 := by omega
  have halloc' : ((map.setSize s).setFreePtr 1).alloc = map.alloc := rfl
  simp only [initVaddrMap, hsize, size_linkEntries, hsteps, hlast]
  refine ⟨?_, hfit, ?_, ?_, fun j h1 hj => ?_, ?_⟩
  · simpa using halloc
  · simp [hsize]
  · rw [AddrMap.freePtr_setMap, freePtr_linkEntries, AddrMap.freePtr_setFreePtr _ (by
      rw [AddrMap.alloc_setSize]; omega)]
    rfl
  · rw [AddrMap.map_setMap_other _ (by omega), map_linkEntries _ (by rw [halloc']; omega) (by omega),
      if_pos (by omega)]
  · rw [AddrMap.map_setMap_same _ (by rw [alloc_linkEntries, halloc']; omega), cint_zero]

end Cycology
