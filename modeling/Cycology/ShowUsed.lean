import Cycology.FreeListReport
import Cycology.FreePositions

/- The rest of `showNAND.c`: the entries of the address map, and the pages of the blocks
   that the walks over the free lists left unmarked.

   A block is shown up to its first erased page, and of a page with an inode the inode is
   shown. `showNAND` is the whole inspector; its first part is in `ShowNand`. -/
namespace Cycology.ShowNand
open ByteMem Nand Loops Runs.Fallible

/-! ## The C code -/

/-- What the inspector prints, the two free lists and the free positions as they are. -/
inductive Line where
  /-- "NAND memory contains %d blocks. Total size in bytes is %d\n" -/
  | memory (numBlocks memSize : Int)
  /-- "Completely used block freelist starts at page %d and ends at %d\n    " -/
  | completeList (head tail : Int)
  /-- "Partially used block freelist starts at page %d and ends at %d\n" -/
  | partialList (head tail : Int)
  | list (printed : Printed)
  /-- "Virtual address map stored at page %d\n" -/
  | mapAt (page : Int)
  /-- "Address map size = %d\n" -/
  | mapSize (size : Int)
  /-- "       id %d maps to address %d\n" -/
  | mapping (id address : Int)
  /-- "Map of active pages\n" -/
  | activePages
  /-- "Contents of used pages in block %d:\n" -/
  | blockContents (block : Int)
  /-- "    Page %d:  " -/
  | page (pAddr : Int)
  /-- "Inode for file %d\n" and the five lines after it -/
  | inode (fileNo logNo linksCount mode size pages : Int)
  deriving DecidableEq

def printPageInfo (page : FullPage) : List Line :=
  if page.pageType = ptypeInode then
    let ind := (LogHeader.ofPage page).fInode
    [.inode ind.iFileNo ind.iLogNo (cint ind.iLinksCount) ind.iMode ind.iSize ind.iPages]
  else []

/-- The loop of `printBlock`, `steps` iterations from page `p` of the block on. -/
def printPages (v : ShowNand) (block : Int) (p : Nat) : Nat → ShowNand × List Line
  | 0 => (v, [])
  | steps + 1 =>
    let pAddr := cint (block * blockSize + p)
    let (d, page, _) := readNAND v.nand v.page pAddr
    let v := { v with nand := d, page := page }
    if page.pageType = ptypeErased then (v, [])
    else
      let (v, lines) := printPages v block (p + 1) steps
      (v, .page pAddr :: printPageInfo page ++ lines)

def printBlock (v : ShowNand) (block : Int) : ShowNand × List Line :=
  printPages v block 0 blockSize

/-- The loop of `updateBlockStatAndPrintUsedPages`, `steps` iterations from block `b` on. -/
def printUsedBlocks (v : ShowNand) (b : Nat) : Nat → ShowNand × List Line
  | 0 => (v, [])
  | steps + 1 =>
    if v.blockStat[b]? = some .unmarked then
      let (v, lines) := printBlock { v with blockStat := v.blockStat.set b .used } b
      let (v, rest) := printUsedBlocks v (b + 1) steps
      (v, .blockContents b :: lines ++ rest)
    else printUsedBlocks v (b + 1) steps

def updateBlockStatAndPrintUsedPages (v : ShowNand) : ShowNand × List Line :=
  let (v, lines) := printUsedBlocks v 2 (v.nand.features.numBlocks - 2).toNat
  (v, .activePages :: lines)

/-- The loop of `printActiveMappings`, `steps` iterations from slot `i` on. -/
def mappingsFrom (map : AddrMap) (i : Nat) : Nat → List Line
  | 0 => []
  | steps + 1 =>
    (if 0 < map.map i then [.mapping i (map.map i)] else []) ++ mappingsFrom map (i + 1) steps

/-- Nothing initialises the counter of the loop: it starts from the `i` it finds. A
    negative one is in front of the map. -/
def printActiveMappings (map : AddrMap) (i : Int) : Except ShowFault (List Line) :=
  if i < 0 ∧ i < map.size then .error .index
  else .ok (mappingsFrom map i.toNat (map.size - i).toNat)

/-- The map is a part of `page`, but nothing reads it after the free positions. -/
def printVaddrMap (v : ShowNand) (i : Int) (fuel : Nat) :
    Except ShowFault (ShowNand × List Line) := do
  let stored : List Line := [.mapAt v.superBlock.latestVaddrMap]
  let (v, map) := v.getVaddrMap
  let mappings ← printActiveMappings map i
  let positions ← printFreePositions map fuel
  let (v, used) := v.updateBlockStatAndPrintUsedPages
  .ok (v, stored ++ .mapSize map.size :: mappings ++ positions.map .list ++ used)

def printFreeLists (v : ShowNand) (fuel : Nat) : Except ShowFault (ShowNand × List Line) := do
  let lists := v.superBlock.freeLists
  let (v, complete) ← v.showFreeList .completelyFree fuel
  let (v, second) ← v.showFreeList .partiallyFree fuel
  .ok (v, .memory v.nand.features.numBlocks v.nand.features.memSize ::
    .completeList lists.completeHead lists.completeTail :: complete.map .list ++
    .partialList lists.partialHead lists.partialTail :: second.map .list ++ [.list .blank])

/-- `main`: what is printed of an image. The walks are given `fuel` turns each. -/
def showNAND (d : Nand) (i : Int) (fuel : Nat) : Except ShowFault (List Line) := do
  let (v, lists) ← (init d).printFreeLists fuel
  let (_, map) ← v.printVaddrMap i fuel
  .ok (lists ++ map)

/-! ## What is shown of the pages -/

/-- The lines for the pages from `k` on, up to the first erased one of `steps`. -/
def pagesShown (d : Nand) (k : Nat) : Nat → List Line
  | 0 => []
  | steps + 1 =>
    if (d.page k).pageType = ptypeErased then []
    else .page k :: printPageInfo (d.page k) ++ pagesShown d (k + 1) steps

/-- The inodes among the lines: file, log, links and mode. -/
def inodesOf (lines : List Line) : List (Int × Int × Int × Int) :=
  lines.filterMap fun
    | .inode fileNo logNo linksCount mode _ _ => some (fileNo, logNo, linksCount, mode)
    | _ => none

/-- The entries of the address map among them. -/
def mappingsOf (lines : List Line) : List (Int × Int) :=
  lines.filterMap fun
    | .mapping id address => some (id, address)
    | _ => none

section
variable {d : Nand} {n : Nat} {v : ShowNand}

theorem printPages_eq (hs : d.Sound n) (hstore : SameStore d v.nand) {b : Nat} (hb : b < n)
    (steps : Nat) {p : Nat} (hp : p + steps ≤ 16) :
    ∃ v', printPages v b p steps = (v', pagesShown d (16 * b + p) steps) ∧
      SameStore d v'.nand ∧ v'.blockStat = v.blockStat := by
  induction steps generalizing v p with
  | zero => exact ⟨v, rfl, hstore, rfl⟩
  | succ steps ih =>
    have hfits := hs.fits
    have haddr : cint ((b : Int) * blockSize + p) = (16 * b + p : Nat) := by
      rw [cint_eq (by unfold IsInt blockSize; omega), blockSize]
      push_cast
      ring
    have hread := readNAND_eq (hstore.sound hs) v.page (show 16 * b + p < 16 * n by omega)
    have hstore' : SameStore d (readNAND v.nand v.page (16 * b + p : Nat)).1 :=
      hstore.trans (sameStore_readNAND _ _ _)
    rw [hread, hstore.page] at hstore'
    rw [printPages, haddr, hread, hstore.page, pagesShown]
    by_cases herased : (d.page (16 * b + p)).pageType = ptypeErased
    · simp only [if_pos herased]
      exact ⟨_, rfl, hstore', rfl⟩
    · obtain ⟨v', hv', hstored, hstat⟩ := ih (v := { v with
        nand := { v.nand with fd := { v.nand.fd with pos := pageOff (16 * b + p) + 1048 } }
        page := d.page (16 * b + p) }) hstore' (p := p + 1) (by omega)
      simp only [if_neg herased, hv']
      exact ⟨v', rfl, hstored, hstat⟩

theorem printUsedBlocks_eq (hs : d.Sound n) (hstore : SameStore d v.nand)
    (unmarked : Nat → Prop) [DecidablePred unmarked] (steps : Nat) {b : Nat} (hb : b + steps ≤ n)
    (hstat : ∀ b', b ≤ b' → b' < n → (v.blockStat[b']? = some .unmarked ↔ unmarked b')) :
    ∃ v', printUsedBlocks v b steps = (v', (List.range' b steps).flatMap fun b' =>
      if unmarked b' then .blockContents b' :: pagesShown d (16 * b') 16 else []) := by
  induction steps generalizing v b with
  | zero => exact ⟨v, rfl⟩
  | succ steps ih =>
    rw [printUsedBlocks, List.range'_succ, List.flatMap_cons]
    -- a block that is shown is marked, and it is behind those still to come
    by_cases hu : unmarked b
    · have hset : SameStore d ({ v with blockStat := v.blockStat.set b .used } : ShowNand).nand :=
        hstore
      obtain ⟨v₁, hv₁, hstore₁, hstat₁⟩ :=
        printPages_eq hs hset (show b < n by omega) 16 (p := 0) (le_refl 16)
      obtain ⟨v₂, hv₂⟩ := ih hstore₁ (b := b + 1) (by omega) fun b' hb' hbn => by
        rw [hstat₁, List.getElem?_set_ne (by omega)]
        exact hstat b' (by omega) hbn
      rw [if_pos ((hstat b (le_refl b) (by omega)).mpr hu), if_pos hu, printBlock]
      simp only [show (blockSize : Nat) = 16 from rfl, hv₁, hv₂]
      exact ⟨v₂, rfl⟩
    · obtain ⟨v₂, hv₂⟩ := ih hstore (b := b + 1) (by omega) fun b' hb' hbn =>
        hstat b' (by omega) hbn
      rw [if_neg fun hc => hu ((hstat b (le_refl b) (by omega)).mp hc), if_neg hu, hv₂,
        List.nil_append]
      exact ⟨v₂, rfl⟩

theorem printFreePositions_mono {map : AddrMap} {fuel fuel' : Nat} {out : List Printed}
    (h : printFreePositions map fuel = .ok out) (hle : fuel ≤ fuel') :
    printFreePositions map fuel' = .ok out := by
  unfold printFreePositions at *
  split at h
  · rename_i hptr
    rw [if_pos hptr]
    cases hloop : loop (fun w : FreePositions => 0 < w.freePos) (positionTurn map) .fuel fuel
        { freePos := map.freePtr, freeCount := 0, printed := [.freeEntries] } with
    | error e =>
      rw [hloop] at h
      cases h
    | ok w =>
      rw [hloop] at h
      rw [loop_mono hloop hle]
      exact h
  · rename_i hptr
    rw [if_neg hptr]
    exact h

/-! ## Lines of each kind -/

theorem inodesOf_append (lines more : List Line) :
    inodesOf (lines ++ more) = inodesOf lines ++ inodesOf more := List.filterMap_append

theorem mappingsOf_append (lines more : List Line) :
    mappingsOf (lines ++ more) = mappingsOf lines ++ mappingsOf more := List.filterMap_append

theorem inodesOf_flatMap {α : Type} (l : List α) (f : α → List Line) :
    inodesOf (l.flatMap f) = l.flatMap fun a => inodesOf (f a) := List.filterMap_flatMap

theorem ofKind_list (printed : List Printed) :
    inodesOf (printed.map .list) = [] ∧ mappingsOf (printed.map .list) = [] := by
  simp [inodesOf, mappingsOf, List.filterMap_map]

theorem ofKind_mappingsFrom (map : AddrMap) (steps i : Nat) :
    inodesOf (mappingsFrom map i steps) = [] ∧
    mappingsOf (mappingsFrom map i steps) = (List.range' i steps).filterMap fun p =>
      if 0 < map.map p then some ((p : Int), map.map p) else none := by
  induction steps generalizing i with
  | zero => exact ⟨rfl, rfl⟩
  | succ steps ih =>
    obtain ⟨hinodes, hmappings⟩ := ih (i + 1)
    rw [mappingsFrom, inodesOf_append, mappingsOf_append, hinodes, hmappings, List.range'_succ,
      List.filterMap_cons]
    split <;> exact ⟨rfl, rfl⟩

theorem mappingsOf_pagesShown (d : Nand) (steps k : Nat) :
    mappingsOf (pagesShown d k steps) = [] := by
  induction steps generalizing k with
  | zero => rfl
  | succ steps ih =>
    rw [pagesShown]
    split
    · rfl
    · have hinfo : mappingsOf (printPageInfo (d.page k)) = [] := by
        unfold printPageInfo
        split <;> rfl
      rw [mappingsOf_append, ih, List.append_nil]
      exact hinfo

/-- When the walks return, the inspector does, and shows these entries and inodes, unless
    it starts in front of the map. -/
theorem showNAND_returns {v₁ v₂ : ShowNand} {out₁ out₂ out : List Printed} {fuel : Nat} (i : Nat)
    (h₁ : (init d).showFreeList .completelyFree fuel = .ok (v₁, out₁))
    (h₂ : v₁.showFreeList .partiallyFree fuel = .ok (v₂, out₂))
    (hout : printFreePositions v₂.getVaddrMap.2 fuel = .ok out) :
    ∃ lines, showNAND d i fuel = .ok lines ∧
      mappingsOf lines =
        mappingsOf (mappingsFrom v₂.getVaddrMap.2 i (v₂.getVaddrMap.2.size - i).toNat) ++
        mappingsOf v₂.getVaddrMap.1.updateBlockStatAndPrintUsedPages.2 ∧
      inodesOf lines = inodesOf v₂.getVaddrMap.1.updateBlockStatAndPrintUsedPages.2 := by
  let mappings := mappingsFrom v₂.getVaddrMap.2 i (v₂.getVaddrMap.2.size - i).toNat
  let lists := (init d).superBlock.freeLists
  let top : List Line := [.memory v₂.nand.features.numBlocks v₂.nand.features.memSize,
    .completeList lists.completeHead lists.completeTail]
  let second : List Line := [.partialList lists.partialHead lists.partialTail]
  let stored : List Line := [.list .blank, .mapAt v₂.superBlock.latestVaddrMap,
    .mapSize v₂.getVaddrMap.2.size]
  let lines := top ++ out₁.map .list ++ second ++ out₂.map .list ++ stored ++
    mappings ++ out.map .list ++ v₂.getVaddrMap.1.updateBlockStatAndPrintUsedPages.2
  have hmappings : printActiveMappings v₂.getVaddrMap.2 i = .ok mappings := by
    rw [printActiveMappings, if_neg (by omega), Int.toNat_natCast]
  -- the walks and the positions are given, the rest cannot fail
  have hrun : showNAND d i fuel = .ok lines := by
    simp [showNAND, printFreeLists, h₁, h₂, printVaddrMap, hmappings, hout, lines, top, second,
      stored, lists]
  refine ⟨lines, hrun, ?_, ?_⟩
  · simp only [lines, mappingsOf_append, ofKind_list, List.append_nil]
    rfl
  · have hnone : inodesOf mappings = [] := (ofKind_mappingsFrom _ _ _).1
    simp only [lines, inodesOf_append, ofKind_list, hnone, List.append_nil]
    rfl

theorem showNAND_in_front {v₁ v₂ : ShowNand} {out₁ out₂ : List Printed} {fuel : Nat} {i : Int}
    (h₁ : (init d).showFreeList .completelyFree fuel = .ok (v₁, out₁))
    (h₂ : v₁.showFreeList .partiallyFree fuel = .ok (v₂, out₂))
    (hi : i < 0 ∧ i < v₂.getVaddrMap.2.size) : showNAND d i fuel = .error .index := by
  have hmappings : printActiveMappings v₂.getVaddrMap.2 i = .error .index := if_pos hi
  simp only [showNAND, printFreeLists, h₁, ok_bind, h₂, printVaddrMap, hmappings]
  rfl

end

end Cycology.ShowNand
