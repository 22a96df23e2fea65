import Cycology.Crash
import Cycology.ShowUsed

/- What `showNAND` shows of the images that runs leave.

   It is given the file of the device at any moment of a run, and knows what was last
   unmounted. It finds nothing wrong with the free lists, marks the blocks no id of the
   stored map leads to, and lists the free positions (`walks_of_run`). Of the others it shows
   each file's entry and its inode, that of the first file of the id (`showNAND_of_run`).
   A file that was not unmounted is in a block marked free, and is not shown. -/
namespace Cycology
open ByteMem LinkedChain Nand Runs Journals ShowNand

/-! ## The walks -/

section
variable {d : Nand} {n : Nat} {j : Journal UInt32}

theorem mem_partialListFrom {i p : Nat} (h : p ∈ partialListFrom n i) :
    32 ≤ p ∧ p < 16 * n ∧ p % 16 = 0 := by
  obtain ⟨b, hb, hbn, rfl⟩ := block_of_mem_partialListFrom h
  omega

theorem blocks_partialListFrom (n i : Nat) :
    (partialListFrom n i).map (· / 16) = List.range' (2 + i) (n - 2 - i) := by
  rw [partialListFrom, List.map_map]
  have hid : ((fun p => p / 16) ∘ fun b => 16 * b) = (id : Nat → Nat) := by
    funext b
    exact Nat.mul_div_cancel_left b (by omega)
  rw [hid, List.map_id]

theorem lastNode_partialListFrom {i : Nat} (h : i + 3 ≤ n) :
    lastNode (partialListFrom n i) = (16 * (n - 1) : Nat) := by
  have hsplit : partialListFrom n i =
      (List.range' (2 + i) (n - 3 - i)).map (16 * ·) ++ [16 * (n - 1)] := by
    rw [partialListFrom, show n - 2 - i = n - 3 - i + 1 by omega, List.range'_concat,
      List.map_append, List.map_singleton]
    congr 3
    omega
  rw [lastNode, hsplit, List.getLast?_concat]
  rfl

namespace OnDevice

theorem heads (h : OnDevice d n j) :
    (init d).superBlock.freeLists.partialHead = (16 * (2 + j.saved) : Nat) ∧
    (init d).superBlock.freeLists.partialTail = (16 * (n - 1) : Nat) ∧
    (init d).superBlock.freeLists.completeHead = 0 := by
  have hn := h.room.1
  rw [superBlock_init h.sound (by omega)]
  exact ⟨h.lists.partialHead, h.lists.partialTail, h.lists.completeHead⟩

theorem partialChain (h : OnDevice d n j) :
    Chain (partialNext d) (ofLink (16 * (2 + j.saved) : Nat)) (partialListFrom n j.saved) := by
  have hchain := (h.lists.freeLists h.links h.room.1).partialChain
  rwa [h.lists.partialHead] at hchain

theorem followed (h : OnDevice d n j) {t : BlockMark} {q : Int} (hq : Followed d n t q) :
    q = 0 ∨ t ≠ .completelyFree ∧ ∃ p ∈ partialListFrom n j.saved, q = (p : Nat) := by
  obtain ⟨hhead, -, hcomplete⟩ := h.heads
  induction hq with
  | head =>
    rw [getFreeListHead]
    by_cases ht : t = .completelyFree
    · rw [if_pos ht]
      exact .inl hcomplete
    · rw [if_neg ht, hhead]
      have hn := h.room.1
      exact .inr ⟨ht, _, by rw [partialListFrom_cons (by omega)]; exact List.mem_cons_self, rfl⟩
  | @link p hp _ hlt ih =>
    obtain ⟨ht, p', hp', heq⟩ := ih.resolve_left (by omega)
    obtain rfl : p = p' := by exact_mod_cast heq
    rw [ShowNand.linkPage, if_neg ht]
    cases hnext : partialNext d p with
    | none => exact .inl (ofLink_eq_none.mp hnext)
    | some q =>
      have hmem := h.partialChain.next_mem hp' hnext
      have hq := mem_partialListFrom hmem
      exact .inr ⟨ht, q, hmem, (ofLink_eq_some (by omega)).mp hnext⟩

theorem linksInRange (h : OnDevice d n j) : LinksInRange d n where
  range t q hq := by
    rcases h.followed hq with h0 | ⟨-, p, hp, rfl⟩
    · exact .inl h0
    · have hp := mem_partialListFrom hp
      exact .inr (by omega)
  offset t p hp := by
    have hfits := h.sound.fits
    have hlt : ShowNand.linkPage t p < 16 * n := by
      rcases h.followed hp with h0 | ⟨ht, p', hp', heq⟩
      · have hn := h.room.1
        rw [ShowNand.linkPage]
        split <;> omega
      · have hp' := mem_partialListFrom hp'
        rw [ShowNand.linkPage, if_neg ht]
        omega
    unfold pageOff
    omega

/-- **The walks over the lists** report nothing, and mark the blocks not handed out. -/
theorem walks (h : OnDevice d n j) {fuel : Nat} (hfuel : n < fuel) :
    ∃ v₁ out₁ v₂ out₂, (init d).showFreeList .completelyFree fuel = .ok (v₁, out₁) ∧
      v₁.showFreeList .partiallyFree fuel = .ok (v₂, out₂) ∧
      reportsOf out₁ = [] ∧ reportsOf out₂ = [] ∧
      SameStore d v₂.nand ∧ v₂.superBlock = (init d).superBlock ∧
      MarksOf v₂ n (List.range' (2 + j.saved) (n - 2 - j.saved)) := by
  obtain ⟨hhead, htail, hcomplete⟩ := h.heads
  have hn := h.room.1
  have hin := h.linksInRange
  have hmarks : MarksOf (init d) n [] := by
    rw [MarksOf, blockStat_init, h.sound.numBlocks, Int.toNat_natCast, List.length_replicate]
    refine ⟨rfl, fun b hb => ?_⟩
    rw [List.getElem?_replicate, if_pos hb]
    simp
  have hnone : Pass (nextNode d n .completelyFree) (· / 16) []
      (ofLink ((init d).getFreeListHead .completelyFree)) [] none := by
    rw [getFreeListHead, if_pos rfl, hcomplete]
    exact ⟨rfl, fun _ h => absurd h (by simp)⟩
  have hpass : Pass (nextNode d n .partiallyFree) (· / 16) []
      (ofLink ((init d).getFreeListHead .partiallyFree)) (partialListFrom n j.saved) none := by
    rw [getFreeListHead, if_neg (by decide), hhead]
    refine Pass.of_chain (h.partialChain.congr fun p hp => ?_) ?_ (fun _ _ => List.not_mem_nil)
    · have hp := mem_partialListFrom hp
      have hlink : ShowNand.linkPage .partiallyFree p = p := if_neg (by decide)
      rw [nextNode, hlink, if_pos (by omega), partialNext]
    · rw [blocks_partialListFrom]
      exact List.nodup_range'
  have hlength : (partialListFrom n j.saved).length < fuel := by
    rw [partialListFrom, List.length_map, List.length_range']
    omega
  -- the complete list is empty, and the partial list never comes back to a block
  obtain ⟨v₁, out₁, c₁, h₁, hstore₁, hsuper₁, hmarks₁, hc₁, hrep₁⟩ :=
    showFreeList_reports h.sound hin (by decide) (sameStore_init d) rfl hmarks
      (fun _ => Buf.int_zero _) hnone (Nat.zero_lt_of_lt hfuel)
  obtain ⟨v₂, out₂, c₂, h₂, hstore₂, hsuper₂, hmarks₂, hc₂, hrep₂⟩ :=
    showFreeList_reports (t := .partiallyFree) h.sound hin (by decide) hstore₁ hsuper₁ hmarks₁
      (fun h => absurd h (by decide)) hpass hlength
  refine ⟨v₁, out₁, v₂, out₂, h₁, h₂, ?_, ?_, hstore₂, hsuper₂, ?_⟩
  · have hfalse : c₁ = false := by
      rw [← Bool.not_eq_true, hc₁]
      simp
    rw [hrep₁, hfalse]
    rfl
  · have hfalse : c₂ = false := by
      rw [← Bool.not_eq_true, hc₂, not_or]
      refine ⟨fun hne => hne rfl, ?_⟩
      rintro ⟨p, hp, hge⟩
      have hp := mem_partialListFrom (List.mem_of_mem_tail hp)
      rw [ShowNand.linkPage, if_neg (by decide)] at hge
      omega
    have hvalid : v₁.isValidTail (lastNode (partialListFrom n j.saved)) .partiallyFree = true := by
      rw [lastNode_partialListFrom hn, isValidTail, hsuper₁, htail]
      simp
    rw [hrep₂, hfalse, hvalid]
    rfl
  · rw [blocks_partialListFrom] at hmarks₂
    simpa using hmarks₂

end OnDevice

/-! ## The address map -/

theorem MapUpTo.positions {m : AddrMap} {i : Nat} (h : MapUpTo m i) (hi : i ≤ 126) {fuel : Nat}
    (hfuel : 254 ≤ fuel) : ∃ out, printFreePositions m fuel = .ok out ∧
      positionsOf out = (List.range' (2 * i + 1) (254 - (2 * i + 1))).map Nat.cast := by
  have hchain : Chain (nextPosition m) (position m.freePtr)
      (List.range' (2 * i + 1) (254 - (2 * i + 1))) := by
    rw [h.slots.freePtr, position_eq_some.mpr ⟨by omega, rfl⟩]
    refine Chain.of_range' (by omega) (fun p hp hp' => ?_) ?_
    · rw [nextPosition, h.slots.chain p hp hp', neg_neg, cint_eq (by unfold IsInt; omega)]
      exact position_eq_some.mpr ⟨by omega, by push_cast; rfl⟩
    · rw [nextPosition, h.slots.last]
      rfl
  obtain ⟨out, hout, hlist⟩ := printFreePositions_of_chain hchain
  exact ⟨out, printFreePositions_mono hout (by rw [List.length_range']; omega), hlist⟩

theorem MapUpTo.mappings {m : AddrMap} {i : Nat} (h : MapUpTo m i) (start : Nat) :
    mappingsOf (mappingsFrom m start (m.size - start).toNat) =
      ((List.range' start (254 - start)).filter fun p => 1 ≤ p ∧ p < 2 * i + 1).map
        fun p : Nat => ((p : Int), (headerPage ((p - 1) / 2) : Int)) := by
  rw [h.slots.size, (ofKind_mappingsFrom _ _ _).2,
    show (((254 : Nat) : Int) - start).toNat = 254 - start by omega, ← List.filterMap_eq_map,
    List.filterMap_filter]
  refine List.filterMap_congr fun p hp => ?_
  rw [List.mem_range'_1] at hp
  by_cases hp1 : 1 ≤ p ∧ p < 2 * i + 1
  · rw [h.map_eq hp1.1 hp1.2, if_pos (by unfold headerPage; omega), if_pos (by simpa using hp1)]
    rfl
  · rw [if_neg, if_neg (by simpa using hp1)]
    rcases Nat.lt_or_ge p 1 with h0 | h1
    · rw [show p = 0 by omega, h.none]
      omega
    · rcases Nat.lt_or_ge (p + 1) 254 with hlt | hge
      · rw [h.slots.chain p (by omega) hlt]
        omega
      · rw [show p = 254 - 1 by omega, h.slots.last]
        omega

/-! ## The pages -/

/-- The block of file number `k` shows the first file's inode, if there was one. -/
theorem OnDevice.inodes_of_block (h : OnDevice d n j) {k : Nat} (hk : k + 3 < n) :
    inodesOf (pagesShown d (16 * (k + 2)) 16) = (j.cells k).toList.map fun mode =>
      (((2 * k + 1 : Nat) : Int), ((2 * k + 2 : Nat) : Int), 1, (mode.toNat : Int)) := by
  have hlink : (d.page (16 * (k + 2))).pageType = ptypeNextlink := by
    rw [h.fresh _ (by omega) (by omega), freshPage, if_pos (by omega), Cycology.linkPage,
      FullPage.pageType_setNextLogBlock]
    exact FullPage.pageType_setPageType _ (by decide) (by decide)
  have hnext : (d.page (16 * (k + 2) + 1 + 1)).pageType = ptypeErased := by
    rw [h.fresh _ (by omega) (by omega), freshPage, if_neg (by omega), FullPage.pageType_zero]
    rfl
  have hinfo : printPageInfo (d.page (16 * (k + 2))) = [] := by
    rw [printPageInfo, hlink]
    exact if_neg (by decide)
  -- the page with the link shows no inode, and behind the header the block is erased
  rw [pagesShown, if_neg (by rw [hlink]; decide), hinfo, inodesOf_append]
  show inodesOf (pagesShown d (16 * (k + 2) + 1) 15) = _
  cases hcell : j.cells k with
  | none =>
    have hblank : d.page (16 * (k + 2) + 1) = Buf.zero 1048 := (h.blank k hk hcell).2
    rw [pagesShown, hblank, if_pos (by rw [FullPage.pageType_zero]; rfl)]
    rfl
  | some mode =>
    obtain ⟨-, htype, hind⟩ := h.stored k mode hcell
    have htype' : (d.page (16 * (k + 2) + 1)).pageType = ptypeInode := htype
    rw [pagesShown, if_neg (by rw [htype']; decide), pagesShown, if_pos hnext, List.append_nil,
      printPageInfo, if_pos htype']
    show [(_, _, _, _)] = [_]
    rw [show d.page (16 * (k + 2) + 1) = d.page (headerPage k) from rfl, hind.iFileNo, hind.iLogNo,
      hind.iLinksCount, hind.iMode]
    rfl

theorem OnDevice.used_shown (h : OnDevice d n j) {v : ShowNand} (hstore : SameStore d v.nand)
    (hmarks : MarksOf v n (List.range' (2 + j.saved) (n - 2 - j.saved))) :
    mappingsOf v.updateBlockStatAndPrintUsedPages.2 = [] ∧
    inodesOf v.updateBlockStatAndPrintUsedPages.2 = (List.range j.saved).filterMap fun k =>
      (j.cells k).map fun mode =>
        (((2 * k + 1 : Nat) : Int), ((2 * k + 2 : Nat) : Int), 1, (mode.toNat : Int)) := by
  have hn := h.room.1
  have hsteps : (v.nand.features.numBlocks - 2).toNat = n - 2 := by
    rw [(hstore.sound h.sound).numBlocks]
    omega
  obtain ⟨v', hv'⟩ := printUsedBlocks_eq h.sound hstore (fun b => b < 2 + j.saved) (n - 2) (b := 2)
    (by omega) fun b hb hbn => by
      rw [← not_iff_not, ← ne_eq, hmarks.2 b hbn, List.mem_range'_1]
      omega
  have hlines : v.updateBlockStatAndPrintUsedPages.2 = [.activePages] ++
      (List.range' 2 (n - 2)).flatMap fun b =>
        if b < 2 + j.saved then .blockContents b :: pagesShown d (16 * b) 16 else [] := by
    rw [updateBlockStatAndPrintUsedPages, hsteps, hv']
    rfl
  rw [hlines, mappingsOf_append, inodesOf_append]
  constructor
  · rw [mappingsOf, mappingsOf, List.filterMap_flatMap]
    refine List.flatMap_eq_nil_iff.mpr fun b _ => ?_
    split
    · exact mappingsOf_pagesShown d 16 (16 * b)
    · rfl
  · show inodesOf _ = _
    have hrest : (List.range' (2 + j.saved) (n - 2 - j.saved)).flatMap (fun b =>
        inodesOf (if b < 2 + j.saved then .blockContents b :: pagesShown d (16 * b) 16 else [])) =
        [] := by
      refine List.flatMap_eq_nil_iff.mpr fun b hb => ?_
      rw [List.mem_range'_1] at hb
      rw [if_neg (by omega)]
      rfl
    have hfiles : ∀ k ∈ List.range j.saved,
        inodesOf (if 2 + k < 2 + j.saved then
          .blockContents ((2 + k : Nat) : Int) :: pagesShown d (16 * (2 + k)) 16 else []) =
        ((j.cells k).map fun mode =>
          (((2 * k + 1 : Nat) : Int), ((2 * k + 2 : Nat) : Int), (1 : Int),
            (mode.toNat : Int))).toList := by
      intro k hk
      rw [List.mem_range] at hk
      rw [if_pos (by omega), Nat.add_comm 2 k, Option.toList_map,
        ← h.inodes_of_block (show k + 3 < n by omega)]
      rfl
    -- the first `j.saved` blocks are unmarked, the others are on the partial list
    rw [inodesOf_flatMap, show n - 2 = j.saved + (n - 2 - j.saved) by omega,
      ← List.range'_append_1, List.flatMap_append, hrest, List.append_nil,
      List.range'_eq_map_range, List.flatMap_map, List.filterMap_eq_flatMap_toList]
    exact List.flatMap_congr hfiles

theorem OnDevice.getVaddrMap (h : OnDevice d n j) {v : ShowNand} (hstore : SameStore d v.nand) :
    v.getVaddrMap.2 = AddrMap.ofPage (d.page 16) ∧ SameStore d v.getVaddrMap.1.nand ∧
    v.getVaddrMap.1.blockStat = v.blockStat := by
  have hn := h.room.1
  have hread := readNAND_eq (hstore.sound h.sound) v.page (show 16 < 16 * n by omega)
  have hblock : ((blockSize : Nat) : Int) = ((16 : Nat) : Int) := rfl
  have hstore' := hstore.trans (sameStore_readNAND v.nand v.page (16 : Nat))
  simp only [ShowNand.getVaddrMap, hblock, hread, hstore.page]
  rw [hread] at hstore'
  exact ⟨trivial, hstore', trivial⟩

theorem OnDevice.showNAND (h : OnDevice d n j) (i : Nat) {fuel : Nat} (hn : n < fuel)
    (hfuel : 254 ≤ fuel) :
    ∃ lines, showNAND d i fuel = .ok lines ∧
      mappingsOf lines = mappingsOf (mappingsFrom (AddrMap.ofPage (d.page 16)) i
        ((AddrMap.ofPage (d.page 16)).size - i).toNat) ∧
      inodesOf lines = (List.range j.saved).filterMap fun k => (j.cells k).map fun mode =>
        (((2 * k + 1 : Nat) : Int), ((2 * k + 2 : Nat) : Int), 1, (mode.toNat : Int)) := by
  obtain ⟨v₁, out₁, v₂, out₂, h₁, h₂, -, -, hstore, -, hmarks⟩ := h.walks hn
  obtain ⟨hmap, hstore', hstat⟩ := h.getVaddrMap hstore
  obtain ⟨out, hout, -⟩ := h.map.positions h.room.2 hfuel
  obtain ⟨hmappings, hinodes⟩ := h.used_shown hstore' (v := v₂.getVaddrMap.1) (by
    rw [MarksOf, hstat]
    exact hmarks)
  rw [← hmap] at hout ⊢
  obtain ⟨lines, hrun, hentries, hshown⟩ := showNAND_returns i h₁ h₂ hout
  rw [hmappings, List.append_nil] at hentries
  exact ⟨lines, hrun, hentries, hshown.trans hinodes⟩

theorem OnDevice.showNAND_in_front (h : OnDevice d n j) {i : Int} (hi : i < 0) {fuel : Nat}
    (hn : n < fuel) : ShowNand.showNAND d i fuel = .error .index := by
  obtain ⟨v₁, out₁, v₂, out₂, h₁, h₂, -, -, hstore, -⟩ := h.walks hn
  obtain ⟨hmap, -⟩ := h.getVaddrMap hstore
  refine ShowNand.showNAND_in_front h₁ h₂ ⟨hi, ?_⟩
  rw [hmap, h.map.slots.size]
  omega

end

/-! ## The inspector and the runs -/

section
variable {d : Nand} {n : Nat} {ops : List LifeOp} {frame : Block} {mem : CYCstate}

/-- **The free lists and the free positions as they are shown.** On the device as it is
    after any run, the walks report nothing, mark exactly the blocks no id of the stored map
    leads to, and list the free positions. -/
theorem walks_of_run (hz : Zeroed d n) (hn : 3 ≤ n)
    (hall : EveryStep LifeOp.run LifeOp.Allowed (newSession d frame mem) ops) {fuel : Nat}
    (hfuel : n < fuel ∧ 254 ≤ fuel) :
    let d' := (after LifeOp.run (newSession d frame mem) ops).state.nand
    let m := AddrMap.ofPage (d'.page 16)
    ∃ v₁ out₁ v₂ out₂ out, (init d').showFreeList .completelyFree fuel = .ok (v₁, out₁) ∧
      v₁.showFreeList .partiallyFree fuel = .ok (v₂, out₂) ∧
      reportsOf (out₁ ++ out₂) = [] ∧
      (∀ b, 2 ≤ b → b < n → (v₂.blockStat[b]? ≠ some .unmarked ↔
        ∀ id : Nat, 1 ≤ id → (id : Int) < m.freePtr → blockOf (m.map id) ≠ (b : Nat))) ∧
      printFreePositions v₂.getVaddrMap.2 fuel = .ok out ∧
      positionsOf out =
        (List.range' m.freePtr.toNat (254 - m.freePtr.toNat)).map Nat.cast := by
  have h := (mounted_run hz hn hall).toOnDevice
  obtain ⟨v₁, out₁, v₂, out₂, h₁, h₂, hrep₁, hrep₂, hstore, -, hmarks⟩ := h.walks hfuel.1
  obtain ⟨out, hout, hpositions⟩ := h.map.positions h.room.2 hfuel.2
  refine ⟨v₁, out₁, v₂, out₂, out, h₁, h₂, ?_, fun b hb hbn => ?_, ?_, ?_⟩
  · rw [reportsOf_append, hrep₁, hrep₂]
    rfl
  · rw [hmarks.2 b hbn, ← h.map.mem_partialListFrom hb hbn, partialListFrom,
      List.mem_map_of_injective (fun a b hab => by simpa using hab)]
  · rw [(h.getVaddrMap hstore).1, hout]
  · rw [hpositions, h.map.slots.freePtr, Int.toNat_natCast]

/-- **The files as they are shown.** If the uninitialised counter is not negative, the
    inspector returns, and shows the stored entries from that slot on, and for each file of
    the stored map the inode of the first file created with its id, in the order of the ids.
    If it is negative, the inspector reads in front of the map. -/
theorem showNAND_of_run (hz : Zeroed d n) (hn : 3 ≤ n)
    (hall : EveryStep LifeOp.run LifeOp.Allowed (newSession d frame mem) ops)
    {fuel : Nat} (hfuel : n < fuel ∧ 254 ≤ fuel) :
    let d' := (after LifeOp.run (newSession d frame mem) ops).state.nand
    let free := (AddrMap.ofPage (d'.page 16)).freePtr.toNat
    (∀ i : Nat, ∃ lines, showNAND d' i fuel = .ok lines ∧
      mappingsOf lines = ((List.range' i (254 - i)).filter fun p => 1 ≤ p ∧ p < free).map
        (fun p : Nat => ((p : Int), (headerPage ((p - 1) / 2) : Int))) ∧
      inodesOf lines = (List.range (free / 2)).filterMap fun k =>
        (createdAs (2 * k + 1 : Nat) (newSession d frame mem) ops).head?.map fun mode =>
          (((2 * k + 1 : Nat) : Int), ((2 * k + 2 : Nat) : Int), 1, (mode.toNat : Int))) ∧
    ∀ i : Int, i < 0 → showNAND d' i fuel = .error .index := by
  have h := (mounted_run hz hn hall).toOnDevice
  refine ⟨fun i => ?_, fun i hi => h.showNAND_in_front hi hfuel.1⟩
  obtain ⟨lines, hrun, hmappings, hinodes⟩ := h.showNAND i hfuel.1 hfuel.2
  rw [h.map.slots.freePtr, Int.toNat_natCast]
  refine ⟨lines, hrun, hmappings.trans (h.map.mappings i), hinodes.trans ?_⟩
  rw [show (2 * (journalOf ops).saved + 1) / 2 = (journalOf ops).saved by omega]
  refine List.filterMap_congr fun k _ => ?_
  rw [cells_journalOf hz hn hall]

end

/-- A file that was unmounted and one that was not. -/
def oneUnmounted : List LifeOp :=
  [.call (.file (.create "/a" 33188 default 0)), .remount default default,
    .call (.file (.create "/b" 33261 default 0))]

theorem allowed_oneUnmounted : EveryStep LifeOp.run LifeOp.Allowed
    (newSession (blankNAND 5 default) default default) oneUnmounted :=
  everyStep_allowed (mounted_newSession (zeroed_blankNAND default (by omega)) (by omega))
    (by decide) ⟨⟨by decide, by decide⟩, ⟨by decide, by decide⟩, ⟨by decide, by decide⟩, trivial⟩

theorem walks_of_run_unmounted : ∃ v₁ out₁ v₂ out₂,
    (init (after LifeOp.run (newSession (blankNAND 5 default) default default)
      oneUnmounted).state.nand).showFreeList .completelyFree 254 = .ok (v₁, out₁) ∧
    v₁.showFreeList .partiallyFree 254 = .ok (v₂, out₂) ∧ reportsOf (out₁ ++ out₂) = [] := by
  obtain ⟨v₁, out₁, v₂, out₂, -, h₁, h₂, hrep, -⟩ := walks_of_run
    (zeroed_blankNAND default (by omega)) (by omega) allowed_oneUnmounted
    (show 5 < 254 ∧ 254 ≤ 254 by omega)
  exact ⟨v₁, out₁, v₂, out₂, h₁, h₂, hrep⟩

/-- The inode of the other is not shown. -/
theorem showNAND_of_run_unmounted : ∃ lines,
    showNAND (after LifeOp.run (newSession (blankNAND 5 default) default default)
      oneUnmounted).state.nand 0 254 = .ok lines ∧ inodesOf lines = [(1, 2, 1, 33188)] := by
  have hz := zeroed_blankNAND default (show 8 + 16776 * 5 < 2147483648 by omega)
  have hnew : Mounted (newSession (blankNAND 5 default) default default).state 5
      (Journal.empty UInt32) := mounted_newSession hz (by omega)
  obtain ⟨lines, hrun, -, hshown⟩ := (showNAND_of_run hz (by omega) allowed_oneUnmounted
    (show 5 < 254 ∧ 254 ≤ 254 by omega)).1 0
  have hfree := (mounted_run hz (by omega) allowed_oneUnmounted).map.slots.freePtr
  have hsaved : (journalOf oneUnmounted).saved = 1 := rfl
  have hputs : Journal.putsAt 0 (Journal.empty UInt32) (oneUnmounted.filterMap LifeOp.event) =
      [33188] := rfl
  refine ⟨lines, hrun, hshown.trans ?_⟩
  rw [hfree, hsaved, Int.toNat_natCast, show (2 * 1 + 1) / 2 = 1 from rfl, List.range_one,
    List.filterMap_cons, createdAs_eq 0 hnew allowed_oneUnmounted, hputs]
  rfl

end Cycology
