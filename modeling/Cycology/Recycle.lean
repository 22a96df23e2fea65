import Cycology.BlockHandout
import Mathlib.Data.List.Perm.Basic

/- `logs.c`: putting the blocks of a log back on the free lists.

   The last block of the log has free pages and goes to the end of the partial
   list, the full blocks before it are to go to the end of the complete list.
   For a log of one block that is not nearly full this works
   (`listsHold_of_one_block`). Otherwise block numbers end up where the lists
   hold page addresses: the complete list is told to end at the block number
   `log.prev`, or at the page index `nextPage % BLOCKSIZE`, and the link out of
   the last full block still leads to the block that went to the partial list.
   `listsHold_logsRecycle_iff` says that every log of that kind is lost. -/
namespace Cycology
open ByteMem LinkedChain Nand

/-! ## The C code -/

/-- The first part of `logs_recycle`: the state and `lastFullBlock`. -/
def recycleLastBlock (log : LogHeader) (nextPage : Int) (state : CYCstate) : CYCstate × Int :=
  if nextPage.tmod blockSize ≤ blockSize - 3 then
    let state :=
      if state.lists.partialTail = 0 then
        { state with lists := state.lists.setPartialHead nextPage }
      else
        -- make the current last block point to the new last block
        let fPage := FullPage.setNextLogBlock (Buf.zero 1048) nextPage
        let (d, _) := writeNAND state.nand fPage state.lists.partialTail 0
        { state with nand := d }
    let state := { state with lists := state.lists.setPartialTail nextPage }
    (state, if nextPage.tdiv blockSize ≠ log.first then log.prev else 0)
  else (state, nextPage.tmod blockSize)

/-- The second part of `logs_recycle`, when there is a last full block. -/
def recycleFullBlocks (log : LogHeader) (lastFullBlock : Int) (state : CYCstate) : CYCstate :=
  let state :=
    if state.lists.completeTail ≠ 0 then
      let fPage := FullPage.setNextLogBlock (Buf.zero 1048) log.first
      let fPage := fPage.setNextBlockErases log.firstErases
      let (d, _) := writeNAND state.nand fPage state.lists.completeTail 1
      { state with nand := d }
    else
      { state with
        lists := (state.lists.setCompleteHead log.first).setCompleteHeadErases log.firstErases }
  { state with lists := state.lists.setCompleteTail lastFullBlock }

/-- `logs_recycle`; it does not look at `nextErases`. -/
def logsRecycle (log : LogHeader) (nextPage _nextErases : Int) (state : CYCstate) : CYCstate :=
  let (state, lastFullBlock) := recycleLastBlock log nextPage state
  if lastFullBlock ≠ 0 then recycleFullBlocks log lastFullBlock state else state

/-! ## Lists and logs -/

/-- The tail the lists record for a chain of addresses: its last one, or 0. -/
def tailOf (ps : List Nat) : Nat := ps.getLast?.getD 0

/-- Free lists as `logs_recycle` expects them: the tails are right, the page the
    partial tail names is the next one its block takes, and block 0, which
    holds the superblock, is not free. -/
structure WellFormedLists (d : Nand) (n : Nat) (l : FreeList) (ps cs : List Nat) : Prop
    extends FreeLists d n l ps cs where
  partialTail : l.partialTail = tailOf ps
  completeTail : l.completeTail = tailOf cs
  tailWritable : ∀ t, ps.getLast? = some t → d.nextPage (t / 16) = (t % 16 : Nat)
  notSuper : ∀ p ∈ ps ++ cs, 16 ≤ p

/-- The blocks of the pages at `ps`. -/
def blocksOf (ps : List Nat) : List Nat := ps.map (· / 16)

/-- `log` is the header of a log with blocks `full`, filled in this order and
    linked through their last pages, and then `last`, whose next writable page
    is `k`. None of them is on the lists `ps` and `cs`. -/
structure LogBlocks (d : Nand) (n : Nat) (ps cs : List Nat) (log : LogHeader) (k : Nat)
    (full : List Nat) (last : Nat) : Prop where
  nodup : (full ++ [last]).Nodup
  inRange : ∀ b ∈ full ++ [last], 1 ≤ b ∧ b < n
  notFree : ∀ b ∈ full ++ [last], b ∉ blocksOf (ps ++ cs)
  first : log.first = ((full ++ [last]).headD 0 : Nat)
  prev : ∀ b, full.getLast? = some b → log.prev = b
  linked : (full ++ [last]).IsChain fun b c =>
    ∃ v : Nat, (d.page (16 * b + 15)).nextLogBlock = v ∧ v / 16 = c
  nextPage : k / 16 = last
  writable : d.nextPage last = (k % 16 : Nat)
  unwritten : d.page k = Buf.zero 1048

/-- Walking the two lists visits exactly the blocks of `blocks`, each once, and
    ends at the tails. -/
def ListsHold (d : Nand) (l : FreeList) (blocks : List Nat) : Prop :=
  ∃ ps cs, Chain (partialNext d) (ofLink l.partialHead) ps ∧
    Chain (completeNext d) (ofLink l.completeHead) cs ∧
    l.partialTail = tailOf ps ∧ l.completeTail = tailOf cs ∧
    (blocksOf (ps ++ cs)).Perm blocks

/-! ## Links on pages -/

theorem tailOf_append (ps : List Nat) (t : Nat) : tailOf (ps ++ [t]) = t := by
  simp [tailOf]

theorem mem_of_tailOf {ps : List Nat} (h : tailOf ps ≠ 0) : tailOf ps ∈ ps := by
  unfold tailOf at *
  cases hl : ps.getLast? with
  | none => simp [hl] at h
  | some t => exact List.mem_of_getLast? hl

theorem nextLogBlock_setNextLogBlock (p : FullPage) {k : Nat} (hk : k < 2147483648) :
    (p.setNextLogBlock k).nextLogBlock = k := by
  unfold FullPage.setNextLogBlock FullPage.nextLogBlock
  rw [Buf.int_setInt_same _ _ (by omega), cint_eq (by unfold IsInt; omega)]

section
variable {s : CYCstate} {n k last : Nat} {ps cs full : List Nat} {log : LogHeader}

theorem tmod_natCast (k : Nat) : (k : Int).tmod blockSize = (k % 16 : Nat) :=
  (Int.ofNat_tmod k 16).symm

theorem LogBlocks.page_inRange (h : LogBlocks s.nand n ps cs log k full last) :
    16 ≤ k ∧ k < 16 * n := by
  have hr := h.inRange last (by simp)
  have hk := h.nextPage
  omega

theorem LogBlocks.page_notFree (h : LogBlocks s.nand n ps cs log k full last) {q : Nat}
    (hq : q ∈ ps ++ cs) : q / 16 ≠ k / 16 := by
  intro heq
  refine h.notFree last (by simp) ?_
  rw [← h.nextPage, ← heq]
  exact List.mem_map_of_mem hq

/-- The end of the partial list as `logs_recycle` expects it. -/
structure PartialEnd (d : Nand) (l : FreeList) (ps : List Nat) : Prop where
  tail : l.partialTail = tailOf ps
  writable : ∀ t, ps.getLast? = some t → d.nextPage (t / 16) = (t % 16 : Nat)
  notSuper : ∀ p ∈ ps, 16 ≤ p

theorem WellFormedLists.partialEnd {d : Nand} {l : FreeList} (h : WellFormedLists d n l ps cs) :
    PartialEnd d l ps :=
  ⟨h.partialTail, h.tailWritable, fun p hp => h.notSuper p (List.mem_append_left _ hp)⟩

/-- A block with room goes to the end of the partial list; of the device, only
    the page of the old tail is written. -/
theorem recycleLastBlock_room (hs : s.nand.Sound n) (hl : FreeLists s.nand n s.lists ps cs)
    (he : PartialEnd s.nand s.lists ps)
    (hlog : LogBlocks s.nand n ps cs log k full last) (hroom : k % 16 ≤ 13) :
    (recycleLastBlock log k s).1.nand.Sound n ∧
    (∀ j, ps.getLast? ≠ some j → (recycleLastBlock log k s).1.nand.page j = s.nand.page j) ∧
    Chain (partialNext (recycleLastBlock log k s).1.nand)
      (ofLink (recycleLastBlock log k s).1.lists.partialHead) (ps ++ [k]) ∧
    (recycleLastBlock log k s).1.lists.partialTail = k ∧
    (recycleLastBlock log k s).1.lists.completeHead = s.lists.completeHead ∧
    (recycleLastBlock log k s).1.lists.completeTail = s.lists.completeTail := by
  have hfits := hs.fits
  obtain ⟨hk16, hkn⟩ := hlog.page_inRange
  have hkint : cint (k : Int) = k := cint_eq (by unfold IsInt; omega)
  have hif : (k : Int).tmod blockSize ≤ blockSize - 3 := by
    rw [tmod_natCast]; simp only [blockSize]; omega
  have hknext : partialNext s.nand k = none := by
    rw [partialNext, hlog.unwritten]
    exact ofLink_eq_none.mpr (Buf.int_zero _)
  rw [recycleLastBlock, if_pos hif]
  rcases List.eq_nil_or_concat ps with rfl | ⟨init, t, rfl⟩
  · -- the list was empty: its head is set
    rw [if_pos (by rw [he.tail]; rfl)]
    refine ⟨hs, fun _ _ => rfl, ?_, ?_, ?_, ?_⟩
    · simp only [FreeList.fields_setPartialTail, FreeList.fields_setPartialHead, hkint]
      exact ⟨ofLink_nat (by omega), hknext⟩
    · simp [hkint]
    · simp
    · simp
  · -- the page of the old tail gets a link to the new one
    have ht16 := he.notSuper t (by simp)
    obtain ⟨-, htn⟩ := hl.inRange t (by simp)
    have htail : s.lists.partialTail = t := by
      rw [he.tail, List.concat_eq_append, tailOf_append]
    have hkt : k ≠ t := fun h => hlog.page_notFree (q := t) (by simp) (by rw [h])
    have ha : s.nand.Accepts t 0 := .inr (he.writable t (by simp))
    have hpage := page_writeNAND hs (FullPage.setNextLogBlock (Buf.zero 1048) k) htn ha
    rw [if_neg (by rw [htail]; omega), htail]
    refine ⟨sound_writeNAND hs _ _ 0, fun j hj => ?_, ?_, ?_, ?_, ?_⟩
    · show (writeNAND s.nand _ (t : Int) 0).1.page j = _
      rw [hpage, if_neg (by rintro rfl; simp at hj)]
    · show Chain (partialNext (writeNAND s.nand _ (t : Int) 0).1)
        (ofLink (FreeList.partialHead (s.lists.setPartialTail k))) _
      rw [(FreeList.fields_setPartialTail _ _).1, List.concat_eq_append, List.append_assoc]
      have hchain := hl.partialChain
      rw [List.concat_eq_append] at hchain
      refine hchain.append (fun c hc => ?_) ?_ ?_
      · have hct : c ≠ t := by
          have hnd := hchain.nodup
          rintro rfl
          simp only [List.nodup_append, List.mem_singleton, ne_eq, forall_eq] at hnd
          exact hnd.2.2 c hc rfl
        rw [partialNext, hpage, if_neg hct, partialNext]
      · rw [partialNext, hpage, if_pos rfl, nextLogBlock_setNextLogBlock _ (by omega)]
        exact ofLink_nat (by omega)
      · rw [partialNext, hpage, if_neg hkt, ← partialNext, hknext]
    · simp [hkint]
    · simp
    · simp

/-- What `lastFullBlock` is: a block number or 0, or a page index. -/
theorem lastFullBlock_eq (hlog : LogBlocks s.nand n ps cs log k full last) :
    (recycleLastBlock log k s).2 =
      if k % 16 ≤ 13 then if full = [] then 0 else log.prev else (k % 16 : Nat) := by
  rw [recycleLastBlock, tmod_natCast]
  by_cases hroom : k % 16 ≤ 13
  · rw [if_pos hroom, if_pos (by simp only [blockSize]; omega), ← blockOf, blockOf_natCast,
      hlog.nextPage, hlog.first]
    cases full with
    | nil => simp
    | cons b full =>
      have hb : b ≠ last := fun h => by
        have hnd := hlog.nodup
        simp [h] at hnd
      have hne : (last : Int) ≠ (b : Int) := by exact_mod_cast hb.symm
      rw [if_neg (List.cons_ne_nil b full)]
      exact if_pos hne
  · rw [if_neg hroom, if_neg (by simp only [blockSize]; omega)]

theorem recycleLastBlock_full (h : ¬ k % 16 ≤ 13) : (recycleLastBlock log k s).1 = s := by
  rw [recycleLastBlock, tmod_natCast, if_neg (by simp only [blockSize]; omega)]

/-- Full blocks: of the device, only the page the complete tail names is
    written, and the new tail is `lastFullBlock` as it is. -/
theorem recycleFullBlocks_spec {t : Nat} (log : LogHeader) (lastFullBlock : Int)
    (hs : s.nand.Sound n) (htn : t < 16 * n) (ht : s.lists.completeTail = t) :
    (recycleFullBlocks log lastFullBlock s).nand.Sound n ∧
    (∀ j, j ≠ t ∨ t = 0 → (recycleFullBlocks log lastFullBlock s).nand.page j = s.nand.page j) ∧
    (recycleFullBlocks log lastFullBlock s).lists.partialHead = s.lists.partialHead ∧
    (recycleFullBlocks log lastFullBlock s).lists.partialTail = s.lists.partialTail ∧
    (recycleFullBlocks log lastFullBlock s).lists.completeTail = cint lastFullBlock := by
  rw [recycleFullBlocks]
  by_cases h0 : t = 0
  · rw [if_neg (by rw [ht, h0]; simp)]
    exact ⟨hs, fun _ _ => rfl, by simp, by simp, by simp⟩
  · rw [if_pos (by rw [ht]; omega), ht]
    have ha : s.nand.Accepts t 1 := .inl (by omega)
    refine ⟨sound_writeNAND hs _ _ 1, fun j hj => ?_, by simp, by simp, by simp⟩
    show (writeNAND s.nand _ (t : Int) 1).1.page j = _
    rw [page_writeNAND hs _ htn ha, if_neg (by omega)]

theorem WellFormedLists.completeTail_lt (hl : WellFormedLists s.nand n s.lists ps cs) (hn : 0 < n) :
    tailOf cs < 16 * n := by
  by_cases h0 : tailOf cs = 0
  · omega
  · exact (hl.inRange _ (List.mem_append_right _ (mem_of_tailOf h0))).2

theorem logsRecycle_eq (nextErases : Int) : logsRecycle log k nextErases s =
    if (recycleLastBlock log k s).2 ≠ 0 then
      recycleFullBlocks log (recycleLastBlock log k s).2 (recycleLastBlock log k s).1
    else (recycleLastBlock log k s).1 := rfl

/-! ## Which logs survive -/

theorem listsHold_of_one_block (hs : s.nand.Sound n) (hl : WellFormedLists s.nand n s.lists ps cs)
    (hlog : LogBlocks s.nand n ps cs log k [] last) (hroom : k % 16 ≤ 13) (nextErases : Int) :
    ListsHold (logsRecycle log k nextErases s).nand (logsRecycle log k nextErases s).lists
      (blocksOf (ps ++ cs) ++ [last]) := by
  have hlfb := lastFullBlock_eq hlog
  rw [if_pos hroom, if_pos rfl] at hlfb
  obtain ⟨-, hpage, hchain, htail, hch, hct⟩ :=
    recycleLastBlock_room hs hl.toFreeLists hl.partialEnd hlog hroom
  have heq : logsRecycle log k nextErases s = (recycleLastBlock log k s).1 := by
    rw [logsRecycle_eq, hlfb, if_neg (by simp)]
  rw [heq]
  refine ⟨ps ++ [k], cs, hchain, ?_, ?_, ?_, ?_⟩
  · rw [hch]
    refine hl.completeChain.congr fun c hc => ?_
    rw [completeNext, hpage, completeNext]
    -- the old tail of the partial list is in another block
    intro hlast
    have hne : (c / 16 * 16 + 15) / 16 ≠ c / 16 := by
      have hnd := hl.apart
      rw [List.map_append, List.nodup_append] at hnd
      exact hnd.2.2 _ (List.mem_map_of_mem (List.mem_of_getLast? hlast)) _ (List.mem_map_of_mem hc)
    omega
  · rw [htail, tailOf_append]
  · rw [hct, hl.completeTail]
  · have hperm : (ps ++ [k] ++ cs).Perm (ps ++ cs ++ [k]) := by
      rw [List.append_assoc, List.append_assoc]
      exact List.Perm.append_left ps List.perm_append_comm
    have hblk : blocksOf (ps ++ cs ++ [k]) = blocksOf (ps ++ cs) ++ [last] := by
      rw [blocksOf, List.map_append, List.map_singleton, hlog.nextPage]
      rfl
    exact hblk ▸ hperm.map (· / 16)

/-- A nearly full last block makes the complete list end in block 0. -/
theorem not_listsHold_of_nearlyFull (hs : s.nand.Sound n) (hn : 0 < n)
    (hl : WellFormedLists s.nand n s.lists ps cs)
    (hlog : LogBlocks s.nand n ps cs log k full last) (hroom : ¬ k % 16 ≤ 13) (nextErases : Int) :
    ¬ ListsHold (logsRecycle log k nextErases s).nand (logsRecycle log k nextErases s).lists
      (blocksOf (ps ++ cs) ++ (full ++ [last])) := by
  have hlfb := lastFullBlock_eq hlog
  rw [if_neg hroom] at hlfb
  have heq : logsRecycle log k nextErases s = recycleFullBlocks log (k % 16 : Nat) s := by
    rw [logsRecycle_eq, hlfb, recycleLastBlock_full hroom, if_pos (by omega)]
  obtain ⟨-, -, -, -, htail⟩ := recycleFullBlocks_spec log (k % 16 : Nat) hs
    (hl.completeTail_lt hn) hl.completeTail
  rw [heq]
  rintro ⟨ps', cs', -, -, -, hct, hperm⟩
  rw [htail, cint_eq (by unfold IsInt; omega)] at hct
  have htail16 : tailOf cs' = k % 16 := by exact_mod_cast hct.symm
  have hmem : tailOf cs' ∈ cs' := mem_of_tailOf (by omega)
  have h0 : 0 ∈ blocksOf (ps ++ cs) ++ (full ++ [last]) := by
    refine hperm.subset ?_
    have := List.mem_map_of_mem (f := (· / 16)) (List.mem_append_right ps' hmem)
    rwa [htail16, show k % 16 / 16 = 0 by omega] at this
  rcases List.mem_append.mp h0 with h0 | h0
  · obtain ⟨p, hp, hp0⟩ := List.mem_map.mp h0
    have := hl.notSuper p hp
    omega
  · have := (hlog.inRange 0 h0).1
    omega

theorem LogBlocks.last_link {init : List Nat} {b : Nat}
    (h : LogBlocks s.nand n ps cs log k (init ++ [b]) last) :
    ∃ v : Nat, (s.nand.page (16 * b + 15)).nextLogBlock = v ∧ v / 16 = last := by
  have hlinked := h.linked
  rw [List.append_assoc] at hlinked
  exact (List.isChain_append_cons_cons.mp hlinked).2.1

/-- With full blocks before the last one, the partial list gains the last one, and pages
    of blocks that were on neither list are as they were. -/
theorem logsRecycle_full (hs : s.nand.Sound n) (hn : 0 < n)
    (hl : WellFormedLists s.nand n s.lists ps cs) {init : List Nat} {b : Nat}
    (hlog : LogBlocks s.nand n ps cs log k (init ++ [b]) last) (hroom : k % 16 ≤ 13)
    (nextErases : Int) :
    Chain (partialNext (logsRecycle log k nextErases s).nand)
      (ofLink (logsRecycle log k nextErases s).lists.partialHead) (ps ++ [k]) ∧
    ∀ j, j / 16 ∉ blocksOf (ps ++ cs) →
      (logsRecycle log k nextErases s).nand.page j = s.nand.page j := by
  have hb1 := (hlog.inRange b (by simp)).1
  have hprev : log.prev = b := hlog.prev b (by simp)
  have hlfb := lastFullBlock_eq hlog
  rw [if_pos hroom, if_neg (by simp), hprev] at hlfb
  obtain ⟨hs₁, hpage₁, hchain₁, -, -, hct₁⟩ :=
    recycleLastBlock_room hs hl.toFreeLists hl.partialEnd hlog hroom
  obtain ⟨-, hpage₂, hph₂, -, -⟩ := recycleFullBlocks_spec log b hs₁ (hl.completeTail_lt hn)
    (hct₁.trans hl.completeTail)
  have heq : logsRecycle log k nextErases s =
      recycleFullBlocks log b (recycleLastBlock log k s).1 := by
    rw [logsRecycle_eq, hlfb, if_pos (by omega)]
  rw [← heq] at hpage₂ hph₂
  -- pages of blocks off the complete list are as the first part left them
  have hkeep : ∀ j, j / 16 ∉ blocksOf cs →
      (logsRecycle log k nextErases s).nand.page j = (recycleLastBlock log k s).1.nand.page j := by
    intro j hj
    refine hpage₂ j (Decidable.or_iff_not_imp_right.mpr fun h0 => ?_)
    rintro rfl
    exact hj (List.mem_map_of_mem (mem_of_tailOf h0))
  constructor
  · rw [hph₂]
    refine hchain₁.congr fun a ha => ?_
    rw [partialNext, hkeep, partialNext]
    intro hmem
    obtain ⟨c, hc, hca⟩ := List.mem_map.mp hmem
    rcases List.mem_append.mp ha with ha | ha
    · have hnd := hl.apart
      rw [List.map_append, List.nodup_append] at hnd
      exact hnd.2.2 _ (List.mem_map_of_mem ha) _ (List.mem_map_of_mem hc) hca.symm
    · rw [List.mem_singleton.mp ha] at hca
      exact hlog.page_notFree (List.mem_append_right ps hc) hca
  · intro j hj
    rw [blocksOf, List.map_append] at hj
    rw [hkeep j fun hmem => hj (List.mem_append_right _ hmem)]
    refine hpage₁ j fun hlast => hj (List.mem_append_left _ ?_)
    exact List.mem_map_of_mem (List.mem_of_getLast? hlast)

/-- With full blocks before the last one, the last full block still links to
    the last one, which is on the partial list: it is reached twice. -/
theorem not_listsHold_of_full (hs : s.nand.Sound n) (hn : 0 < n)
    (hl : WellFormedLists s.nand n s.lists ps cs)
    (hlog : LogBlocks s.nand n ps cs log k full last) (hroom : k % 16 ≤ 13) (hfull : full ≠ [])
    (nextErases : Int) :
    ¬ ListsHold (logsRecycle log k nextErases s).nand (logsRecycle log k nextErases s).lists
      (blocksOf (ps ++ cs) ++ (full ++ [last])) := by
  obtain ⟨init, b, rfl⟩ := (List.eq_nil_or_concat full).resolve_left hfull
  rw [List.concat_eq_append] at *
  have hfits := hs.fits
  have hb : b ∈ (init ++ [b]) ++ [last] := by simp
  have hbn := (hlog.inRange b hb).2
  have hlast1 := (hlog.inRange last (by simp)).1
  have hbfree := hlog.notFree b hb
  have hblast : b ≠ last := by
    have hnd := hlog.nodup
    rw [List.nodup_append] at hnd
    exact hnd.2.2 b (by simp) last (by simp)
  obtain ⟨hchain, hpage⟩ := logsRecycle_full hs hn hl hlog hroom nextErases
  rintro ⟨ps', cs', hpartial, hcomplete, -, -, hperm⟩
  obtain rfl : ps' = ps ++ [k] := Chain.unique hpartial hchain
  have hnd : (blocksOf (ps ++ [k] ++ cs')).Nodup := by
    refine hperm.nodup_iff.mpr (List.nodup_append.mpr ⟨hl.apart, hlog.nodup, ?_⟩)
    rintro a ha _ hc rfl
    exact hlog.notFree a hc ha
  obtain ⟨x, hx, hxb⟩ := List.mem_map.mp (hperm.symm.subset (List.mem_append_right _ hb))
  rcases List.mem_append.mp hx with hx | hx
  · -- the partial list only gained the last block
    rcases List.mem_append.mp hx with hx | hx
    · exact hbfree (hxb ▸ List.mem_map_of_mem (List.mem_append_left cs hx))
    · rw [List.mem_singleton.mp hx, hlog.nextPage] at hxb
      exact hblast hxb.symm
  · obtain ⟨v, hv, hvlast⟩ := hlog.last_link
    have hnext : completeNext (logsRecycle log k nextErases s).nand x = some v := by
      rw [completeNext, show x / 16 * 16 + 15 = 16 * b + 15 by omega, hpage, hv]
      · exact ofLink_nat (by omega)
      · rw [show (16 * b + 15) / 16 = b by omega]
        exact hbfree
    have hvmem := hcomplete.next_mem hx hnext
    rw [blocksOf, List.map_append, List.nodup_append] at hnd
    refine hnd.2.2 (k / 16) (List.mem_map_of_mem (by simp)) (v / 16) (List.mem_map_of_mem hvmem) ?_
    rw [hvlast, hlog.nextPage]

/-- Recycling conserves a log's blocks exactly when the log has one block and
    its next page is not one of the last two. -/
theorem listsHold_logsRecycle_iff (hs : s.nand.Sound n) (hl : WellFormedLists s.nand n s.lists ps cs)
    (hlog : LogBlocks s.nand n ps cs log k full last) (nextErases : Int) :
    ListsHold (logsRecycle log k nextErases s).nand (logsRecycle log k nextErases s).lists
        (blocksOf (ps ++ cs) ++ (full ++ [last])) ↔ full = [] ∧ k % 16 ≤ 13 := by
  obtain ⟨hlast1, hlastn⟩ := hlog.inRange last (by simp)
  constructor
  · intro hold
    by_cases hroom : k % 16 ≤ 13
    · refine ⟨?_, hroom⟩
      by_contra hfull
      exact not_listsHold_of_full hs (by omega) hl hlog hroom hfull nextErases hold
    · exact absurd hold (not_listsHold_of_nearlyFull hs (by omega) hl hlog hroom nextErases)
  · rintro ⟨rfl, hroom⟩
    exact listsHold_of_one_block hs hl hlog hroom nextErases

end

/-! ## Two logs on a device of five blocks -/

/-- The lists when only block 4 is free. -/
def lastBlockFree : FreeList := (FreeList.setPartialHead (Buf.zero 24) 64).setPartialTail 64

/-- The header of a log that starts in block `first`, after block `prev`. -/
def sampleLog (first prev : Int) : LogHeader := (LogHeader.setFirst (Buf.zero 568) first).setPrev prev

/-- A new file system of five blocks when only block 4 is free. -/
def fourBlocksUsed : CYCstate := { newFileSystem 5 with lists := lastBlockFree }

/-- The same, with a link from the last page of block 2 to block 3. -/
def twoBlocksLinked : CYCstate :=
  { fourBlocksUsed with nand := (writeNAND fourBlocksUsed.nand (linkPage 48) (47 : Nat) 1).1 }

theorem wellFormed_lastBlockFree {d : Nand} (hp : d.page 64 = Buf.zero 1048)
    (hn : d.nextPage 4 = 0) : WellFormedLists d 5 lastBlockFree [64] [] where
  partialChain := by
    refine ⟨rfl, ?_⟩
    rw [partialNext, hp]
    exact ofLink_eq_none.mpr (Buf.int_zero _)
  completeChain := rfl
  inRange := by simp
  room := by simp
  apart := by simp
  partialTail := rfl
  completeTail := rfl
  tailWritable := by
    intro t ht
    obtain rfl : t = 64 := by simpa using ht.symm
    rw [hn]
    rfl
  notSuper := by simp

theorem image_fourBlocksUsed : Image fourBlocksUsed.nand 5 :=
  (freshMount_newFileSystem (n := 5) (by omega) (by omega)).image

/-- Recycling the one-block log in block 3 puts it after block 4. -/
theorem listsHold_sample :
    ListsHold (logsRecycle (sampleLog 3 (-1)) (49 : Nat) 0 fourBlocksUsed).nand
      (logsRecycle (sampleLog 3 (-1)) (49 : Nat) 0 fourBlocksUsed).lists
      (blocksOf ([64] ++ []) ++ ([] ++ [3])) := by
  have himage := image_fourBlocksUsed
  refine (listsHold_logsRecycle_iff himage.sound (wellFormed_lastBlockFree
    (himage.blank 64 (by omega)) (himage.nextPage 4)) ⟨?_, ?_, ?_, rfl, ?_, ?_, rfl, ?_, ?_⟩ 0).mpr
    ⟨rfl, by omega⟩
  · simp
  · simp
  · simp [blocksOf]
  · simp
  · simp
  · exact himage.nextPage 3
  · exact himage.blank 49 (by omega)

/-- Recycling the log of blocks 2 and 3 loses it. -/
theorem not_listsHold_two_blocks :
    ¬ ListsHold (logsRecycle (sampleLog 2 2) (49 : Nat) 0 twoBlocksLinked).nand
      (logsRecycle (sampleLog 2 2) (49 : Nat) 0 twoBlocksLinked).lists
      (blocksOf ([64] ++ []) ++ ([2] ++ [3])) := by
  have himage := image_fourBlocksUsed
  have ha : fourBlocksUsed.nand.Accepts 47 1 := .inl (by omega)
  have hpage := page_writeNAND himage.sound (linkPage 48) (show 47 < 16 * 5 by omega) ha
  have hptr := nextPage_writeNAND himage.sound (linkPage 48) (show 47 < 16 * 5 by omega) ha
  refine not_listsHold_of_full (sound_writeNAND himage.sound _ _ 1) (by omega)
    (wellFormed_lastBlockFree ?_ ?_) ⟨?_, ?_, ?_, rfl, ?_, ?_, rfl, ?_, ?_⟩ (by omega) (by simp) 0
  · exact (hpage 64).trans (himage.blank 64 (by omega))
  · exact (hptr 4).trans (himage.nextPage 4)
  · simp
  · simp
  · simp [blocksOf]
  · intro b hb
    obtain rfl : b = 2 := by simpa using hb.symm
    rfl
  · refine List.isChain_pair.mpr ⟨48, ?_, rfl⟩
    exact (congrArg FullPage.nextLogBlock (hpage 47)).trans
      (nextLogBlock_linkPage (show 48 < 2147483648 by omega))
  · exact (hptr 3).trans (himage.nextPage 3)
  · exact (hpage 49).trans (himage.blank 49 (by omega))

end Cycology
