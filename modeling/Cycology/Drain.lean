import Cycology.Recycle

/- Taking blocks off the free lists, and putting one back later.

   `getFreeBlock` moves the head of a list and never its tail. As long as a list
   keeps a block this is right, but once the last block of a list is taken, the
   head is 0 and the tail still names that block. `logs_recycle` looks at the
   tail to see whether the partial list is empty: it then links the recycled
   block to one that is in use, and the head stays 0.

   `listsWellFormed_iff` says that this is the only way for a run of calls to
   spoil a list, and when a log of one block recycled afterwards is found. -/
namespace Cycology
open ByteMem LinkedChain Nand

/-- A list with this head and tail: both are 0, or the links lead from the head
    to the tail and end there. -/
def WellFormedList (next : Nat → Option Nat) (head tail : Int) : Prop :=
  (head = 0 ↔ tail = 0) ∧ (head ≠ 0 → ∃ l, Chain next (ofLink head) (l ++ [tail.toNat]))

/-- The device and the lists after some calls of `getFreeBlock`. -/
def takeBlocks (state : CYCstate) : List Int → CYCstate
  | [] => state
  | newFile :: calls =>
    let b := getFreeBlock state.nand state.lists newFile
    takeBlocks { state with nand := b.nand, lists := b.lists } calls

/-- What a call leaves on the lists; `none` when its list is empty. -/
def leftAfterCall (ps cs : List Nat) (newFile : Int) : Option (List Nat × List Nat) :=
  if newFile = 0 ∨ ps = [] then
    match cs with
    | [] => none
    | _ :: cs => some (ps, cs)
  else some (ps.tail, cs)

/-- What some calls leave, each taking a block from a list that is not empty. -/
def leftAfter (ps cs : List Nat) : List Int → Option (List Nat × List Nat)
  | [] => some (ps, cs)
  | newFile :: calls =>
    match leftAfterCall ps cs newFile with
    | none => none
    | some (ps, cs) => leftAfter ps cs calls

/-- Following the partial list comes to block `b`. -/
def OnPartialList (d : Nand) (l : FreeList) (b : Nat) : Prop :=
  ∃ ps, Chain (partialNext d) (ofLink l.partialHead) ps ∧ b ∈ blocksOf ps

/-! ## One list -/

/-- A list that lost some blocks at its head but none of its tail is well formed
    exactly when it was empty before or is not empty now. -/
theorem wellFormedList_iff {next : Nat → Option Nat} {head tail : Int} {l l' : List Nat}
    (hc : Chain next (ofLink head) l') (hsuf : l' <:+ l) (ht : tail = tailOf l)
    (hpos : ∀ p ∈ l, 0 < p) : WellFormedList next head tail ↔ l = [] ∨ l' ≠ [] := by
  have htail0 : l ≠ [] → tail ≠ 0 := by
    intro hl h0
    have hlast : tailOf l = l.getLast hl := by
      rw [tailOf, List.getLast?_eq_some_getLast hl, Option.getD_some]
    have := hpos _ (List.getLast_mem hl)
    rw [ht, hlast] at h0
    omega
  constructor
  · rintro ⟨hiff, -⟩
    by_contra hno
    obtain ⟨hl, hl'⟩ := not_or.mp hno
    rw [ne_eq, not_not] at hl'
    subst hl'
    exact htail0 hl (hiff.mp (ofLink_eq_none.mp hc))
  · rintro (rfl | hl')
    · obtain rfl := List.eq_nil_of_suffix_nil hsuf
      have hhead : head = 0 := ofLink_eq_none.mp hc
      refine ⟨⟨fun _ => ht, fun _ => hhead⟩, fun h => absurd hhead h⟩
    · have hl : l ≠ [] := fun h => hl' (List.eq_nil_of_suffix_nil (h ▸ hsuf))
      have hhead : head ≠ 0 := by
        rintro rfl
        exact hl' hc.eq_nil
      refine ⟨⟨fun h => absurd h hhead, fun h => absurd h (htail0 hl)⟩, fun _ => ⟨l'.dropLast, ?_⟩⟩
      have hlast : tailOf l = l'.getLast hl' := by
        obtain ⟨t, rfl⟩ := hsuf
        rw [tailOf, List.getLast?_append_of_ne_nil _ hl', List.getLast?_eq_some_getLast hl',
          Option.getD_some]
      rw [ht, hlast, Int.toNat_natCast, List.dropLast_append_getLast]
      exact hc

/-! ## Runs of calls -/

/-- What is left of the lists `ps` and `cs` of `s` in `t`, and what is as it was:
    the tails, and the blocks still free. -/
structure Taken (s t : CYCstate) (n : Nat) (ps cs ps' cs' : List Nat) : Prop where
  sound : t.nand.Sound n
  freeLists : FreeLists t.nand n t.lists ps' cs'
  partialSuffix : ps' <:+ ps
  completeSuffix : cs' <:+ cs
  partialTail : t.lists.partialTail = s.lists.partialTail
  completeTail : t.lists.completeTail = s.lists.completeTail
  nextPage : ∀ b ∈ blocksOf (ps' ++ cs'), t.nand.nextPage b = s.nand.nextPage b

section
variable {s t u : CYCstate} {n : Nat} {ps cs ps' cs' ps'' cs'' : List Nat}

theorem Taken.refl (hs : s.nand.Sound n) (hl : FreeLists s.nand n s.lists ps cs) :
    Taken s s n ps cs ps cs :=
  ⟨hs, hl, List.suffix_rfl, List.suffix_rfl, rfl, rfl, fun _ _ => rfl⟩

theorem blocksOf_subset (hp : ps' <:+ ps) (hc : cs' <:+ cs) {b : Nat}
    (hb : b ∈ blocksOf (ps' ++ cs')) : b ∈ blocksOf (ps ++ cs) := by
  obtain ⟨p, hp', rfl⟩ := List.mem_map.mp hb
  refine List.mem_map_of_mem (f := (· / 16)) ?_
  rcases List.mem_append.mp hp' with h | h
  · exact List.mem_append_left _ (hp.subset h)
  · exact List.mem_append_right _ (hc.subset h)

theorem Taken.trans (h : Taken s t n ps cs ps' cs') (h' : Taken t u n ps' cs' ps'' cs'') :
    Taken s u n ps cs ps'' cs'' where
  sound := h'.sound
  freeLists := h'.freeLists
  partialSuffix := h'.partialSuffix.trans h.partialSuffix
  completeSuffix := h'.completeSuffix.trans h.completeSuffix
  partialTail := h'.partialTail.trans h.partialTail
  completeTail := h'.completeTail.trans h.completeTail
  nextPage b hb := (h'.nextPage b hb).trans
    (h.nextPage b (blocksOf_subset h'.partialSuffix h'.completeSuffix hb))

theorem tails_getFreeBlock (d : Nand) (l : FreeList) (newFile : Int) :
    (getFreeBlock d l newFile).lists.partialTail = l.partialTail ∧
    (getFreeBlock d l newFile).lists.completeTail = l.completeTail := by
  rw [getFreeBlock]
  split
  · simp
  · simp

theorem taken_getFreeBlock (hs : s.nand.Sound n) (hl : FreeLists s.nand n s.lists ps cs)
    {newFile : Int} (hleft : leftAfterCall ps cs newFile = some (ps', cs')) :
    Taken s { s with
      nand := (getFreeBlock s.nand s.lists newFile).nand
      lists := (getFreeBlock s.nand s.lists newFile).lists } n ps cs ps' cs' := by
  obtain ⟨hpt, hct⟩ := tails_getFreeBlock s.nand s.lists newFile
  have hsound := sound_getFreeBlock hs s.lists newFile
  unfold leftAfterCall at hleft
  split at hleft
  · rename_i hf
    cases cs with
    | nil => cases hleft
    | cons c cs =>
      obtain ⟨rfl, rfl⟩ := Prod.mk.inj (Option.some.inj hleft)
      have hf' : newFile = 0 ∨ s.lists.partialHead = 0 :=
        hf.imp_right fun h => (h ▸ hl).partialHead_nil
      obtain ⟨-, hfree⟩ := freeLists_getFreeBlock_complete hs hl hf
      obtain ⟨-, -, hnext, -⟩ :=
        getFreeBlock_complete_views hs (hl.inRange c (by simp)).2 hf' hl.completeHead_eq
      refine ⟨hsound, hfree, List.suffix_rfl, List.suffix_cons c cs, hpt, hct, fun b hb => ?_⟩
      obtain ⟨q, hq, rfl⟩ := List.mem_map.mp hb
      exact (hnext (q / 16)).trans (if_neg (hl.complete_block_ne hq))
  · rename_i hf
    obtain ⟨rfl, rfl⟩ := Prod.mk.inj (Option.some.inj hleft)
    cases ps with
    | nil => exact absurd (.inr rfl) hf
    | cons p ps =>
      obtain ⟨hsame, -, hfree⟩ := freeLists_getFreeBlock_partial hs hl fun h => hf (.inl h)
      exact ⟨hsound, hfree, List.suffix_cons p ps, List.suffix_rfl, hpt, hct,
        fun b _ => hsame.nextPage b⟩

theorem taken_takeBlocks (calls : List Int) : ∀ {s : CYCstate} {ps cs : List Nat},
    s.nand.Sound n → FreeLists s.nand n s.lists ps cs →
    leftAfter ps cs calls = some (ps', cs') →
    Taken s (takeBlocks s calls) n ps cs ps' cs' := by
  induction calls with
  | nil =>
    intro s ps cs hs hl hleft
    obtain ⟨rfl, rfl⟩ := Prod.mk.inj (Option.some.inj hleft)
    exact Taken.refl hs hl
  | cons newFile calls ih =>
    intro s ps cs hs hl hleft
    rw [leftAfter] at hleft
    split at hleft
    · cases hleft
    · rename_i ps₁ cs₁ hcall
      have hstep := taken_getFreeBlock hs hl hcall
      exact hstep.trans (ih hstep.sound hstep.freeLists hleft)

/-! ## Recycling a block later -/

/-- `u` is a later state than `t`: the blocks in use may have been written, the
    lists and the free blocks are the same. -/
structure Later (t u : CYCstate) (n : Nat) (free : List Nat) : Prop where
  sound : u.nand.Sound n
  lists : u.lists = t.lists
  page : ∀ p ∈ free, ∀ k, k / 16 = p / 16 → u.nand.page k = t.nand.page k
  nextPage : ∀ b ∈ blocksOf free, u.nand.nextPage b = t.nand.nextPage b

theorem Taken.later (h : Taken s t n ps cs ps' cs') (hu : Later t u n (ps' ++ cs')) :
    Taken s u n ps cs ps' cs' where
  sound := hu.sound
  freeLists := h.freeLists.congr (by rw [hu.lists]) (by rw [hu.lists]) hu.page
  partialSuffix := h.partialSuffix
  completeSuffix := h.completeSuffix
  partialTail := by rw [hu.lists, h.partialTail]
  completeTail := by rw [hu.lists, h.completeTail]
  nextPage b hb := (hu.nextPage b hb).trans (h.nextPage b hb)

variable {log : LogHeader} {k last : Nat}

theorem Taken.partialEnd (h : Taken s t n ps cs ps' cs') (hl : WellFormedLists s.nand n s.lists ps cs)
    (hd : ps = [] ∨ ps' ≠ []) : PartialEnd t.nand t.lists ps' := by
  have hlast : ps'.getLast? = ps.getLast? := by
    rcases hd with rfl | hne
    · rw [List.eq_nil_of_suffix_nil h.partialSuffix]
    · obtain ⟨l, rfl⟩ := h.partialSuffix
      rw [List.getLast?_append_of_ne_nil _ hne]
  refine ⟨?_, fun q hq => ?_, fun p hp => ?_⟩
  · rw [h.partialTail, hl.partialTail, tailOf, ← hlast, tailOf]
  · rw [h.nextPage _ (List.mem_map_of_mem (f := (· / 16))
      (List.mem_append_left _ (List.mem_of_getLast? hq)))]
    exact hl.tailWritable q (hlast ▸ hq)
  · exact hl.notSuper p (List.mem_append_left _ (h.partialSuffix.subset hp))

theorem Taken.onPartialList (h : Taken s t n ps cs ps' cs')
    (hl : WellFormedLists s.nand n s.lists ps cs)
    (hlog : LogBlocks t.nand n ps' cs' log k [] last) (hd : ps = [] ∨ ps' ≠ [])
    (hroom : k % 16 ≤ 13) (nextErases : Int) :
    OnPartialList (logsRecycle log k nextErases t).nand (logsRecycle log k nextErases t).lists
      last := by
  have hlfb := lastFullBlock_eq hlog
  rw [if_pos hroom, if_pos rfl] at hlfb
  obtain ⟨-, -, hchain, -⟩ :=
    recycleLastBlock_room h.sound h.freeLists (h.partialEnd hl hd) hlog hroom
  rw [logsRecycle_eq, hlfb, if_neg (by simp)]
  refine ⟨ps' ++ [k], hchain, ?_⟩
  rw [← hlog.nextPage]
  exact List.mem_map_of_mem (f := (· / 16)) (by simp)

/-- On a drained list the block is linked to one that is in use, and the head
    stays 0. -/
theorem Taken.not_onPartialList_of_drained (h : Taken s t n ps cs [] cs')
    (hl : WellFormedLists s.nand n s.lists ps cs)
    (hlog : LogBlocks t.nand n [] cs' log k [] last) (hne : ps ≠ []) (hroom : k % 16 ≤ 13)
    (nextErases : Int) :
    ¬ OnPartialList (logsRecycle log k nextErases t).nand (logsRecycle log k nextErases t).lists
      last := by
  have hlfb := lastFullBlock_eq hlog
  rw [if_pos hroom, if_pos rfl] at hlfb
  have htail : t.lists.partialTail ≠ 0 := by
    rw [h.partialTail, hl.partialTail, tailOf, List.getLast?_eq_some_getLast hne, Option.getD_some]
    have := hl.notSuper (ps.getLast hne) (List.mem_append_left _ (List.getLast_mem hne))
    omega
  have hhead : (recycleLastBlock log k t).1.lists.partialHead = 0 := by
    rw [recycleLastBlock, tmod_natCast, if_pos (by simp only [blockSize]; omega), if_neg htail]
    exact (FreeList.fields_setPartialTail _ _).1.trans h.freeLists.partialHead_nil
  rw [logsRecycle_eq, hlfb, if_neg (by simp)]
  rintro ⟨qs, hchain, hmem⟩
  rw [hhead] at hchain
  rw [hchain.eq_nil] at hmem
  cases hmem

/-- A nearly full block is not put on the partial list at all. -/
theorem Taken.not_onPartialList_of_nearlyFull (h : Taken s t n ps cs ps' cs') (hn : 0 < n)
    (hl : WellFormedLists s.nand n s.lists ps cs)
    (hlog : LogBlocks t.nand n ps' cs' log k [] last) (hroom : ¬ k % 16 ≤ 13) (nextErases : Int) :
    ¬ OnPartialList (logsRecycle log k nextErases t).nand (logsRecycle log k nextErases t).lists
      last := by
  have hlfb := lastFullBlock_eq hlog
  rw [if_neg hroom] at hlfb
  have heq : logsRecycle log k nextErases t = recycleFullBlocks log (k % 16 : Nat) t := by
    rw [logsRecycle_eq, hlfb, recycleLastBlock_full hroom, if_pos (by omega)]
  obtain ⟨-, hpage, hhead, -, -⟩ := recycleFullBlocks_spec log (k % 16 : Nat) h.sound
    (hl.completeTail_lt hn) (h.completeTail.trans hl.completeTail)
  rw [heq]
  rintro ⟨qs, hchain, hmem⟩
  rw [hhead] at hchain
  -- the one page written is in a block that was on the complete list
  have hkeep : Chain (partialNext (recycleFullBlocks log (k % 16 : Nat) t).nand)
      (ofLink t.lists.partialHead) ps' := by
    refine h.freeLists.partialChain.congr fun p hp => ?_
    rw [partialNext, hpage, partialNext]
    refine Decidable.or_iff_not_imp_right.mpr fun h0 => ?_
    rintro rfl
    have hnd := hl.apart
    rw [List.map_append, List.nodup_append] at hnd
    exact hnd.2.2 _ (List.mem_map_of_mem (h.partialSuffix.subset hp)) _
      (List.mem_map_of_mem (mem_of_tailOf h0)) rfl
  obtain rfl := Chain.unique hchain hkeep
  refine hlog.notFree last (by simp) ?_
  rw [blocksOf, List.map_append]
  exact List.mem_append_left _ hmem

/-- After any calls on lists that are not empty, both lists are well formed
    exactly when no list was drained. A log of one block recycled at any later
    time is found on the partial list exactly when the partial list was not
    drained and the block is not nearly full. -/
theorem listsWellFormed_iff (hs : s.nand.Sound n) (hl : WellFormedLists s.nand n s.lists ps cs)
    (calls : List Int) (hleft : leftAfter ps cs calls = some (ps', cs')) :
    (WellFormedList (partialNext (takeBlocks s calls).nand)
          (takeBlocks s calls).lists.partialHead (takeBlocks s calls).lists.partialTail ∧
        WellFormedList (completeNext (takeBlocks s calls).nand)
          (takeBlocks s calls).lists.completeHead (takeBlocks s calls).lists.completeTail ↔
      (ps = [] ∨ ps' ≠ []) ∧ (cs = [] ∨ cs' ≠ [])) ∧
    ∀ u, Later (takeBlocks s calls) u n (ps' ++ cs') →
      ∀ (log : LogHeader) (k last : Nat) (nextErases : Int),
        LogBlocks u.nand n ps' cs' log k [] last →
        (OnPartialList (logsRecycle log k nextErases u).nand
            (logsRecycle log k nextErases u).lists last ↔
          (ps = [] ∨ ps' ≠ []) ∧ k % 16 ≤ 13) := by
  have htaken := taken_takeBlocks calls hs hl.toFreeLists hleft
  constructor
  · rw [wellFormedList_iff htaken.freeLists.partialChain htaken.partialSuffix
        (htaken.partialTail.trans hl.partialTail)
        fun p hp => (hl.inRange p (List.mem_append_left _ hp)).1,
      wellFormedList_iff htaken.freeLists.completeChain htaken.completeSuffix
        (htaken.completeTail.trans hl.completeTail)
        fun p hp => (hl.inRange p (List.mem_append_right _ hp)).1]
  · intro u hu log k last nextErases hlog
    have hu' := htaken.later hu
    obtain ⟨-, hlastn⟩ := hlog.inRange last (by simp)
    constructor
    · intro hon
      by_cases hroom : k % 16 ≤ 13
      · refine ⟨?_, hroom⟩
        by_contra hno
        obtain ⟨hne, hps'⟩ := not_or.mp hno
        rw [ne_eq, not_not] at hps'
        subst hps'
        exact hu'.not_onPartialList_of_drained hl hlog hne hroom nextErases hon
      · exact absurd hon (hu'.not_onPartialList_of_nearlyFull (by omega) hl hlog hroom nextErases)
    · rintro ⟨hd, hroom⟩
      exact hu'.onPartialList hl hlog hd hroom nextErases

end

/-! ## A new file system -/

theorem wellFormedLists_makefs {d : Nand} {n : Nat} (hz : Zeroed d n) (hn : 3 ≤ n) (frame : Block)
    (mem : CYCstate) :
    WellFormedLists (xmpInit (makefs d).1.file frame mem).nand n
      (xmpInit (makefs d).1.file frame mem).lists (newPartialList n) [] := by
  have hm := freshMount_makefs hz hn frame mem
  have hfit := hm.image.sound.fits
  obtain ⟨himage, -⟩ := makefs_image hz hn
  have hinit := himage.of_sameStore (sameStore_initNAND himage.sound himage.labelled frame)
  have hsuper : SuperPage.ofPage ((initNAND (makefs d).1.file frame).page 0) = newSuperBlock n := by
    rw [hinit.super, ofPage_superImage]
  obtain ⟨-, hlists, -⟩ := @initCYCstate_spec { mem with nand := initNAND (makefs d).1.file frame }
    n 16 hinit.sound (by omega) (by omega) (by rw [hsuper, latestVaddrMap_newSuperBlock]; rfl)
  have hlists' : (xmpInit (makefs d).1.file frame mem).lists = (newSuperBlock n).freeLists := by
    rw [xmpInit, hlists, hsuper]
  obtain ⟨-, hpt, -, hct⟩ := freeLists_newSuperBlock (show 1 ≤ n by omega) (by omega)
  have hlast : (newPartialList n).getLast? = some (16 * (n - 1)) := by
    rw [newPartialList, List.getLast?_map, List.getLast?_range', if_neg (by omega)]
    simp only [Option.map_some, Option.some.injEq]
    omega
  refine ⟨hm.freeLists, ?_, ?_, fun t ht => ?_, fun p hp => ?_⟩
  · rw [hlists', hpt, tailOf, hlast, Option.getD_some]
  · rw [hlists', hct]
    rfl
  · obtain rfl : t = 16 * (n - 1) := by
      rw [hlast] at ht
      exact (Option.some.inj ht).symm
    rw [hm.image.nextPage, if_neg (by omega)]
    omega
  · simp only [newPartialList, List.append_nil, List.mem_map, List.mem_range'_1] at hp
    obtain ⟨i, hi, rfl⟩ := hp
    omega

/-- One file on a device of five blocks leaves the lists well formed. -/
theorem listsWellFormed_one_file :
    WellFormedList (partialNext (takeBlocks (newFileSystem 5) [1]).nand)
      (takeBlocks (newFileSystem 5) [1]).lists.partialHead
      (takeBlocks (newFileSystem 5) [1]).lists.partialTail :=
  ((listsWellFormed_iff (freshMount_newFileSystem (n := 5) (by omega) (by omega)).image.sound
    (wellFormedLists_makefs (zeroed_blankNAND default (by omega)) (by omega) default default) [1]
    (show leftAfter (newPartialList 5) [] [1] = some ([48, 64], []) by decide)).1.mpr (by decide)).1

/-- On three blocks, one file takes the only free block and the partial list is
    no longer well formed. -/
theorem not_wellFormed_drained :
    ¬ WellFormedList (partialNext (takeBlocks (newFileSystem 3) [1]).nand)
      (takeBlocks (newFileSystem 3) [1]).lists.partialHead
      (takeBlocks (newFileSystem 3) [1]).lists.partialTail := by
  have hm := freshMount_newFileSystem (n := 3) (by omega) (by omega)
  have hl := wellFormedLists_makefs (zeroed_blankNAND default (by omega)) (show 3 ≤ 3 by omega)
    default default
  have htaken : Taken (newFileSystem 3) (takeBlocks (newFileSystem 3) [1]) 3 [32] [] [] [] :=
    taken_takeBlocks [1] hm.image.sound hl.toFreeLists rfl
  rw [wellFormedList_iff htaken.freeLists.partialChain htaken.partialSuffix
    (htaken.partialTail.trans hl.partialTail) (by simp)]
  simp

end Cycology
