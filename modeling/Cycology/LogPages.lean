import Cycology.BlockHandout

/- The pages `getFreePage` gives a log.

   Within a block the pages come in address order up to the third from last.
   There `getFreePage` goes to the last page of the block before, found through
   `log.prev`; but a new log has -1 there and nothing ever sets it, so the next
   address is -1. A log that starts at page `o` of its block therefore gets
   `14 - o` good pages; one that starts at the second to last page gets that
   page and the first 14 of one more block, provided the complete list names it
   by its first page (`goodCount`). `goodPages_iff` is this for whole runs. -/
namespace Cycology
open ByteMem LinkedChain Nand

/-! ## One call -/

section
variable {d : Nand} {l : FreeList} {log : ActiveLog} {mem : FullPage} {k : Nat}

/-- The log after a call that moves on to `nextPage`. -/
def ActiveLog.movedTo (log : ActiveLog) (nextPage : Int) : ActiveLog :=
  { log with nextPage := nextPage, log := log.log.setActive (log.log.active + 1) }

/-- Every call gives out the log's next page. -/
@[simp] theorem address_getFreePage : (getFreePage d l log mem).address = log.nextPage := by
  unfold getFreePage
  dsimp only
  split_ifs <;> rfl

theorem getFreePage_eq (h : log.nextPage = k) (hk : k < 2147483600) :
    getFreePage d l log mem =
      if k % 16 = 13 then
        ⟨d, l, log.movedTo (cint (log.log.prev * blockSize + (blockSize - 1))), mem, k⟩
      else if k % 16 = 14 then
        ⟨(getFreeBlock d l 0).nand, (getFreeBlock d l 0).lists,
          { log.movedTo (getFreeBlock d l 0).freePage with
            last := (getFreeBlock d l 0).freePage.tdiv blockSize
            lastErases := (getFreeBlock d l 0).freePageErases },
          (mem.setNextLogBlock (getFreeBlock d l 0).freePage).setNextBlockErases
            (getFreeBlock d l 0).freePageErases, k⟩
      else if k % 16 = 15 then
        ⟨d, l, log.movedTo (cint (log.last * blockSize + (blockSize - 2))),
          (mem.setNextLogBlock (log.last * blockSize)).setNextBlockErases log.lastErases, k⟩
      else
        ⟨d, l, log.movedTo (k + 1 : Nat),
          if k % 16 = 0 then mem.setEraseCount log.lastErases else mem, k⟩ := by
  have hmod : ∀ i : Nat, ((k : Int) + i).tmod blockSize = ((k + i) % 16 : Nat) := fun i =>
    (Int.ofNat_tmod (k + i) 16).symm
  have h0 : (k : Int).tmod blockSize = (k % 16 : Nat) := hmod 0
  have h3 : (cint ((k : Int) + 3)).tmod blockSize = ((k + 3) % 16 : Nat) := by
    rw [cint_eq (by unfold IsInt; omega)]; exact hmod 3
  have h2 : (cint ((k : Int) + 2)).tmod blockSize = ((k + 2) % 16 : Nat) := by
    rw [cint_eq (by unfold IsInt; omega)]; exact hmod 2
  have h1 : ((k + 1 : Nat) : Int).tmod blockSize = ((k + 1) % 16 : Nat) := hmod 1
  have hnext : cint ((k : Int) + 1) = ((k + 1 : Nat) : Int) := by
    rw [cint_eq (by unfold IsInt; omega)]; push_cast; rfl
  -- the four conditions, each about the place in the block
  have hc0 : ((k % 16 : Nat) : Int) = 0 ↔ k % 16 = 0 := Int.natCast_eq_zero
  have hc3 : (((k + 3) % 16 : Nat) : Int) = 0 ↔ k % 16 = 13 := by omega
  have hc2 : (((k + 2) % 16 : Nat) : Int) = 0 ↔ k % 16 = 14 := by omega
  have hc1 : (((k + 1) % 16 : Nat) : Int) = 0 ↔ k % 16 = 15 := by omega
  simp only [getFreePage, h, h0, h1, h2, h3, hnext, hc0, hc1, hc2, hc3]
  by_cases h0 : k % 16 = 0
  · simp only [h0, if_true]
    rfl
  · simp only [h0, if_false]
    split_ifs
    · rfl
    · rfl
    · rfl
    · rfl

theorem cint_tmod_eq_zero_iff (v : Int) : (cint v).tmod blockSize = 0 ↔ v % 16 = 0 := by
  have hmod := cint_emod v
  have hdvd : (cint v).tmod 16 = 0 ↔ cint v % 16 = 0 := by
    rw [← Int.dvd_iff_tmod_eq_zero, Int.dvd_iff_emod_eq_zero]
  refine Iff.trans hdvd ?_
  omega

theorem log_getFreePage (d : Nand) (l : FreeList) (log : ActiveLog) (mem : FullPage)
    (hlog : IsInt log.nextPage) :
    (getFreePage d l log mem).log.nextPage =
      (if log.nextPage % 16 = 13 then cint (log.log.prev * 16 + 15)
      else if log.nextPage % 16 = 14 then l.completeHead
      else if log.nextPage % 16 = 15 then cint (log.last * 16 + 14)
      else cint (log.nextPage + 1)) ∧
    (getFreePage d l log mem).log.last =
      (if log.nextPage % 16 = 14 then l.completeHead.tdiv 16 else log.last) ∧
    (getFreePage d l log mem).log.log.prev = log.log.prev := by
  have h0 := cint_tmod_eq_zero_iff log.nextPage
  rw [cint_eq hlog] at h0
  have hpage : (getFreeBlock d l 0).freePage = l.completeHead := rfl
  unfold getFreePage
  simp only [h0, cint_tmod_eq_zero_iff, hpage]
  split_ifs <;> first | omega | exact ⟨rfl, rfl, by simp⟩

theorem lists_getFreePage (d : Nand) (l : FreeList) (log : ActiveLog) (mem : FullPage)
    (h14 : log.nextPage % 16 ≠ 14) :
    (getFreePage d l log mem).nand = d ∧ (getFreePage d l log mem).lists = l := by
  unfold getFreePage
  simp only [cint_tmod_eq_zero_iff]
  split_ifs <;> first | omega | exact ⟨rfl, rfl⟩

end

/-! ## Runs -/

/-- One use of `getFreePage`: what `malloc` left in the page, and what the
    caller makes of the page before it writes it. -/
structure PageUse where
  mem : FullPage
  fill : FullPage → FullPage

/-- A page handed to a log whose blocks are `blocks`, after the pages `seen`, is
    good: a valid address in one of the blocks, new, and taken by the device. -/
structure GoodPage (n : Nat) (blocks seen : List Int) (p : FreePage) (buf : FullPage) : Prop where
  valid : 0 ≤ p.address ∧ p.address < 16 * n
  inLog : blockOf p.address ∈ blocks
  fresh : p.address ∉ seen
  accepted : (writeNAND p.nand buf p.address 0).2 ≠ -1

/-- All pages of a run of `getFreePage` calls, each page being written at once,
    are good. The log's blocks are those it started with and every `last` since. -/
def GoodPages (n : Nat) (d : Nand) (l : FreeList) (log : ActiveLog) (blocks seen : List Int) :
    List PageUse → Prop
  | [] => True
  | u :: uses =>
    let p := getFreePage d l log u.mem
    GoodPage n (p.log.last :: blocks) seen p (u.fill p.page) ∧
    GoodPages n (writeNAND p.nand (u.fill p.page) p.address 0).1 p.lists p.log
      (p.log.last :: blocks) (p.address :: seen) uses

/-- How many pages a log gets right that starts at page `o` of its block, while
    the complete list starts at `c`. -/
def goodCount (o : Int) (c : Int) : Nat :=
  if o ≤ 13 then (14 - o).toNat else if o = 14 ∧ c % 16 = 0 then 15 else 1

section
variable {d : Nand} {n : Nat} {l : FreeList} {log : ActiveLog} {blocks seen : List Int}
  {b j : Nat}

theorem blockOf_page {b j : Nat} (hj : j < 16) : blockOf ((16 * b + j : Nat) : Int) = b := by
  rw [blockOf_natCast]
  congr 1
  omega

/-- Past the third to last page there is no good page: the address is negative. -/
theorem goodPages_negative (h : log.nextPage = -1) (uses : List PageUse) :
    GoodPages n d l log blocks seen uses ↔ uses.length ≤ 0 := by
  cases uses with
  | nil => simp [GoodPages]
  | cons u uses =>
    have haddr : (getFreePage d l log u.mem).address = -1 := by rw [address_getFreePage, h]
    constructor
    · intro hg
      have := hg.1.valid.1
      rw [haddr] at this
      omega
    · intro hlen
      simp at hlen

/-- From page `j ≤ 13` of a block whose write pointer is there, the pages up to
    the third to last are good, and no more. -/
theorem goodPages_from (uses : List PageUse) : ∀ {d : Nand} {l : FreeList} {log : ActiveLog}
    {blocks seen : List Int} {j : Nat}, d.Sound n → b < n → j ≤ 13 →
    log.nextPage = (16 * b + j : Nat) → d.nextPage b = j → log.log.prev = -1 →
    (b : Int) ∈ blocks → (∀ a ∈ seen, blockOf a = b → a < (16 * b + j : Nat)) →
    (GoodPages n d l log blocks seen uses ↔ uses.length ≤ 14 - j) := by
  induction uses with
  | nil => intros; simp [GoodPages]
  | cons u uses ih =>
    intro d l log blocks seen j hs hb hj hnext hptr hprev hblk hseen
    have hfit := hs.fits
    have hk : 16 * b + j < 16 * n := by omega
    have hmod : (16 * b + j) % 16 = j := by omega
    have hdiv : (16 * b + j) / 16 = b := by omega
    have ha : d.Accepts (16 * b + j) 0 := by
      refine .inr ?_
      rw [hdiv, hptr, hmod]
    have heq : getFreePage d l log u.mem = _ := getFreePage_eq hnext (by omega)
    rw [hmod, if_neg (show j ≠ 14 by omega), if_neg (show j ≠ 15 by omega)] at heq
    have hgood : ∀ (log' : ActiveLog) (page buf : FullPage),
        GoodPage n (log'.last :: blocks) seen ⟨d, l, log', page, (16 * b + j : Nat)⟩ buf :=
      fun log' page buf =>
      { valid := by constructor <;> push_cast <;> omega
        inLog := by
          rw [blockOf_page (by omega)]
          exact List.mem_cons_of_mem _ hblk
        fresh := fun hm => by
          have hlt := hseen ((16 * b + j : Nat) : Int) hm (blockOf_page (by omega))
          exact lt_irrefl _ hlt
        accepted := (writeNAND_ret hs buf hk 0).mpr ha }
    by_cases h13 : j = 13
    · rw [if_pos h13] at heq
      have hneg : cint (log.log.prev * blockSize + (blockSize - 1)) = -1 := by rw [hprev]; rfl
      rw [hneg] at heq
      rw [GoodPages, heq, goodPages_negative (by rfl)]
      simp only [List.length_cons]
      constructor
      · rintro ⟨-, hlen⟩
        omega
      · intro hlen
        exact ⟨hgood _ _ _, by omega⟩
    · rw [if_neg h13] at heq
      rw [GoodPages, heq]
      set buf := u.fill (if j = 0 then u.mem.setEraseCount log.lastErases else u.mem) with hbuf
      have hptr' : (writeNAND d buf ((16 * b + j : Nat) : Int) 0).1.nextPage b = (j + 1 : Nat) := by
        rw [nextPage_writeNAND hs buf hk ha, hdiv, if_pos ⟨rfl, rfl⟩, hptr]
        push_cast
        rfl
      have hprev' : (log.movedTo (16 * b + j + 1 : Nat)).log.prev = -1 := by
        rw [ActiveLog.movedTo, prev_setActive, hprev]
      have hseen' : ∀ a ∈ ((16 * b + j : Nat) : Int) :: seen, blockOf a = b →
          a < (16 * b + (j + 1) : Nat) := by
        intro a hm hab
        rcases List.mem_cons.mp hm with rfl | hm
        · push_cast; omega
        · have := hseen a hm hab
          push_cast at this ⊢
          omega
      have hrest : GoodPages n (writeNAND d buf ((16 * b + j : Nat) : Int) 0).1 l
          (log.movedTo (16 * b + j + 1 : Nat)) ((log.movedTo (16 * b + j + 1 : Nat)).last :: blocks)
          (((16 * b + j : Nat) : Int) :: seen) uses ↔ uses.length ≤ 14 - (j + 1) :=
        ih (sound_writeNAND hs buf _ 0) hb (by omega) rfl hptr' hprev'
          (List.mem_cons_of_mem _ hblk) hseen'
      simp only [List.length_cons]
      constructor
      · rintro ⟨-, hg⟩
        have := hrest.mp hg
        omega
      · intro hlen
        exact ⟨hgood _ _ _, hrest.mpr (by omega)⟩

/-- The complete list's head is on the device, also when the list is empty. -/
theorem FreeLists.completeHead_lt {ps cs : List Nat} (h : FreeLists d n l ps cs) (hn : 0 < n) :
    ∃ a : Nat, a < 16 * n ∧ l.completeHead = a := by
  cases cs with
  | nil => exact ⟨0, by omega, h.completeHead_nil⟩
  | cons c cs => exact ⟨c, (h.inRange c (by simp)).2, h.completeHead_eq⟩

/-- Where the write pointer is not at the log's next page, no page is good:
    taking a block for the log can only set the pointer to 0. -/
theorem goodPages_refused {ps cs : List Nat} {k : Nat} (hs : d.Sound n) (hk : k < 16 * n)
    (hl : FreeLists d n l ps cs) (hnext : log.nextPage = k)
    (hptr : d.nextPage (k / 16) ≠ (k % 16 : Nat)) (uses : List PageUse) :
    GoodPages n d l log blocks seen uses ↔ uses.length ≤ 0 := by
  cases uses with
  | nil => simp [GoodPages]
  | cons u uses =>
    have hfit := hs.fits
    obtain ⟨a, han, ha⟩ := hl.completeHead_lt (show 0 < n by omega)
    obtain ⟨hs', -, hptr', -⟩ := getFreeBlock_complete_views hs han (.inl rfl) ha
    have heq : getFreePage d l log u.mem = _ := getFreePage_eq hnext (by omega)
    have hno : ¬ (getFreePage d l log u.mem).nand.Accepts k 0 ∧
        (getFreePage d l log u.mem).nand.Sound n := by
      rw [heq]
      by_cases h13 : k % 16 = 13
      · rw [if_pos h13]
        exact ⟨fun hacc => hptr (hacc.resolve_left (by simp)), hs⟩
      rw [if_neg h13]
      by_cases h14 : k % 16 = 14
      · rw [if_pos h14]
        refine ⟨fun hacc => ?_, hs'⟩
        have hk14 := hacc.resolve_left (by simp)
        rw [hptr'] at hk14
        split at hk14
        · omega
        · exact hptr hk14
      rw [if_neg h14]
      by_cases h15 : k % 16 = 15
      · rw [if_pos h15]
        exact ⟨fun hacc => hptr (hacc.resolve_left (by simp)), hs⟩
      · rw [if_neg h15]
        exact ⟨fun hacc => hptr (hacc.resolve_left (by simp)), hs⟩
    have haddr : (getFreePage d l log u.mem).address = k := by rw [address_getFreePage, hnext]
    constructor
    · rintro ⟨hg, -⟩
      have hacc := hg.accepted
      rw [haddr, writeNAND_ret hno.2 _ hk] at hacc
      exact absurd hacc hno.1
    · intro hlen
      simp at hlen

end

/-! ## A new log -/

section
variable {s s' : CYCstate} {n : Nat} {ps cs : List Nat} {theLog : Ptr} {header : Int}
  {fileID : Int} {mode : UInt32} {mem : ActiveLog}

/-- What `getFreePage` looks at in a log that `getLogForFile` has just made at
    page `k`, while `ps` and `cs` are left on the lists. -/
structure NewLog (s : CYCstate) (n : Nat) (theLog : Ptr) (k : Nat) (ps cs : List Nat) : Prop where
  sound : s.nand.Sound n
  inRange : k < 16 * n
  nextPage : (s.activeLogs theLog).nextPage = k
  last : (s.activeLogs theLog).last = (k / 16 : Nat)
  prev : (s.activeLogs theLog).log.prev = -1
  freeLists : FreeLists s.nand n s.lists ps cs
  apart : ∀ q ∈ ps ++ cs, q / 16 ≠ k / 16

theorem activeLogs_getLogForFile {k : Nat}
    (hr : getLogForFile s fileID mode mem = (s', theLog, header))
    (hk : (getFreeBlock s.nand s.lists 1).freePage = k) (hfit : k < 2147483648) :
    s'.nand = (getFreeBlock s.nand s.lists 1).nand ∧
    s'.lists = (getFreeBlock s.nand s.lists 1).lists ∧ header = k ∧
    (s'.activeLogs theLog).nextPage = k ∧ (s'.activeLogs theLog).last = (k / 16 : Nat) ∧
    (s'.activeLogs theLog).log.prev = -1 := by
  simp only [getLogForFile, hk, Prod.mk.injEq] at hr
  obtain ⟨rfl, rfl, rfl⟩ := hr
  have hdiv : (k : Int).tdiv blockSize = (k / 16 : Nat) := (Int.ofNat_tdiv k 16).symm
  refine ⟨rfl, rfl, rfl, ?_, ?_, ?_⟩
  · simp only [update_same]
  · simp only [update_same, first_newLogHeader, hdiv]
    rw [cint_eq (by unfold IsInt; omega)]
  · simp only [update_same, prev_newLogHeader]

theorem newLog_getLogForFile (hs : s.nand.Sound n) (hl : FreeLists s.nand n s.lists ps cs)
    (hne : ps ++ cs ≠ []) (hr : getLogForFile s fileID mode mem = (s', theLog, header)) :
    ∃ k : Nat, header = k ∧
      ((∃ ps', NewLog s' n theLog k ps' cs) ∨
        ∃ cs', NewLog s' n theLog k [] cs' ∧ s'.nand.nextPage (k / 16) = 0) := by
  have hfits := hs.fits
  cases ps with
  | cons p ps =>
    obtain ⟨-, hpn⟩ := hl.inRange p (by simp)
    have hroom := hl.room p List.mem_cons_self
    obtain ⟨hsame, hpage, htail⟩ := freeLists_getFreeBlock_partial hs hl (show (1 : Int) ≠ 0 by omega)
    obtain ⟨hnand, hlists, hh, hnext, hlast, hprev⟩ := activeLogs_getLogForFile hr
      (show (getFreeBlock s.nand s.lists 1).freePage = ((p + 1 : Nat) : Int) by
        rw [hpage]; push_cast; rfl) (by omega)
    refine ⟨p + 1, hh, .inl ⟨ps, ?_, by omega, hnext, hlast, hprev, ?_, fun q hq => ?_⟩⟩
    · rw [hnand]; exact hsame.sound hs
    · rw [hnand, hlists]; exact htail
    · have := hl.block_ne hq
      omega
  | nil =>
    cases cs with
    | nil => exact absurd rfl hne
    | cons c cs =>
      obtain ⟨-, hcn⟩ := hl.inRange c (by simp)
      obtain ⟨hpage, htail⟩ := freeLists_getFreeBlock_complete hs hl (.inr rfl)
      obtain ⟨hs', -, hptr, -⟩ : (getFreeBlock s.nand s.lists 1).nand.Sound n ∧ _ :=
        getFreeBlock_complete_views hs hcn (.inr hl.partialHead_nil) hl.completeHead_eq
      obtain ⟨hnand, hlists, hh, hnext, hlast, hprev⟩ := activeLogs_getLogForFile hr hpage (by omega)
      refine ⟨c, hh, .inr ⟨cs, ⟨?_, hcn, hnext, hlast, hprev, ?_, fun q hq => ?_⟩, ?_⟩⟩
      · rw [hnand]; exact hs'
      · rw [hnand, hlists]; exact htail
      · exact hl.complete_block_ne hq
      · rw [hnand, hptr, if_pos rfl]

/-- The second to last page: a block comes off the complete list first. -/
theorem NewLog.goodPages_secondToLast {k c : Nat} (h : NewLog s n theLog k ps (c :: cs))
    (h14 : k % 16 = 14) (hptr : s.nand.nextPage (k / 16) = (k % 16 : Nat)) (u : PageUse)
    (uses : List PageUse) :
    GoodPages n s.nand s.lists (s.activeLogs theLog) [((k / 16 : Nat) : Int)] [] (u :: uses) ↔
      uses.length + 1 ≤ if c % 16 = 0 then 15 else 1 := by
  have hfits := h.sound.fits
  have hk := h.inRange
  have hblk := blockOf_natCast k
  have heq : getFreePage s.nand s.lists (s.activeLogs theLog) u.mem = _ :=
    getFreePage_eq h.nextPage (by omega)
  obtain ⟨-, hcn⟩ := h.freeLists.inRange c (by simp)
  have hck : c / 16 ≠ k / 16 := h.apart c (by simp)
  have hch := h.freeLists.completeHead_eq
  obtain ⟨hpage, htail⟩ := freeLists_getFreeBlock_complete h.sound h.freeLists (.inl rfl)
  obtain ⟨hs', -, hptr', -⟩ : (getFreeBlock s.nand s.lists 0).nand.Sound n ∧ _ :=
    getFreeBlock_complete_views h.sound hcn (.inl rfl) hch
  have ha : (getFreeBlock s.nand s.lists 0).nand.Accepts k 0 := by
    refine .inr ?_
    rw [hptr', if_neg (fun hb => hck hb.symm), hptr]
  rw [if_neg (by omega), if_pos h14, hpage] at heq
  rw [GoodPages, heq]
  set d' := (getFreeBlock s.nand s.lists 0).nand
  set l' := (getFreeBlock s.nand s.lists 0).lists
  set page := (u.mem.setNextLogBlock (c : Int)).setNextBlockErases
    (getFreeBlock s.nand s.lists 0).freePageErases
  set log' : ActiveLog := { (s.activeLogs theLog).movedTo (c : Int) with
    last := (c : Int).tdiv blockSize
    lastErases := (getFreeBlock s.nand s.lists 0).freePageErases }
  have hnext' : log'.nextPage = c := rfl
  have hlast' : log'.last = ((c / 16 : Nat) : Int) := (Int.ofNat_tdiv c 16).symm
  have hprev' : log'.log.prev = -1 := (prev_setActive _ _).trans h.prev
  have hgood : GoodPage n [log'.last, ((k / 16 : Nat) : Int)] [] ⟨d', l', log', page, k⟩
      (u.fill page) :=
    { valid := by constructor <;> push_cast <;> omega
      inLog := by rw [hblk]; simp
      fresh := by simp
      accepted := (writeNAND_ret hs' _ hk 0).mpr ha }
  have hs'' := sound_writeNAND hs' (u.fill page) k 0
  have hptr'' : (writeNAND d' (u.fill page) (k : Int) 0).1.nextPage (c / 16) = 0 := by
    rw [nextPage_writeNAND hs' _ hk ha, if_neg (fun hb => hck hb.1), hptr', if_pos rfl]
  by_cases hc16 : c % 16 = 0
  · -- the new block from its first page on
    have hrest : GoodPages n (writeNAND d' (u.fill page) (k : Int) 0).1 l' log'
        [log'.last, ((k / 16 : Nat) : Int)] [(k : Int)] uses ↔ uses.length ≤ 14 - 0 := by
      refine goodPages_from uses hs'' (show c / 16 < n by omega) (Nat.zero_le 13) ?_ hptr''
        hprev' ?_ fun a ha' hab => ?_
      · rw [hnext']; congr 1; omega
      · rw [hlast']; exact List.mem_cons_self
      · rw [List.mem_singleton.mp ha', hblk] at hab
        exact absurd (by exact_mod_cast hab) hck.symm
    rw [hrest, if_pos hc16]
    constructor
    · rintro ⟨-, hlen⟩; omega
    · exact fun hlen => ⟨hgood, by omega⟩
  · -- the erased block's write pointer is not at the page the list named
    have htail' : FreeLists (writeNAND d' (u.fill page) (k : Int) 0).1 n l' ps cs := by
      refine htail.congr rfl rfl fun q hq j hj => ?_
      rw [page_writeNAND hs' _ hk ha, if_neg]
      rintro rfl
      exact h.apart q (by simp at hq ⊢; tauto) hj.symm
    have hrest : GoodPages n (writeNAND d' (u.fill page) (k : Int) 0).1 l' log'
        [log'.last, ((k / 16 : Nat) : Int)] [(k : Int)] uses ↔ uses.length ≤ 0 :=
      goodPages_refused hs'' hcn htail' hnext' (by rw [hptr'']; omega) uses
    rw [hrest, if_neg hc16]
    constructor
    · rintro ⟨-, hlen⟩; omega
    · exact fun hlen => ⟨hgood, by omega⟩

/-- The last page: the next one would be the second to last, already passed. -/
theorem NewLog.goodPages_last {k : Nat} (h : NewLog s n theLog k ps cs) (h15 : k % 16 = 15)
    (hptr : s.nand.nextPage (k / 16) = (k % 16 : Nat)) (u : PageUse) (uses : List PageUse) :
    GoodPages n s.nand s.lists (s.activeLogs theLog) [((k / 16 : Nat) : Int)] [] (u :: uses) ↔
      uses.length + 1 ≤ 1 := by
  have hfits := h.sound.fits
  have hk := h.inRange
  have hblk := blockOf_natCast k
  have heq : getFreePage s.nand s.lists (s.activeLogs theLog) u.mem = _ :=
    getFreePage_eq h.nextPage (by omega)
  rw [if_neg (by omega), if_neg (by omega), if_pos h15] at heq
  rw [GoodPages, heq]
  set page := (u.mem.setNextLogBlock ((s.activeLogs theLog).last * blockSize)).setNextBlockErases
    (s.activeLogs theLog).lastErases
  set log' := (s.activeLogs theLog).movedTo
    (cint ((s.activeLogs theLog).last * blockSize + (blockSize - 2)))
  have ha : s.nand.Accepts k 0 := .inr hptr
  have hnext' : log'.nextPage = ((16 * (k / 16) + 14 : Nat) : Int) := by
    show cint ((s.activeLogs theLog).last * blockSize + (blockSize - 2)) = _
    rw [h.last]
    simp only [blockSize]
    rw [cint_eq (by unfold IsInt; omega)]
    omega
  have hgood : GoodPage n [log'.last, ((k / 16 : Nat) : Int)] []
      ⟨s.nand, s.lists, log', page, k⟩ (u.fill page) :=
    { valid := by constructor <;> push_cast <;> omega
      inLog := by rw [hblk]; simp
      fresh := by simp
      accepted := (writeNAND_ret h.sound _ hk 0).mpr ha }
  have htail' : FreeLists (writeNAND s.nand (u.fill page) (k : Int) 0).1 n s.lists ps cs := by
    refine h.freeLists.congr rfl rfl fun q hq j hj => ?_
    rw [page_writeNAND h.sound _ hk ha, if_neg]
    rintro rfl
    exact h.apart q hq hj.symm
  have hptr' : (writeNAND s.nand (u.fill page) (k : Int) 0).1.nextPage
      ((16 * (k / 16) + 14) / 16) ≠ ((16 * (k / 16) + 14) % 16 : Nat) := by
    rw [nextPage_writeNAND h.sound _ hk ha, if_pos ⟨by omega, rfl⟩,
      show (16 * (k / 16) + 14) / 16 = k / 16 by omega, hptr]
    omega
  have hrest : GoodPages n (writeNAND s.nand (u.fill page) (k : Int) 0).1 s.lists log'
      [log'.last, ((k / 16 : Nat) : Int)] [(k : Int)] uses ↔ uses.length ≤ 0 :=
    goodPages_refused (sound_writeNAND h.sound _ _ 0) (by omega) htail' hnext' hptr' uses
  rw [hrest]
  constructor
  · rintro ⟨-, hlen⟩; omega
  · exact fun hlen => ⟨hgood, by omega⟩

theorem NewLog.goodPages_iff {k : Nat} (h : NewLog s n theLog k ps cs)
    (hptr : s.nand.nextPage (k / 16) = (k % 16 : Nat)) (henough : k % 16 = 14 → cs ≠ [])
    (uses : List PageUse) :
    GoodPages n s.nand s.lists (s.activeLogs theLog) [((k / 16 : Nat) : Int)] [] uses ↔
      uses.length ≤ goodCount (k % 16 : Nat) s.lists.completeHead := by
  have hk := h.inRange
  by_cases h13 : k % 16 ≤ 13
  · have hnext : (s.activeLogs theLog).nextPage = (16 * (k / 16) + k % 16 : Nat) := by
      rw [h.nextPage]
      congr 1
      omega
    rw [goodCount, if_pos (by omega), goodPages_from uses h.sound (show k / 16 < n by omega) h13
      hnext hptr h.prev (by simp) (by simp)]
    omega
  cases uses with
  | nil => simp [GoodPages]
  | cons u uses =>
    rw [goodCount, if_neg (by omega), List.length_cons]
    by_cases h14 : k % 16 = 14
    · obtain ⟨c, cs, rfl⟩ := List.exists_cons_of_ne_nil (henough h14)
      rw [h.goodPages_secondToLast h14 hptr, h.freeLists.completeHead_eq]
      by_cases hc16 : c % 16 = 0
      · rw [if_pos hc16, if_pos (by omega)]
      · rw [if_neg hc16, if_neg (by omega)]
    · rw [h.goodPages_last (by omega) hptr, if_neg (by omega)]

/-- A log made by `getLogForFile`, its first page being the next free page of
    its block, gets exactly `goodCount` good pages from `getFreePage`. -/
theorem goodPages_getLogForFile_iff (hs : s.nand.Sound n) (hl : FreeLists s.nand n s.lists ps cs)
    (hne : ps ++ cs ≠ []) (hr : getLogForFile s fileID mode mem = (s', theLog, header))
    (hfree : s'.nand.nextPage (header.toNat / 16) = header % 16)
    (henough : header % 16 = 14 → cs ≠ []) (uses : List PageUse) :
    GoodPages n s'.nand s'.lists (s'.activeLogs theLog) [blockOf header] [] uses ↔
      uses.length ≤ goodCount (header % 16) s'.lists.completeHead := by
  obtain ⟨k, rfl, ⟨ps', hlog⟩ | ⟨cs', hlog, hzero⟩⟩ := newLog_getLogForFile hs hl hne hr
  · rw [blockOf_natCast]
    exact hlog.goodPages_iff (by simpa using hfree) (fun h => henough (by exact_mod_cast h)) uses
  · rw [Int.toNat_natCast, hzero] at hfree
    rw [blockOf_natCast]
    exact hlog.goodPages_iff (by rw [hzero]; exact_mod_cast hfree)
      (fun h => by omega) uses

end

/-! ## The first file of a new file system -/

theorem FreshMount.first_log {s s' : CYCstate} {n : Nat} {theLog : Ptr} {header fileID : Int}
    {mode : UInt32} {mem : ActiveLog} (h : FreshMount s n) (hn : 4 ≤ n)
    (hr : getLogForFile s fileID mode mem = (s', theLog, header)) :
    header = 33 ∧ s'.nand.nextPage 2 = 1 := by
  obtain ⟨m, rfl⟩ : ∃ m, n = m + 4 := ⟨n - 4, by omega⟩
  have hlist : FreeLists s.nand (m + 4) s.lists (32 :: (List.range' 3 (m + 1)).map (16 * ·)) [] :=
    h.freeLists
  obtain ⟨hsame, hpage, -⟩ := freeLists_getFreeBlock_partial h.image.sound hlist
    (show (1 : Int) ≠ 0 by omega)
  simp only [getLogForFile, Prod.mk.injEq] at hr
  obtain ⟨rfl, -, rfl⟩ := hr
  refine ⟨hpage, ?_⟩
  show (getFreeBlock s.nand s.lists 1).nand.nextPage 2 = 1
  rw [hsame.nextPage, h.image.nextPage, if_pos (by omega)]

/-- The first file of a new file system gets 13 good pages. -/
theorem goodPages_first_file :
    GoodPages 4 (getLogForFile (newFileSystem 4) 1 0 default).1.nand
      (getLogForFile (newFileSystem 4) 1 0 default).1.lists
      ((getLogForFile (newFileSystem 4) 1 0 default).1.activeLogs
        (getLogForFile (newFileSystem 4) 1 0 default).2.1)
      [blockOf (getLogForFile (newFileSystem 4) 1 0 default).2.2] []
      (List.replicate 13 ⟨default, id⟩) := by
  have hm := freshMount_newFileSystem (n := 4) (by omega) (by omega)
  generalize hr : getLogForFile (newFileSystem 4) 1 0 default = r
  obtain ⟨s', theLog, header⟩ := r
  obtain ⟨rfl, hptr⟩ := hm.first_log (le_refl 4) hr
  exact (goodPages_getLogForFile_iff hm.image.sound hm.freeLists (by decide) hr hptr (by decide)
    _).mpr (by simp [goodCount])

/-- The 14th page of the first file's log has address -1. -/
theorem bad_page_of_first_file :
    ¬ GoodPages 4 (getLogForFile (newFileSystem 4) 1 0 default).1.nand
      (getLogForFile (newFileSystem 4) 1 0 default).1.lists
      ((getLogForFile (newFileSystem 4) 1 0 default).1.activeLogs
        (getLogForFile (newFileSystem 4) 1 0 default).2.1)
      [blockOf (getLogForFile (newFileSystem 4) 1 0 default).2.2] []
      (List.replicate 14 ⟨default, id⟩) := by
  have hm := freshMount_newFileSystem (n := 4) (by omega) (by omega)
  generalize hr : getLogForFile (newFileSystem 4) 1 0 default = r
  obtain ⟨s', theLog, header⟩ := r
  obtain ⟨rfl, hptr⟩ := hm.first_log (le_refl 4) hr
  obtain ⟨k, hk, hlog⟩ := newLog_getLogForFile hm.image.sound hm.freeLists (by decide) hr
  obtain rfl : k = 33 := by omega
  have hcount : ¬ (List.replicate 14 (⟨default, id⟩ : PageUse)).length ≤
      goodCount (33 % 16 : Nat) s'.lists.completeHead := by
    simp [goodCount]
  rcases hlog with ⟨ps, hlog⟩ | ⟨cs, hlog, -⟩
  · exact fun hg => hcount ((hlog.goodPages_iff (by exact_mod_cast hptr) (by decide) _).mp hg)
  · exact fun hg => hcount ((hlog.goodPages_iff (by exact_mod_cast hptr) (by simp) _).mp hg)

end Cycology
