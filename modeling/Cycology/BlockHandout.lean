import Cycology.Makefs
import Cycology.Helper

/- Handing out the blocks of a new file system.

   First what a mount of a `makefs` image finds: the partial list with every
   block from 2 on, and a fresh address map. Then every sequence of
   `getFreeBlock` calls on it, for new files (`newFile` not 0) and for logs that
   grow (`newFile` = 0), in any order.

   The calls are safe exactly as long as they are all for new files and the
   partial list lasts. The complete list of a new file system is empty, and an
   empty list is the address 0: `getFreeBlock` takes it for a block and erases
   the superblock (`noDoubleAllocation_iff`). -/
namespace Cycology
open ByteMem LinkedChain Nand

/-! ## Mounting an image -/

section
variable {p : FullPage} {s f : Nat}

theorem size_page (p : FullPage) : AddrMap.size ⟨1048, p⟩ = (AddrMap.ofPage p).size := by
  show p.int 0 = p.contents.int 0
  rw [FullPage.contents, Buf.int_slice _ _ (by omega)]

theorem int_loadVaddrMap (h : (AddrMap.ofPage p).size = s) {o : Nat} (ho : o + 4 ≤ 8 + 4 * s)
    (hfit : o + 4 ≤ 1024) : (loadVaddrMap p).mem.int o = p.contents.int o := by
  rw [FullPage.contents, Buf.int_slice _ _ hfit, Nat.zero_add]
  apply getInt_congr
  intro j hj
  refine Buf.byte_ofFn_lt _ ?_
  show o + j < AddrMap.bytesFor (AddrMap.size ⟨1048, p⟩)
  rw [size_page, h, AddrMap.bytesFor]
  omega

theorem freeSlots_loadVaddrMap (h : FreeSlots (AddrMap.ofPage p) s f) (hs : 2 ≤ s)
    (hfit : 8 + 4 * s ≤ 1024) : FreeSlots (loadVaddrMap p) s f where
  alloc := by
    show 8 + 4 * s ≤ AddrMap.bytesFor (AddrMap.size ⟨1048, p⟩)
    rw [size_page, h.size, AddrMap.bytesFor]
    omega
  fits := h.fits
  size := (int_loadVaddrMap h.size (by omega) (by omega)).trans h.size
  freePtr := (int_loadVaddrMap h.size (by omega) (by omega)).trans h.freePtr
  chain j h1 hj := (int_loadVaddrMap h.size (by omega) (by omega)).trans (h.chain j h1 hj)
  last := (int_loadVaddrMap h.size (by omega) (by omega)).trans h.last

end

theorem ofPage_setContents (p : FullPage) (m : AddrMap) (h : m.alloc = 1024) (v : Int) :
    AddrMap.ofPage ((p.setContents m.mem).setPageType v) = m := by
  obtain ⟨alloc, mem⟩ := m
  subst h
  rw [AddrMap.ofPage, FullPage.contents, FullPage.setPageType, Buf.setNum,
    Buf.slice_blit_other _ _ (by omega), FullPage.setContents,
    Buf.slice_blit_same _ _ (show 0 + 1024 ≤ 1048 by omega)]

theorem freeSlots_vaddrMapImage : FreeSlots (AddrMap.ofPage vaddrMapImage) 254 1 := by
  have hsize : ((pageDataSize : Int) / 4 - 2) = ((254 : Nat) : Int) := rfl
  have halloc : (initVaddrMap (AddrMap.ofPage clearPage) ((254 : Nat) : Int)).alloc = 1024 :=
    alloc_initVaddrMap _ _
  rw [vaddrMapImage, hsize, ofPage_setContents _ _ halloc]
  exact freeSlots_initVaddrMap (by omega) (by omega) (by show 8 + 4 * 254 ≤ 1024; omega)

/-- Page 0 of every block from 2 on: the partial list of a new file system. -/
def newPartialList (n : Nat) : List Nat := (List.range' 2 (n - 2)).map (16 * ·)

namespace Image
variable {d d' : Nand} {n : Nat}

theorem of_sameStore (h : Image d n) (hsame : SameStore d d') : Image d' n where
  sound := hsame.sound h.sound
  labelled := hsame.labelled h.labelled
  super := by rw [hsame.page, h.super]
  vaddrMap := by rw [hsame.page, h.vaddrMap]
  link i h2 hi := by rw [hsame.page, h.link i h2 hi]
  blank k hk := by rw [hsame.page, h.blank k hk]
  nextPage b := by rw [hsame.nextPage, h.nextPage]

theorem partialNext_link (h : Image d n) {i : Nat} (h2 : 2 ≤ i) (hi : i < n) :
    partialNext d (16 * i) = if i + 1 < n then some (16 * (i + 1)) else none := by
  have hfit := h.sound.fits
  rw [partialNext]
  split
  · rw [h.link i h2 ‹_›, nextLogBlock_linkPage (by omega)]
    exact ofLink_nat (by omega)
  · rw [h.blank _ (.inr (by omega)), nextLogBlock_zero]
    rfl

theorem partialChain (h : Image d n) (count : Nat) : ∀ i, 2 ≤ i → i + count + 1 = n →
    Chain (partialNext d) (some (16 * i)) ((List.range' i (count + 1)).map (16 * ·)) := by
  induction count with
  | zero =>
    intro i h2 hi
    refine ⟨rfl, ?_⟩
    rw [h.partialNext_link h2 (by omega), if_neg (by omega)]
    rfl
  | succ count ih =>
    intro i h2 hi
    refine ⟨rfl, ?_⟩
    rw [h.partialNext_link h2 (by omega), if_pos (by omega)]
    exact ih (i + 1) (by omega) (by omega)

theorem freeLists (h : Image d n) (hn : 3 ≤ n) {l : FreeList} (hp : l.partialHead = 32)
    (hc : l.completeHead = 0) : FreeLists d n l (newPartialList n) [] where
  partialChain := by
    obtain ⟨count, hcount⟩ : ∃ count, n - 2 = count + 1 := ⟨n - 3, by omega⟩
    rw [hp, newPartialList, hcount]
    exact h.partialChain count 2 (by omega) (by omega)
  completeChain := by rw [hc]; rfl
  inRange p hm := by
    simp only [newPartialList, List.append_nil, List.mem_map, List.mem_range'_1] at hm
    obtain ⟨i, hi, rfl⟩ := hm
    omega
  room p hm := by
    simp only [newPartialList, List.mem_map] at hm
    obtain ⟨i, -, rfl⟩ := hm
    omega
  apart := by
    rw [newPartialList, List.append_nil, List.map_map]
    have hid : ((fun p => p / 16) ∘ fun x => 16 * x) = (id : Nat → Nat) := by
      funext x
      simp
    rw [hid, List.map_id]
    exact List.nodup_range'

end Image

/-- What `initCYCstate` finds on the image `makefs` wrote. -/
structure FreshMount (s : CYCstate) (n : Nat) : Prop where
  image : Image s.nand n
  freeLists : FreeLists s.nand n s.lists (newPartialList n) []
  vaddrMap : FreeSlots s.vaddrMap 254 1

theorem freshMount_initCYCstate {s : CYCstate} {n : Nat} (h : Image s.nand n) (hn : 3 ≤ n) :
    FreshMount (initCYCstate s) n := by
  have hfit := h.sound.fits
  have hsuper : SuperPage.ofPage (s.nand.page 0) = newSuperBlock n := by
    rw [h.super, ofPage_superImage]
  obtain ⟨hsame, hlists, hmap⟩ := initCYCstate_spec h.sound (show 0 < n by omega)
    (show 16 < 16 * n by omega) (by rw [hsuper, latestVaddrMap_newSuperBlock]; rfl)
  obtain ⟨hph, -, hch, -⟩ := freeLists_newSuperBlock (show 1 ≤ n by omega) (by omega)
  have himage := h.of_sameStore hsame
  refine ⟨himage, himage.freeLists hn ?_ ?_, ?_⟩
  · rw [hlists, hsuper, hph]
  · rw [hlists, hsuper, hch]
  · rw [hmap, h.vaddrMap]
    exact freeSlots_loadVaddrMap freeSlots_vaddrMapImage (by omega) (by omega)

theorem freshMount_makefs {d : Nand} {n : Nat} (hz : Zeroed d n) (hn : 3 ≤ n) (frame : Block)
    (mem : CYCstate) : FreshMount (xmpInit (makefs d).1.file frame mem) n := by
  obtain ⟨himage, -⟩ := makefs_image hz hn
  exact freshMount_initCYCstate
    (himage.of_sameStore (sameStore_initNAND himage.sound himage.labelled frame)) hn

/-- A new file system of `n` blocks, mounted. -/
def newFileSystem (n : Nat) : CYCstate :=
  xmpInit (makefs (blankNAND n default)).1.file default default

theorem freshMount_newFileSystem {n : Nat} (hn : 3 ≤ n) (hfit : 8 + 16776 * n < 2147483648) :
    FreshMount (newFileSystem n) n :=
  freshMount_makefs (zeroed_blankNAND default hfit) hn default default

/-! ## Sequences of calls -/

/-- The block the page at `a` is in. -/
def blockOf (a : Int) : Int := a.tdiv blockSize

theorem blockOf_natCast (k : Nat) : blockOf (k : Int) = (k / 16 : Nat) :=
  (Int.ofNat_tdiv k 16).symm

/-- Pages, write pointer and erase count of block `b` are the same. -/
def SameBlock (d d' : Nand) (b : Nat) : Prop :=
  (∀ k, k / 16 = b → d'.page k = d.page k) ∧ d'.nextPage b = d.nextPage b ∧
    d'.eraseCount b = d.eraseCount b

/-- Whether the list a call would take a block from is empty. -/
def NoneLeft (l : FreeList) (newFile : Int) : Prop :=
  (newFile = 0 ∨ l.partialHead = 0) ∧ l.completeHead = 0

/-- A call is safe while the blocks `given` are in use: it returns no page of
    them and leaves them alone, and without a free block it changes nothing. -/
structure SafeCall (given : List Int) (d : Nand) (l : FreeList) (newFile : Int) : Prop where
  fresh : blockOf (getFreeBlock d l newFile).freePage ∉ given
  keeps : ∀ b : Nat, (b : Int) ∈ given → SameBlock d (getFreeBlock d l newFile).nand b
  refuses : NoneLeft l newFile → (getFreeBlock d l newFile).nand.file = d.file

/-- Every call of a sequence is safe, the blocks it hands out being in use from then on. -/
def NoDoubleAllocation (given : List Int) (d : Nand) (l : FreeList) : List Int → Prop
  | [] => True
  | newFile :: calls =>
    SafeCall given d l newFile ∧
    NoDoubleAllocation (blockOf (getFreeBlock d l newFile).freePage :: given)
      (getFreeBlock d l newFile).nand (getFreeBlock d l newFile).lists calls

section
variable {n : Nat}

/-- A call on an empty list hands out the block of the superblock. -/
theorem not_safeCall_of_noneLeft {d : Nand} {l : FreeList} {given : List Int} {newFile : Int}
    (hs : d.Sound n) (hn : 0 < n) (hl : NoneLeft l newFile) (h0 : (0 : Int) ∈ given) :
    ¬ SafeCall given d l newFile := by
  intro hsafe
  obtain ⟨-, -, -, -, hpage, -⟩ := getFreeBlock_complete hs (show 0 < 16 * n by omega) hl.1 hl.2
  have hfresh := hsafe.fresh
  rw [hpage] at hfresh
  exact hfresh h0

/-- While the partial list lasts, calls for new files are safe; no other call is. -/
theorem noDoubleAllocation_of_freeLists (calls : List Int) : ∀ {d : Nand} {l : FreeList}
    {ps : List Nat} {given : List Int}, d.Sound n → FreeLists d n l ps [] → 0 < n →
    (0 : Int) ∈ given → (∀ p ∈ ps, p % 16 = 0 ∧ ((p / 16 : Nat) : Int) ∉ given) →
    (NoDoubleAllocation given d l calls ↔
      (∀ newFile ∈ calls, newFile ≠ 0) ∧ calls.length ≤ ps.length) := by
  induction calls with
  | nil => intros; simp [NoDoubleAllocation]
  | cons newFile calls ih =>
    intro d l ps given hs hl hn h0 hfresh
    by_cases hf : newFile = 0
    · -- the log that grows finds the complete list empty
      have hbad : ¬ SafeCall given d l newFile :=
        not_safeCall_of_noneLeft hs hn ⟨.inl hf, hl.completeHead_nil⟩ h0
      constructor
      · exact fun h => absurd h.1 hbad
      · exact fun h => absurd hf (h.1 newFile List.mem_cons_self)
    · cases ps with
      | nil =>
        have hbad : ¬ SafeCall given d l newFile :=
          not_safeCall_of_noneLeft hs hn ⟨.inr hl.partialHead_nil, hl.completeHead_nil⟩ h0
        constructor
        · exact fun h => absurd h.1 hbad
        · intro h
          have := h.2
          simp at this
      | cons p ps =>
        obtain ⟨hsame, hpage, htail⟩ := freeLists_getFreeBlock_partial hs hl hf
        obtain ⟨hp16, hpg⟩ := hfresh p List.mem_cons_self
        have hblk : blockOf (getFreeBlock d l newFile).freePage = ((p / 16 : Nat) : Int) := by
          rw [hpage, show ((p : Int) + 1) = ((p + 1 : Nat) : Int) by push_cast; rfl, blockOf_natCast]
          congr 1
          omega
        have hsafe : SafeCall given d l newFile :=
          { fresh := by rw [hblk]; exact hpg
            keeps := fun b _ => ⟨fun k _ => hsame.page k, hsame.nextPage b, hsame.eraseCount b⟩
            refuses := fun _ => hsame.1 }
        have hfresh' : ∀ q ∈ ps, q % 16 = 0 ∧
            ((q / 16 : Nat) : Int) ∉ blockOf (getFreeBlock d l newFile).freePage :: given := by
          intro q hq
          obtain ⟨hq16, hqg⟩ := hfresh q (List.mem_cons_of_mem _ hq)
          refine ⟨hq16, fun hm => ?_⟩
          rcases List.mem_cons.mp hm with heq | hm
          · rw [hblk] at heq
            exact hl.block_ne (by simpa using hq) (by exact_mod_cast heq)
          · exact hqg hm
        have hrest := ih (hsame.sound hs) htail hn (List.mem_cons_of_mem _ h0) hfresh'
        rw [NoDoubleAllocation, hrest]
        simp only [List.mem_cons, forall_eq_or_imp, List.length_cons]
        constructor
        · rintro ⟨-, hcalls, hlen⟩
          exact ⟨⟨hf, hcalls⟩, by omega⟩
        · rintro ⟨⟨-, hcalls⟩, hlen⟩
          exact ⟨hsafe, hcalls, by omega⟩

end

/-- On a new file system, blocks 0 and 1 being in use, a sequence of
    `getFreeBlock` calls never hands out a block twice exactly when every call is
    for a new file and there are at most as many as blocks from 2 on. -/
theorem noDoubleAllocation_iff {n : Nat} (hn : 3 ≤ n) {d : Nand} (hz : Zeroed d n)
    (frame : Block) (mem : CYCstate) (calls : List Int) :
    NoDoubleAllocation [0, 1] (xmpInit (makefs d).1.file frame mem).nand
        (xmpInit (makefs d).1.file frame mem).lists calls ↔
      (∀ newFile ∈ calls, newFile ≠ 0) ∧ calls.length ≤ n - 2 := by
  have hm := freshMount_makefs hz hn frame mem
  have hlen : (newPartialList n).length = n - 2 := by simp [newPartialList]
  rw [← hlen]
  refine noDoubleAllocation_of_freeLists calls hm.image.sound hm.freeLists (by omega) (by simp)
    fun p hp => ?_
  simp only [newPartialList, List.mem_map, List.mem_range'_1] at hp
  obtain ⟨i, hi, rfl⟩ := hp
  refine ⟨by omega, ?_⟩
  rw [Nat.mul_div_cancel_left i (by omega)]
  simp only [List.mem_cons, List.not_mem_nil, or_false, not_or]
  omega

/-- Two files on a device of four blocks. -/
theorem noDoubleAllocation_two_files :
    NoDoubleAllocation [0, 1] (newFileSystem 4).nand (newFileSystem 4).lists [1, 1] :=
  (noDoubleAllocation_iff (by omega) (zeroed_blankNAND default (by omega)) default default
    [1, 1]).mpr (by decide)

/-- On four blocks, a file is created and its log grows while block 3 is still
    free: the log is given page 0. -/
theorem double_allocation_of_growing_log :
    ¬ NoDoubleAllocation [0, 1] (newFileSystem 4).nand (newFileSystem 4).lists [1, 0] := by
  have hm := freshMount_newFileSystem (n := 4) (by omega) (by omega)
  rw [noDoubleAllocation_of_freeLists [1, 0] hm.image.sound hm.freeLists (by omega) (by simp)
    (by decide)]
  decide

end Cycology
