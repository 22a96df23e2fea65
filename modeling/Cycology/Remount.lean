import Cycology.LogPages
import Cycology.Passthrough

/- Files survive a remount.

   `AfterCreates` says what the mounted state and the device hold after some
   files were created on a new file system: each took the next two slots of the
   address map and the next block of the partial list, whose second page holds
   its log header. A create keeps this (`afterCreates_xmpCreate`), and unmounting
   and mounting again keeps the address map and every page but the two copies
   it rewrites (`remount_spec`), so every file's header is found again. -/
namespace Cycology
open ByteMem LinkedChain Nand

/-! ## One create -/

/-- The slots a create takes off the map's free chain, and the one after them. -/
structure HasSlots (m : AddrMap) (fileID logID next : Nat) : Prop where
  freePtr : m.freePtr = fileID
  first : |m.map fileID| = logID
  second : |m.map logID| = next
  ne : fileID ≠ logID
  alloc : 8 + 4 * fileID + 4 ≤ m.alloc ∧ 8 + 4 * logID + 4 ≤ m.alloc
  fits : fileID < 2147483648 ∧ logID < 2147483648 ∧ next < 2147483648

/-- The map after a create that found its header page at `k`. -/
def createdMap (m : AddrMap) (fileID logID next k : Nat) : AddrMap :=
  (((m.setFreePtr logID).setFreePtr next).setMap logID k).setMap fileID k

/-- An inode as `xmp_create` makes it. -/
structure NewInode (ind : Inode) (mode : UInt32) (fileID logID : Int) : Prop where
  iMode : ind.iMode = mode.toNat
  iFileNo : ind.iFileNo = fileID
  iLogNo : ind.iLogNo = logID
  iLinksCount : ind.iLinksCount = 1

section
variable {s : CYCstate} {n p : Nat} {ps cs : List Nat} {fileID logID next : Nat}
  {mode : UInt32} {mem : CreateMem}

theorem getFreePtr_eq {m : AddrMap} {a b : Nat} (ha : m.freePtr = a) (hb : |m.map a| = b)
    (hfit : b < 2147483648) : getFreePtr m = ((a : Int), m.setFreePtr b) := by
  rw [getFreePtr, ha, Int.toNat_natCast, hb, cint_eq (by unfold IsInt; omega)]

theorem HasSlots.getFreePtr_twice {m : AddrMap} (hm : HasSlots m fileID logID next) :
    getFreePtr m = ((fileID : Int), m.setFreePtr logID) ∧
    getFreePtr (m.setFreePtr logID) = ((logID : Int), (m.setFreePtr logID).setFreePtr next) := by
  obtain ⟨-, hl, hn⟩ := hm.fits
  refine ⟨getFreePtr_eq hm.freePtr hm.first hl, getFreePtr_eq ?_ ?_ hn⟩
  · rw [AddrMap.freePtr_setFreePtr _ (by have := hm.alloc; omega),
      cint_eq (by unfold IsInt; omega)]
  · rw [AddrMap.map_setFreePtr, hm.second]

theorem createOpenFile_spec (mode : UInt32) (mem : CreateMem)
    (hm : HasSlots s.vaddrMap fileID logID next) {k : Nat}
    (hk : (getFreeBlock s.nand s.lists 1).freePage = k) :
    (createOpenFile s mode mem).1.nand = (getFreeBlock s.nand s.lists 1).nand ∧
    (createOpenFile s mode mem).1.lists = (getFreeBlock s.nand s.lists 1).lists ∧
    (createOpenFile s mode mem).1.vaddrMap = createdMap s.vaddrMap fileID logID next k ∧
    ((createOpenFile s mode mem).1.activeLogs (createOpenFile s mode mem).2.1).nextPage = k ∧
    ((createOpenFile s mode mem).1.activeLogs (createOpenFile s mode mem).2.1).log.logId = logID ∧
    NewInode ((createOpenFile s mode mem).1.activeLogs (createOpenFile s mode mem).2.1).log.fInode
      mode fileID logID := by
  obtain ⟨hf, hl, hn⟩ := hm.fits
  obtain ⟨hptr₁, hptr₂⟩ := hm.getFreePtr_twice
  simp only [createOpenFile, getLogForFile, hptr₁, hptr₂, hk, Int.toNat_natCast, update_same]
  refine ⟨trivial, trivial, rfl, trivial, ?_, ?_⟩
  · have hlogId : ∀ (h : LogHeader) (ind : Inode), (h.setFInode ind).logId = h.logId :=
      fun h ind => Buf.int_blit_other h _ (by omega)
    rw [hlogId, logId_newLogHeader, cint_eq (by unfold IsInt; omega)]
  rw [fInode_newLogHeader]
  obtain ⟨hmode, hfile, hlog, hlinks⟩ := linked_initInode mem.log.log.fInode mode fileID logID
  rw [cint_eq (by unfold IsInt; omega)] at hfile hlog
  have hin : ∀ (h : LogHeader) (ind : Inode), (h.setFInode ind).fInode = ind :=
    fun h ind => Buf.slice_blit_same h ind (by omega)
  rw [hin]
  exact ⟨hmode, hfile, hlog, hlinks⟩

theorem log_createOpenFile (mode : UInt32) (mem : CreateMem) {k : Nat}
    (hk : (getFreeBlock s.nand s.lists 1).freePage = k) (hfit : k < 2147483648) :
    ((createOpenFile s mode mem).1.activeLogs (createOpenFile s mode mem).2.1).nextPage = k ∧
    ((createOpenFile s mode mem).1.activeLogs (createOpenFile s mode mem).2.1).last =
      (k / 16 : Nat) ∧
    ((createOpenFile s mode mem).1.activeLogs (createOpenFile s mode mem).2.1).log.prev = -1 := by
  obtain ⟨-, -, -, hnext, hlast, hprev⟩ := activeLogs_getLogForFile
    (show getLogForFile { s with vaddrMap := (getFreePtr s.vaddrMap).2 }
      (getFreePtr s.vaddrMap).1 mode mem.log = (_, _, _) from rfl) hk hfit
  have hset : ∀ (h : LogHeader) (ind : Inode), (h.setFInode ind).prev = h.prev :=
    fun h ind => Buf.int_blit_other h _ (by omega)
  simp only [createOpenFile, update_same, hset]
  exact ⟨hnext, hlast, hprev⟩

theorem ofPage_setPageType (page : FullPage) (h : LogHeader) (v : Int) :
    LogHeader.ofPage ((page.setContents h).setPageType v) = h := by
  rw [LogHeader.ofPage, FullPage.setPageType, Buf.setNum, Buf.slice_blit_other _ _ (by omega)]
  exact Buf.slice_blit_same _ _ (by omega)

/-- Up to the third to last page of a block, the log's next page is written and
    no block is taken. -/
theorem writeNewHeader_spec {theLog : Ptr} {k : Nat} (mem : FullPage) (hk : k < 2147483600)
    (h13 : k % 16 ≤ 13) (hnext : (s.activeLogs theLog).nextPage = k) :
    ∃ page, (LogHeader.ofPage page).fInode = (s.activeLogs theLog).log.fInode ∧
      (writeNewHeader s theLog mem).nand = (writeNAND s.nand page k 0).1 ∧
      (writeNewHeader s theLog mem).lists = s.lists ∧
      (writeNewHeader s theLog mem).vaddrMap = s.vaddrMap := by
  have heq : getFreePage s.nand s.lists (s.activeLogs theLog) mem = _ := getFreePage_eq hnext hk
  rw [if_neg (show ¬ k % 16 = 14 by omega), if_neg (show ¬ k % 16 = 15 by omega)] at heq
  by_cases hmod : k % 16 = 13
  · rw [if_pos hmod] at heq
    refine ⟨_, ?_, by rw [writeNewHeader, heq], by rw [writeNewHeader, heq],
      by rw [writeNewHeader, heq]⟩
    rw [ofPage_setPageType, ActiveLog.movedTo, fInode_setActive]
  · rw [if_neg hmod] at heq
    refine ⟨_, ?_, by rw [writeNewHeader, heq], by rw [writeNewHeader, heq],
      by rw [writeNewHeader, heq]⟩
    rw [ofPage_setPageType, ActiveLog.movedTo, fInode_setActive]

theorem stubs_xmpCreate (s : CYCstate) (path : String) (mode : UInt32) (mem : CreateMem) :
    (xmpCreate s path mode mem 0).1.stubs =
      update s.stubs path (some (getFreePtr s.vaddrMap).1) := rfl

/-- A create whose header goes to page `k`, not near the end of its block. -/
theorem xmpCreate_views (mode : UInt32) (mem : CreateMem)
    (hm : HasSlots s.vaddrMap fileID logID next) {k : Nat}
    (hk : (getFreeBlock s.nand s.lists 1).freePage = k) (hfit : k < 2147483600)
    (h13 : k % 16 ≤ 13) (path : String) :
    ∃ page, NewInode (LogHeader.ofPage page).fInode mode fileID logID ∧
      (xmpCreate s path mode mem 0).1.nand =
        (writeNAND (getFreeBlock s.nand s.lists 1).nand page k 0).1 ∧
      (xmpCreate s path mode mem 0).1.lists = (getFreeBlock s.nand s.lists 1).lists ∧
      (xmpCreate s path mode mem 0).1.vaddrMap = createdMap s.vaddrMap fileID logID next k := by
  obtain ⟨hnand, hlists, hmap, hnext, -, hind⟩ := createOpenFile_spec mode mem hm hk
  obtain ⟨page, hpage, hnand', hlists', hmap'⟩ := writeNewHeader_spec
    (s := { (createOpenFile s mode mem).1 with
        stubs := update (createOpenFile s mode mem).1.stubs path
          (some (getFreePtr s.vaddrMap).1) })
    mem.page hfit h13 hnext
  rw [← hnand]
  exact ⟨page, hpage ▸ hind, hnand', hlists'.trans hlists, hmap'.trans hmap⟩

/-- A create that finds the head of the partial list at the page before its
    block's write pointer, not near the end of the block. -/
theorem xmpCreate_spec (mode : UInt32) (mem : CreateMem) (hs : s.nand.Sound n)
    (hlab : s.nand.Labelled)
    (hl : FreeLists s.nand n s.lists (p :: ps) cs) (hm : HasSlots s.vaddrMap fileID logID next)
    (hp : p % 16 < 13) (hptr : s.nand.nextPage (p / 16) = (p % 16 + 1 : Nat)) (path : String) :
    (xmpCreate s path mode mem 0).1.nand.Sound n ∧
    (xmpCreate s path mode mem 0).1.nand.Labelled ∧
    (∀ j, j ≠ p + 1 → (xmpCreate s path mode mem 0).1.nand.page j = s.nand.page j) ∧
    NewInode (LogHeader.ofPage ((xmpCreate s path mode mem 0).1.nand.page (p + 1))).fInode
      mode fileID logID ∧
    (∀ b, b ≠ p / 16 → (xmpCreate s path mode mem 0).1.nand.nextPage b = s.nand.nextPage b) ∧
    FreeLists (xmpCreate s path mode mem 0).1.nand n (xmpCreate s path mode mem 0).1.lists ps cs ∧
    (xmpCreate s path mode mem 0).1.vaddrMap = createdMap s.vaddrMap fileID logID next (p + 1) := by
  have hfits := hs.fits
  obtain ⟨-, hpn⟩ := hl.inRange p (by simp)
  obtain ⟨hsame, hpage, htail⟩ := freeLists_getFreeBlock_partial hs hl (show (1 : Int) ≠ 0 by omega)
  have hk : (getFreeBlock s.nand s.lists 1).freePage = ((p + 1 : Nat) : Int) := by
    rw [hpage]; push_cast; rfl
  obtain ⟨page, hind, hnand, hlists, hmap⟩ :=
    xmpCreate_views mode mem hm hk (show p + 1 < 2147483600 by omega) (by omega) path
  rw [hnand, hlists, hmap]
  -- the write is taken: the block's write pointer is at the page after the link
  have hs' := hsame.sound hs
  have hdiv : (p + 1) / 16 = p / 16 := by omega
  have ha : (getFreeBlock s.nand s.lists 1).nand.Accepts (p + 1) 0 := by
    refine .inr ?_
    rw [hdiv, hsame.nextPage, hptr]
    congr 1
    omega
  have hlt : p + 1 < 16 * n := by have := hl.room p (by simp); omega
  have hw := page_writeNAND hs' page hlt ha
  refine ⟨sound_writeNAND hs' page _ 0, labelled_writeNAND hs' (hsame.labelled hlab) page hlt 0,
    fun j hj => ?_, ?_, fun b hb => ?_, htail.congr rfl rfl fun q hq j hj => ?_, rfl⟩
  · rw [hw, if_neg hj, hsame.page]
  · rw [hw, if_pos rfl]
    exact hind
  · rw [nextPage_writeNAND hs' page hlt ha, if_neg (fun h => hb (h.1.trans hdiv)), hsame.nextPage]
  · have hne := hl.block_ne hq
    rw [hw, if_neg]
    omega

end

/-! ## Unmounting -/

section
variable {s : CYCstate} {n m : Nat}

/-- Unmounting puts the free lists in the superblock and the address map on its
    page, and leaves every other page and the block trailers alone. -/
theorem xmpDestroy_spec (hs : s.nand.Sound n) (h0 : 0 < m) (hm : m < 16 * n)
    (hmap : (SuperPage.ofPage (s.nand.page 0)).latestVaddrMap = m) :
    (xmpDestroy s).nand.Sound n ∧ (s.nand.Labelled → (xmpDestroy s).nand.Labelled) ∧
    SuperPage.ofPage ((xmpDestroy s).nand.page 0) =
      (SuperPage.ofPage (s.nand.page 0)).setFreeLists s.lists ∧
    (∀ o, o + 4 ≤ AddrMap.bytesFor s.vaddrMap.size → o + 4 ≤ 1024 →
      (AddrMap.ofPage ((xmpDestroy s).nand.page m)).mem.int o = s.vaddrMap.mem.int o) ∧
    (∀ k, k ≠ 0 → k ≠ m → (xmpDestroy s).nand.page k = s.nand.page k) ∧
    (∀ b, (xmpDestroy s).nand.nextPage b = s.nand.nextPage b) ∧
    ∀ b, (xmpDestroy s).nand.eraseCount b = s.nand.eraseCount b := by
  obtain ⟨d₁, hread, hsame⟩ := readNAND_ok hs (s.nand.frame.slice 0 1048)
    (show 0 < 16 * n by omega)
  rw [Int.natCast_zero] at hread
  have hmap' : ((SuperPage.ofPage (s.nand.page 0)).setFreeLists s.lists).latestVaddrMap = m := by
    rw [SuperPage.latestVaddrMap_setFreeLists, hmap]
  set super := (SuperPage.ofPage (s.nand.page 0)).setFreeLists s.lists with hsuper
  set page₀ := FullPage.setContents (s.nand.page 0) super with hpage₀
  set page₁ := page₀.blit 0 (AddrMap.bytesFor s.vaddrMap.size) s.vaddrMap.mem.byte with hpage₁
  have hnand : (xmpDestroy s).nand = (writeNAND (writeNAND d₁ page₀ 0 1).1 page₁ m 1).1 := by
    simp only [xmpDestroy, hread, ← hsuper, hmap', ← hpage₀, ← hpage₁]
  rw [hnand]
  -- both writes are random-access, so both are taken
  have hra : ∀ (d : Nand) (k : Nat), d.Accepts k 1 := fun d k => .inl (by omega)
  have hz : 0 < 16 * n := by omega
  have hs₁ := hsame.sound hs
  have hs₂ := sound_writeNAND hs₁ page₀ 0 1
  have hl₂ := fun hl => labelled_writeNAND hs₁ (hsame.labelled hl) page₀ hz 1
  have hp₂ := page_writeNAND hs₁ page₀ hz (hra d₁ 0)
  have hp₃ := page_writeNAND hs₂ page₁ hm (hra _ m)
  rw [Int.natCast_zero] at hl₂ hp₂
  refine ⟨sound_writeNAND hs₂ page₁ _ 1,
    fun hl => labelled_writeNAND hs₂ (hl₂ hl) page₁ hm 1, ?_,
    fun o ho ho' => ?_, fun k hk0 hkm => ?_, fun b => ?_, fun b => ?_⟩
  · rw [hp₃, if_neg (by omega), hp₂, if_pos rfl, SuperPage.ofPage, hpage₀, FullPage.setContents,
      Buf.slice_blit_same _ _ (by omega)]
  · rw [hp₃, if_pos rfl]
    show (FullPage.contents page₁).int o = _
    rw [FullPage.contents, Buf.int_slice _ _ ho', Nat.zero_add]
    apply getInt_congr
    intro i hi
    rw [hpage₁, Buf.byte_blit_in _ _ (by omega) (by omega) (by omega), Nat.sub_zero]
  · rw [hp₃, if_neg hkm, hp₂, if_neg hk0, hsame.page]
  · have hn₂ := nextPage_writeNAND hs₁ page₀ hz (hra d₁ 0) b
    rw [Int.natCast_zero] at hn₂
    rw [nextPage_writeNAND hs₂ page₁ hm (hra _ m), if_neg (by omega), hn₂, if_neg (by omega),
      hsame.nextPage]
  · have he₂ := eraseCount_writeNAND hs₁ page₀ hz (hra d₁ 0) b
    rw [Int.natCast_zero] at he₂
    rw [eraseCount_writeNAND hs₂ page₁ hm (hra _ m), he₂, hsame.eraseCount]

theorem mount_spec (hs : s.nand.Sound n) (h0 : 0 < m) (hm : m < 16 * n)
    (hmap : (SuperPage.ofPage (s.nand.page 0)).latestVaddrMap = m) {slots : Nat}
    (hsize : s.vaddrMap.size = slots) (hfit : 8 + 4 * slots ≤ 1024) {d : Nand}
    (hd : (xmpDestroy s).nand.SameStore d) (mem : CYCstate) :
    (initCYCstate { mem with nand := d }).nand.Sound n ∧
    (initCYCstate { mem with nand := d }).lists = s.lists ∧
    (∀ o, o + 4 ≤ 8 + 4 * slots →
      (initCYCstate { mem with nand := d }).vaddrMap.mem.int o = s.vaddrMap.mem.int o) ∧
    (∀ k, k ≠ 0 → k ≠ m → (initCYCstate { mem with nand := d }).nand.page k = s.nand.page k) ∧
    (∀ b, (initCYCstate { mem with nand := d }).nand.nextPage b = s.nand.nextPage b) ∧
    ∀ b, (initCYCstate { mem with nand := d }).nand.eraseCount b = s.nand.eraseCount b := by
  obtain ⟨hs₁, -, hsuper, hints, hpages, hptrs, hcounts⟩ := xmpDestroy_spec hs h0 hm hmap
  have hbytes : AddrMap.bytesFor s.vaddrMap.size = 8 + 4 * slots := by
    rw [hsize, AddrMap.bytesFor]
    omega
  rw [hbytes] at hints
  obtain ⟨hsame, hlists, hvmap⟩ := @initCYCstate_spec { mem with nand := d } n m (hd.sound hs₁)
    (show 0 < n by omega) hm
    (by rw [hd.page, hsuper, SuperPage.latestVaddrMap_setFreeLists, hmap])
  have hstore := hd.trans hsame
  refine ⟨hstore.sound hs₁, ?_, fun o ho => ?_, fun k hk0 hkm => ?_, fun b => ?_, fun b => ?_⟩
  · rw [hlists, hd.page, hsuper, SuperPage.freeLists_setFreeLists]
  · rw [hvmap, hd.page, ← hints o ho (by omega)]
    refine int_loadVaddrMap (s := slots) ?_ ho (by omega)
    rw [AddrMap.size, hints 0 (by omega) (by omega)]
    exact hsize
  · exact (hstore.page k).trans (hpages k hk0 hkm)
  · exact (hstore.nextPage b).trans (hptrs b)
  · exact (hstore.eraseCount b).trans (hcounts b)

theorem remount_spec (hs : s.nand.Sound n) (hlab : s.nand.Labelled) (h0 : 0 < m)
    (hm : m < 16 * n)
    (hmap : (SuperPage.ofPage (s.nand.page 0)).latestVaddrMap = m) {slots : Nat}
    (hsize : s.vaddrMap.size = slots) (hfit : 8 + 4 * slots ≤ 1024) (frame : Block)
    (mem : CYCstate) :
    (xmpInit (xmpDestroy s).nand.file frame mem).nand.Sound n ∧
    (∀ o, o + 4 ≤ 8 + 4 * slots →
      (xmpInit (xmpDestroy s).nand.file frame mem).vaddrMap.mem.int o = s.vaddrMap.mem.int o) ∧
    ∀ k, k ≠ 0 → k ≠ m →
      (xmpInit (xmpDestroy s).nand.file frame mem).nand.page k = s.nand.page k := by
  obtain ⟨hs₁, hl₁, -⟩ := xmpDestroy_spec hs h0 hm hmap
  obtain ⟨hs₂, -, hints, hpages, -⟩ := mount_spec hs h0 hm hmap hsize hfit
    (d := initNAND (xmpDestroy s).nand.file frame) (sameStore_initNAND hs₁ (hl₁ hlab) frame) mem
  rw [xmpInit]
  exact ⟨hs₂, hints, hpages⟩

/-- `s'` has the lists, the address map and the device of `s`, less the pages
    that hold the copies of the first two. -/
structure SamePersistent (s s' : CYCstate) (m : Nat) : Prop where
  lists : s'.lists = s.lists
  size : s'.vaddrMap.size = s.vaddrMap.size
  freePtr : s'.vaddrMap.freePtr = s.vaddrMap.freePtr
  map : ∀ i : Nat, i < s.vaddrMap.size → s'.vaddrMap.map i = s.vaddrMap.map i
  page : ∀ k, k ≠ 0 → k ≠ m → s'.nand.page k = s.nand.page k
  nextPage : ∀ b, s'.nand.nextPage b = s.nand.nextPage b
  eraseCount : ∀ b, s'.nand.eraseCount b = s.nand.eraseCount b

/-- Unmounting and mounting again is the identity on persistent state, whatever
    is in memory and on the stack when the mount starts. -/
theorem remount_identity (hs : s.nand.Sound n) (h0 : 0 < m) (hm : m < 16 * n)
    (hmap : (SuperPage.ofPage (s.nand.page 0)).latestVaddrMap = m) {slots : Nat}
    (hsize : s.vaddrMap.size = slots) (hfit : 8 + 4 * slots ≤ pageDataSize) (frame : Block)
    (mem : CYCstate) :
    SamePersistent s (initCYCstate { mem with
      nand := { (xmpDestroy s).nand with frame := frame } }) m := by
  rw [pageDataSize] at hfit
  obtain ⟨-, hlists, hints, hpages, hptrs, hcounts⟩ := mount_spec hs h0 hm hmap hsize hfit
    (d := { (xmpDestroy s).nand with frame := frame }) ⟨rfl, rfl⟩ mem
  refine ⟨hlists, hints 0 (by omega), hints 4 (by omega), fun i hi => ?_, hpages, hptrs, hcounts⟩
  rw [hsize] at hi
  exact hints (8 + 4 * i) (by omega)

end

/-- A new file system of four blocks, which keeps its map on page 16. -/
theorem remount_identity_new :
    SamePersistent (newFileSystem 4) (initCYCstate { (default : CYCstate) with
      nand := { (xmpDestroy (newFileSystem 4)).nand with frame := default } }) 16 := by
  have hm := freshMount_newFileSystem (n := 4) (by omega) (by omega)
  have hmap : (SuperPage.ofPage ((newFileSystem 4).nand.page 0)).latestVaddrMap = (16 : Nat) := by
    rw [hm.image.super, ofPage_superImage, latestVaddrMap_newSuperBlock]
    rfl
  exact remount_identity hm.image.sound (by omega) (by omega) hmap hm.vaddrMap.size (by decide)
    default default

/-! ## Runs of creates -/

/-- One call of `xmp_create`. -/
structure CreateCall where
  path : String
  mode : UInt32
  mem : CreateMem

/-- A file as it was created. -/
structure Created where
  fileID : Int
  logID : Int
  mode : UInt32

/-- The file id and the log id that the next create takes off the map. -/
def nextIds (m : AddrMap) : Int × Int :=
  let (fileID, m) := getFreePtr m
  let (logID, _) := getFreePtr m
  (fileID, logID)

/-- The state after some calls of `xmp_create`, and the files they created. -/
def createAll (s : CYCstate) : List CreateCall → CYCstate × List Created
  | [] => (s, [])
  | c :: calls =>
    let (s', files) := createAll (xmpCreate s c.path c.mode c.mem 0).1 calls
    (s', ⟨(nextIds s.vaddrMap).1, (nextIds s.vaddrMap).2, c.mode⟩ :: files)

/-- The partial list once `i` blocks were taken off it. -/
def partialListFrom (n i : Nat) : List Nat := (List.range' (2 + i) (n - 2 - i)).map (16 * ·)

/-- The state once `i` files were created on a new file system: each took two
    slots of the map and a block. -/
structure AfterCreates (s : CYCstate) (n i : Nat) : Prop where
  sound : s.nand.Sound n
  labelled : s.nand.Labelled
  super : (SuperPage.ofPage (s.nand.page 0)).latestVaddrMap = 16
  freeLists : FreeLists s.nand n s.lists (partialListFrom n i) []
  nextPage : ∀ b, 2 + i ≤ b → b + 1 < n → s.nand.nextPage b = 1
  vaddrMap : FreeSlots s.vaddrMap 254 (2 * i + 1)

/-- The `j`-th file created: its slots, and the page with its header. -/
structure Stored (s : CYCstate) (j : Nat) (f : Created) : Prop where
  fileID : f.fileID = (2 * j + 1 : Nat)
  logID : f.logID = (2 * j + 2 : Nat)
  address : s.vaddrMap.map (2 * j + 1) = (16 * (j + 2) + 1 : Nat)
  header : NewInode (LogHeader.ofPage (s.nand.page (16 * (j + 2) + 1))).fInode f.mode
    f.fileID f.logID

section
variable {s : CYCstate} {n i : Nat}

theorem FreshMount.afterCreates (h : FreshMount s n) : AfterCreates s n 0 where
  sound := h.image.sound
  labelled := h.image.labelled
  super := by rw [h.image.super, ofPage_superImage, latestVaddrMap_newSuperBlock]
  freeLists := h.freeLists
  nextPage b _ hb := by rw [h.image.nextPage, if_pos hb]
  vaddrMap := h.vaddrMap

theorem FreeSlots.hasSlots {m : AddrMap} {slots f : Nat} (h : FreeSlots m slots f)
    (hf : f + 2 < slots) : HasSlots m f (f + 1) (f + 2) where
  freePtr := h.freePtr
  first := by rw [h.chain f (by omega) (by omega), abs_neg, abs_of_nonneg (by omega)]; rfl
  second := by
    rw [h.chain (f + 1) (by omega) (by omega), abs_neg, abs_of_nonneg (by omega)]
    rfl
  ne := by omega
  alloc := by have := h.alloc; omega
  fits := by have := h.fits; omega

theorem map_createdMap {m : AddrMap} {fileID logID next k : Nat}
    (hm : HasSlots m fileID logID next) (hk : k < 2147483648) (j : Nat) :
    (createdMap m fileID logID next k).map j =
      if j = fileID ∨ j = logID then (k : Int) else m.map j := by
  have hkey : cint (k : Int) = k := cint_eq (by unfold IsInt; omega)
  rw [createdMap]
  by_cases hf : j = fileID
  · rw [if_pos (.inl hf), hf, AddrMap.map_setMap_same _ (by simpa using hm.alloc.1), hkey]
  · rw [AddrMap.map_setMap_other _ hf]
    by_cases hg : j = logID
    · rw [if_pos (.inr hg), hg, AddrMap.map_setMap_same _ (by simpa using hm.alloc.2), hkey]
    · rw [AddrMap.map_setMap_other _ hg, AddrMap.map_setFreePtr, AddrMap.map_setFreePtr,
        if_neg (by omega)]

theorem freeSlots_createdMap {m : AddrMap} {slots f k : Nat} (h : FreeSlots m slots f)
    (hf : f + 2 < slots) (hk : k < 2147483648) :
    FreeSlots (createdMap m f (f + 1) (f + 2) k) slots (f + 2) where
  alloc := h.alloc
  fits := h.fits
  size := by
    rw [createdMap, AddrMap.size_setMap, AddrMap.size_setMap, AddrMap.size_setFreePtr,
      AddrMap.size_setFreePtr, h.size]
  freePtr := by
    have halloc := h.alloc
    have hfit := h.fits
    rw [createdMap, AddrMap.freePtr_setMap, AddrMap.freePtr_setMap,
      AddrMap.freePtr_setFreePtr _ (by rw [AddrMap.alloc_setFreePtr]; omega),
      cint_eq (by unfold IsInt; omega)]
  chain j h1 hj := by
    rw [map_createdMap (h.hasSlots hf) hk, if_neg (by omega)]
    exact h.chain j (by omega) hj
  last := by
    rw [map_createdMap (h.hasSlots hf) hk, if_neg (by omega)]
    exact h.last

theorem nextIds_eq {m : AddrMap} {fileID logID next : Nat} (hm : HasSlots m fileID logID next) :
    nextIds m = ((fileID : Int), (logID : Int)) := by
  obtain ⟨hptr₁, hptr₂⟩ := hm.getFreePtr_twice
  simp only [nextIds, hptr₁, hptr₂]

theorem partialListFrom_cons (h : i + 2 < n) :
    partialListFrom n i = 16 * (2 + i) :: partialListFrom n (i + 1) := by
  obtain ⟨count, hcount⟩ : ∃ count, n - 2 - i = count + 1 := ⟨n - 3 - i, by omega⟩
  rw [partialListFrom, partialListFrom, hcount, show n - 2 - (i + 1) = count by omega,
    List.range'_succ]
  rfl

/-- One create: the state moves on by one file, the file is stored, and those
    stored before still are. -/
theorem afterCreates_xmpCreate (h : AfterCreates s n i) (hn : i + 3 < n) (hi : i < 126)
    (c : CreateCall) :
    AfterCreates (xmpCreate s c.path c.mode c.mem 0).1 n (i + 1) ∧
    Stored (xmpCreate s c.path c.mode c.mem 0).1 i
      ⟨(nextIds s.vaddrMap).1, (nextIds s.vaddrMap).2, c.mode⟩ ∧
    ∀ j f, j < i → Stored s j f → Stored (xmpCreate s c.path c.mode c.mem 0).1 j f := by
  have hfits := h.sound.fits
  have hslots := h.vaddrMap.hasSlots (show 2 * i + 1 + 2 < 254 by omega)
  have hlists := h.freeLists
  rw [partialListFrom_cons (show i + 2 < n by omega)] at hlists
  obtain ⟨hs, hlab, hpage, hind, hptr, hfree, hmap⟩ := xmpCreate_spec c.mode c.mem
    h.sound h.labelled hlists hslots (by omega)
    (by rw [Nat.mul_div_cancel_left _ (by omega), h.nextPage _ (by omega) (by omega),
      Nat.mul_mod_right]; rfl) c.path
  have hk : 16 * (2 + i) + 1 < 2147483648 := by omega
  have hmapAt := map_createdMap hslots hk
  refine ⟨⟨hs, hlab, ?_, hfree, fun b hb hbn => ?_, ?_⟩, ⟨?_, ?_, ?_, ?_⟩, fun j f hj hst => ?_⟩
  · rw [hpage 0 (by omega)]
    exact h.super
  · rw [hptr b (by omega)]
    exact h.nextPage b (by omega) hbn
  · rw [hmap]
    exact freeSlots_createdMap h.vaddrMap (by omega) hk
  · rw [nextIds_eq hslots]
  · rw [nextIds_eq hslots]
  · rw [hmap, hmapAt, if_pos (.inl rfl), Nat.add_comm 2 i]
  · rw [nextIds_eq hslots, Nat.add_comm i 2]
    exact hind
  · refine ⟨hst.fileID, hst.logID, ?_, ?_⟩
    · rw [hmap, hmapAt, if_neg (by omega)]
      exact hst.address
    · rw [hpage _ (by omega)]
      exact hst.header

/-- Any number of creates, as far as the slots and the blocks last. -/
theorem afterCreates_createAll (calls : List CreateCall) : ∀ {s : CYCstate} {i : Nat},
    AfterCreates s n i → i + calls.length + 3 ≤ n → i + calls.length ≤ 126 →
    AfterCreates (createAll s calls).1 n (i + calls.length) ∧
    (createAll s calls).2.map Created.mode = calls.map CreateCall.mode ∧
    (∀ j f, (createAll s calls).2[j]? = some f → Stored (createAll s calls).1 (i + j) f) ∧
    ∀ j f, j < i → Stored s j f → Stored (createAll s calls).1 j f := by
  induction calls with
  | nil =>
    intro s i h _ _
    exact ⟨h, rfl, fun j f hj => by simp [createAll] at hj, fun j f _ hst => hst⟩
  | cons c calls ih =>
    intro s i h hn hi
    simp only [List.length_cons] at hn hi
    obtain ⟨hstep, hnew, hold⟩ := afterCreates_xmpCreate h (by omega) (by omega) c
    obtain ⟨hrun, hmodes, hstored, hkept⟩ := ih hstep (by omega) (by omega)
    refine ⟨?_, ?_, fun j f hj => ?_, fun j f hj hst => ?_⟩
    · rw [List.length_cons, Nat.add_comm calls.length 1, ← Nat.add_assoc]
      exact hrun
    · rw [createAll, List.map_cons, List.map_cons, ← hmodes]
    · cases j with
      | zero =>
        obtain rfl : _ = f := Option.some.inj hj
        exact hkept i _ (by omega) hnew
      | succ j =>
        rw [Nat.add_comm j 1, ← Nat.add_assoc]
        exact hstored j f hj
    · exact hkept j f (by omega) (hold j f hj hst)

end

theorem first_create :
    HasSlots (newFileSystem 4).vaddrMap 1 2 3 ∧
    (newFileSystem 4).nand.SameStore
      (getFreeBlock (newFileSystem 4).nand (newFileSystem 4).lists 1).nand ∧
    (getFreeBlock (newFileSystem 4).nand (newFileSystem 4).lists 1).freePage = (33 : Nat) := by
  have hm := freshMount_newFileSystem (n := 4) (by omega) (by omega)
  have hlists : FreeLists _ 4 _ [32, 48] [] := hm.freeLists
  obtain ⟨hsame, hpage, -⟩ :=
    freeLists_getFreeBlock_partial hm.image.sound hlists (show (1 : Int) ≠ 0 by omega)
  exact ⟨hm.vaddrMap.hasSlots (by omega), hsame, hpage⟩

/-! ## Files after a remount -/

/-- The address map leads from every file's id to a page of its own, and that
    page holds a log header with the file's inode. -/
structure FilesFound (s : CYCstate) (n : Nat) (files : List Created) : Prop where
  inRange : ∀ f ∈ files, ∃ k < 16 * n, s.vaddrMap.map f.fileID.toNat = (k : Int)
  distinct : (files.map fun f => s.vaddrMap.map f.fileID.toNat).Nodup
  header : ∀ f ∈ files, ∀ buf : FullPage,
    (readNAND s.nand buf (s.vaddrMap.map f.fileID.toNat)).2.2 = fullPageBytes ∧
    NewInode (LogHeader.ofPage
        (readNAND s.nand buf (s.vaddrMap.map f.fileID.toNat)).2.1).fInode
      f.mode f.fileID f.logID

section
variable {s s' : CYCstate} {n : Nat} {files : List Created}

theorem filesFound_of_stored (hs : s'.nand.Sound n) (hlen : files.length + 3 ≤ n)
    (hst : ∀ j f, files[j]? = some f → Stored s j f)
    (hmap : ∀ j, j < files.length → s'.vaddrMap.map (2 * j + 1) = s.vaddrMap.map (2 * j + 1))
    (hpage : ∀ k, 32 ≤ k → s'.nand.page k = s.nand.page k) : FilesFound s' n files := by
  have haddr : ∀ j f, files[j]? = some f →
      s'.vaddrMap.map f.fileID.toNat = ((16 * (j + 2) + 1 : Nat) : Int) := by
    intro j f hj
    have hlt := (List.getElem?_eq_some_iff.mp hj).1
    rw [(hst j f hj).fileID, Int.toNat_natCast, hmap j hlt, (hst j f hj).address]
  have hget : ∀ f ∈ files, ∃ j, j < files.length ∧ files[j]? = some f := by
    intro f hf
    obtain ⟨j, hj, rfl⟩ := List.getElem_of_mem hf
    exact ⟨j, hj, List.getElem?_eq_getElem hj⟩
  refine ⟨fun f hf => ?_, ?_, fun f hf buf => ?_⟩
  · obtain ⟨j, hlt, hj⟩ := hget f hf
    exact ⟨16 * (j + 2) + 1, by omega, haddr j f hj⟩
  · have hpages : (files.map fun f => s'.vaddrMap.map f.fileID.toNat) =
        (List.range files.length).map fun j => ((16 * (j + 2) + 1 : Nat) : Int) := by
      apply List.ext_getElem (by simp)
      intro j hj _
      rw [List.length_map] at hj
      simp only [List.getElem_map, List.getElem_range]
      exact haddr j _ (List.getElem?_eq_getElem hj)
    rw [hpages]
    refine List.nodup_range.map fun a b hab => ?_
    omega
  · obtain ⟨j, hlt, hj⟩ := hget f hf
    obtain ⟨d', hread, -⟩ := readNAND_ok hs buf (show 16 * (j + 2) + 1 < 16 * n by omega)
    rw [haddr j f hj, hread]
    refine ⟨rfl, ?_⟩
    rw [hpage _ (by omega)]
    exact (hst j f hj).header

theorem filesFound_remount (h : AfterCreates s n files.length) (hn : files.length + 3 ≤ n)
    (hlen : files.length ≤ 126) (hst : ∀ j f, files[j]? = some f → Stored s j f) (frame : Block)
    (mem : CYCstate) : FilesFound (xmpInit (xmpDestroy s).nand.file frame mem) n files := by
  obtain ⟨hs, hints, hpages⟩ := remount_spec h.sound h.labelled (show 0 < 16 by omega)
    (show 16 < 16 * n by omega) h.super h.vaddrMap.size (by omega) frame mem
  refine filesFound_of_stored hs hn hst (fun j hj => ?_) fun k hk => ?_
  · exact hints (8 + 4 * (2 * j + 1)) (by omega)
  · exact hpages k (by omega) (by omega)

end

/-- Files created on a new file system survive a remount: for as many creates
    as there are blocks, less three, and pairs of slots. -/
theorem created_files_survive {n : Nat} (hn : 4 ≤ n) {d : Nand} (hz : Zeroed d n)
    (frame frame' : Block) (mem mem' : CYCstate) (calls : List CreateCall)
    (hcalls : calls.length ≤ min (n - 3) 126) :
    (createAll (xmpInit (makefs d).1.file frame mem) calls).2.map Created.mode =
      calls.map CreateCall.mode ∧
    FilesFound
      (xmpInit (xmpDestroy (createAll (xmpInit (makefs d).1.file frame mem) calls).1).nand.file
        frame' mem') n
      (createAll (xmpInit (makefs d).1.file frame mem) calls).2 := by
  have hm := freshMount_makefs hz (show 3 ≤ n by omega) frame mem
  obtain ⟨hlen₁, hlen₂⟩ := le_min_iff.mp hcalls
  obtain ⟨hrun, hmodes, hstored, -⟩ :=
    afterCreates_createAll calls hm.afterCreates (by omega) (by omega)
  have hlen := congrArg List.length hmodes
  rw [List.length_map, List.length_map] at hlen
  refine ⟨hmodes, filesFound_remount ?_ (by omega) (by omega) (fun j f hj => ?_) frame' mem'⟩
  · rw [hlen, ← Nat.zero_add calls.length]
    exact hrun
  · rw [← Nat.zero_add j]
    exact hstored j f hj

/-- Two files on a device of five blocks. -/
theorem two_files_survive :
    FilesFound
      (xmpInit (xmpDestroy (createAll (newFileSystem 5)
        [⟨"/a", 33188, default⟩, ⟨"/b", 33261, default⟩]).1).nand.file default default) 5
      (createAll (newFileSystem 5) [⟨"/a", 33188, default⟩, ⟨"/b", 33261, default⟩]).2 :=
  (created_files_survive (by omega) (zeroed_blankNAND default (by omega)) default default default
    default [⟨"/a", 33188, default⟩, ⟨"/b", 33261, default⟩] (by decide)).2

end Cycology
