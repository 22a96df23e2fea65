import Cycology.OpenTable

/- What a close leaves on the device.

   When the last handle of a modified file is released, `writeCurrLogHeader`
   puts the log's header on the log's next page. Neither it nor `xmp_release`
   tells the address map, so the map leads to the new header only if it named
   that page already (`durable_close_iff`). After a create it names the page
   before. -/
namespace Cycology
open ByteMem LinkedChain Nand

/-- The log of the open file at `p`. -/
def logOf (s : CYCstate) (p : Ptr) : ActiveLog := s.activeLogs (s.openFiles p).mainExtentLog

/-- `p` is the handle of file `fileID`, the only one left, and the file's
    `modified` flag is set. -/
structure LastHandle (s : CYCstate) (p : Ptr) (fileID : Int) : Prop where
  fileNo : (s.openFiles p).inode.iFileNo = fileID
  entry : s.openFileTable fileID = p
  currentOpens : (s.openFiles p).currentOpens = 1
  modified : (s.openFiles p).modified = 1

/-- The release of `p` writes page `k`, both entries lead to it, and it holds
    the inode the open file held. -/
structure DurableClose (s : CYCstate) (p : Ptr) (fileID : Int) (mem : FullPage) (k : Nat) :
    Prop where
  address : (getFreePage s.nand s.lists (logOf s p) mem).address = k
  written : (writeCurrLogHeader (dropHandle s p) p mem).2 ≠ -1
  logEntry : (xmpRelease s p mem).1.vaddrMap.map (logOf s p).log.logId.toNat = k
  fileEntry : (xmpRelease s p mem).1.vaddrMap.map fileID.toNat = k
  inode : (LogHeader.ofPage ((xmpRelease s p mem).1.nand.page k)).fInode = (s.openFiles p).inode

/-- Whether the device takes page `k`, which is next for some log: at the second
    to last page of a block, a new block is taken, and erased, before the write. -/
def TakesNext (s : CYCstate) (k : Nat) : Prop :=
  if k % 16 = 14 then (getFreeBlock s.nand s.lists 0).nand.Accepts k 0 else s.nand.Accepts k 0

/-- Before the release, both entries already lead to the log's next page `k`, the
    device takes it, and the log has the open file's inode. -/
structure EntriesAtNextPage (s : CYCstate) (p : Ptr) (fileID : Int) (k : Nat) : Prop where
  nextPage : (logOf s p).nextPage = k
  logEntry : s.vaddrMap.map (logOf s p).log.logId.toNat = k
  fileEntry : s.vaddrMap.map fileID.toNat = k
  taken : TakesNext s k
  inode : (logOf s p).log.fInode = (s.openFiles p).inode

/-! ## The write of the header -/

section
variable {d : Nand} {l : FreeList} {log : ActiveLog} {mem : FullPage} {k : Nat}

@[simp] theorem fInode_getFreePage :
    (getFreePage d l log mem).log.log.fInode = log.log.fInode := by
  unfold getFreePage
  dsimp only
  split_ifs <;> exact fInode_setActive _ _

@[simp] theorem logId_getFreePage :
    (getFreePage d l log mem).log.log.logId = log.log.logId := by
  unfold getFreePage
  dsimp only
  split_ifs <;> exact logId_setActive _ _

theorem nand_getFreePage (h : log.nextPage = k) (hk : k < 2147483600) :
    (getFreePage d l log mem).nand = if k % 16 = 14 then (getFreeBlock d l 0).nand else d := by
  have heq : getFreePage d l log mem = _ := getFreePage_eq h hk
  rw [heq]
  by_cases h14 : k % 16 = 14
  · rw [if_neg (by omega), if_pos h14, if_pos h14]
  · rw [if_neg h14, if_neg h14]
    split_ifs <;> rfl

theorem nextPage_getFreePage (h : log.nextPage = k) (hk : k < 2147483600) (h13 : k % 16 < 13) :
    (getFreePage d l log mem).log.nextPage = (k + 1 : Nat) := by
  have heq : getFreePage d l log mem = _ := getFreePage_eq h hk
  rw [heq, if_neg (by omega), if_neg (by omega), if_neg (by omega)]
  rfl

end

section
variable {s : CYCstate} {n k : Nat} {p : Ptr} {fileID : Int} {mem : FullPage}

/-- Where the complete list holds page addresses, the page is taken when it is
    next in its block and the block is not the one erased. -/
theorem takesNext_iff (hs : s.nand.Sound n) {c : Nat} (hc : s.lists.completeHead = c)
    (hcn : c < 16 * n) : TakesNext s k ↔
      s.nand.nextPage (k / 16) = (k % 16 : Nat) ∧ (k % 16 = 14 → k / 16 ≠ c / 16) := by
  obtain ⟨-, -, hptr, -⟩ := getFreeBlock_complete_views hs hcn (.inl rfl) hc
  unfold TakesNext Accepts
  split
  · rename_i h14
    rw [hptr, h14]
    by_cases hb : k / 16 = c / 16
    · rw [if_pos hb]
      simp [hb]
    · rw [if_neg hb]
      simp [hb]
  · rename_i h14
    simp [h14]

theorem xmpRelease_last (h : LastHandle s p fileID) :
    (xmpRelease s p mem).1 = (writeCurrLogHeader (dropHandle s p) p mem).1 := by
  have hopens : ((dropHandle s p).openFiles p).currentOpens = 0 := by
    simp only [dropHandle, update_same, h.currentOpens]
    rfl
  have hmod : ((dropHandle s p).openFiles p).modified = 1 := by
    simp only [dropHandle, update_same, h.modified]
  rw [xmpRelease]
  simp only [h.fileNo, h.entry]
  rw [if_pos ⟨hopens, hmod⟩]

/-- The header goes to the log's next page, if the device takes it, and the
    address map stays as it was. -/
theorem writeCurrLogHeader_spec (mem : FullPage) (hs : s.nand.Sound n) (hk : k < 16 * n)
    (hnext : (logOf s p).nextPage = k) :
    ((writeCurrLogHeader s p mem).2 ≠ -1 ↔ TakesNext s k) ∧
    (TakesNext s k → (LogHeader.ofPage ((writeCurrLogHeader s p mem).1.nand.page k)).fInode =
      (logOf s p).log.fInode) := by
  have hfits := hs.fits
  have hnand : (getFreePage s.nand s.lists (logOf s p) mem).nand = _ :=
    nand_getFreePage hnext (by omega)
  set buf := getFreePage s.nand s.lists (logOf s p) mem with hbuf
  have haddr : buf.address = k := by rw [hbuf, address_getFreePage, hnext]
  have hs' : buf.nand.Sound n := by
    rw [hnand]
    split
    · exact sound_getFreeBlock hs _ _
    · exact hs
  have htakes : TakesNext s k ↔ buf.nand.Accepts k 0 := by
    rw [hnand, TakesNext]
    split <;> rfl
  have hres : (writeCurrLogHeader s p mem).2 =
      (writeNAND buf.nand (buf.page.setContents buf.log.log) k 0).2 := by
    rw [← haddr]
    rfl
  have hdev : (writeCurrLogHeader s p mem).1.nand =
      (writeNAND buf.nand (buf.page.setContents buf.log.log) k 0).1 := by
    rw [← haddr]
    rfl
  refine ⟨?_, fun ht => ?_⟩
  · rw [hres, htakes]
    exact writeNAND_ret hs' _ hk 0
  · rw [hdev, page_writeNAND hs' _ hk (htakes.mp ht), if_pos rfl, LogHeader.ofPage,
      FullPage.setContents, Buf.slice_blit_same _ _ (by omega), hbuf, fInode_getFreePage]

/-- The map is not told about the new header. -/
theorem vaddrMap_xmpRelease : (xmpRelease s p mem).1.vaddrMap = s.vaddrMap := by
  rw [xmpRelease]
  split <;> rfl

/-- A durable close needs the entries to lead to the log's next page beforehand. -/
theorem DurableClose.nextPage (h : DurableClose s p fileID mem k) :
    (logOf s p).nextPage = k ∧ s.vaddrMap.map fileID.toNat = k := by
  have haddr := h.address
  have hentry := h.fileEntry
  rw [address_getFreePage] at haddr
  rw [vaddrMap_xmpRelease] at hentry
  exact ⟨haddr, hentry⟩

end

/-- The close of a modified file is durable exactly when, before it, the entries
    of the file and of its log lead to the log's next page, the device takes that
    page, and the log has the open file's inode. -/
theorem durable_close_iff {s : CYCstate} {n : Nat} (hs : s.nand.Sound n) {p : Ptr} {fileID : Int}
    (h : LastHandle s p fileID) (mem : FullPage) :
    (∃ k < 16 * n, DurableClose s p fileID mem k) ↔
      ∃ k < 16 * n, EntriesAtNextPage s p fileID k := by
  have hlog : logOf (dropHandle s p) p = logOf s p := by
    simp only [logOf, dropHandle, update_same]
  have htakes : ∀ k, TakesNext (dropHandle s p) k ↔ TakesNext s k := fun k => Iff.rfl
  constructor
  · rintro ⟨k, hk, hd⟩
    obtain ⟨hnext, hfile⟩ := hd.nextPage
    obtain ⟨hwritten, hheader⟩ := writeCurrLogHeader_spec (s := dropHandle s p) (p := p)
      mem hs hk (by rw [hlog, hnext])
    have ht := hwritten.mp hd.written
    have hinode := hd.inode
    have hentry := hd.logEntry
    rw [xmpRelease_last h, hheader ht, hlog] at hinode
    rw [vaddrMap_xmpRelease] at hentry
    exact ⟨k, hk, hnext, hentry, hfile, ht, hinode⟩
  · rintro ⟨k, hk, he⟩
    obtain ⟨hwritten, hheader⟩ := writeCurrLogHeader_spec (s := dropHandle s p) (p := p)
      mem hs hk (by rw [hlog, he.nextPage])
    refine ⟨k, hk, ?_, hwritten.mpr he.taken, ?_, ?_, ?_⟩
    · rw [address_getFreePage, he.nextPage]
    · rw [vaddrMap_xmpRelease]; exact he.logEntry
    · rw [vaddrMap_xmpRelease]; exact he.fileEntry
    · rw [xmpRelease_last h, hheader he.taken, hlog]; exact he.inode

/-! ## Closing a new file -/

section
variable {s : CYCstate} {mode : UInt32} {mem : CreateMem}

theorem createOpenFile_handle (s : CYCstate) (mode : UInt32) (mem : CreateMem) :
    (createOpenFile s mode mem).1.openFileTable (getFreePtr s.vaddrMap).1 =
      (createOpenFile s mode mem).2.2 ∧
    (createOpenFile s mode mem).1.openFiles (createOpenFile s mode mem).2.2 =
      { currentOpens := 1, mainExtentLog := (createOpenFile s mode mem).2.1,
        inode := ((createOpenFile s mode mem).1.activeLogs
          (createOpenFile s mode mem).2.1).log.fInode,
        address := (getFreePtr s.vaddrMap).1, modified := mem.oFile.modified } := by
  have hin : ∀ (h : LogHeader) (ind : Inode), (h.setFInode ind).fInode = ind :=
    fun h ind => Buf.slice_blit_same h ind (by omega)
  simp only [createOpenFile, update_same, initOpenFile, hin]
  exact ⟨trivial, trivial⟩

theorem lastHandle_createOpenFile (mode : UInt32) {fileID logID next k : Nat}
    (hm : HasSlots s.vaddrMap fileID logID next)
    (hk : (getFreeBlock s.nand s.lists 1).freePage = k) (hmod : mem.oFile.modified = 1) :
    LastHandle (createOpenFile s mode mem).1 (createOpenFile s mode mem).2.2 fileID := by
  obtain ⟨hptr, -⟩ := hm.getFreePtr_twice
  obtain ⟨-, -, -, -, -, hind⟩ := createOpenFile_spec mode mem hm hk
  obtain ⟨htable, hfile⟩ := createOpenFile_handle s mode mem
  rw [hptr] at htable
  refine ⟨?_, htable, ?_, ?_⟩
  · rw [hfile]; exact hind.iFileNo
  · rw [hfile]
  · rw [hfile]; exact hmod

theorem lastHandle_xmpCreate (mode : UInt32) {fileID logID next k : Nat}
    (hm : HasSlots s.vaddrMap fileID logID next)
    (hk : (getFreeBlock s.nand s.lists 1).freePage = k) (hmod : mem.oFile.modified = 1)
    (path : String) :
    LastHandle (xmpCreate s path mode mem 0).1 (xmpCreate s path mode mem 0).2.2 fileID := by
  obtain ⟨hfile, hentry, hopens, hmod⟩ := lastHandle_createOpenFile mode hm hk hmod
  exact ⟨hfile, hentry, hopens, hmod⟩

theorem logOf_writeNewHeader {theLog p : Ptr} (h : (s.openFiles p).mainExtentLog = theLog)
    (mem : FullPage) : logOf (writeNewHeader s theLog mem) p =
      (getFreePage s.nand s.lists (s.activeLogs theLog) mem).log := by
  have hptr : ((writeNewHeader s theLog mem).openFiles p).mainExtentLog = theLog := h
  rw [logOf, hptr]
  simp only [writeNewHeader, update_same]

theorem logOf_xmpCreate (s : CYCstate) (path : String) (mode : UInt32) (mem : CreateMem) :
    logOf (xmpCreate s path mode mem 0).1 (xmpCreate s path mode mem 0).2.2 =
      (getFreePage (createOpenFile s mode mem).1.nand (createOpenFile s mode mem).1.lists
        ((createOpenFile s mode mem).1.activeLogs (createOpenFile s mode mem).2.1) mem.page).log := by
  obtain ⟨-, hfile⟩ := createOpenFile_handle s mode mem
  exact logOf_writeNewHeader (s := { (createOpenFile s mode mem).1 with
    stubs := update (createOpenFile s mode mem).1.stubs path
      (some (getFreePtr s.vaddrMap).1) }) (congrArg OpenFile.mainExtentLog hfile) mem.page

/-- After a create that is not near the end of a block, the log's next page is
    the one after the header. -/
theorem nextPage_xmpCreate {fileID logID next k : Nat}
    (hm : HasSlots s.vaddrMap fileID logID next)
    (hk : (getFreeBlock s.nand s.lists 1).freePage = k) (hfit : k < 2147483600)
    (h13 : k % 16 < 13) (path : String) :
    (logOf (xmpCreate s path mode mem 0).1 (xmpCreate s path mode mem 0).2.2).nextPage =
      (k + 1 : Nat) := by
  obtain ⟨-, -, -, hnext, -⟩ := createOpenFile_spec mode mem hm hk
  rw [logOf_xmpCreate]
  exact nextPage_getFreePage hnext hfit h13

end

/-- Memory from `malloc` that happens to hold a 1 where the flag is. -/
def flaggedMem : CreateMem :=
  { (default : CreateMem) with oFile := { (default : OpenFile) with modified := 1 } }

/-! ## Once around a block -/

section
variable {s : CYCstate} {path : String} {p : Ptr} {fileID v : Int} {n : Nat}

/-- The file is closed and opened again. -/
def closeAndReopen (path : String) (p : Ptr) (s : CYCstate) : CYCstate :=
  (xmpOpen (xmpRelease s p default).1 path default).1

/-- `p` is the only handle of the file at `path`, whose log is in block 0 and goes on at
    page `v`, while the map leads to page 0. The complete list is empty. -/
structure LogAt (path : String) (p : Ptr) (fileID : Int) (n : Nat) (v : Int) (s : CYCstate) :
    Prop where
  sound : s.nand.Sound n
  handle : LastHandle s p fileID
  stub : s.stubs path = some fileID
  valid : fileID ≠ -1 ∧ p ≠ 0
  completeHead : s.lists.completeHead = 0
  nextPage : (logOf s p).nextPage = v
  last : (logOf s p).last = 0
  prev : (logOf s p).log.prev = -1
  logEntry : s.vaddrMap.map (logOf s p).log.logId.toNat = 0
  fileEntry : s.vaddrMap.map fileID.toNat = 0
  inode : (logOf s p).log.fInode = (s.openFiles p).inode

theorem closeAndReopen_eq (h : LastHandle s p fileID) (hstub : s.stubs path = some fileID)
    (hvalid : fileID ≠ -1 ∧ p ≠ 0) :
    closeAndReopen path p s =
      { s with
        nand := (writeCurrLogHeader s p default).1.nand
        lists := (getFreePage s.nand s.lists (logOf s p) default).lists
        activeLogs := update s.activeLogs (s.openFiles p).mainExtentLog
          (getFreePage s.nand s.lists (logOf s p) default).log } := by
  have hopens : cint (cint ((s.openFiles p).currentOpens - 1) + 1) =
      (s.openFiles p).currentOpens := by
    rw [h.currentOpens]
    rfl
  have hentry : (writeCurrLogHeader (dropHandle s p) p default).1.openFileTable fileID = p := h.entry
  have hopen := xmpOpen_known (s := (writeCurrLogHeader (dropHandle s p) p default).1) default
    hstub hvalid.1 (hentry ▸ hvalid.2)
  rw [hentry] at hopen
  rw [closeAndReopen, xmpRelease_last h, hopen]
  simp only [addHandle, writeCurrLogHeader, dropHandle, logOf, update_same, update_update, hopens]
  rw [update_self]

theorem LogAt.logOf_closeAndReopen (h : LogAt path p fileID n v s) :
    logOf (closeAndReopen path p s) p = (getFreePage s.nand s.lists (logOf s p) default).log := by
  rw [closeAndReopen_eq h.handle h.stub h.valid]
  exact update_same ..

theorem LogAt.lastHandle_closeAndReopen (h : LogAt path p fileID n v s) :
    LastHandle (closeAndReopen path p s) p fileID := by
  rw [closeAndReopen_eq h.handle h.stub h.valid]
  exact ⟨h.handle.fileNo, h.handle.entry, h.handle.currentOpens, h.handle.modified⟩

theorem LogAt.turn (h : LogAt path p fileID n v s) (hv : IsInt v) (h14 : v % 16 ≠ 14) :
    LogAt path p fileID n
      (if v % 16 = 13 then -1 else if v % 16 = 15 then 14 else cint (v + 1))
      (closeAndReopen path p s) := by
  have h14' : (logOf s p).nextPage % 16 ≠ 14 := h.nextPage ▸ h14
  obtain ⟨hnext, hlast, hprev⟩ := log_getFreePage s.nand s.lists (logOf s p) default
    (h.nextPage ▸ hv)
  obtain ⟨hnand, hlists⟩ := lists_getFreePage s.nand s.lists (logOf s p) default h14'
  have hlog := h.logOf_closeAndReopen
  have hhandle := h.lastHandle_closeAndReopen
  rw [closeAndReopen_eq h.handle h.stub h.valid] at hlog hhandle ⊢
  refine ⟨?_, hhandle, h.stub, h.valid, ?_, ?_, ?_, ?_, ?_, ?_, ?_⟩
  · refine sound_writeNAND ?_ _ _ 0
    rw [← logOf, hnand]
    exact h.sound
  · exact (congrArg FreeList.completeHead hlists).trans h.completeHead
  · rw [hlog, hnext, h.prev, h.last, if_neg h14', h.nextPage]
    rfl
  · rw [hlog, hlast, if_neg h14', h.last]
  · rw [hlog, hprev, h.prev]
  · rw [hlog, logId_getFreePage]
    exact h.logEntry
  · exact h.fileEntry
  · rw [hlog, fInode_getFreePage]
    exact h.inode

theorem LogAt.turns (h : LogAt path p fileID n v s) (k : Nat) (h0 : 0 ≤ v) (hk : v + k ≤ 13) :
    LogAt path p fileID n (v + k) ((closeAndReopen path p)^[k] s) := by
  induction k with
  | zero =>
    rw [Nat.cast_zero, Int.add_zero]
    exact h
  | succ k ih =>
    have hturn := (ih (by omega)).turn (by unfold IsInt; omega) (by omega)
    rw [if_neg (by omega), if_neg (by omega), cint_eq (by unfold IsInt; omega)] at hturn
    rw [Function.iterate_succ_apply', show v + (k + 1 : Nat) = v + k + 1 by omega]
    exact hturn

/-- From the second to last page, though no block is left to be taken: it is block 0,
    which is erased, that the log goes on in. -/
theorem LogAt.wrap (h : LogAt path p fileID n 14 s) (hn : 0 < n) :
    (closeAndReopen path p s).nand.Sound n ∧ LastHandle (closeAndReopen path p s) p fileID ∧
      EntriesAtNextPage (closeAndReopen path p s) p fileID 0 := by
  have hnext : (logOf s p).nextPage = (14 : Nat) := h.nextPage
  obtain ⟨hback, -, -⟩ := log_getFreePage s.nand s.lists (logOf s p) default
    (h.nextPage ▸ (by decide : IsInt 14))
  rw [if_neg (by rw [hnext]; decide), if_pos (by rw [hnext]; rfl), h.completeHead] at hback
  have hnand : (getFreePage s.nand s.lists (logOf s p) default).nand = _ :=
    nand_getFreePage hnext (by omega)
  rw [if_pos rfl] at hnand
  obtain ⟨hs, -, hptr, -⟩ := getFreeBlock_complete_views h.sound (show 0 < 16 * n by omega)
    (.inl rfl) h.completeHead
  rw [← hnand] at hs hptr
  -- the header was to go to page 14 of the block just erased
  have hsame : SameStore (getFreePage s.nand s.lists (logOf s p) default).nand
      (writeCurrLogHeader s p default).1.nand := by
    show SameStore _ (writeNAND _ _ (getFreePage s.nand s.lists (logOf s p) default).address 0).1
    rw [address_getFreePage, hnext]
    refine (writeNAND_refused hs _ (show 14 < 16 * n by omega) ?_).2
    rintro (hra | hfree)
    · exact hra rfl
    · rw [hptr, if_pos rfl] at hfree
      cases hfree
  have hlog := h.logOf_closeAndReopen
  have hhandle := h.lastHandle_closeAndReopen
  rw [closeAndReopen_eq h.handle h.stub h.valid] at hlog hhandle ⊢
  refine ⟨hsame.sound hs, hhandle, ?_, ?_, h.fileEntry, ?_, ?_⟩
  · rw [hlog, hback]
    rfl
  · rw [hlog, logId_getFreePage]
    exact h.logEntry
  · refine .inr ?_
    rw [hsame.nextPage, hptr]
    rfl
  · rw [hlog, fInode_getFreePage]
    exact h.inode

/-- Closed and reopened 15 times, the log has been once around its block. -/
theorem LogAt.around (h : LogAt path p fileID n 1 s) (hn : 0 < n) :
    ((closeAndReopen path p)^[15] s).nand.Sound n ∧
    LastHandle ((closeAndReopen path p)^[15] s) p fileID ∧
    EntriesAtNextPage ((closeAndReopen path p)^[15] s) p fileID 0 := by
  have h13 := h.turns 12 (by omega) (by omega)
  have hpast : LogAt path p fileID n (-1) _ := h13.turn (by decide) (by decide)
  have hlast : LogAt path p fileID n 14 ((closeAndReopen path p)^[14] s) := by
    rw [Function.iterate_succ_apply', Function.iterate_succ_apply']
    exact hpast.turn (by decide) (by decide)
  rw [Function.iterate_succ_apply']
  exact hlast.wrap hn

theorem logAt_xmpCreate {fileID logID next : Nat} (hs : s.nand.Sound n) (hn : 0 < n)
    (hhead : s.lists.partialHead = 0) (hcomplete : s.lists.completeHead = 0)
    (hblank : (s.nand.page 15).nextLogBlock = 0) (hm : HasSlots s.vaddrMap fileID logID next)
    (path : String) (mode : UInt32) :
    LogAt path (xmpCreate s path mode flaggedMem 0).2.2 fileID n 1
      (xmpCreate s path mode flaggedMem 0).1 := by
  obtain ⟨-, -, -, hlists, hk, -⟩ := getFreeBlock_complete hs (show 0 < 16 * n by omega)
    (.inr hhead : (1 : Int) = 0 ∨ _) hcomplete
  obtain ⟨-, -, -, hnext, hlogId, -⟩ := createOpenFile_spec mode flaggedMem hm hk
  obtain ⟨-, hlast, hprev⟩ := log_createOpenFile mode flaggedMem hk (by omega)
  obtain ⟨-, hfile⟩ := createOpenFile_handle s mode flaggedMem
  have hstub := stubs_xmpCreate s path mode flaggedMem
  have hlog := logOf_xmpCreate s path mode flaggedMem
  obtain ⟨hfree, hfreeLast, hfreePrev⟩ := log_getFreePage (createOpenFile s mode flaggedMem).1.nand
    (createOpenFile s mode flaggedMem).1.lists
    ((createOpenFile s mode flaggedMem).1.activeLogs (createOpenFile s mode flaggedMem).2.1)
    flaggedMem.page (hnext ▸ (by decide : IsInt 0))
  obtain ⟨page, -, hnand, hlists₁, hmap⟩ :=
    xmpCreate_views mode flaggedMem hm hk (show 0 < 2147483600 by omega) (by omega) path
  have hentry := map_createdMap hm (show 0 < 2147483648 by omega)
  have hid : (getFreePtr s.vaddrMap).1 = fileID := congrArg Prod.fst hm.getFreePtr_twice.1
  refine ⟨?_, lastHandle_xmpCreate mode hm hk rfl path, ?_, ⟨by omega, Nat.succ_ne_zero _⟩, ?_, ?_,
    ?_, ?_, ?_, ?_, ?_⟩
  · rw [hnand]
    exact sound_writeNAND (sound_getFreeBlock hs _ _) page _ 0
  · rw [hstub, update_same, hid]
  · rw [hlists₁, hlists]
    simp only [FreeList.fields_setCompleteHeadErases, FreeList.fields_setCompleteHead]
    exact (congrArg cint hblank)
  · rw [hlog, hfree, hnext]
    rfl
  · rw [hlog, hfreeLast, hnext, hlast]
    rfl
  · rw [hlog, hfreePrev, hprev]
  · rw [hlog, logId_getFreePage, hlogId, hmap, Int.toNat_natCast, hentry, if_pos (.inr rfl)]
    rfl
  · rw [hmap, Int.toNat_natCast, hentry, if_pos (.inl rfl)]
    rfl
  · rw [hlog, fInode_getFreePage]
    exact (congrArg OpenFile.inode hfile).symm

end

/-- Two files on three blocks. The first takes the last free block. -/
def onlyFile : CYCstate := (xmpCreate (newFileSystem 3) "/a" 33188 default 0).1

def secondFile : CYCstate × Int × Ptr := xmpCreate onlyFile "/b" 33188 flaggedMem 0

theorem logAt_secondFile : LogAt "/b" secondFile.2.2 (3 : Nat) 3 1 secondFile.1 := by
  have hm := freshMount_newFileSystem (n := 3) (by omega) (by omega)
  have hlists : FreeLists (newFileSystem 3).nand 3 _ [32] [] := hm.freeLists
  have hslots : HasSlots (newFileSystem 3).vaddrMap 1 2 3 := hm.vaddrMap.hasSlots (by omega)
  obtain ⟨hsame, hk, hnone⟩ :=
    freeLists_getFreeBlock_partial hm.image.sound hlists (show (1 : Int) ≠ 0 by omega)
  have hk : (getFreeBlock (newFileSystem 3).nand (newFileSystem 3).lists 1).freePage = (33 : Nat) :=
    hk
  obtain ⟨page, -, hd, hl, hv⟩ := xmpCreate_views 33188 default hslots hk (by omega) (by omega) "/a"
  rw [← onlyFile] at hd hl hv
  have hs := hsame.sound hm.image.sound
  have hfree : FreeSlots onlyFile.vaddrMap 254 3 := by
    rw [hv]
    exact freeSlots_createdMap hm.vaddrMap (by omega) (by omega)
  refine logAt_xmpCreate ?_ (by omega) ?_ ?_ ?_ (hfree.hasSlots (by omega)) "/b" 33188
  · rw [hd]
    exact sound_writeNAND hs page _ 0
  · rw [hl]
    exact hnone.partialHead_nil
  · rw [hl]
    exact hnone.completeHead_nil
  · have hblank : (getFreeBlock (newFileSystem 3).nand (newFileSystem 3).lists 1).nand.page 15 =
        Buf.zero 1048 := (hsame.page 15).trans (hm.image.blank 15 (.inl (by omega)))
    have hkeep : onlyFile.nand.page 15 = Buf.zero 1048 := by
      rw [hd, ← hblank]
      by_cases ha : (getFreeBlock (newFileSystem 3).nand (newFileSystem 3).lists 1).nand.Accepts 33 0
      · rw [page_writeNAND hs page (by omega) ha, if_neg (by omega)]
      · exact (writeNAND_refused hs page (by omega) ha).2.page 15
    rw [hkeep]
    exact Buf.int_zero _

/-- The second file, with its `modified` flag left set by `malloc`, is closed and opened
    again 15 times. Its log is then back at the page of its first header: the next close
    is durable. -/
theorem durable_close_wrapped :
    ∃ k < 16 * 3, DurableClose ((closeAndReopen "/b" secondFile.2.2)^[15] secondFile.1)
      secondFile.2.2 (3 : Nat) default k := by
  obtain ⟨hs, hlast, hentries⟩ := logAt_secondFile.around (by omega)
  exact (durable_close_iff hs hlast default).mpr ⟨0, by omega, hentries⟩

/-- The first file of a new file system is created and closed again: the map
    still leads to the header of the create. -/
theorem not_durable_first_close :
    LastHandle (xmpCreate (newFileSystem 4) "/a" 33188 flaggedMem 0).1
      (xmpCreate (newFileSystem 4) "/a" 33188 flaggedMem 0).2.2 (1 : Nat) ∧
    ¬ ∃ k < 16 * 4, DurableClose (xmpCreate (newFileSystem 4) "/a" 33188 flaggedMem 0).1
      (xmpCreate (newFileSystem 4) "/a" 33188 flaggedMem 0).2.2 (1 : Nat) default k := by
  have hm := freshMount_newFileSystem (n := 4) (by omega) (by omega)
  obtain ⟨hslots, -, hk⟩ := first_create
  refine ⟨lastHandle_xmpCreate 33188 hslots hk rfl "/a", ?_⟩
  rintro ⟨k, -, hd⟩
  obtain ⟨hnext, hfile⟩ := hd.nextPage
  rw [nextPage_xmpCreate hslots hk (by omega) (by omega)] at hnext
  -- the log has moved on to page 34, the map still says 33
  have hlists : FreeLists _ 4 _ [32, 48] [] := hm.freeLists
  obtain ⟨-, -, -, -, -, -, hmap⟩ := xmpCreate_spec 33188 flaggedMem
    hm.image.sound hm.image.labelled hlists hslots (by omega) (hm.image.nextPage 2) "/a"
  rw [hmap, Int.toNat_natCast, map_createdMap hslots (by omega), if_pos (.inl rfl)] at hfile
  omega

end Cycology
