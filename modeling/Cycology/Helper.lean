import Cycology.FreeBlocks

/- The run-time state of `fuseLogging.h` and the rest of `helper.c`: mounting,
   address-map slots, logs and their pages.

   `malloc` never fails and returns a fresh non-zero address; what it leaves in
   the new memory is arbitrary, and is an argument (`mem`) of the function that
   calls it. Objects live in one store for each of `struct openFile` and
   `struct activeLog`, and share addresses, since the open-file table mixes the
   two. Fields of these structures that no modelled function reads are left
   out. -/
namespace Cycology
open ByteMem

/-- The value of a pointer; 0 is `NULL`. -/
abbrev Ptr := Nat

/-- `struct activeLog`. -/
structure ActiveLog where
  nextPage : Int
  last : Int
  lastErases : Int
  log : LogHeader
  fileCount : Int
  deriving Inhabited

/-- `struct openFile`. -/
structure OpenFile where
  currentOpens : Int
  mainExtentLog : Ptr
  inode : Inode
  address : Int
  modified : Int
  deriving Inhabited

/-- `struct CYCstate`, with the device and the memory its pointers lead to.
    `stubs` holds the stub files under the root path, by path, as the file ids
    written in them; `brk` is the last address `malloc` returned. -/
structure CYCstate where
  nand : Nand
  vaddrMap : AddrMap
  openFileTable : Int → Ptr
  lists : FreeList
  openFiles : Ptr → OpenFile
  activeLogs : Ptr → ActiveLog
  brk : Ptr
  stubs : String → Option Int
  deriving Inhabited

/-- Set one cell of a table. -/
def update {α β : Type} [DecidableEq α] (f : α → β) (a : α) (b : β) : α → β :=
  fun x => if x = a then b else f x

section
variable {α β : Type} [DecidableEq α] (f : α → β)

@[simp] theorem update_same (a : α) (b : β) : update f a b a = b := if_pos rfl

theorem update_other {a x : α} (b : β) (h : x ≠ a) : update f a b x = f x := if_neg h

theorem update_self (a : α) : update f a (f a) = f := by
  funext x
  by_cases hx : x = a
  · rw [hx, update_same]
  · rw [update_other _ _ hx]

theorem update_update (a : α) (b b' : β) : update (update f a b) a b' = update f a b' := by
  funext x
  by_cases hx : x = a
  · rw [hx, update_same, update_same]
  · rw [update_other _ _ hx, update_other _ _ hx, update_other _ _ hx]

end

/-! ## Mounting -/

/-- The copy of the address map in `page` that `initCYCstate` allocates. -/
def loadVaddrMap (page : FullPage) : AddrMap :=
  let size := AddrMap.bytesFor (AddrMap.size ⟨1048, page⟩)
  ⟨size, Buf.ofFn size page.byte⟩

/-- `initCYCstate`, for a `state` and a cache fresh from `malloc`. The `memset`
    of the open-file table counts entries where it means bytes: it clears 31
    pointers and six bytes of the next. -/
def initCYCstate (state : CYCstate) : CYCstate :=
  let page : FullPage := state.nand.frame.slice 0 1048
  let (d, page, _) := readNAND state.nand page 0
  let superBlock := SuperPage.ofPage page
  let (d, page, _) := readNAND d page superBlock.latestVaddrMap
  { state with
    nand := d
    lists := superBlock.freeLists
    vaddrMap := loadVaddrMap page
    openFileTable := fun i =>
      if i < 0 then state.openFileTable i
      else if i < 31 then 0
      else if i = 31 then state.openFileTable i / 281474976710656 * 281474976710656
      else state.openFileTable i }

/-- `xmp_init`: the state a mount of the file builds from fresh memory `mem`. -/
def xmpInit (f : File) (frame : Block) (mem : CYCstate) : CYCstate :=
  initCYCstate { mem with nand := initNAND f frame }

theorem initCYCstate_spec {state : CYCstate} {n m : Nat} (hs : state.nand.Sound n) (hn : 0 < n)
    (hm : m < 16 * n) (hmap : (SuperPage.ofPage (state.nand.page 0)).latestVaddrMap = m) :
    state.nand.SameStore (initCYCstate state).nand ∧
    (initCYCstate state).lists = (SuperPage.ofPage (state.nand.page 0)).freeLists ∧
    (initCYCstate state).vaddrMap = loadVaddrMap (state.nand.page m) := by
  obtain ⟨d₁, hread₁, hsame₁⟩ := readNAND_ok hs (state.nand.frame.slice 0 1048)
    (show 0 < 16 * n by omega)
  obtain ⟨d₂, hread₂, hsame₂⟩ := readNAND_ok (hsame₁.sound hs) (state.nand.page 0) hm
  rw [hsame₁.page m] at hread₂
  rw [Int.natCast_zero] at hread₁
  simp only [initCYCstate, hread₁, hmap, hread₂]
  exact ⟨hsame₁.trans hsame₂, trivial, trivial⟩

theorem stubs_xmpInit (f : File) (frame : Block) (mem : CYCstate) :
    (xmpInit f frame mem).stubs = mem.stubs := by
  simp only [xmpInit, initCYCstate]

/-- The `memset` of the table reaches the entries of the first ids. -/
theorem openFileTable_initCYCstate (mem : CYCstate) {id : Int} (h0 : 0 ≤ id) (h31 : id < 31) :
    (initCYCstate mem).openFileTable id = 0 := by
  simp only [initCYCstate]
  rw [if_neg (by omega), if_pos h31]

/-! ## Small initialisers -/

def initInode (ind : Inode) (mode : UInt32) (fileID logID : Int) : Inode :=
  let ind := ind.setIMode mode.toNat
  let ind := ind.setIFileNo fileID
  let ind := ind.setILogNo logID
  let ind := ind.setILinksCount 0
  let ind := ind.setIPages 0
  ind.setISize 0

def initLogHeader (logH : LogHeader) (logId logType : Int) : LogHeader :=
  let logH := logH.setErases 0
  let logH := logH.setLogId logId
  let logH := logH.setPrev (-1)
  let logH := logH.setActive 0
  let logH := logH.setTotal 1
  logH.setLogType logType

/-- `initActiveLog`, of a log fresh from `malloc`. -/
def initActiveLog (theLog : ActiveLog) (headerPage : Int) : ActiveLog :=
  if (cint (headerPage + 3)).tmod blockSize = 0 then
    { theLog with nextPage := cint (theLog.log.prev * blockSize + (blockSize - 1)) }
  else if (cint (headerPage + 2)).tmod blockSize = 0 then
    { theLog with nextPage := cint (theLog.last * blockSize) }
  else if (cint (headerPage + 1)).tmod blockSize = 0 then
    { theLog with nextPage := cint (theLog.last * blockSize + (blockSize - 2)) }
  else { theLog with nextPage := cint (theLog.nextPage + 1) }

def initOpenFile (oFile : OpenFile) (log : Ptr) (ind : Inode) (fileID : Int) : OpenFile :=
  { oFile with currentOpens := 1, mainExtentLog := log, inode := ind, address := fileID }

/-- The slot, and the map without it. -/
def getFreePtr (map : AddrMap) : Int × AddrMap :=
  let ptr := map.freePtr
  (ptr, map.setFreePtr (cint |map.map ptr.toNat|))

/-! ## Pages of a log -/

/-- What a call of `getFreePage` leaves: the device, the lists, the log, and
    the `writeablePage` it returns. -/
structure FreePage where
  nand : Nand
  lists : FreeList
  log : ActiveLog
  page : FullPage
  address : Int

/-- `mem` is what `malloc` left in the page. -/
def getFreePage (d : Nand) (lists : FreeList) (log : ActiveLog) (mem : FullPage) : FreePage :=
  let address := log.nextPage
  let header := log.log.setActive (log.log.active + 1)
  if address.tmod blockSize = 0 then
    ⟨d, lists, { log with nextPage := cint (address + 1), log := header },
      mem.setEraseCount log.lastErases, address⟩
  else if (cint (address + 3)).tmod blockSize = 0 then
    ⟨d, lists,
      { log with nextPage := cint (log.log.prev * blockSize + (blockSize - 1)), log := header },
      mem, address⟩
  else if (cint (address + 2)).tmod blockSize = 0 then
    let b := getFreeBlock d lists 0
    ⟨b.nand, b.lists,
      { log with
        nextPage := b.freePage
        last := b.freePage.tdiv blockSize
        lastErases := b.freePageErases
        log := header },
      (mem.setNextLogBlock b.freePage).setNextBlockErases b.freePageErases, address⟩
  else if (cint (address + 1)).tmod blockSize = 0 then
    ⟨d, lists,
      { log with nextPage := cint (log.last * blockSize + (blockSize - 2)), log := header },
      (mem.setNextLogBlock (log.last * blockSize)).setNextBlockErases log.lastErases, address⟩
  else
    ⟨d, lists, { log with nextPage := cint (address + 1), log := header }, mem, address⟩

/-- The header of a new log, over what `malloc` left there, for a block taken
    at `freePage`. -/
def newLogHeader (log : LogHeader) (mode : UInt32) (fileID logID freePage freePageErases : Int) :
    LogHeader :=
  let log := log.setFInode (initInode log.fInode mode fileID logID)
  let log := initLogHeader log logID ltypeFiles
  let log := log.setFirstErases freePageErases
  let log := log.setErases log.firstErases
  let log := log.setFirst (freePage.tdiv blockSize)
  (log.setFileCount 1).setFileId0 fileID

/-- A new log for a new file: the state, the log and `*logHeaderPage`. -/
def getLogForFile (state : CYCstate) (fileID : Int) (mode : UInt32) (mem : ActiveLog) :
    CYCstate × Ptr × Int :=
  let theLog := state.brk + 1
  let (logID, vaddrMap) := getFreePtr state.vaddrMap
  -- the header goes in the first unused page of a newly allocated block
  let b := getFreeBlock state.nand state.lists 1
  let log := newLogHeader mem.log mode fileID logID b.freePage b.freePageErases
  ({ state with
      nand := b.nand
      lists := b.lists
      brk := theLog
      activeLogs := update state.activeLogs theLog
        { mem with nextPage := b.freePage, last := log.first, log := log }
      openFileTable := update state.openFileTable logID theLog
      vaddrMap := vaddrMap.setMap logID.toNat b.freePage },
    theLog, b.freePage)

/-- `writeCurrLogHeader(oFile, &state->lists)`: the state, and what its
    `writeNAND` returned, which the code does not look at. -/
def writeCurrLogHeader (state : CYCstate) (oFile : Ptr) (mem : FullPage) : CYCstate × Int :=
  let theLog := (state.openFiles oFile).mainExtentLog
  let buf := getFreePage state.nand state.lists (state.activeLogs theLog) mem
  let page := buf.page.setContents buf.log.log
  let (d, res) := writeNAND buf.nand page buf.address 0
  ({ state with
      nand := d
      lists := buf.lists
      activeLogs := update state.activeLogs theLog buf.log },
    res)

/-! ## The header of a new log -/

section
variable (log : LogHeader) (mode : UInt32) (fileID logID freePage freePageErases : Int)

theorem prev_newLogHeader :
    (newLogHeader log mode fileID logID freePage freePageErases).prev = -1 := by
  simp only [newLogHeader, initLogHeader, LogHeader.setFInode, LogHeader.setFirstErases,
    LogHeader.setErases, LogHeader.setFirst, LogHeader.setFileCount, LogHeader.setFileId0,
    LogHeader.setLogId, LogHeader.setPrev, LogHeader.setActive, LogHeader.setTotal,
    LogHeader.setLogType, LogHeader.prev, Buf.setNum]
  rw [Buf.int_setInt_other _ _ (by omega), Buf.int_setInt_other _ _ (by omega),
    Buf.int_setInt_other _ _ (by omega), Buf.int_blit_other _ _ (by omega),
    Buf.int_setInt_other _ _ (by omega), Buf.int_blit_other _ _ (by omega),
    Buf.int_setInt_other _ _ (by omega), Buf.int_setInt_other _ _ (by omega),
    Buf.int_setInt_same _ _ (by omega)]
  rfl

theorem first_newLogHeader :
    (newLogHeader log mode fileID logID freePage freePageErases).first =
      cint (freePage.tdiv blockSize) := by
  simp only [newLogHeader, LogHeader.setFirst, LogHeader.setFileCount, LogHeader.setFileId0,
    LogHeader.first]
  rw [Buf.int_setInt_other _ _ (by omega), Buf.int_setInt_other _ _ (by omega),
    Buf.int_setInt_same _ _ (by omega)]

theorem total_newLogHeader :
    (newLogHeader log mode fileID logID freePage freePageErases).total = 1 := by
  simp only [newLogHeader, initLogHeader, LogHeader.setFInode, LogHeader.setFirstErases,
    LogHeader.setErases, LogHeader.setFirst, LogHeader.setFileCount, LogHeader.setFileId0,
    LogHeader.setLogId, LogHeader.setPrev, LogHeader.setActive, LogHeader.setTotal,
    LogHeader.setLogType, LogHeader.total, Buf.uint, Buf.setInt, Buf.setNum]
  iterate 6 rw [Buf.int_blit_other _ _ (by omega)]
  exact congrArg (· % 4294967296) (Buf.int_setInt_same _ _ (by omega))

theorem active_newLogHeader :
    (newLogHeader log mode fileID logID freePage freePageErases).active = 0 := by
  simp only [newLogHeader, initLogHeader, LogHeader.setFInode, LogHeader.setFirstErases,
    LogHeader.setErases, LogHeader.setFirst, LogHeader.setFileCount, LogHeader.setFileId0,
    LogHeader.setLogId, LogHeader.setPrev, LogHeader.setActive, LogHeader.setTotal,
    LogHeader.setLogType, LogHeader.active, Buf.uint, Buf.setInt, Buf.setNum]
  iterate 7 rw [Buf.int_blit_other _ _ (by omega)]
  exact congrArg (· % 4294967296) (Buf.int_setInt_same _ _ (by omega))

theorem erases_newLogHeader (he : IsInt freePageErases) :
    (newLogHeader log mode fileID logID freePage freePageErases).erases =
      freePageErases % 18446744073709551616 := by
  simp only [newLogHeader, LogHeader.setFirst, LogHeader.setFileCount, LogHeader.setFileId0,
    LogHeader.erases, Buf.setInt, Buf.setNum]
  iterate 3 rw [Buf.ulong_blit_other _ _ (by omega)]
  refine (Buf.ulong_setNum_same _ _ (by omega)).trans ?_
  rw [LogHeader.firstErases, LogHeader.setFirstErases, Buf.int_setInt_same _ _ (by omega),
    cint_eq he]

theorem fInode_newLogHeader :
    (newLogHeader log mode fileID logID freePage freePageErases).fInode =
      initInode log.fInode mode fileID logID := by
  simp only [newLogHeader, initLogHeader, LogHeader.setFInode, LogHeader.setFirstErases,
    LogHeader.setErases, LogHeader.setFirst, LogHeader.setFileCount, LogHeader.setFileId0,
    LogHeader.setLogId, LogHeader.setPrev, LogHeader.setActive, LogHeader.setTotal,
    LogHeader.setLogType, LogHeader.fInode, Buf.setInt, Buf.setNum]
  iterate 11 rw [Buf.slice_blit_other _ _ (by omega)]
  exact Buf.slice_blit_same _ _ (by omega)

theorem logId_newLogHeader :
    (newLogHeader log mode fileID logID freePage freePageErases).logId = cint logID := by
  simp only [newLogHeader, initLogHeader, LogHeader.setFInode, LogHeader.setFirstErases,
    LogHeader.setErases, LogHeader.setFirst, LogHeader.setFileCount, LogHeader.setFileId0,
    LogHeader.setLogId, LogHeader.setPrev, LogHeader.setActive, LogHeader.setTotal,
    LogHeader.setLogType, LogHeader.logId, Buf.setInt, Buf.setNum]
  iterate 9 rw [Buf.int_blit_other _ _ (by omega)]
  exact Buf.int_setInt_same _ _ (by omega)

end

/-! ## Inodes -/

section
variable (ind : Inode) (mode : UInt32) (fileID logID : Int)

theorem iMode_initInode : (initInode ind mode fileID logID).iMode = mode.toNat := by
  have hlt := mode.toNat_lt
  simp only [initInode, Inode.setIMode, Inode.setIFileNo, Inode.setILogNo, Inode.setILinksCount,
    Inode.setIPages, Inode.setISize, Inode.iMode, Buf.uint]
  rw [Buf.setNum, Buf.int_blit_other _ _ (by omega)]
  iterate 4 rw [Buf.int_setInt_other _ _ (by omega)]
  rw [Buf.int_setInt_same _ _ (by omega), cint_emod]
  omega

theorem iFileNo_initInode : (initInode ind mode fileID logID).iFileNo = cint fileID := by
  simp only [initInode, Inode.setIMode, Inode.setIFileNo, Inode.setILogNo, Inode.setILinksCount,
    Inode.setIPages, Inode.setISize, Inode.iFileNo]
  rw [Buf.setNum, Buf.int_blit_other _ _ (by omega)]
  iterate 3 rw [Buf.int_setInt_other _ _ (by omega)]
  exact Buf.int_setInt_same _ _ (by omega)

theorem iLogNo_initInode : (initInode ind mode fileID logID).iLogNo = cint logID := by
  simp only [initInode, Inode.setIMode, Inode.setIFileNo, Inode.setILogNo, Inode.setILinksCount,
    Inode.setIPages, Inode.setISize, Inode.iLogNo]
  rw [Buf.setNum, Buf.int_blit_other _ _ (by omega)]
  iterate 2 rw [Buf.int_setInt_other _ _ (by omega)]
  exact Buf.int_setInt_same _ _ (by omega)

theorem iLinksCount_initInode : (initInode ind mode fileID logID).iLinksCount = 0 := by
  simp only [initInode, Inode.setIMode, Inode.setIFileNo, Inode.setILogNo, Inode.setILinksCount,
    Inode.setIPages, Inode.setISize, Inode.iLinksCount, Buf.uint]
  rw [Buf.setNum, Buf.int_blit_other _ _ (by omega), Buf.int_setInt_other _ _ (by omega),
    Buf.int_setInt_same _ _ (by omega)]
  rfl

theorem linked_initInode :
    ((initInode ind mode fileID logID).setILinksCount
      ((initInode ind mode fileID logID).iLinksCount + 1)).iMode = mode.toNat ∧
    ((initInode ind mode fileID logID).setILinksCount
      ((initInode ind mode fileID logID).iLinksCount + 1)).iFileNo = cint fileID ∧
    ((initInode ind mode fileID logID).setILinksCount
      ((initInode ind mode fileID logID).iLinksCount + 1)).iLogNo = cint logID ∧
    ((initInode ind mode fileID logID).setILinksCount
      ((initInode ind mode fileID logID).iLinksCount + 1)).iLinksCount = 1 := by
  rw [iLinksCount_initInode]
  refine ⟨?_, ?_, ?_, ?_⟩
  · rw [← iMode_initInode ind mode fileID logID, Inode.iMode, Inode.iMode, Buf.uint, Buf.uint,
      Inode.setILinksCount, Buf.int_setInt_other _ _ (by omega)]
  · rw [← iFileNo_initInode ind mode fileID logID]
    exact Buf.int_setInt_other _ _ (by omega)
  · rw [← iLogNo_initInode ind mode fileID logID]
    exact Buf.int_setInt_other _ _ (by omega)
  · rw [Inode.iLinksCount, Buf.uint, Inode.setILinksCount, Buf.int_setInt_same _ _ (by omega)]
    rfl

end

@[simp] theorem active_setActive (log : LogHeader) (v : Int) :
    (log.setActive v).active = v % 4294967296 := by
  rw [LogHeader.active, LogHeader.setActive, Buf.uint, Buf.int_setInt_same _ _ (by omega),
    cint_emod]

@[simp] theorem total_setActive (log : LogHeader) (v : Int) : (log.setActive v).total = log.total :=
  congrArg (· % 4294967296) (Buf.int_setInt_other _ _ (by omega))

@[simp] theorem erases_setActive (log : LogHeader) (v : Int) :
    (log.setActive v).erases = log.erases := Buf.ulong_blit_other _ _ (by omega)

@[simp] theorem prev_setActive (log : LogHeader) (v : Int) : (log.setActive v).prev = log.prev :=
  Buf.int_setInt_other _ _ (by omega)

@[simp] theorem logId_setActive (log : LogHeader) (v : Int) :
    (log.setActive v).logId = log.logId := Buf.int_setInt_other _ _ (by omega)

@[simp] theorem fInode_setActive (log : LogHeader) (v : Int) :
    (log.setActive v).fInode = log.fInode :=
  Buf.slice_setInt_other _ _ (by omega)

@[simp] theorem first_setActive (log : LogHeader) (v : Int) : (log.setActive v).first = log.first :=
  Buf.int_setInt_other _ _ (by omega)

end Cycology
