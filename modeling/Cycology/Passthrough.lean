import Cycology.Recycle

/- The FUSE callbacks of `passthroughBlocked_fh.c` that work on the mounted
   state: creating a file, opening, closing and removing one, and unmounting.

   `fi->fh` is the address of the `struct openFile` a handle leads to; the open
   flags kept beside it are never read. A stub file is opened, or removed, with
   `errno` 0 or fails with another `errno`; reading and writing it never fails.
   Each callback gives the new state and its return value. -/
namespace Cycology
open ByteMem

/-- What `malloc` leaves in the three objects `xmp_create` allocates. -/
structure CreateMem where
  log : ActiveLog
  oFile : OpenFile
  page : FullPage
  deriving Inhabited

/-- `xmp_create`, up to the opening of the stub file: the state, the log and
    the new `struct openFile`. -/
def createOpenFile (state : CYCstate) (mode : UInt32) (mem : CreateMem) : CYCstate × Ptr × Ptr :=
  let (fileID, vaddrMap) := getFreePtr state.vaddrMap
  let (state, theLog, logHeaderPage) :=
    getLogForFile { state with vaddrMap := vaddrMap } fileID mode mem.log
  let log := state.activeLogs theLog
  let ind := log.log.fInode
  let ind := ind.setILinksCount (ind.iLinksCount + 1)
  let oFile := state.brk + 1
  ({ state with
      vaddrMap := state.vaddrMap.setMap fileID.toNat logHeaderPage
      brk := oFile
      activeLogs := update state.activeLogs theLog { log with log := log.log.setFInode ind }
      openFiles := update state.openFiles oFile (initOpenFile mem.oFile theLog ind fileID)
      openFileTable := update state.openFileTable fileID oFile },
    theLog, oFile)

/-- The end of `xmp_create`: the header of the new log goes to the device. -/
def writeNewHeader (state : CYCstate) (theLog : Ptr) (mem : FullPage) : CYCstate :=
  let buf := getFreePage state.nand state.lists (state.activeLogs theLog) mem
  let page := (buf.page.setContents buf.log.log).setPageType ptypeInode
  let (d, _) := writeNAND buf.nand page buf.address 0
  { state with
    nand := d
    lists := buf.lists
    activeLogs := update state.activeLogs theLog buf.log }

/-- The state, the result and `fi->fh`. -/
def xmpCreate (state : CYCstate) (path : String) (mode : UInt32) (mem : CreateMem) (errno : Nat) :
    CYCstate × Int × Ptr :=
  let fileID := (getFreePtr state.vaddrMap).1
  let (state, theLog, oFile) := createOpenFile state mode mem
  if errno ≠ 0 then (state, -errno, 0)
  else
    let state := { state with stubs := update state.stubs path (some fileID) }
    (writeNewHeader state theLog mem.page, 0, oFile)

/-- What `malloc` leaves in the objects `xmp_open` allocates, and the bytes on the
    stack that `&ind`, the address of a pointer, passes off as an inode. -/
structure OpenMem where
  log : ActiveLog
  oFile : OpenFile
  ind : Inode
  deriving Inhabited

/-- The log descriptor `xmp_open` makes when the table has none for the log. It
    goes to the table, and to a variable that hides the one used later. -/
def openActiveLog (state : CYCstate) (logID logHeaderAddr : Int) (page : FullPage)
    (mem : ActiveLog) : CYCstate :=
  let lastHeaderAddr := state.vaddrMap.map logID.toNat
  let log := state.brk + 1
  let theLog := initActiveLog mem (cint (lastHeaderAddr + 1))
  let (d, _, _) :=
    if lastHeaderAddr ≠ logHeaderAddr then readNAND state.nand page lastHeaderAddr
    else (state.nand, page, 0)
  { state with
    nand := d
    brk := log
    activeLogs := update state.activeLogs log
      { theLog with fileCount := cint (theLog.fileCount + 1) }
    openFileTable := update state.openFileTable logID log }

/-- The branch of `xmp_open` for a file that is not open: the state and the new
    `struct openFile`. -/
def openFirst (state : CYCstate) (fileID : Int) (mem : OpenMem) : CYCstate × Ptr :=
  let logHeaderAddr := state.vaddrMap.map fileID.toNat
  let (d, page, _) := readNAND state.nand (state.nand.frame.slice 0 1048) logHeaderAddr
  let state := { state with nand := d }
  let logID := (LogHeader.ofPage page).fInode.iLogNo
  let log := state.openFileTable logID
  let state := if log = 0 then openActiveLog state logID logHeaderAddr page mem.log else state
  let oFile := state.brk + 1
  ({ state with
      brk := oFile
      openFiles := update state.openFiles oFile (initOpenFile mem.oFile log mem.ind fileID)
      openFileTable := update state.openFileTable fileID oFile },
    oFile)

/-- `currentOpens++` in `xmp_open`. -/
def addHandle (state : CYCstate) (fh : Ptr) : CYCstate :=
  let oFile := state.openFiles fh
  { state with
    openFiles :=
      update state.openFiles fh { oFile with currentOpens := cint (oFile.currentOpens + 1) } }

/-- The state, the result and `fi->fh`. -/
def xmpOpen (state : CYCstate) (path : String) (mem : OpenMem) : CYCstate × Int × Ptr :=
  match state.stubs path with
  | none => (state, -1, 0)
  | some fileID =>
    if fileID = -1 then (state, -1, 0)
    else
      let (state, oFile) :=
        if state.openFileTable fileID = 0 then openFirst state fileID mem
        else (state, state.openFileTable fileID)
      (addHandle state oFile, 0, oFile)

/-- `--currentOpens` in `xmp_release`. -/
def dropHandle (state : CYCstate) (fh : Ptr) : CYCstate :=
  let oFile := state.openFiles fh
  { state with
    openFiles :=
      update state.openFiles fh { oFile with currentOpens := cint (oFile.currentOpens - 1) } }

/-- `xmp_release` of the handle `fh`. Nothing takes the file out of the
    open-file table: the code assigns `NULL` to its own copy of the entry. -/
def xmpRelease (state : CYCstate) (fh : Ptr) (mem : FullPage) : CYCstate × Int :=
  let releasedFile := state.openFileTable (state.openFiles fh).inode.iFileNo
  let state := dropHandle state fh
  if (state.openFiles fh).currentOpens = 0 ∧ (state.openFiles releasedFile).modified = 1 then
    ((writeCurrLogHeader state releasedFile mem).1, 0)
  else (state, 0)

/-- `logs_recycle` of the log of file `fileID` in `xmp_unlink`, if the file was its
    last. Nothing gives the two ids back to the address map. -/
def removeFile (state : CYCstate) (fileID : Int) : CYCstate :=
  let logHeaderAddr := state.vaddrMap.map fileID.toNat
  let (d, page, _) := readNAND state.nand (state.nand.frame.slice 0 1048) logHeaderAddr
  let logH := LogHeader.ofPage page
  let lastHeaderAddr := state.vaddrMap.map logH.logId.toNat
  let (d, page2, _) := readNAND d (d.frame.slice 0 1048) lastHeaderAddr
  let lastLogH := LogHeader.ofPage page2
  let lastLogH := lastLogH.setFileCount (lastLogH.fileCount - 1)
  let lastLogH := lastLogH.setFileId0 0
  let state := { state with nand := d }
  if lastLogH.fileCount = 0 then
    logsRecycle lastLogH lastHeaderAddr (FullPage.eraseCount page2) state
  else state

/-- `xmp_unlink`, for a stub file with `nlink` links. For a file the open-file
    table knows it does nothing: the branch that should flag the file for
    removal is empty, and ends without a return value (`ret` is what the caller
    finds). -/
def xmpUnlink (state : CYCstate) (path : String) (nlink errno : Nat) (ret : Int) :
    CYCstate × Int :=
  match state.stubs path with
  | none => (state, -errno)
  | some fileID =>
    if 1 < nlink then
      if errno ≠ 0 then (state, -errno)
      else ({ state with stubs := update state.stubs path none }, 0)
    else if state.openFileTable fileID = 0 then
      let state := removeFile state fileID
      if errno ≠ 0 then (state, -errno)
      else ({ state with stubs := update state.stubs path none }, 0)
    else (state, ret)

/-- `xmp_destroy`: the free lists and the address map go over their old copies. -/
def xmpDestroy (state : CYCstate) : CYCstate :=
  let page : FullPage := state.nand.frame.slice 0 1048
  let (d, page, _) := readNAND state.nand page 0
  let superBlock := (SuperPage.ofPage page).setFreeLists state.lists
  let page := FullPage.setContents page superBlock
  let (d, _) := writeNAND d page 0 1
  let mapPage := superBlock.latestVaddrMap
  let mapSize := AddrMap.bytesFor state.vaddrMap.size
  let page : FullPage := page.blit 0 mapSize state.vaddrMap.mem.byte
  let (d, _) := writeNAND d page mapPage 1
  { state with nand := d }

end Cycology
