import Cycology.Cache

/- `filesystem.c`: the list of open files by last use, and the functions that
   put pages into the cache and flush them out again. -/
namespace Cycology.PageCache
open ByteMem

/-! ## Files by last use -/

/-- `updateLruFileHead`. The file before the moved one gets the link back that
    the old head should get. -/
def updateLruFileHead (s : Mem) (file : Ptr) : Mem :=
  let prev := (s.files file).lruFilePrev
  let next := (s.files file).lruFileNext
  if prev = 0 then s
  else
    let s := s.setFile prev fun f => { f with lruFileNext := next }
    let s := s.setFile prev fun f => { f with lruFilePrev := file }
    let s :=
      if next ≠ 0 then s.setFile next fun f => { f with lruFilePrev := prev }
      else { s with lruFileTail := prev }
    let s := s.setFile file fun f => { f with lruFileNext := s.lruFileHead }
    let s := s.setFile file fun f => { f with lruFilePrev := 0 }
    { s with lruFileHead := file }

def addFileToLru (s : Mem) (file : Ptr) : Mem :=
  let curHead := s.lruFileHead
  let s := s.setFile file fun f => { f with lruFileNext := curHead }
  let s := s.setFile file fun f => { f with lruFilePrev := 0 }
  let s :=
    if curHead ≠ 0 then s.setFile curHead fun f => { f with lruFilePrev := file }
    else { s with lruFileTail := file }
  { s with lruFileHead := file }

/-- `lruContains`, from the file `cur`. -/
def lruContains (s : Mem) (file : Ptr) : Nat → Ptr → Except Fault Bool
  | 0, _ => .error .fuel
  | fuel + 1, cur =>
    if cur = 0 then .ok false
    else if cur = file then .ok true
    else lruContains s file fuel (s.files cur).lruFileNext

def fsUpdateFileInLru (s : Mem) (file : Ptr) (fuel : Nat) : Except Fault Mem := do
  let listed ← lruContains s file fuel s.lruFileHead
  if listed then .ok (updateLruFileHead s file) else .ok (addFileToLru s file)

/-- `fs_removeFileFromLru`. It also frees the file at the tail, which changes nothing
    here: a run may not name that file again. -/
def fsRemoveFileFromLru (s : Mem) (file : Ptr) : Except Fault Mem := do
  let next := (s.files file).lruFileNext
  let s ←
    (if file = s.lruFileHead then .ok { s with lruFileHead := next }
    else do
      let s ← s.access (s.files file).lruFilePrev
      .ok (s.setFile (s.files file).lruFilePrev fun f => { f with lruFileNext := next }))
  if file = s.lruFileTail then .ok { s with lruFileTail := (s.files file).lruFilePrev }
  else do
    let s ← s.access next
    .ok (s.setFile next fun f => { f with lruFilePrev := (s.files file).lruFilePrev })

/-! ## Putting pages into the cache -/

/-- `putPageIntoCache`: the memory and the entry. -/
def putPageIntoCache (s : Mem) (page key : Ptr) (fuel : Nat) : Except Fault (Mem × Ptr) := do
  let (s, entry) ← cacheSet s key page fuel
  let file := (s.keys key).file
  let s ←
    (if (s.keys key).levelsAbove = 0 then do
      let s ← openFileAddDataPage s file entry
      cacheAddDataPageToLru s entry
    else openFileAddMetadataPage s file entry)
  let s ← fsUpdateFileInLru s file fuel
  .ok (s, entry)

/-- `allocateFreePage`. -/
def allocateFreePage (s : Mem) (freePage log : Ptr) : Except Fault Mem := do
  let s ← s.access log
  let s ← s.access freePage
  .ok { s with
    pages := update s.pages freePage { s.pages freePage with address := (s.logs log).nextPage }
    logs := update s.logs log
      { s.logs log with log := (s.logs log).log.setActive ((s.logs log).log.active + 1) } }

/-! ## Flushing a file -/

/-- The loop of `fs_flushDataPages`, from the entry `current`. -/
def flushDataFrom (s : Mem) (file : Ptr) : Nat → Ptr → Except Fault Mem
  | 0, _ => .error .fuel
  | fuel + 1, current =>
    if current = 0 then .ok s
    else do
      let next := (s.entries current).fileDataNext
      let s ← openFileRemoveDataPage s file current
      let s ← cacheRemove s current
      flushDataFrom s file fuel next

def fsFlushDataPages (s : Mem) (file : Ptr) (fuel : Nat) : Except Fault Mem := do
  let s ← s.access file
  flushDataFrom s file fuel (s.files file).dataHead

/-- What the loop of `fs_flushMetadataPages` does with an entry of the level. -/
def flushMetadataEntry (s : Mem) (file current : Ptr) : Except Fault Mem := do
  let s ←
    (if (s.entries current).dirty ≠ 0 then
      allocateFreePage s (s.entries current).wp
        (s.files (s.keys (s.entries current).key).file).mainExtentLog
    else .ok s)
  let s ← openFileRemoveMetadataPage s file current
  cacheRemove s current

/-- The walk through the metadata list for one level. -/
def flushMetadataLevel (s : Mem) (file : Ptr) (level : Int) : Nat → Ptr → Except Fault Mem
  | 0, _ => .error .fuel
  | fuel + 1, current =>
    if current = 0 then .ok s
    else do
      let next := (s.entries current).fileMetadataNext
      let s ←
        (if (s.keys (s.entries current).key).levelsAbove = level then
          flushMetadataEntry s file current
        else .ok s)
      flushMetadataLevel s file level fuel next

/-- The levels `level`, `level + 1`, …, `steps` of them. -/
def flushMetadataLevels (s : Mem) (file : Ptr) (fuel : Nat) (level : Int) :
    Nat → Except Fault Mem
  | 0 => .ok s
  | steps + 1 => do
    let s ← flushMetadataLevel s file level fuel (s.files file).metadataHead
    flushMetadataLevels s file fuel (level + 1) steps

def fsFlushMetadataPages (s : Mem) (file : Ptr) (fuel : Nat) : Except Fault Mem := do
  let s ← s.access file
  flushMetadataLevels s file fuel 1 ((s.files file).treeHeight - 1).toNat

def fsEvictLruFile (s : Mem) (fuel : Nat) : Except Fault Mem := do
  let lruFile := s.lruFileTail
  let s ← fsFlushDataPages s lruFile fuel
  let s ← fsFlushMetadataPages s lruFile fuel
  fsRemoveFileFromLru s lruFile

end Cycology.PageCache
