import Cycology.CacheStructs

/- `cache.c` and `openFile.c`: the hash table of cached pages, the list of data
   pages by last use, and the two page lists of an open file.

   A table bin is a singly linked list in the order of `keyCmp`. Keys are
   compared, and hashed, as the decimal digits of one number. The buffers the
   digits are written to are sized by its `log10`: `keyCmp` and `cacheHash` say
   what the code does for key numbers from 1 on, and file ids start at 1, so that
   every key of a file has one. The buffers are taken to be long enough there
   (`KeyBuffers` says when they are). -/
namespace Cycology.PageCache
open ByteMem

/-! ## The table -/

/-- `cache_create`, in the memory `s`; `NULL` for a `size` below 1. -/
def cacheCreate (s : Mem) (size : Int) : Option Mem :=
  if size < 1 then none
  else some (s.setCache fun _ =>
    { maxSize := size, size := 0, table := fun _ => 0, lruDataHead := 0, lruDataTail := 0 })

/-- For key numbers from 1 on. -/
def keyCmp (s : Mem) (key1 key2 : Ptr) : Int :=
  strcmp (decimal (numKey s key1)) (decimal (numKey s key2))

/-- The loop of `cache_hash`. -/
def hashString (str : List Char) : UInt64 :=
  str.foldl (fun hash c => ((hash <<< 5) + hash) + UInt64.ofNat c.toNat) 5381

/-- For a key number from 1 on. -/
def cacheHash (s : Mem) (key : Ptr) : Nat :=
  (hashString (decimal (numKey s key))).toNat % s.cache.maxSize.toNat

/-- An entry as `cache_newEntry` fills it in. -/
def freshEntry (key wp : Ptr) : CacheEntry where
  key := key
  wp := wp
  next := 0
  dirty := 0
  lruDataNext := 0
  lruDataPrev := 0
  fileDataNext := 0
  fileDataPrev := 0
  fileMetadataNext := 0
  fileMetadataPrev := 0

/-- `NULL` when the cache is full. -/
def cacheNewEntry (s : Mem) (key wp : Ptr) : Mem × Ptr :=
  if s.cache.maxSize ≤ s.cache.size then (s, 0)
  else
    let newentry := s.brk + 1
    ({ s with
        brk := newentry
        entries := update s.entries newentry (freshEntry key wp)
        cache := { s.cache with size := cint (s.cache.size + 1) } },
      newentry)

/-- The walk through a bin in `cache_set` and `cache_get`, from the entry `next`:
    past the entries with a smaller key. The result is `last` and `next`. -/
def findPlace (s : Mem) (key : Ptr) : Nat → Ptr → Ptr → Except Fault (Ptr × Ptr)
  | 0, _, _ => .error .fuel
  | fuel + 1, last, next =>
    if next ≠ 0 ∧ (s.entries next).key ≠ 0 ∧ 0 < keyCmp s key (s.entries next).key then
      findPlace s key fuel next (s.entries next).next
    else .ok (last, next)

/-- Whether the entry `next` has the key. -/
def hasKey (s : Mem) (key next : Ptr) : Prop :=
  next ≠ 0 ∧ (s.entries next).key ≠ 0 ∧ keyCmp s key (s.entries next).key = 0

instance (s : Mem) (key next : Ptr) : Decidable (hasKey s key next) :=
  inferInstanceAs (Decidable (_ ∧ _ ∧ _))

/-- The end of `cache_set`: the new entry goes between `last` and `next`. -/
def linkEntry (s : Mem) (bin : Nat) (last next newentry : Ptr) : Except Fault Mem :=
  if next = s.cache.table bin then do
    -- the start of the bin
    let s ← s.access newentry
    let s := s.setEntry newentry fun e => { e with next := next }
    .ok (s.setCache fun c => { c with table := update c.table bin newentry })
  else if next = 0 then
    .ok (s.setEntry last fun e => { e with next := newentry })
  else do
    let s ← s.access newentry
    let s := s.setEntry newentry fun e => { e with next := next }
    .ok (s.setEntry last fun e => { e with next := newentry })

/-- `cache_set`: the memory and the entry. A page it replaces keeps its entry's
    key. It also frees the page it replaces, which is left out here: a run hands
    over no page twice, so the freed page is in no other entry. -/
def cacheSet (s : Mem) (key wp : Ptr) (fuel : Nat) : Except Fault (Mem × Ptr) := do
  let bin := cacheHash s key
  let (last, next) ← findPlace s key fuel 0 (s.cache.table bin)
  if hasKey s key next then
    .ok (s.setEntry next fun e => { e with wp := wp }, next)
  else
    let (s, newentry) := cacheNewEntry s key wp
    let s ← linkEntry s bin last next newentry
    .ok (s, newentry)

/-- `cache_get`: the entry, or `NULL`. -/
def cacheGet (s : Mem) (key : Ptr) (fuel : Nat) : Except Fault Ptr := do
  let bin := cacheHash s key
  let (_, pair) ← findPlace s key fuel 0 (s.cache.table bin)
  if hasKey s key pair then .ok pair else .ok 0

/-- `cache_remove`. The loop that should look for the entry further down the bin
    wants a `prev` that is not `NULL`, and is never entered. -/
def cacheRemove (s : Mem) (entry : Ptr) : Except Fault Mem := do
  let s ← s.access entry
  let key := (s.entries entry).key
  let bin := cacheHash s key
  let cur := s.cache.table bin
  let s ← s.access cur
  let s ←
    (if keyCmp s (s.entries cur).key key = 0 then
      .ok (s.setCache fun c => { c with table := update c.table bin (s.entries entry).next })
    else if keyCmp s key (s.entries cur).key = 0 then .error .null
    else .ok s)
  .ok (s.setCache fun c => { c with size := cint (c.size - 1) })

/-! ## Data pages by last use -/

def cacheUpdateDataLruHead (s : Mem) (entry : Ptr) : Mem :=
  let prev := (s.entries entry).lruDataPrev
  let next := (s.entries entry).lruDataNext
  if prev = 0 then s
  else
    let s := s.setEntry prev fun e => { e with lruDataNext := next }
    let s := s.setEntry prev fun e => { e with lruDataPrev := entry }
    let s :=
      if next ≠ 0 then s.setEntry next fun e => { e with lruDataPrev := prev }
      else s.setCache fun c => { c with lruDataTail := prev }
    let s := s.setEntry entry fun e => { e with lruDataNext := s.cache.lruDataHead }
    let s := s.setEntry entry fun e => { e with lruDataPrev := 0 }
    s.setCache fun c => { c with lruDataHead := entry }

def cacheAddDataPageToLru (s : Mem) (entry : Ptr) : Except Fault Mem := do
  let curHead := s.cache.lruDataHead
  let s ← s.access entry
  let s := s.setEntry entry fun e => { e with lruDataNext := curHead }
  let s := s.setEntry entry fun e => { e with lruDataPrev := 0 }
  let s :=
    if curHead = 0 then s.setCache fun c => { c with lruDataTail := entry }
    else s.setEntry curHead fun e => { e with lruDataPrev := entry }
  .ok (s.setCache fun c => { c with lruDataHead := entry })

/-- `cache_removeDataPageFromLru`; the call of it in `cache_remove` is commented out. -/
def cacheRemoveDataPageFromLru (s : Mem) (current : Ptr) : Except Fault Mem := do
  let s ← s.access current
  let s ←
    (if current = s.cache.lruDataHead then
      .ok (s.setCache fun c => { c with lruDataHead := (s.entries current).lruDataNext })
    else do
      let s ← s.access (s.entries current).lruDataPrev
      .ok (s.setEntry (s.entries current).lruDataPrev fun e =>
        { e with lruDataNext := (s.entries current).lruDataNext }))
  if current = s.cache.lruDataTail then
    .ok (s.setCache fun c => { c with lruDataTail := (s.entries current).lruDataPrev })
  else do
    let s ← s.access (s.entries current).lruDataNext
    .ok (s.setEntry (s.entries current).lruDataNext fun e =>
      { e with lruDataPrev := (s.entries current).lruDataPrev })

/-! ## The page lists of an open file -/

/-- The fields of one of the two lists. -/
structure PageList where
  head : OpenFile → Ptr
  tail : OpenFile → Ptr
  next : CacheEntry → Ptr
  prev : CacheEntry → Ptr
  setHead : Ptr → OpenFile → OpenFile
  setTail : Ptr → OpenFile → OpenFile
  setNext : Ptr → CacheEntry → CacheEntry
  setPrev : Ptr → CacheEntry → CacheEntry

def dataList : PageList where
  head f := f.dataHead
  tail f := f.dataTail
  next e := e.fileDataNext
  prev e := e.fileDataPrev
  setHead p f := { f with dataHead := p }
  setTail p f := { f with dataTail := p }
  setNext p e := { e with fileDataNext := p }
  setPrev p e := { e with fileDataPrev := p }

def metadataList : PageList where
  head f := f.metadataHead
  tail f := f.metadataTail
  next e := e.fileMetadataNext
  prev e := e.fileMetadataPrev
  setHead p f := { f with metadataHead := p }
  setTail p f := { f with metadataTail := p }
  setNext p e := { e with fileMetadataNext := p }
  setPrev p e := { e with fileMetadataPrev := p }

/-- `openFile_addDataPage`. -/
def openFileAddDataPage (s : Mem) (file entry : Ptr) : Except Fault Mem := do
  let s ← s.access entry
  if (s.entries entry).fileDataNext = 0 ∧ (s.entries entry).fileDataPrev = 0 then
    let tail := (s.files file).dataTail
    let s := s.setEntry entry fun e => { e with fileDataPrev := tail }
    let s := s.setEntry entry fun e => { e with fileDataNext := 0 }
    let s :=
      if tail = 0 then s.setFile file fun f => { f with dataHead := entry }
      else s.setEntry tail fun e => { e with fileDataNext := entry }
    .ok (s.setFile file fun f => { f with dataTail := entry })
  else .ok s

/-- `openFile_addMetadataPage`. -/
def openFileAddMetadataPage (s : Mem) (file entry : Ptr) : Except Fault Mem := do
  let s ← s.access entry
  if (s.entries entry).fileMetadataNext = 0 ∧ (s.entries entry).fileMetadataPrev = 0 then
    let tail := (s.files file).metadataTail
    if tail = 0 then
      let s := s.setFile file fun f => { f with metadataTail := entry }
      .ok (s.setFile file fun f => { f with metadataHead := entry })
    else
      let s := s.setEntry tail fun e => { e with fileMetadataNext := entry }
      let s := s.setEntry entry fun e => { e with fileMetadataPrev := tail }
      .ok (s.setFile file fun f => { f with metadataTail := entry })
  else .ok s

/-- What `openFile_removeDataPage` and `openFile_removeMetadataPage` do. -/
def removePage (l : PageList) (s : Mem) (file entry : Ptr) : Except Fault Mem := do
  let s ← s.access file
  let head := l.head (s.files file)
  let tail := l.tail (s.files file)
  let s ←
    (if entry = head then .ok (s.setFile file (l.setHead (l.next (s.entries entry))))
    else do
      let s ← s.access (l.prev (s.entries entry))
      .ok (s.setEntry (l.prev (s.entries entry)) (l.setNext (l.next (s.entries entry)))))
  if entry = tail then .ok (s.setFile file (l.setTail (l.prev (s.entries entry))))
  else do
    let s ← s.access (l.next (s.entries entry))
    .ok (s.setEntry (l.next (s.entries entry)) (l.setPrev (l.prev (s.entries entry))))

def openFileRemoveDataPage : Mem → Ptr → Ptr → Except Fault Mem := removePage dataList

def openFileRemoveMetadataPage : Mem → Ptr → Ptr → Except Fault Mem := removePage metadataList

end Cycology.PageCache
