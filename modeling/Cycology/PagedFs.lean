import Cycology.PagedCache
import Cycology.Lib.Runs

/- `fusexmp_fh.c`: reading and writing through the page cache, and the calls that
   are passed on to the file system below.

   That file system holds a `File` at some of the paths and is never short of
   space. `fi` is open on the file at the path it comes with. Offsets are not
   negative; sizes are unsigned words, and an `int` that gets a value out of range
   wraps around. The caller's `buf` is a function of the byte's position. -/
namespace Cycology.PagedFs
open ByteMem Runs.Fallible

def ENOENT : Int := 2
def EBADF : Int := 9
def EEXIST : Int := 17
def EINVAL : Int := 22

/-- A `size_t` expression. -/
def word (v : Int) : Nat := (v % 18446744073709551616).toNat

/-- `fileSizeInPages`. -/
def sizeInPages (f : File) : Int :=
  let fileSize := cint f.size
  (cint (cint (fileSize + PAGESIZE) - 1)).tdiv PAGESIZE

/-- `pwrite(fd, page, len, off)`, with its result; a negative length, which is a
    huge one, or offset fails. -/
def pwritePage (f : File) (page : Buf PAGESIZE) (len off : Int) : File × Int :=
  if len < 0 ∨ off < 0 then (f, -1) else (f.pwrite off.toNat len.toNat page.byte, len)

theorem pwritePage_nat (f : File) (page : Buf PAGESIZE) (len off : Nat) :
    pwritePage f page len off = (f.pwrite off len page.byte, (len : Int)) := by
  rw [pwritePage, if_neg (by omega), Int.toNat_natCast, Int.toNat_natCast]

/-! ## Writing -/

/-- The arguments of `xmp_write`. -/
structure WriteCall where
  path : String
  buf : Nat → UInt8
  size : Nat
  offset : Nat

namespace WriteCall
variable (w : WriteCall)

def finalFileSize (f : File) : Int :=
  let fileSize := cint f.size
  if word fileSize < word (w.offset + w.size) then cint (word (w.offset + w.size)) else fileSize

def startPage : Int := cint (w.offset / PAGESIZE : Nat)

def numPages : Int :=
  cint (word (w.offset % PAGESIZE + w.size + PAGESIZE - 1) / PAGESIZE : Nat)

end WriteCall

/-- The variables of the loop. `moved` is how far `buf` has been advanced, and
    `returned` is the result once the loop was left with `return`. -/
structure WriteState where
  con : LogSysCon
  file : File
  startWithinPage : Int
  moved : Nat
  res : Int
  returned : Option Int

/-- `memcpy(bufPtr + startWithinPage, src, dataToMove)`. -/
def memcpyIn (c : LogSysCon) (bufPtr : Ptr) (startWithinPage : Int) (src : Nat → UInt8)
    (dataToMove : Int) : Except Fault LogSysCon :=
  if dataToMove < 0 then .error .memory
  else .ok { c with
    pages := update c.pages bufPtr
      ((c.pages bufPtr).blit startWithinPage.toNat dataToMove.toNat src) }

/-- One turn of the loop of `xmp_write` on the file `f`. -/
def writePage (w : WriteCall) (f : File) (fuel : Nat) (s : WriteState) (relativePageNum : Nat) :
    Except Fault WriteState :=
  if s.returned.isSome then .ok s
  else do
    let pageNum := cint (relativePageNum + w.startPage)
    let endWithinPage : Int :=
      if (relativePageNum : Int) = w.numPages - 1 then (word (w.offset + w.size) % PAGESIZE : Nat)
      else PAGESIZE
    let (c, bufPtr) ← cacheLoop s.con w.path s.file pageNum (sizeInPages f) fuel
    let dataToMove := endWithinPage - s.startWithinPage
    let c ← memcpyIn c bufPtr s.startWithinPage (fun i => w.buf (s.moved + i)) dataToMove
    let toWrite :=
      if w.finalFileSize f < cint ((pageNum + 1) * PAGESIZE) then
        cint (w.finalFileSize f - cint (pageNum * PAGESIZE))
      else PAGESIZE
    let (file, written) := pwritePage s.file (c.pages bufPtr) toWrite (cint (pageNum * PAGESIZE))
    (if written ≠ toWrite then .ok { s with con := c, file := file, returned := some (-EINVAL) }
    else .ok
      { con := c
        file := file
        startWithinPage := 0
        moved := s.moved + dataToMove.toNat
        res := cint (s.res + dataToMove)
        returned := none })

/-- The variables before the loop. -/
def WriteCall.start (w : WriteCall) (c : LogSysCon) (f : File) : WriteState where
  con := c
  file := f
  startWithinPage := (w.offset % PAGESIZE : Nat)
  moved := 0
  res := 0
  returned := none

/-- `xmp_write` on a file: the list, the file and the result. -/
def xmpWrite (c : LogSysCon) (f : File) (w : WriteCall) (fuel : Nat) :
    Except Fault (LogSysCon × File × Int) := do
  let s ← outcome (writePage w f fuel) (w.start c f) (List.range w.numPages.toNat)
  .ok (s.con, s.file, s.returned.getD s.res)

/-! ## Reading -/

/-- The arguments of `xmp_read`; `buf` is what the caller's memory holds before. -/
structure ReadCall where
  path : String
  buf : Nat → UInt8
  size : Nat
  offset : Nat

/-- The variables of the loop. `copied` is how far `buf` has been advanced. -/
structure ReadState where
  con : LogSysCon
  buf : Nat → UInt8
  copied : Nat
  res : Int

/-- One turn of the loop of `xmp_read`, for a `size` that lies within the file. -/
def readTurn (r : ReadCall) (f : File) (size fuel : Nat) (s : ReadState) (i : Nat) :
    Except Fault ReadState := do
  let startDeviation : Int := (r.offset % PAGESIZE : Nat)
  let endDeviation : Int := (word (size + r.offset) % PAGESIZE : Nat)
  let numPages : Int := cint (word (r.offset % PAGESIZE + PAGESIZE + size - 1) / PAGESIZE : Nat)
  let pageNum := cint (cint (r.offset / PAGESIZE : Nat) + i)
  let (startWithinPage, toRead) : Int × Int :=
    if numPages = 1 then (startDeviation, cint size)
    else if i = 0 then (startDeviation, PAGESIZE - startDeviation)
    else if (i : Int) = numPages - 1 ∧ endDeviation ≠ 0 then (0, endDeviation)
    else (0, PAGESIZE)
  let (c, bufRead) ← cacheLoop s.con r.path f pageNum (sizeInPages f) fuel
  (if toRead < 0 then .error .memory
  else .ok
    { con := c
      buf := fun j =>
        if s.copied ≤ j ∧ j < s.copied + toRead.toNat then
          (c.pages bufRead).byte (startWithinPage.toNat + (j - s.copied))
        else s.buf j
      copied := s.copied + toRead.toNat
      res := cint (s.res + toRead) })

/-- `xmp_read` on a file: the list, the caller's memory and the result. -/
def xmpRead (c : LogSysCon) (f : File) (r : ReadCall) (fuel : Nat) :
    Except Fault (LogSysCon × (Nat → UInt8) × Int) :=
  let fileSize := cint f.size
  if fileSize < r.offset then .ok (c, r.buf, 0)
  else do
    let size := if word fileSize < word (r.offset + r.size) then fileSize.toNat - r.offset else r.size
    let numPages := cint (word (r.offset % PAGESIZE + PAGESIZE + size - 1) / PAGESIZE : Nat)
    let s ← outcome (readTurn r f size fuel)
      { con := c, buf := r.buf, copied := 0, res := 0 } (List.range numPages.toNat)
    .ok (s.con, s.buf, s.res)

/-! ## The calls that are passed on -/

/-- The cache, and the files of the file system below. -/
structure Fs where
  con : LogSysCon
  files : String → Option File

/-- The `fi->flags` of a create. -/
structure OpenFlags where
  creat : Bool
  excl : Bool
  trunc : Bool
  deriving DecidableEq, Repr

namespace Fs

def setFile (s : Fs) (path : String) (f : Option File) : Fs :=
  { s with files := update s.files path f }

end Fs

def xmpCreate (s : Fs) (path : String) (flags : OpenFlags) : Fs × Int :=
  match s.files path with
  | some f =>
    if flags.creat ∧ flags.excl then (s, -EEXIST)
    else if flags.trunc then (s.setFile path (some (f.truncate 0)), 0)
    else (s, 0)
  | none => if flags.creat then (s.setFile path (some File.empty), 0) else (s, -ENOENT)

def xmpTruncate (s : Fs) (path : String) (size : Int) : Fs × Int :=
  if size < 0 then (s, -EINVAL)
  else
    match s.files path with
    | some f => (s.setFile path (some (f.truncate size.toNat)), 0)
    | none => (s, -ENOENT)

def xmpFtruncate (s : Fs) (path : String) (size : Int) : Fs × Int :=
  if size < 0 then (s, -EINVAL)
  else
    match s.files path with
    | some f => (s.setFile path (some (f.truncate size.toNat)), 0)
    | none => (s, -EBADF)

def xmpUnlink (s : Fs) (path : String) : Fs × Int :=
  match s.files path with
  | some _ => (s.setFile path none, 0)
  | none => (s, -ENOENT)

def xmpRename (s : Fs) (source target : String) (flags : Nat) : Fs × Int :=
  if flags ≠ 0 then (s, -EINVAL)
  else
    match s.files source with
    | some f => ((s.setFile source none).setFile target (some f), 0)
    | none => (s, -ENOENT)

/-- `xmp_read`, on the file at its path. -/
def xmpReadAt (s : Fs) (r : ReadCall) (fuel : Nat) : Except Fault (Fs × (Nat → UInt8) × Int) :=
  match s.files r.path with
  | some f => do
    let (c, buf, res) ← xmpRead s.con f r fuel
    .ok ({ s with con := c }, buf, res)
  | none => .ok (s, r.buf, -EBADF)

/-- `xmp_write`, on the file at its path. -/
def xmpWriteAt (s : Fs) (w : WriteCall) (fuel : Nat) : Except Fault (Fs × Int) :=
  match s.files w.path with
  | some f => do
    let (c, f, res) ← xmpWrite s.con f w fuel
    .ok ({ s with con := c }.setFile w.path (some f), res)
  | none => .ok (s, -EBADF)

end Cycology.PagedFs
