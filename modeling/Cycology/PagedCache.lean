import Cycology.Helper

/- `pageCache.c`: the list of cached pages of all files, most recently used first.

   `cacheLoop` looks for a page by its path and number. It moves the node it finds
   to the front of the list; when there is none, it reads the page into a new
   buffer and puts a new node there. Callers write into the buffer they get.

   Pointers lead into one store for each structure, and 0 is `NULL`. `malloc` never
   fails and returns a fresh address, and the bytes there are whatever they were.
   The search takes a bound on its turns, and answers `.error .fuel` when that is
   not enough.

   Correspondence (C ↔ Lean):
     `struct node`                           ↔ `Node`
     `struct log_sys_con` and the heap       ↔ `LogSysCon`
     the file that `fi->fh` is open on       ↔ a `File` -/
namespace Cycology.PagedFs
open ByteMem

def PAGESIZE : Nat := 1023

/-- Why a call does not return. -/
inductive Fault where
  | fuel
  | memory
  deriving DecidableEq, Repr

/-- `struct node`. -/
structure Node where
  next : Ptr
  prev : Ptr
  path : String
  pageNum : Int
  page : Ptr
  deriving Inhabited

/-- The `struct log_sys_con` of the mounted file system, and the heap. `brk` is the
    last address `malloc` returned. -/
structure LogSysCon where
  head : Ptr
  nodes : Ptr → Node
  pages : Ptr → Buf PAGESIZE
  brk : Ptr
  deriving Inhabited

namespace LogSysCon

def setNode (c : LogSysCon) (p : Ptr) (f : Node → Node) : LogSysCon :=
  { c with nodes := update c.nodes p (f (c.nodes p)) }

end LogSysCon

/-- The search of `cacheLoop`, from the node `finger`: the node with the page, or
    `NULL`. -/
def findNode (c : LogSysCon) (path : String) (pageNum : Int) : Nat → Ptr → Except Fault Ptr
  | 0, _ => .error .fuel
  | fuel + 1, finger =>
    if finger = 0 then .ok 0
    else if path = (c.nodes finger).path ∧ pageNum = (c.nodes finger).pageNum then .ok finger
    else findNode c path pageNum fuel (c.nodes finger).next

/-- What `cacheLoop` does with the node it finds. When that is the head, its link
    forward is set to itself. -/
def moveToHead (c : LogSysCon) (finger : Ptr) : LogSysCon :=
  let currentHead := c.head
  let c :=
    if (c.nodes finger).prev ≠ 0 then
      c.setNode (c.nodes finger).prev fun n => { n with next := (c.nodes finger).next }
    else c
  let c :=
    if (c.nodes finger).next ≠ 0 then
      c.setNode (c.nodes finger).next fun n => { n with prev := (c.nodes finger).prev }
    else c
  let c := { c with head := finger }
  let c := c.setNode c.head fun n => { n with next := currentHead }
  let c :=
    if (c.nodes c.head).next ≠ 0 then
      c.setNode (c.nodes c.head).next fun n => { n with prev := c.head }
    else c
  c.setNode c.head fun n => { n with prev := 0 }

/-- The bytes that `cacheLoop` puts into a buffer fresh from `malloc`. -/
def fillBuffer (buffer : Buf PAGESIZE) (f : File) (pageNum fileSizeInPages : Int) :
    Buf PAGESIZE :=
  if fileSizeInPages ≤ pageNum then Buf.zero PAGESIZE
  else
    let buffer := f.pread buffer (cint (pageNum * PAGESIZE))
    if pageNum = fileSizeInPages then Buf.zero PAGESIZE else buffer

/-- `newNode`; the result is the node's address. -/
def newNode (c : LogSysCon) (path : String) (pageNum : Int) (page : Ptr) : LogSysCon × Ptr :=
  let filledNode := c.brk + 1
  ({ c.setNode filledNode fun n => { n with path := path, pageNum := pageNum, page := page } with
      brk := filledNode },
    filledNode)

/-- The end of `cacheLoop`: `newHead` becomes the head of the list. -/
def linkHead (c : LogSysCon) (newHead : Ptr) : LogSysCon :=
  let c := c.setNode newHead fun n => { n with next := c.head }
  let c :=
    if (c.nodes newHead).next ≠ 0 then
      c.setNode (c.nodes newHead).next fun n => { n with prev := newHead }
    else c
  let c := c.setNode newHead fun n => { n with prev := 0 }
  { c with head := newHead }

/-- What `cacheLoop` does when no node has the page. -/
def readPage (c : LogSysCon) (path : String) (f : File) (pageNum fileSizeInPages : Int) :
    LogSysCon × Ptr :=
  let buffer := c.brk + 1
  let c := { c with
    brk := buffer
    pages := update c.pages buffer (fillBuffer (c.pages buffer) f pageNum fileSizeInPages) }
  let (c, newHead) := newNode c path pageNum buffer
  (linkHead c newHead, buffer)

/-- `cacheLoop`: the list and the heap afterwards, and the buffer. -/
def cacheLoop (c : LogSysCon) (path : String) (f : File) (pageNum fileSizeInPages : Int)
    (fuel : Nat) : Except Fault (LogSysCon × Ptr) := do
  let finger ← findNode c path pageNum fuel c.head
  if finger ≠ 0 then
    let c := moveToHead c finger
    .ok (c, (c.nodes c.head).page)
  else .ok (readPage c path f pageNum fileSizeInPages)

end Cycology.PagedFs
