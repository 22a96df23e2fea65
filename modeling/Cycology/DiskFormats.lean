import Cycology.Lib.Bytes

/- The structures of `loggingDiskFormats.h` and `vNANDlib.h`, byte for byte.

   The code moves these between memory and the device with `memcpy` and casts
   (`(superPage) &page`, `(logHeader) &page.contents`), so each is modelled as
   the bytes it occupies and its fields as the integers at their offsets, with
   `int` and pointers laid out as on the x86-64 the code is built for. Fields
   that no modelled function reads or writes have no accessor; their bytes are
   still there and are copied with the rest.

   Correspondence (C ↔ Lean):
     `struct fullPage`  ↔ `FullPage`, 1048 bytes
     `struct superPage` ↔ `SuperPage`, 40 bytes
     `struct freeList`  ↔ `FreeList`, 24 bytes
     `struct inode`     ↔ `Inode`, 176 bytes
     `struct logHeader` ↔ `LogHeader`, 568 bytes
     `struct addrMap`   ↔ `AddrMap`, 8 bytes and 4 for each entry
     `struct block`     ↔ `Block`, 16 pages and `struct blockData` -/
namespace Cycology
open ByteMem

/-! ## Sizes -/

/-- `BLOCKSIZE`: the number of pages in a block. -/
def blockSize : Nat := 16

/-- `PAGEDATASIZE`: the bytes of data in a page. -/
def pageDataSize : Nat := 1024

/-- `sizeof (struct fullPage)`: the data, five `int` fields, a `char` and its padding. -/
def fullPageBytes : Nat := 1048

/-- `sizeof (struct block)`. -/
def blockBytes : Nat := 16776

/-- `sizeof (struct nandFeatures)`. -/
def nandFeaturesBytes : Nat := 8

/-! ## Pages -/

/-- `struct fullPage`. -/
abbrev FullPage := Buf 1048

namespace FullPage

def contents (p : FullPage) : Buf 1024 := p.slice 0 1024
def eraseCount (p : FullPage) : Int := p.int 1024
def nextLogBlock (p : FullPage) : Int := p.int 1028
def nextBlockErases (p : FullPage) : Int := p.int 1032

/-- A `char` with a sign. -/
def pageType (p : FullPage) : Int :=
  if (p.byte 1044).toNat < 128 then (p.byte 1044).toNat else (p.byte 1044).toNat - 256

def setEraseCount (p : FullPage) (v : Int) : FullPage := p.setInt 1024 v
def setNextLogBlock (p : FullPage) (v : Int) : FullPage := p.setInt 1028 v
def setNextBlockErases (p : FullPage) (v : Int) : FullPage := p.setInt 1032 v
def setPageType (p : FullPage) (v : Int) : FullPage := p.setNum 1 1044 v

/-- `memcpy(p.contents, src, n)`, for an object of `n` bytes. -/
def setContents {n : Nat} (p : FullPage) (src : Buf n) : FullPage := p.blit 0 n src.byte

@[simp] theorem pageType_zero : pageType (Buf.zero 1048) = 0 := by
  rw [pageType, Buf.byte_zero]
  rfl

theorem pageType_setPageType (p : FullPage) {v : Int} (h0 : 0 ≤ v) (hv : v < 128) :
    (p.setPageType v).pageType = v := by
  have hbyte : (p.setPageType v).byte 1044 = leByte v 0 :=
    Buf.byte_blit_in _ _ (le_refl 1044) (by omega) (by omega)
  have hval : (leByte v 0).toNat = v.toNat := by
    simp only [leByte, UInt8.toNat_ofNat']
    omega
  rw [pageType, hbyte, hval, if_pos (by omega), Int.toNat_of_nonneg h0]

theorem pageType_setNextLogBlock (p : FullPage) (v : Int) :
    (p.setNextLogBlock v).pageType = p.pageType := by
  have hbyte : (p.setNextLogBlock v).byte 1044 = p.byte 1044 :=
    Buf.byte_blit_out _ _ (by omega)
  rw [pageType, hbyte, pageType]

end FullPage

/-- `PTYPE_ERASED`, `PTYPE_SUPER`, `PTYPE_INODE`, `PTYPE_ADDRMAP` and `PTYPE_NEXTLINK`. -/
def ptypeErased : Int := 0
def ptypeSuper : Int := 1
def ptypeInode : Int := 3
def ptypeAddrmap : Int := 4
def ptypeNextlink : Int := 5

/-! ## Free lists and the superblock -/

/-- `struct freeList`. -/
abbrev FreeList := Buf 24

namespace FreeList

def partialHead (l : FreeList) : Int := l.int 0
def partialHeadErases (l : FreeList) : Int := l.int 4
def partialTail (l : FreeList) : Int := l.int 8
def completeHead (l : FreeList) : Int := l.int 12
def completeHeadErases (l : FreeList) : Int := l.int 16
def completeTail (l : FreeList) : Int := l.int 20

def setPartialHead (l : FreeList) (v : Int) : FreeList := l.setInt 0 v
def setPartialHeadErases (l : FreeList) (v : Int) : FreeList := l.setInt 4 v
def setPartialTail (l : FreeList) (v : Int) : FreeList := l.setInt 8 v
def setCompleteHead (l : FreeList) (v : Int) : FreeList := l.setInt 12 v
def setCompleteHeadErases (l : FreeList) (v : Int) : FreeList := l.setInt 16 v
def setCompleteTail (l : FreeList) (v : Int) : FreeList := l.setInt 20 v

/-! Each field is its own: to set one leaves the others as they are. -/

section
variable (l : FreeList) (v : Int)

@[simp] theorem fields_zero :
    partialHead (Buf.zero 24) = 0 ∧ partialHeadErases (Buf.zero 24) = 0 ∧
    partialTail (Buf.zero 24) = 0 ∧ completeHead (Buf.zero 24) = 0 ∧
    completeHeadErases (Buf.zero 24) = 0 ∧ completeTail (Buf.zero 24) = 0 := by
  simp [partialHead, partialHeadErases, partialTail, completeHead, completeHeadErases,
    completeTail]

@[simp] theorem fields_setPartialHead :
    (l.setPartialHead v).partialHead = cint v ∧
    (l.setPartialHead v).partialHeadErases = l.partialHeadErases ∧
    (l.setPartialHead v).partialTail = l.partialTail ∧
    (l.setPartialHead v).completeHead = l.completeHead ∧
    (l.setPartialHead v).completeHeadErases = l.completeHeadErases ∧
    (l.setPartialHead v).completeTail = l.completeTail := by
  simp [setPartialHead, partialHead, partialHeadErases, partialTail, completeHead,
    completeHeadErases, completeTail]

@[simp] theorem fields_setPartialHeadErases :
    (l.setPartialHeadErases v).partialHead = l.partialHead ∧
    (l.setPartialHeadErases v).partialHeadErases = cint v ∧
    (l.setPartialHeadErases v).partialTail = l.partialTail ∧
    (l.setPartialHeadErases v).completeHead = l.completeHead ∧
    (l.setPartialHeadErases v).completeHeadErases = l.completeHeadErases ∧
    (l.setPartialHeadErases v).completeTail = l.completeTail := by
  simp [setPartialHeadErases, partialHead, partialHeadErases, partialTail, completeHead,
    completeHeadErases, completeTail]

@[simp] theorem fields_setPartialTail :
    (l.setPartialTail v).partialHead = l.partialHead ∧
    (l.setPartialTail v).partialHeadErases = l.partialHeadErases ∧
    (l.setPartialTail v).partialTail = cint v ∧
    (l.setPartialTail v).completeHead = l.completeHead ∧
    (l.setPartialTail v).completeHeadErases = l.completeHeadErases ∧
    (l.setPartialTail v).completeTail = l.completeTail := by
  simp [setPartialTail, partialHead, partialHeadErases, partialTail, completeHead,
    completeHeadErases, completeTail]

@[simp] theorem fields_setCompleteHead :
    (l.setCompleteHead v).partialHead = l.partialHead ∧
    (l.setCompleteHead v).partialHeadErases = l.partialHeadErases ∧
    (l.setCompleteHead v).partialTail = l.partialTail ∧
    (l.setCompleteHead v).completeHead = cint v ∧
    (l.setCompleteHead v).completeHeadErases = l.completeHeadErases ∧
    (l.setCompleteHead v).completeTail = l.completeTail := by
  simp [setCompleteHead, partialHead, partialHeadErases, partialTail, completeHead,
    completeHeadErases, completeTail]

@[simp] theorem fields_setCompleteHeadErases :
    (l.setCompleteHeadErases v).partialHead = l.partialHead ∧
    (l.setCompleteHeadErases v).partialHeadErases = l.partialHeadErases ∧
    (l.setCompleteHeadErases v).partialTail = l.partialTail ∧
    (l.setCompleteHeadErases v).completeHead = l.completeHead ∧
    (l.setCompleteHeadErases v).completeHeadErases = cint v ∧
    (l.setCompleteHeadErases v).completeTail = l.completeTail := by
  simp [setCompleteHeadErases, partialHead, partialHeadErases, partialTail, completeHead,
    completeHeadErases, completeTail]

@[simp] theorem fields_setCompleteTail :
    (l.setCompleteTail v).partialHead = l.partialHead ∧
    (l.setCompleteTail v).partialHeadErases = l.partialHeadErases ∧
    (l.setCompleteTail v).partialTail = l.partialTail ∧
    (l.setCompleteTail v).completeHead = l.completeHead ∧
    (l.setCompleteTail v).completeHeadErases = l.completeHeadErases ∧
    (l.setCompleteTail v).completeTail = cint v := by
  simp [setCompleteTail, partialHead, partialHeadErases, partialTail, completeHead,
    completeHeadErases, completeTail]

end

end FreeList

/-- `struct superPage`. -/
abbrev SuperPage := Buf 40

namespace SuperPage

/-- `(superPage) &page`. -/
def ofPage (p : FullPage) : SuperPage := p.slice 0 40

def freeLists (s : SuperPage) : FreeList := s.slice 0 24
def latestVaddrMap (s : SuperPage) : Int := s.int 28

def setFreeLists (s : SuperPage) (l : FreeList) : SuperPage := s.blit 0 24 l.byte
def setLatestVaddrMap (s : SuperPage) (v : Int) : SuperPage := s.setInt 28 v

@[simp] theorem freeLists_setFreeLists (s : SuperPage) (l : FreeList) :
    (s.setFreeLists l).freeLists = l :=
  Buf.slice_blit_same s l (by omega)

@[simp] theorem latestVaddrMap_setFreeLists (s : SuperPage) (l : FreeList) :
    (s.setFreeLists l).latestVaddrMap = s.latestVaddrMap :=
  Buf.int_blit_other s _ (by omega)

@[simp] theorem latestVaddrMap_setLatestVaddrMap (s : SuperPage) (v : Int) :
    (s.setLatestVaddrMap v).latestVaddrMap = cint v :=
  Buf.int_setInt_same s v (by omega)

end SuperPage

/-! ## The address map -/

/-- `struct addrMap` with the memory it was allocated in. -/
structure AddrMap where
  alloc : Nat
  mem : Buf alloc
  deriving Inhabited

namespace AddrMap

/-- `sizeof (struct addrMap) + size * sizeof (page_addr)`. -/
def bytesFor (size : Int) : Nat := (8 + size * 4).toNat

/-- `(addrMap) page.contents`. -/
def ofPage (p : FullPage) : AddrMap := ⟨1024, p.contents⟩

def size (m : AddrMap) : Int := m.mem.int 0
def freePtr (m : AddrMap) : Int := m.mem.int 4
def map (m : AddrMap) (i : Nat) : Int := m.mem.int (8 + 4 * i)

def setSize (m : AddrMap) (v : Int) : AddrMap := ⟨m.alloc, m.mem.setInt 0 v⟩
def setFreePtr (m : AddrMap) (v : Int) : AddrMap := ⟨m.alloc, m.mem.setInt 4 v⟩
def setMap (m : AddrMap) (i : Nat) (v : Int) : AddrMap := ⟨m.alloc, m.mem.setInt (8 + 4 * i) v⟩

variable {m : AddrMap} {i j : Nat} (v : Int)

@[simp] theorem alloc_setMap : (m.setMap i v).alloc = m.alloc := rfl
@[simp] theorem alloc_setSize : (m.setSize v).alloc = m.alloc := rfl
@[simp] theorem alloc_setFreePtr : (m.setFreePtr v).alloc = m.alloc := rfl

@[simp] theorem size_setMap : (m.setMap i v).size = m.size :=
  Buf.int_setInt_other _ _ (by omega)

@[simp] theorem freePtr_setMap : (m.setMap i v).freePtr = m.freePtr :=
  Buf.int_setInt_other _ _ (by omega)

@[simp] theorem size_setFreePtr : (m.setFreePtr v).size = m.size :=
  Buf.int_setInt_other _ _ (by omega)

@[simp] theorem map_setFreePtr : (m.setFreePtr v).map i = m.map i :=
  Buf.int_setInt_other _ _ (by omega)

theorem freePtr_setFreePtr (h : 8 ≤ m.alloc) : (m.setFreePtr v).freePtr = cint v :=
  Buf.int_setInt_same _ _ h

theorem size_setSize (h : 4 ≤ m.alloc) : (m.setSize v).size = cint v :=
  Buf.int_setInt_same _ _ h

theorem map_setMap_same (h : 8 + 4 * i + 4 ≤ m.alloc) : (m.setMap i v).map i = cint v :=
  Buf.int_setInt_same _ _ h

theorem map_setMap_other (h : j ≠ i) : (m.setMap i v).map j = m.map j :=
  Buf.int_setInt_other _ _ (by omega)

end AddrMap

/-! ## Inodes and log headers -/

/-- `struct inode`. -/
abbrev Inode := Buf 176

namespace Inode

def iMode (ind : Inode) : Int := ind.uint 0
def iFileNo (ind : Inode) : Int := ind.int 16
def iLogNo (ind : Inode) : Int := ind.int 20
def iLinksCount (ind : Inode) : Int := ind.uint 24
def iPages (ind : Inode) : Int := ind.int 80
def iSize (ind : Inode) : Int :=
  if ind.ulong 88 < 9223372036854775808 then ind.ulong 88
  else ind.ulong 88 - 18446744073709551616

def setIMode (ind : Inode) (v : Int) : Inode := ind.setInt 0 v
def setIFileNo (ind : Inode) (v : Int) : Inode := ind.setInt 16 v
def setILogNo (ind : Inode) (v : Int) : Inode := ind.setInt 20 v
def setILinksCount (ind : Inode) (v : Int) : Inode := ind.setInt 24 v
def setIPages (ind : Inode) (v : Int) : Inode := ind.setInt 80 v
def setISize (ind : Inode) (v : Int) : Inode := ind.setNum 8 88 v

end Inode

/-- `struct logHeader`; the fields from `fileCount` on are those of `content.file`. -/
abbrev LogHeader := Buf 568

namespace LogHeader

/-- `(logHeader) &page`. -/
def ofPage (p : FullPage) : LogHeader := p.slice 0 568

def erases (h : LogHeader) : Int := h.ulong 0
def logId (h : LogHeader) : Int := h.int 8
def prev (h : LogHeader) : Int := h.int 12
def first (h : LogHeader) : Int := h.int 20
def firstErases (h : LogHeader) : Int := h.int 24
def active (h : LogHeader) : Int := h.uint 28
def total (h : LogHeader) : Int := h.uint 32
def fileCount (h : LogHeader) : Int := h.int 40
def fInode (h : LogHeader) : Inode := h.slice 80 176

def setErases (h : LogHeader) (v : Int) : LogHeader := h.setNum 8 0 v
def setLogId (h : LogHeader) (v : Int) : LogHeader := h.setInt 8 v
def setPrev (h : LogHeader) (v : Int) : LogHeader := h.setInt 12 v
def setFirst (h : LogHeader) (v : Int) : LogHeader := h.setInt 20 v
def setFirstErases (h : LogHeader) (v : Int) : LogHeader := h.setInt 24 v
def setActive (h : LogHeader) (v : Int) : LogHeader := h.setInt 28 v
def setTotal (h : LogHeader) (v : Int) : LogHeader := h.setInt 32 v
def setLogType (h : LogHeader) (v : Int) : LogHeader := h.setNum 2 36 v
def setFileCount (h : LogHeader) (v : Int) : LogHeader := h.setInt 40 v
def setFileId0 (h : LogHeader) (v : Int) : LogHeader := h.setInt 44 v
def setFInode (h : LogHeader) (ind : Inode) : LogHeader := h.blit 80 176 ind.byte

end LogHeader

/-- `LTYPE_FILES`. -/
def ltypeFiles : Int := 1

/-! ## Blocks -/

/-- `struct block`: sixteen pages, then `nextPage` and `eraseCount`. -/
abbrev Block := Buf 16776

namespace Block

def nextPage (b : Block) : Int := b.int 16768

def setNextPage (b : Block) (v : Int) : Block := b.setInt 16768 v
def setEraseCount (b : Block) (v : Int) : Block := b.setInt 16772 v

/-- `memcpy(&b.contents[i], p, sizeof (struct fullPage))`. -/
def setPage (b : Block) (i : Nat) (p : FullPage) : Block := b.blit (i * 1048) 1048 p.byte

end Block

end Cycology
