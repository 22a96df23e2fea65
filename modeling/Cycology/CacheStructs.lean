import Mathlib.Data.Char
import Mathlib.Data.List.Lex
import Cycology.Helper
import Cycology.Lib.Runs

/- The page cache of `cache_code`: the structures of `cacheStructs.h` and the
   memory they live in.

   Pointers lead into one store for each structure, and 0 is `NULL`. `malloc`
   never fails and returns a fresh address; `free` is left out, as no address is
   given out twice. A function that reads or writes through a pointer the code
   has not checked answers `.error .null` when it is `NULL`, and a loop takes a
   bound on its turns and answers `.error .fuel` when that is not enough.

   Correspondence (C ↔ Lean):
     `struct pageKey`       ↔ `PageKey`
     `struct cacheEntry`    ↔ `CacheEntry`
     `struct openFile`      ↔ `OpenFile`, less the fields the cache never reads
     `struct addressCache`  ↔ `AddressCache`
     `struct writeablePage` ↔ `WriteablePage`
     the globals of `filesystem.c` and the heap ↔ `Mem` -/
namespace Cycology.PageCache
open ByteMem

/-- Why a call does not return. -/
inductive Fault where
  | null
  | fuel
  deriving DecidableEq, Repr

/-- `struct pageKey`. -/
structure PageKey where
  file : Ptr
  dataOffset : Int
  levelsAbove : Int
  deriving DecidableEq, Inhabited

/-- `struct writeablePage`. -/
structure WriteablePage where
  nandPage : FullPage
  address : Int
  deriving Inhabited

/-- `struct cacheEntry`. -/
structure CacheEntry where
  key : Ptr
  wp : Ptr
  next : Ptr
  dirty : Int
  lruDataNext : Ptr
  lruDataPrev : Ptr
  fileDataNext : Ptr
  fileDataPrev : Ptr
  fileMetadataNext : Ptr
  fileMetadataPrev : Ptr
  deriving Inhabited

/-- `struct openFile`; `treeHeight` is the field of its inode. -/
structure OpenFile where
  mainExtentLog : Ptr
  treeHeight : Int
  dataHead : Ptr
  dataTail : Ptr
  metadataHead : Ptr
  metadataTail : Ptr
  lruFileNext : Ptr
  lruFilePrev : Ptr
  address : Int
  deriving Inhabited

/-- `struct addressCache`. -/
structure AddressCache where
  maxSize : Int
  size : Int
  table : Nat → Ptr
  lruDataHead : Ptr
  lruDataTail : Ptr
  deriving Inhabited

/-- The heap, the `cache` and the two globals of `filesystem.c`. `brk` is the
    last address `malloc` returned. -/
structure Mem where
  keys : Ptr → PageKey
  pages : Ptr → WriteablePage
  entries : Ptr → CacheEntry
  files : Ptr → OpenFile
  logs : Ptr → ActiveLog
  cache : AddressCache
  lruFileHead : Ptr
  lruFileTail : Ptr
  brk : Ptr
  deriving Inhabited

namespace Mem

def setEntry (s : Mem) (p : Ptr) (f : CacheEntry → CacheEntry) : Mem :=
  { s with entries := update s.entries p (f (s.entries p)) }

def setFile (s : Mem) (p : Ptr) (f : OpenFile → OpenFile) : Mem :=
  { s with files := update s.files p (f (s.files p)) }

def setCache (s : Mem) (f : AddressCache → AddressCache) : Mem := { s with cache := f s.cache }

/-- An access through an unchecked pointer. -/
def access (s : Mem) (p : Ptr) : Except Fault Mem := if p = 0 then .error .null else .ok s

variable (s : Mem) (p : Ptr) (f : CacheEntry → CacheEntry) (g : OpenFile → OpenFile)
  (h : AddressCache → AddressCache)

theorem access_ne {p : Ptr} (hp : p ≠ 0) : s.access p = .ok s := if_neg hp

@[simp] theorem keys_setEntry : (s.setEntry p f).keys = s.keys := rfl
@[simp] theorem pages_setEntry : (s.setEntry p f).pages = s.pages := rfl
@[simp] theorem files_setEntry : (s.setEntry p f).files = s.files := rfl
@[simp] theorem cache_setEntry : (s.setEntry p f).cache = s.cache := rfl
@[simp] theorem brk_setEntry : (s.setEntry p f).brk = s.brk := rfl
@[simp] theorem lruFileHead_setEntry : (s.setEntry p f).lruFileHead = s.lruFileHead := rfl
@[simp] theorem lruFileTail_setEntry : (s.setEntry p f).lruFileTail = s.lruFileTail := rfl

@[simp] theorem keys_setFile : (s.setFile p g).keys = s.keys := rfl
@[simp] theorem pages_setFile : (s.setFile p g).pages = s.pages := rfl
@[simp] theorem entries_setFile : (s.setFile p g).entries = s.entries := rfl
@[simp] theorem cache_setFile : (s.setFile p g).cache = s.cache := rfl
@[simp] theorem brk_setFile : (s.setFile p g).brk = s.brk := rfl
@[simp] theorem lruFileHead_setFile : (s.setFile p g).lruFileHead = s.lruFileHead := rfl
@[simp] theorem lruFileTail_setFile : (s.setFile p g).lruFileTail = s.lruFileTail := rfl

@[simp] theorem keys_setCache : (s.setCache h).keys = s.keys := rfl
@[simp] theorem pages_setCache : (s.setCache h).pages = s.pages := rfl
@[simp] theorem entries_setCache : (s.setCache h).entries = s.entries := rfl
@[simp] theorem files_setCache : (s.setCache h).files = s.files := rfl
@[simp] theorem cache_setCache : (s.setCache h).cache = h s.cache := rfl
@[simp] theorem brk_setCache : (s.setCache h).brk = s.brk := rfl
@[simp] theorem lruFileHead_setCache : (s.setCache h).lruFileHead = s.lruFileHead := rfl
@[simp] theorem lruFileTail_setCache : (s.setCache h).lruFileTail = s.lruFileTail := rfl

theorem entries_setEntry_same : (s.setEntry p f).entries p = f (s.entries p) := update_same ..

theorem entries_setEntry_other {q : Ptr} (hq : q ≠ p) :
    (s.setEntry p f).entries q = s.entries q := update_other _ _ hq

theorem files_setFile_same : (s.setFile p g).files p = g (s.files p) := update_same ..

theorem files_setFile_other {q : Ptr} (hq : q ≠ p) : (s.setFile p g).files q = s.files q :=
  update_other _ _ hq

theorem field_setEntry {β : Type} (π : CacheEntry → β) (hf : ∀ e, π (f e) = π e) (q : Ptr) :
    π ((s.setEntry p f).entries q) = π (s.entries q) := by
  by_cases hq : q = p
  · rw [hq, entries_setEntry_same, hf]
  · rw [entries_setEntry_other _ _ _ hq]

theorem field_setFile {β : Type} (π : OpenFile → β) (hg : ∀ e, π (g e) = π e) (q : Ptr) :
    π ((s.setFile p g).files q) = π (s.files q) := by
  by_cases hq : q = p
  · rw [hq, files_setFile_same, hg]
  · rw [files_setFile_other _ _ _ hq]

end Mem

theorem Mem.access_eq_ok {s s' : Mem} {p : Ptr} : s.access p = .ok s' ↔ p ≠ 0 ∧ s' = s := by
  unfold access
  split
  · simp [*]
  · simp [*, eq_comm]

/-! ## Keys as the cache compares them -/

/-- The digits that `sprintf "%d"` writes. -/
def decimal : Int → List Char
  | .ofNat n => Nat.toDigits 10 n
  | .negSucc n => '-' :: Nat.toDigits 10 (n + 1)

/-- `strcmp`, of which only the sign is used. -/
def strcmp (a b : List Char) : Int := if a < b then -1 else if a = b then 0 else 1

/-- The number that stands for a key. -/
def numKey (s : Mem) (key : Ptr) : Int :=
  let k := s.keys key
  cint (cint ((s.files k.file).address + k.dataOffset) + k.levelsAbove)

theorem toDigits_inj {m n : Nat} (h : Nat.toDigits 10 m = Nat.toDigits 10 n) : m = n := by
  rw [← Nat.ofDigitChars_ten_toDigits (n := m), h, Nat.ofDigitChars_ten_toDigits]

theorem decimal_inj {a b : Int} (h : decimal a = decimal b) : a = b := by
  have hsign : ∀ m n : Nat, Nat.toDigits 10 m ≠ '-' :: Nat.toDigits 10 n := by
    intro m n hmn
    have hmem : '-' ∈ Nat.toDigits 10 m := by rw [hmn]; simp
    have := Nat.isDigit_of_mem_toDigits (by omega) (by omega) hmem
    exact absurd this (by decide)
  cases a with
  | ofNat m =>
    cases b with
    | ofNat n => rw [toDigits_inj h]
    | negSucc n => exact absurd h (hsign m (n + 1))
  | negSucc m =>
    cases b with
    | ofNat n => exact absurd h.symm (hsign n (m + 1))
    | negSucc n =>
      have := toDigits_inj (List.cons.inj h).2
      congr 1
      omega

end Cycology.PageCache
