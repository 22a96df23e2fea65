import Cycology.OpenTable

/- `xmp_create` when it cannot complete.

   By the time the stub file is opened, `createOpenFile` has taken two ids and a
   block, filled two entries of the open-file table and made a log, and the
   branch for a stub file that cannot be opened undoes none of it. Where ids or
   blocks have run out, `getFreePtr` and `getFreeBlock` have no way to say so: an
   empty list is the address 0, and the create goes on with that and succeeds. -/
namespace Cycology
open ByteMem Nand

/-- The create cannot complete: the stub file cannot be opened, the free chain of
    the address map ends before two slots are taken, or both free lists are
    empty. -/
def CreateFails (s : CYCstate) (errno : Nat) : Prop :=
  errno ≠ 0 ∨ (nextIds s.vaddrMap).1 = 0 ∨ (nextIds s.vaddrMap).2 = 0 ∨ NoneLeft s.lists 1

/-- The call reports an error and leaves the state as it was. -/
structure AtomicFailure (s s' : CYCstate) (res : Int) : Prop where
  reported : res < 0
  vaddrMap : s'.vaddrMap = s.vaddrMap
  lists : s'.lists = s.lists
  openFileTable : s'.openFileTable = s.openFileTable
  page : ∀ k, s'.nand.page k = s.nand.page k
  nextPage : ∀ b, s'.nand.nextPage b = s.nand.nextPage b
  eraseCount : ∀ b, s'.nand.eraseCount b = s.nand.eraseCount b

section
variable {s : CYCstate} {errno : Nat} (path : String) (mode : UInt32) (mem : CreateMem)

/-- A create whose stub file can be opened reports no error, whatever ran out. -/
theorem xmpCreate_succeeds (s : CYCstate) : (xmpCreate s path mode mem 0).2.1 = 0 := rfl

/-- Whether it fails or not, the create leaves its `struct openFile` in the
    table. -/
theorem openFileTable_xmpCreate (s : CYCstate) (errno : Nat) :
    (xmpCreate s path mode mem errno).1.openFileTable (nextIds s.vaddrMap).1 = s.brk + 2 := by
  obtain ⟨htab, -⟩ := tables_xmpCreate s path mode mem errno
  rw [htab, (tables_createOpenFile s mode mem).1, update_same]

/-- `malloc` returns an address the table did not hold, so the table has changed. -/
theorem table_changes (hfresh : ∀ id, s.openFileTable id ≠ s.brk + 2) :
    (xmpCreate s path mode mem errno).1.openFileTable ≠ s.openFileTable := by
  intro htab
  have hentry := openFileTable_xmpCreate path mode mem s errno
  rw [htab] at hentry
  exact hfresh _ hentry

end

/-- A create whose stub file cannot be opened costs two ids and a block. -/
theorem failed_open_costs {s : CYCstate} {n p fileID logID next errno : Nat} {ps cs : List Nat}
    (hs : s.nand.Sound n) (hl : FreeLists s.nand n s.lists (p :: ps) cs)
    (hm : HasSlots s.vaddrMap fileID logID next) (he : errno ≠ 0) (path : String) (mode : UInt32)
    (mem : CreateMem) :
    (xmpCreate s path mode mem errno).2.1 = -(errno : Int) ∧
    FreeLists (xmpCreate s path mode mem errno).1.nand n (xmpCreate s path mode mem errno).1.lists
      ps cs ∧
    (xmpCreate s path mode mem errno).1.vaddrMap.freePtr = next := by
  obtain ⟨-, hpage, hfree⟩ := freeLists_getFreeBlock_partial hs hl one_ne_zero
  obtain ⟨hnand, hlists, hmap, -⟩ := createOpenFile_spec mode mem hm
    (show (getFreeBlock s.nand s.lists 1).freePage = (p + 1 : Nat) by rw [hpage]; rfl)
  have hfail : xmpCreate s path mode mem errno =
      ((createOpenFile s mode mem).1, -(errno : Int), 0) := by
    rw [xmpCreate]
    exact if_pos he
  have halloc := hm.alloc
  have hfits := hm.fits
  rw [hfail]
  refine ⟨rfl, ?_, ?_⟩
  · rw [hnand, hlists]
    exact hfree
  · rw [hmap, createdMap, AddrMap.freePtr_setMap, AddrMap.freePtr_setMap,
      AddrMap.freePtr_setFreePtr _ (by rw [AddrMap.alloc_setFreePtr]; omega),
      cint_eq (by unfold IsInt; omega)]

/-- **A create that cannot complete is never undone.** Either it reports no error,
    or it leaves an entry behind for a file that does not exist. The address
    `malloc` returns for the new `struct openFile` is not in the table before. -/
theorem create_failure_atomic_iff {s : CYCstate} {errno : Nat}
    (hfresh : ∀ id, s.openFileTable id ≠ s.brk + 2) (path : String) (mode : UInt32)
    (mem : CreateMem) :
    (CreateFails s errno → AtomicFailure s (xmpCreate s path mode mem errno).1
      (xmpCreate s path mode mem errno).2.1) ↔ ¬ CreateFails s errno := by
  constructor
  · intro h hfail
    by_cases he : errno = 0
    · -- ids or blocks have run out, and the call returns 0
      subst he
      have hres := (h hfail).reported
      rw [xmpCreate_succeeds] at hres
      exact lt_irrefl 0 hres
    · exact table_changes path mode mem hfresh (h hfail).openFileTable
  · exact fun hno hfail => absurd hfail hno

theorem table_newFileSystem (n : Nat) (id : Int) :
    (newFileSystem n).openFileTable id ≠ (newFileSystem n).brk + 2 := by
  have hmount : ∀ d : Nand, (initCYCstate { (default : CYCstate) with nand := d }).brk = 0 ∧
      (initCYCstate { (default : CYCstate) with nand := d }).openFileTable id = 0 := by
    intro d
    have hzero : (default : CYCstate).openFileTable id = 0 := rfl
    simp only [initCYCstate, hzero, Nat.zero_div, Nat.zero_mul, ite_self]
    exact ⟨rfl, trivial⟩
  rw [newFileSystem, xmpInit, (hmount _).1, (hmount _).2]
  decide

/-- On a new file system of five blocks a create can complete. -/
theorem create_failure_atomic_iff_new : ¬ CreateFails (newFileSystem 5) 0 ∧
    (CreateFails (newFileSystem 5) 0 →
      AtomicFailure (newFileSystem 5) (xmpCreate (newFileSystem 5) "f" 0 default 0).1
        (xmpCreate (newFileSystem 5) "f" 0 default 0).2.1) := by
  have hno : ¬ CreateFails (newFileSystem 5) 0 := by
    have hm := freshMount_newFileSystem (n := 5) (by omega) (by omega)
    obtain ⟨hptr₁, hptr₂⟩ := (hm.vaddrMap.hasSlots (by decide)).getFreePtr_twice
    have hids : nextIds (newFileSystem 5).vaddrMap = (1, 2) := by
      simp only [nextIds, hptr₁, hptr₂]
      rfl
    have hhead : (newFileSystem 5).lists.partialHead = 32 := hm.freeLists.partialHead_eq
    intro hfail
    rcases hfail with h | h | h | ⟨h | h, -⟩
    · exact h rfl
    · rw [hids] at h; exact absurd h (by decide)
    · rw [hids] at h; exact absurd h (by decide)
    · exact absurd h (by decide)
    · rw [hhead] at h; exact absurd h (by decide)
  exact ⟨hno, (create_failure_atomic_iff (table_newFileSystem 5) "f" 0 default).mpr hno⟩

/-- If its stub file cannot be opened, the table keeps an entry for it. -/
theorem failed_create_leaves_entry : CreateFails (newFileSystem 5) 2 ∧
    ¬ AtomicFailure (newFileSystem 5) (xmpCreate (newFileSystem 5) "f" 0 default 2).1
      (xmpCreate (newFileSystem 5) "f" 0 default 2).2.1 :=
  ⟨.inl (by decide), fun h =>
    table_changes "f" 0 default (table_newFileSystem 5) h.openFileTable⟩

end Cycology
