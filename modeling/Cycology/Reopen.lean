import Cycology.Remount

/- Opening a file again after its log header was written.

   `getFreePage` and `initActiveLog` make the same case distinction, one for the
   page it gives out and one for the page a header was found on. But `xmp_open`
   passes the address after the header's, so `initActiveLog` takes each position
   in the block for the next one; and in the last case it counts on from a
   `nextPage` that nobody has set. The two agree only where the garbage happens
   to be the header's own address, or where the new block's address is itself
   second to last in its block. -/
namespace Cycology
open ByteMem LinkedChain

/-- Reopening `path` finds no entry for the file or for its log, and the log's
    last header at `header`. -/
structure Reopens (state : CYCstate) (path : String) (fileID logID header : Int) : Prop where
  stub : state.stubs path = some fileID
  valid : fileID ≠ -1
  fileClosed : state.openFileTable fileID = 0
  ofLog : (LogHeader.ofPage (readNAND state.nand (state.nand.frame.slice 0 1048)
    (state.vaddrMap.map fileID.toNat)).2.1).fInode.iLogNo = logID
  logClosed : state.openFileTable logID = 0
  found : state.vaddrMap.map logID.toNat = header
  apart : logID ≠ fileID

/-- The position of the header, and the memory the reopened log is built in, for
    which the two case distinctions agree. -/
def Resumes (log : ActiveLog) (lists : FreeList) (fresh : ActiveLog) : Prop :=
  (log.nextPage % 16 ≤ 11 ∧ fresh.nextPage = log.nextPage) ∨
  (log.nextPage % 16 = 14 ∧ 0 ≤ lists.completeHead ∧ lists.completeHead % 16 = 14) ∨
  (log.nextPage % 16 = 15 ∧ fresh.nextPage = cint (16 * log.last + 13))

/-! ## The two case distinctions -/

theorem nextPage_initActiveLog (fresh : ActiveLog) (a : Int) :
    (initActiveLog fresh (cint (a + 1))).nextPage =
      if a % 16 = 12 then cint (fresh.log.prev * 16 + 15)
      else if a % 16 = 13 then cint (fresh.last * 16)
      else if a % 16 = 14 then cint (fresh.last * 16 + 14)
      else cint (fresh.nextPage + 1) := by
  have hmod := cint_emod (a + 1)
  unfold initActiveLog
  simp only [cint_tmod_eq_zero_iff]
  split_ifs <;> first | omega | rfl

theorem initActiveLog_resumes_iff {d : Nand} {l : FreeList} {log fresh : ActiveLog} {mem : FullPage}
    (hlog : IsInt log.nextPage) (hfresh : IsInt fresh.nextPage)
    (hprev : fresh.log.prev = (getFreePage d l log mem).log.log.prev)
    (hlast : fresh.last = (getFreePage d l log mem).log.last) :
    (initActiveLog fresh (cint (log.nextPage + 1))).nextPage =
      (getFreePage d l log mem).log.nextPage ↔ Resumes log l fresh := by
  obtain ⟨hnext, hlast', hprev'⟩ := log_getFreePage d l log mem hlog
  have hhead : IsInt l.completeHead := Buf.isInt_int _ _
  rw [hprev'] at hprev
  rw [hlast'] at hlast
  rw [nextPage_initActiveLog, hnext, hprev, hlast]
  unfold Resumes
  rcases (show log.nextPage % 16 ≤ 11 ∨ log.nextPage % 16 = 12 ∨ log.nextPage % 16 = 13 ∨
    log.nextPage % 16 = 14 ∨ log.nextPage % 16 = 15 by omega) with h | h | h | h | h
  · -- the fresh `nextPage` is counted on instead of the header's address
    have h12 : ¬ log.nextPage % 16 = 12 := by omega
    have h13 : ¬ log.nextPage % 16 = 13 := by omega
    have h14 : ¬ log.nextPage % 16 = 14 := by omega
    have h15 : ¬ log.nextPage % 16 = 15 := by omega
    rw [if_neg h12, if_neg h13, if_neg h14, if_neg h13, if_neg h14, if_neg h15, cint_eq_cint_iff]
    unfold IsInt at hlog hfresh
    omega
  · -- the last page of a block is not the third to last
    have h13 : ¬ log.nextPage % 16 = 13 := by omega
    have h14 : ¬ log.nextPage % 16 = 14 := by omega
    have h15 : ¬ log.nextPage % 16 = 15 := by omega
    rw [if_pos h, if_neg h13, if_neg h14, if_neg h15, cint_eq_cint_iff]
    omega
  · -- nor is the first page of a block the last
    have h12 : ¬ log.nextPage % 16 = 12 := by omega
    rw [if_neg h12, if_pos h, if_pos h, cint_eq_cint_iff]
    omega
  · -- the block that was taken need not start at a block's first page
    have h12 : ¬ log.nextPage % 16 = 12 := by omega
    have h13 : ¬ log.nextPage % 16 = 13 := by omega
    rw [if_neg h12, if_neg h13, if_pos h, if_pos h, if_neg h13, if_pos h]
    have hdiv := Int.tdiv_mul_add_tmod l.completeHead 16
    have hlo := Int.lt_tmod_of_pos l.completeHead (show (0 : Int) < 16 by omega)
    have hhi := Int.tmod_lt_of_pos l.completeHead (show (0 : Int) < 16 by omega)
    have hpos : 0 ≤ l.completeHead → 0 ≤ l.completeHead.tmod 16 := Int.tmod_nonneg 16
    have hneg : l.completeHead < 0 → l.completeHead.tmod 16 ≤ 0 := by
      intro hc
      have := Int.tmod_nonneg 16 (show 0 ≤ -l.completeHead by omega)
      rw [Int.neg_tmod] at this
      omega
    nth_rewrite 2 [← cint_eq hhead]
    rw [cint_eq_cint_iff]
    unfold IsInt at hhead
    omega
  · have h12 : ¬ log.nextPage % 16 = 12 := by omega
    have h13 : ¬ log.nextPage % 16 = 13 := by omega
    have h14 : ¬ log.nextPage % 16 = 14 := by omega
    rw [if_neg h12, if_neg h13, if_neg h14, if_neg h13, if_neg h14, if_pos h, cint_eq_cint_iff]
    have hcint := cint_eq_cint_iff fresh.nextPage (16 * log.last + 13)
    rw [cint_eq hfresh] at hcint
    rw [hcint]
    omega

/-- The log `xmp_open` puts in the table when it has none for the file. -/
theorem log_xmpOpen {state : CYCstate} {path : String} {fileID logID header : Int} {mem : OpenMem}
    (h : Reopens state path fileID logID header) :
    ((xmpOpen state path mem).1.activeLogs
        ((xmpOpen state path mem).1.openFileTable logID)).nextPage =
      (initActiveLog mem.log (cint (header + 1))).nextPage := by
  have hopen : (xmpOpen state path mem).1 = addHandle (openFirst state fileID mem).1
      (openFirst state fileID mem).2 := by
    simp only [xmpOpen, h.stub, if_neg h.valid, if_pos h.fileClosed]
  rw [hopen]
  simp only [addHandle, openFirst, h.ofLog, if_pos h.logClosed, openActiveLog, h.found,
    update_other _ _ h.apart, update_same]

/-- **Reopening a log.** For every log and every position of the header page that
    `getFreePage` gives out, opening the file again, with `prev` and `last` as
    they were, goes on where `getFreePage` stopped exactly under `Resumes`. -/
theorem reopen_resumes_iff {d : Nand} {l : FreeList} {log : ActiveLog} {page : FullPage}
    {state : CYCstate} {path : String} {fileID logID : Int} {mem : OpenMem}
    (hlog : IsInt log.nextPage) (hfresh : IsInt mem.log.nextPage)
    (hopen : Reopens state path fileID logID (getFreePage d l log page).address)
    (hprev : mem.log.log.prev = (getFreePage d l log page).log.log.prev)
    (hlast : mem.log.last = (getFreePage d l log page).log.last) :
    (((xmpOpen state path mem).1.activeLogs
        ((xmpOpen state path mem).1.openFileTable logID))).nextPage =
      (getFreePage d l log page).log.nextPage ↔ Resumes log l mem.log := by
  rw [log_xmpOpen hopen, address_getFreePage]
  exact initActiveLog_resumes_iff hlog hfresh hprev hlast

theorem Reopens.remount {s : CYCstate} {n k : Nat} {path : String} (hs : s.nand.Sound n)
    (hlab : s.nand.Labelled) (hsuper : (SuperPage.ofPage (s.nand.page 0)).latestVaddrMap = 16)
    (hsize : s.vaddrMap.size = (254 : Nat)) (hk : 16 < k ∧ k < 16 * n) (hstub : s.stubs path = some 1)
    (hfile : s.vaddrMap.map 1 = k) (hlog : s.vaddrMap.map 2 = k)
    (hheader : (LogHeader.ofPage (s.nand.page k)).fInode.iLogNo = 2) (frame : Block)
    (mem : CYCstate) :
    Reopens (xmpInit (xmpDestroy s).nand.file frame { mem with stubs := s.stubs }) path 1 2 k := by
  have hspec := remount_spec hs hlab (show 0 < 16 by omega) (show 16 < 16 * n by omega) hsuper
    hsize (show 8 + 4 * 254 ≤ 1024 by omega) frame { mem with stubs := s.stubs }
  have hclosed : ∀ id : Int, 0 ≤ id → id < 31 →
      (xmpInit (xmpDestroy s).nand.file frame { mem with stubs := s.stubs }).openFileTable id = 0 := by
    intro id h0 h31
    rw [xmpInit, openFileTable_initCYCstate _ h0 h31]
  have hstubs := stubs_xmpInit (xmpDestroy s).nand.file frame { mem with stubs := s.stubs }
  generalize xmpInit (xmpDestroy s).nand.file frame { mem with stubs := s.stubs } = s' at *
  obtain ⟨hs', hints, hpages⟩ := hspec
  obtain ⟨d, hread, -⟩ := readNAND_ok hs' (s'.nand.frame.slice 0 1048) hk.2
  have hmap : ∀ j, j ≤ 2 → s'.vaddrMap.map j = s.vaddrMap.map j := fun j hj =>
    hints (8 + 4 * j) (by omega)
  have hfile' := (hmap 1 (by omega)).trans hfile
  have hlog' := (hmap 2 (by omega)).trans hlog
  refine ⟨(congrFun hstubs path).trans hstub, by decide, hclosed 1 (by omega) (by omega), ?_,
    hclosed 2 (by omega) (by omega), hlog', by decide⟩
  rw [show (1 : Int).toNat = 1 from rfl, hfile', hread]
  exact (congrArg (fun page => (LogHeader.ofPage page).fInode.iLogNo)
    (hpages k (by omega) (by omega))).trans hheader

/-! ## The first file of an image -/

/-- `xmp_create("/a")` on a new file system of four blocks, up to the header: the log
    is `firstLog`. -/
def firstFile : CYCstate × Ptr × Ptr := createOpenFile (newFileSystem 4) 33188 default

def firstLog : ActiveLog := firstFile.1.activeLogs firstFile.2.1

/-- The page that its header gets. -/
def firstHeader : FreePage := getFreePage firstFile.1.nand firstFile.1.lists firstLog default

/-- The file system with the file, and when it was unmounted and mounted again. -/
def created : CYCstate := (xmpCreate (newFileSystem 4) "/a" 33188 default 0).1

def remounted : CYCstate :=
  xmpInit (xmpDestroy created).nand.file default { (default : CYCstate) with stubs := created.stubs }

theorem firstLog_eq :
    firstLog.nextPage = 33 ∧ firstLog.last = 2 ∧ firstLog.log.prev = -1 := by
  obtain ⟨-, -, hk⟩ := first_create
  exact log_createOpenFile 33188 default hk (show 33 < 2147483648 by omega)

theorem address_firstHeader : firstHeader.address = 33 := by
  rw [firstHeader, address_getFreePage, firstLog_eq.1]

theorem reopens_remounted : Reopens remounted "/a" 1 2 33 := by
  have hm := freshMount_newFileSystem (n := 4) (by omega) (by omega)
  obtain ⟨hslots, -, -⟩ := first_create
  have hlists : FreeLists (newFileSystem 4).nand 4 _ [32, 48] [] := hm.freeLists
  have hk : 32 + 1 < 2147483648 := by omega
  have hspec := xmpCreate_spec 33188 default hm.image.sound hm.image.labelled hlists hslots
    (by omega) (hm.image.nextPage 2) "/a"
  have hstub := stubs_xmpCreate (newFileSystem 4) "/a" 33188 default
  rw [← created] at hspec hstub
  obtain ⟨hs, hlab, hpage, hind, -, -, hmap⟩ := hspec
  have hentry := map_createdMap hslots hk
  rw [← hmap] at hentry
  have h33 : ((32 + 1 : Nat) : Int) = 33 := rfl
  rw [remounted, ← h33]
  refine Reopens.remount hs hlab ?_ ?_ (by omega) ?_ (hentry 1) (hentry 2) hind.iLogNo default default
  · rw [hpage 0 (by omega), hm.image.super, ofPage_superImage, latestVaddrMap_newSuperBlock]
  · rw [hmap]
    exact (freeSlots_createdMap hm.vaddrMap (by omega) hk).size
  · rw [hstub, update_same, hslots.getFreePtr_twice.1]
    rfl

/-- What `malloc` left where the log is reopened: `nextPage` is garbage, `prev` and
    `last` are those of the header. -/
def reopenMem (nextPage : Int) : OpenMem :=
  ⟨{ firstLog with nextPage := nextPage }, default, default⟩

theorem kept_reopenMem (v : Int) :
    (reopenMem v).log.log.prev = firstHeader.log.log.prev ∧
    (reopenMem v).log.last = firstHeader.log.last := by
  obtain ⟨hnext, -, -⟩ := firstLog_eq
  obtain ⟨-, hlast, hprev⟩ := log_getFreePage firstFile.1.nand firstFile.1.lists firstLog default
    (hnext ▸ (by decide : IsInt 33))
  rw [hnext, if_neg (by decide)] at hlast
  exact ⟨hprev.symm, hlast.symm⟩

/-- If the garbage is 33, the reopened log goes on where the first one stopped. -/
theorem reopen_resumes_by_luck :
    ((xmpOpen remounted "/a" (reopenMem 33)).1.activeLogs
        ((xmpOpen remounted "/a" (reopenMem 33)).1.openFileTable 2)).nextPage =
      firstHeader.log.nextPage := by
  obtain ⟨hnext, -, -⟩ := firstLog_eq
  have hres : Resumes firstLog firstFile.1.lists (reopenMem 33).log :=
    .inl ⟨by rw [hnext]; decide, hnext.symm⟩
  have hopen : Reopens remounted "/a" 1 2 firstHeader.address := by
    rw [address_firstHeader]
    exact reopens_remounted
  exact (reopen_resumes_iff (hnext ▸ (by decide : IsInt 33)) (show IsInt 33 by decide) hopen
    (kept_reopenMem 33).1 (kept_reopenMem 33).2).mpr hres

/-- If it is 0, the reopened log goes on at page 1, not 34. -/
theorem reopen_starts_over :
    Reopens remounted "/a" 1 2 firstHeader.address ∧
    (reopenMem 0).log.log.prev = firstHeader.log.log.prev ∧
    (reopenMem 0).log.last = firstHeader.log.last ∧
    ((xmpOpen remounted "/a" (reopenMem 0)).1.activeLogs
        ((xmpOpen remounted "/a" (reopenMem 0)).1.openFileTable 2)).nextPage ≠
      firstHeader.log.nextPage := by
  obtain ⟨hnext, -, -⟩ := firstLog_eq
  have hopen : Reopens remounted "/a" 1 2 firstHeader.address := by
    rw [address_firstHeader]
    exact reopens_remounted
  refine ⟨hopen, (kept_reopenMem 0).1, (kept_reopenMem 0).2, fun h => ?_⟩
  rw [log_xmpOpen hopen, firstHeader, address_getFreePage] at h
  rcases (initActiveLog_resumes_iff (hnext ▸ (by decide : IsInt 33)) (show IsInt 0 by decide)
    (kept_reopenMem 0).1 (kept_reopenMem 0).2).mp h with ⟨-, h⟩ | ⟨h, -⟩ | ⟨h, -⟩
  · rw [hnext] at h
    exact absurd h (by decide)
  · rw [hnext] at h
    exact absurd h (by decide)
  · rw [hnext] at h
    exact absurd h (by decide)

end Cycology
