import Cycology.Remount
import Cycology.Lib.Runs

/- The open-file table over runs of `xmp_create`, `xmp_open` and `xmp_release`.

   A session is a mounted state with the handles not yet released and the ids of
   the files in use. The table should have an entry for a file exactly while the
   file has a handle, and the entry should count the handles (`EntryOk`).

   Files created in the session are counted right as long as they stay open. The
   entry of a file is never cleared, so releasing its last handle leaves it
   behind; and a first `xmp_open`, of a file with no entry, counts its handle
   twice and keeps a log pointer that is `NULL`. `tableOk_of_steady` says that
   there is no other way to spoil the table. -/
namespace Cycology
open ByteMem Runs

/-! ## Sessions -/

/-- A handle: the file it is for, and the `struct openFile` it leads to. -/
structure Handle where
  file : Int
  oFile : Ptr
  deriving DecidableEq

/-- The ids of a file and of its log. -/
structure FileIds where
  fileID : Int
  logID : Int

structure Session where
  state : CYCstate
  handles : List Handle
  files : List FileIds

/-- A call of `xmp_create`, `xmp_open` or `xmp_release`. -/
inductive FileOp where
  | create (path : String) (mode : UInt32) (mem : CreateMem) (errno : Nat)
  | open (path : String) (mem : OpenMem)
  | release (handle : Handle) (mem : FullPage)

/-- A call that returns 0 gives the file a handle. -/
def FileOp.run (w : Session) : FileOp → Session
  | .create path mode mem errno =>
    let ids := nextIds w.state.vaddrMap
    let (state, res, fh) := xmpCreate w.state path mode mem errno
    if res = 0 then ⟨state, ⟨ids.1, fh⟩ :: w.handles, ⟨ids.1, ids.2⟩ :: w.files⟩
    else ⟨state, w.handles, w.files⟩
  | .open path mem =>
    let (state, res, fh) := xmpOpen w.state path mem
    if res = 0 then ⟨state, ⟨(w.state.stubs path).getD 0, fh⟩ :: w.handles, w.files⟩
    else ⟨state, w.handles, w.files⟩
  | .release handle mem =>
    ⟨(xmpRelease w.state handle.oFile mem).1, w.handles.erase handle, w.files⟩

/-- Only handles not yet released are released. -/
def FileOp.Allowed (w : Session) : FileOp → Prop
  | .release handle _ => handle ∈ w.handles
  | _ => True

/-- The handles file `id` has. -/
def handleCount (w : Session) (id : Int) : Nat := w.handles.countP (·.file = id)

/-- The table entry of a file is `NULL` exactly when the file has no handle, and
    otherwise leads to the file's `struct openFile`, with the number of handles
    and the log the table has for the file. -/
structure EntryOk (w : Session) (f : FileIds) : Prop where
  null_iff : w.state.openFileTable f.fileID = 0 ↔ handleCount w f.fileID = 0
  handles : ∀ h ∈ w.handles, h.file = f.fileID → h.oFile = w.state.openFileTable f.fileID
  openFile : w.state.openFileTable f.fileID ≠ 0 →
    (w.state.openFiles (w.state.openFileTable f.fileID)).address = f.fileID ∧
    (w.state.openFiles (w.state.openFileTable f.fileID)).currentOpens = handleCount w f.fileID ∧
    (w.state.openFiles (w.state.openFileTable f.fileID)).mainExtentLog =
      w.state.openFileTable f.logID ∧ w.state.openFileTable f.logID ≠ 0

def TableOk (w : Session) : Prop := ∀ f ∈ w.files, EntryOk w f

/-- The two ids a create takes off the map are different and not in use. -/
def NewIds (w : Session) (ids : Int × Int) : Prop :=
  ids.1 ≠ ids.2 ∧ ∀ f ∈ w.files, (ids.1 ≠ f.fileID ∧ ids.1 ≠ f.logID) ∧
    (ids.2 ≠ f.fileID ∧ ids.2 ≠ f.logID)

/-- The steps that keep the table right: a create takes new ids, an open is of a
    file that has a handle (or of no file at all), and a release leaves its file
    another handle. -/
def FileOp.Steady (w : Session) : FileOp → Prop
  | .create _ _ _ _ => NewIds w (nextIds w.state.vaddrMap)
  | .open path _ => ∀ id, w.state.stubs path = some id → id ≠ -1 →
    0 < handleCount w id ∧ handleCount w id + 1 < 2147483648
  | .release handle _ => 2 ≤ handleCount w handle.file

/-! ## What the calls do to the table -/

section
variable {s : CYCstate} {mode : UInt32} {mem : CreateMem}

theorem tables_createOpenFile (s : CYCstate) (mode : UInt32) (mem : CreateMem) :
    (createOpenFile s mode mem).1.openFileTable =
      update (update s.openFileTable (nextIds s.vaddrMap).2 (s.brk + 1)) (nextIds s.vaddrMap).1
        (s.brk + 2) ∧
    (∀ p, p ≠ s.brk + 2 → (createOpenFile s mode mem).1.openFiles p = s.openFiles p) ∧
    ((createOpenFile s mode mem).1.openFiles (s.brk + 2)).currentOpens = 1 ∧
    ((createOpenFile s mode mem).1.openFiles (s.brk + 2)).mainExtentLog = s.brk + 1 ∧
    ((createOpenFile s mode mem).1.openFiles (s.brk + 2)).address = (nextIds s.vaddrMap).1 ∧
    (createOpenFile s mode mem).1.brk = s.brk + 2 ∧
    (createOpenFile s mode mem).2.2 = s.brk + 2 := by
  refine ⟨rfl, fun p hp => update_other _ _ hp, ?_, ?_, ?_, rfl, rfl⟩ <;>
  · simp only [createOpenFile, getLogForFile, initOpenFile, nextIds]
    rw [show s.brk + 1 + 1 = s.brk + 2 from rfl, update_same]

theorem tables_xmpCreate (s : CYCstate) (path : String) (mode : UInt32) (mem : CreateMem)
    (errno : Nat) :
    (xmpCreate s path mode mem errno).1.openFileTable =
      (createOpenFile s mode mem).1.openFileTable ∧
    (xmpCreate s path mode mem errno).1.openFiles = (createOpenFile s mode mem).1.openFiles ∧
    (xmpCreate s path mode mem errno).1.brk = (createOpenFile s mode mem).1.brk ∧
    ((xmpCreate s path mode mem errno).2.1 = 0 →
      (xmpCreate s path mode mem errno).2.2 = s.brk + 2) := by
  unfold xmpCreate
  dsimp only
  split
  · rename_i he
    refine ⟨rfl, rfl, rfl, fun h => absurd h ?_⟩
    dsimp only
    omega
  · exact ⟨rfl, rfl, rfl, fun _ => rfl⟩

theorem xmpOpen_known {path : String} {id : Int} (mem : OpenMem) (hs : s.stubs path = some id)
    (hid : id ≠ -1) (ht : s.openFileTable id ≠ 0) :
    xmpOpen s path mem = (addHandle s (s.openFileTable id), 0, s.openFileTable id) := by
  simp only [xmpOpen, hs, if_neg hid, if_neg ht]

theorem xmpOpen_none {path : String} (mem : OpenMem)
    (h : ∀ id, s.stubs path = some id → id = -1) : xmpOpen s path mem = (s, -1, 0) := by
  unfold xmpOpen
  split
  · rfl
  · rename_i id hs
    rw [if_pos (h id hs)]

theorem xmpRelease_more {fh : Ptr} (mem : FullPage)
    (h : cint ((s.openFiles fh).currentOpens - 1) ≠ 0) :
    xmpRelease s fh mem = (dropHandle s fh, 0) := by
  have hopens : ((dropHandle s fh).openFiles fh).currentOpens ≠ 0 := by
    simpa only [dropHandle, update_same] using h
  unfold xmpRelease
  exact if_neg fun hc => hopens hc.1

end

/-! ## One step -/

/-- What steady steps keep. -/
structure SteadyTable (w : Session) : Prop where
  ok : TableOk w
  known : ∀ h ∈ w.handles, ∃ f ∈ w.files, f.fileID = h.file
  fits : ∀ id, handleCount w id < 2147483648
  bound : ∀ f ∈ w.files, w.state.openFileTable f.fileID ≤ w.state.brk

section
variable {w : Session} {f : FileIds}

theorem handleCount_cons (w : Session) (h : Handle) (id : Int) (s : CYCstate) (fs : List FileIds) :
    handleCount ⟨s, h :: w.handles, fs⟩ id = handleCount w id + if h.file = id then 1 else 0 := by
  simp only [handleCount, List.countP_cons, decide_eq_true_eq]

theorem handleCount_pos {h : Handle} (hh : h ∈ w.handles) : 0 < handleCount w h.file :=
  List.countP_pos_iff.mpr ⟨h, hh, by simp⟩

theorem handleCount_erase {h : Handle} (hh : h ∈ w.handles) (id : Int) (s : CYCstate)
    (fs : List FileIds) : handleCount ⟨s, w.handles.erase h, fs⟩ id =
      handleCount w id - if h.file = id then 1 else 0 := by
  simp only [handleCount, List.countP_erase, hh, true_and, decide_eq_true_eq]

theorem SteadyTable.entry_ne (hw : SteadyTable w) {id : Int} (hc : 0 < handleCount w id) :
    ∃ f ∈ w.files, f.fileID = id ∧ w.state.openFileTable id ≠ 0 := by
  obtain ⟨h, hh, hid⟩ := List.countP_pos_iff.mp hc
  obtain ⟨f, hf, hfid⟩ := hw.known h hh
  have hfile : f.fileID = id := hfid.trans (by simpa using hid)
  refine ⟨f, hf, hfile, fun h0 => ?_⟩
  have hcount := (hw.ok f hf).null_iff.mp (hfile.symm ▸ h0)
  rw [hfile] at hcount
  omega

/-- The entry of `f` is right as long as what the table has for `f`, its
    `struct openFile` and its handles are the same. -/
theorem EntryOk.congr {w' : Session} (hok : EntryOk w f)
    (hfile : w'.state.openFileTable f.fileID = w.state.openFileTable f.fileID)
    (hlog : w'.state.openFileTable f.logID = w.state.openFileTable f.logID)
    (hopen : w'.state.openFiles (w.state.openFileTable f.fileID) =
      w.state.openFiles (w.state.openFileTable f.fileID))
    (hhandles : ∀ h ∈ w'.handles, h ∈ w.handles ∨ h.file ≠ f.fileID)
    (hcount : handleCount w' f.fileID = handleCount w f.fileID) : EntryOk w' f := by
  refine ⟨?_, fun h hh hf => ?_, fun h => ?_⟩
  · rw [hfile, hcount]
    exact hok.null_iff
  · rw [hfile]
    exact hok.handles h ((hhandles h hh).resolve_right fun hno => hno hf) hf
  · rw [hfile] at h ⊢
    rw [hlog, hopen, hcount]
    exact hok.openFile h

/-- Counting a handle more or less in the entry of `f` is seen by `f` only. -/
theorem EntryOk.of_count {w' : Session} {id v : Int} (hok : EntryOk w f)
    (hid : w.state.openFileTable id ≠ 0)
    (haddr : (w.state.openFiles (w.state.openFileTable id)).address = id)
    (ht : w'.state.openFileTable = w.state.openFileTable)
    (hfiles : w'.state.openFiles = update w.state.openFiles (w.state.openFileTable id)
      { w.state.openFiles (w.state.openFileTable id) with currentOpens := v })
    (hhandles : ∀ h ∈ w'.handles, h ∈ w.handles ∨ h = ⟨id, w.state.openFileTable id⟩)
    (hsame : f.fileID ≠ id → handleCount w' f.fileID = handleCount w f.fileID)
    (hcount : f.fileID = id → v = handleCount w' id ∧ 0 < handleCount w' id) : EntryOk w' f := by
  by_cases hf : f.fileID = id
  · obtain ⟨hv, hpos⟩ := hcount hf
    refine ⟨?_, fun h hm hfile => ?_, fun _ => ?_⟩
    · rw [ht, hf]
      exact ⟨fun h => absurd h hid, fun h => by omega⟩
    · rw [ht]
      rcases hhandles h hm with hm | rfl
      · exact hok.handles h hm hfile
      · rw [← hfile]
    · obtain ⟨ha, -, hlog, hne⟩ := hok.openFile (hf ▸ hid)
      rw [ht, hfiles, hf, update_same]
      rw [hf] at hlog
      exact ⟨haddr, hv, hlog, hne⟩
  · -- two files do not share a `struct openFile`: it names its file
    have hptr : w.state.openFileTable f.fileID ≠ w.state.openFileTable id := by
      intro heq
      obtain ⟨ha, -⟩ := hok.openFile (heq ▸ hid)
      rw [heq, haddr] at ha
      exact hf ha.symm
    refine hok.congr (by rw [ht]) (by rw [ht]) ?_ (fun h hm => ?_) (hsame hf)
    · rw [hfiles, update_other _ _ hptr]
    · rcases hhandles h hm with hm | rfl
      · exact .inl hm
      · exact .inr (Ne.symm hf)

/-- What a create does to the table: the first id leads to a new `struct openFile`, the
    second to its log. -/
structure CreatedEntry (s s' : CYCstate) (ids : Int × Int) : Prop where
  table : s'.openFileTable =
    update (update s.openFileTable ids.2 (s.brk + 1)) ids.1 (s.brk + 2)
  others : ∀ p, p ≠ s.brk + 2 → s'.openFiles p = s.openFiles p
  opens : (s'.openFiles (s.brk + 2)).currentOpens = 1
  log : (s'.openFiles (s.brk + 2)).mainExtentLog = s.brk + 1
  address : (s'.openFiles (s.brk + 2)).address = ids.1
  brk : s'.brk = s.brk + 2

theorem createdEntry_xmpCreate (s : CYCstate) (path : String) (mode : UInt32) (mem : CreateMem)
    (errno : Nat) : CreatedEntry s (xmpCreate s path mode mem errno).1 (nextIds s.vaddrMap) := by
  obtain ⟨htab, hother, hopens, hlog, haddr, hbrk, -⟩ := tables_createOpenFile s mode mem
  obtain ⟨htab', hfiles', hbrk', -⟩ := tables_xmpCreate s path mode mem errno
  refine ⟨htab'.trans htab, ?_, ?_, ?_, ?_, hbrk'.trans hbrk⟩
  · rw [hfiles']
    exact hother
  · rw [hfiles']
    exact hopens
  · rw [hfiles']
    exact hlog
  · rw [hfiles']
    exact haddr

theorem SteadyTable.kept (hw : SteadyTable w) {s' : CYCstate} {ids : Int × Int}
    (hnew : NewIds w ids) (hc : CreatedEntry w.state s' ids) (hf : f ∈ w.files)
    {hs : List Handle} {fs : List FileIds} (hhs : ∀ h ∈ hs, h ∈ w.handles ∨ h.file ≠ f.fileID)
    (hcount : handleCount ⟨s', hs, fs⟩ f.fileID = handleCount w f.fileID) :
    EntryOk ⟨s', hs, fs⟩ f ∧ s'.openFileTable f.fileID ≤ s'.brk := by
  obtain ⟨⟨h1, h2⟩, h3, h4⟩ := hnew.2 f hf
  have hfile : s'.openFileTable f.fileID = w.state.openFileTable f.fileID := by
    rw [hc.table, update_other _ _ (Ne.symm h1), update_other _ _ (Ne.symm h3)]
  have hlog : s'.openFileTable f.logID = w.state.openFileTable f.logID := by
    rw [hc.table, update_other _ _ (Ne.symm h2), update_other _ _ (Ne.symm h4)]
  have hptr : w.state.openFileTable f.fileID ≠ w.state.brk + 2 :=
    Nat.ne_of_lt (Nat.lt_add_right 1 (Nat.lt_succ_of_le (hw.bound f hf)))
  refine ⟨(hw.ok f hf).congr hfile hlog (hc.others _ hptr) hhs hcount, ?_⟩
  rw [hfile, hc.brk]
  exact Nat.le_add_right_of_le (hw.bound f hf)

theorem CreatedEntry.newEntry {s s' : CYCstate} {ids : Int × Int} (hc : CreatedEntry s s' ids)
    (hne : ids.1 ≠ ids.2) {hs : List Handle} {fs : List FileIds}
    (hcount : handleCount ⟨s', ⟨ids.1, s.brk + 2⟩ :: hs, fs⟩ ids.1 = 1)
    (hnone : ∀ h ∈ hs, h.file ≠ ids.1) :
    EntryOk ⟨s', ⟨ids.1, s.brk + 2⟩ :: hs, fs⟩ ⟨ids.1, ids.2⟩ := by
  have htid : s'.openFileTable ids.1 = s.brk + 2 := by rw [hc.table, update_same]
  have htlog : s'.openFileTable ids.2 = s.brk + 1 := by
    rw [hc.table, update_other _ _ hne.symm, update_same]
  refine ⟨?_, fun h hh hfile => ?_, fun _ => ?_⟩
  · dsimp only
    rw [htid, hcount]
    exact ⟨fun h => absurd h (Nat.succ_ne_zero _), fun h => absurd h one_ne_zero⟩
  · dsimp only
    rw [htid]
    rcases List.mem_cons.mp hh with rfl | hh
    · rfl
    · exact absurd hfile (hnone h hh)
  · dsimp only
    rw [hcount, htid, htlog]
    exact ⟨hc.address, hc.opens, hc.log, Nat.succ_ne_zero _⟩

theorem SteadyTable.create (hw : SteadyTable w) (path : String) (mode : UInt32) (mem : CreateMem)
    (errno : Nat) (hids : NewIds w (nextIds w.state.vaddrMap)) :
    SteadyTable (FileOp.run w (.create path mode mem errno)) := by
  have hc := createdEntry_xmpCreate w.state path mode mem errno
  obtain ⟨-, -, -, hret⟩ := tables_xmpCreate w.state path mode mem errno
  set ids := nextIds w.state.vaddrMap
  set s' := (xmpCreate w.state path mode mem errno).1
  have hrun : FileOp.run w (.create path mode mem errno) =
      if (xmpCreate w.state path mode mem errno).2.1 = 0 then
        ⟨s', ⟨ids.1, (xmpCreate w.state path mode mem errno).2.2⟩ :: w.handles,
          ⟨ids.1, ids.2⟩ :: w.files⟩
      else ⟨s', w.handles, w.files⟩ := rfl
  rw [hrun]
  split
  · rename_i hres
    rw [hret hres]
    have hzero : handleCount w ids.1 = 0 := by
      by_contra hpos
      obtain ⟨f, hf, hfid, -⟩ := hw.entry_ne (Nat.pos_of_ne_zero hpos)
      exact (hids.2 f hf).1.1 hfid.symm
    have hnone : ∀ h ∈ w.handles, h.file ≠ ids.1 := by
      intro h hh hfile
      have hpos := handleCount_pos hh
      rw [hfile, hzero] at hpos
      exact lt_irrefl 0 hpos
    have hkept : ∀ f ∈ w.files, EntryOk ⟨s', ⟨ids.1, w.state.brk + 2⟩ :: w.handles,
        ⟨ids.1, ids.2⟩ :: w.files⟩ f ∧ s'.openFileTable f.fileID ≤ s'.brk := by
      intro f hf
      refine hw.kept hids hc hf (fun h hh => ?_) ?_
      · rcases List.mem_cons.mp hh with rfl | hh
        · exact .inr (hids.2 f hf).1.1
        · exact .inl hh
      · rw [handleCount_cons, if_neg (hids.2 f hf).1.1, Nat.add_zero]
    refine ⟨fun f hf => ?_, fun h hh => ?_, fun id => ?_, fun f hf => ?_⟩
    · rcases List.mem_cons.mp hf with rfl | hf
      · exact hc.newEntry hids.1 (by rw [handleCount_cons, hzero, if_pos rfl]) hnone
      · exact (hkept f hf).1
    · rcases List.mem_cons.mp hh with rfl | hh
      · exact ⟨_, List.mem_cons_self, rfl⟩
      · obtain ⟨f, hf, hfile⟩ := hw.known h hh
        exact ⟨f, List.mem_cons_of_mem _ hf, hfile⟩
    · have hfit := hw.fits id
      rw [handleCount_cons]
      split
      · rename_i heq
        rw [← heq, hzero]
        omega
      · omega
    · rcases List.mem_cons.mp hf with rfl | hf
      · show s'.openFileTable ids.1 ≤ s'.brk
        rw [hc.table, update_same, hc.brk]
      · exact (hkept f hf).2
  · have hkept : ∀ f ∈ w.files, EntryOk ⟨s', w.handles, w.files⟩ f ∧
        s'.openFileTable f.fileID ≤ s'.brk :=
      fun f hf => hw.kept hids hc hf (fun h hh => .inl hh) rfl
    exact ⟨fun f hf => (hkept f hf).1, hw.known, hw.fits, fun f hf => (hkept f hf).2⟩

theorem SteadyTable.open (hw : SteadyTable w) (path : String) (mem : OpenMem)
    (hopen : (FileOp.open path mem).Steady w) : SteadyTable (FileOp.run w (.open path mem)) := by
  by_cases hid : ∃ id, w.state.stubs path = some id ∧ id ≠ -1
  · obtain ⟨id, hstub, hid⟩ := hid
    obtain ⟨hpos, hfit⟩ := hopen id hstub hid
    obtain ⟨g, hg, hgid, htab⟩ := hw.entry_ne hpos
    obtain ⟨haddr, hcount, -⟩ := (hw.ok g hg).openFile (hgid.symm ▸ htab)
    rw [hgid] at haddr hcount
    have hrun : FileOp.run w (.open path mem) =
        ⟨addHandle w.state (w.state.openFileTable id),
          ⟨id, w.state.openFileTable id⟩ :: w.handles, w.files⟩ := by
      simp only [FileOp.run, xmpOpen_known mem hstub hid htab, hstub, Option.getD_some, if_true]
    rw [hrun]
    refine ⟨fun f hf => ?_, fun h hh => ?_, fun id' => ?_, hw.bound⟩
    · refine (hw.ok f hf).of_count htab haddr rfl rfl (fun h hh => ?_) (fun hf => ?_) fun _ => ?_
      · rcases List.mem_cons.mp hh with rfl | hh
        · exact .inr rfl
        · exact .inl hh
      · rw [handleCount_cons, if_neg (Ne.symm hf), Nat.add_zero]
      · rw [handleCount_cons, if_pos rfl, hcount, cint_eq (by unfold IsInt; omega)]
        exact ⟨by push_cast; rfl, by omega⟩
    · rcases List.mem_cons.mp hh with rfl | hh
      · exact ⟨g, hg, hgid⟩
      · exact hw.known h hh
    · have hfit' := hw.fits id'
      rw [handleCount_cons]
      split
      · rename_i heq
        rw [← heq]
        exact hfit
      · exact hfit'
  · have hnone : ∀ id, w.state.stubs path = some id → id = -1 := by
      intro id hstub
      by_contra hne
      exact hid ⟨id, hstub, hne⟩
    have hrun : FileOp.run w (.open path mem) = w := by
      simp only [FileOp.run, xmpOpen_none mem hnone]
      rfl
    rw [hrun]
    exact hw

theorem SteadyTable.release (hw : SteadyTable w) {handle : Handle} (mem : FullPage)
    (hh : handle ∈ w.handles) (h2 : 2 ≤ handleCount w handle.file) :
    SteadyTable (FileOp.run w (.release handle mem)) := by
  obtain ⟨g, hg, hgid, htab⟩ := hw.entry_ne (show 0 < handleCount w handle.file by omega)
  obtain ⟨haddr, hcount, -⟩ := (hw.ok g hg).openFile (hgid.symm ▸ htab)
  have hptr := (hw.ok g hg).handles handle hh hgid.symm
  rw [hgid] at haddr hcount hptr
  have hfit : IsInt ((handleCount w handle.file : Int) - 1) := by
    have := hw.fits handle.file
    unfold IsInt
    omega
  have hdrop : cint ((w.state.openFiles handle.oFile).currentOpens - 1) =
      (handleCount w handle.file : Int) - 1 := by
    rw [hptr, hcount, cint_eq hfit]
  have hrun : FileOp.run w (.release handle mem) =
      ⟨dropHandle w.state handle.oFile, w.handles.erase handle, w.files⟩ := by
    simp only [FileOp.run, xmpRelease_more mem (by rw [hdrop]; omega)]
  rw [hrun]
  refine ⟨fun f hf => ?_, fun h hm => hw.known h (List.mem_of_mem_erase hm), fun id => ?_, hw.bound⟩
  swap
  · have hfit := hw.fits id
    rw [handleCount_erase hh]
    omega
  refine (hw.ok f hf).of_count htab haddr rfl (by rw [← hptr]; rfl)
    (fun h hm => .inl (List.mem_of_mem_erase hm)) (fun hne => ?_) fun _ => ?_
  · rw [handleCount_erase hh, if_neg (Ne.symm hne), Nat.sub_zero]
  · rw [handleCount_erase hh, if_pos rfl, hdrop]
    omega

theorem SteadyTable.run (w : Session) (op : FileOp) (hw : SteadyTable w)
    (hop : op.Allowed w ∧ op.Steady w) : SteadyTable (op.run w) := by
  cases op with
  | create path mode mem errno => exact hw.create path mode mem errno hop.2
  | «open» path mem => exact hw.open path mem hop.2
  | release handle mem => exact hw.release mem hop.1 hop.2

end

/-- From a mount on: if the entries of the files on the device are `NULL` and
    every step is steady, the table is right in every state. -/
theorem tableOk_of_steady (mem : CYCstate) (files : List FileIds)
    (hnull : ∀ f ∈ files, (initCYCstate mem).openFileTable f.fileID = 0) (ops : List FileOp)
    (hall : EveryStep FileOp.run FileOp.Allowed ⟨initCYCstate mem, [], files⟩ ops)
    (hsteady : EveryStep FileOp.run FileOp.Steady ⟨initCYCstate mem, [], files⟩ ops) :
    EveryState FileOp.run TableOk ⟨initCYCstate mem, [], files⟩ ops := by
  refine (hall.and hsteady).everyState SteadyTable.run (fun w hw => hw.ok) ⟨fun f hf => ?_, ?_, ?_, ?_⟩
  · have h0 := hnull f hf
    refine ⟨⟨fun _ => rfl, fun _ => h0⟩, fun h hh => ?_, fun h => absurd h0 h⟩
    cases hh
  · intro h hh
    cases hh
  · intro id
    exact Nat.two_pow_pos 31
  · intro f hf
    rw [hnull f hf]
    exact Nat.zero_le _

/-! ## One file -/

section
variable {w : Session} {ids : Int × Int}

theorem run_create_first (hh : w.handles = []) (hf : w.files = [])
    (hids : nextIds w.state.vaddrMap = ids) (path : String) (mode : UInt32) (mem : CreateMem) :
    ∃ s', FileOp.run w (.create path mode mem 0) =
        ⟨s', [⟨ids.1, w.state.brk + 2⟩], [⟨ids.1, ids.2⟩]⟩ ∧
      s'.openFileTable ids.1 = w.state.brk + 2 ∧ s'.stubs path = some ids.1 := by
  subst hids
  obtain ⟨htab, -⟩ := tables_createOpenFile w.state mode mem
  obtain ⟨htab', -, -, hret⟩ := tables_xmpCreate w.state path mode mem 0
  have hres : (xmpCreate w.state path mode mem 0).2.1 = 0 := rfl
  refine ⟨(xmpCreate w.state path mode mem 0).1, ?_, ?_, ?_⟩
  · rw [← hret hres, ← hh, ← hf]
    rfl
  · rw [htab', htab, update_same]
  · exact update_same _ _ _

theorem steady_first (hh : w.handles = []) (hf : w.files = [])
    (hids : nextIds w.state.vaddrMap = ids) (hne : ids.1 ≠ ids.2) (hm1 : ids.1 ≠ -1)
    (path : String) (mode : UInt32) (mem : CreateMem) (omem : OpenMem) (page : FullPage) :
    EveryStep FileOp.run (fun w op => op.Allowed w ∧ op.Steady w) w
      [.create path mode mem 0, .open path omem, .release ⟨ids.1, w.state.brk + 2⟩ page] := by
  obtain ⟨s', hrun, htab, hstub⟩ := run_create_first hh hf hids path mode mem
  have hcount : handleCount ⟨s', [⟨ids.1, w.state.brk + 2⟩], [⟨ids.1, ids.2⟩]⟩ ids.1 = 1 := by
    simp [handleCount]
  refine ⟨⟨trivial, ?_⟩, ?_⟩
  · show NewIds w (nextIds w.state.vaddrMap)
    rw [hids]
    refine ⟨hne, fun f hf' => ?_⟩
    rw [hf] at hf'
    cases hf'
  rw [hrun]
  refine ⟨⟨trivial, fun id hid hne' => ?_⟩, ?_⟩
  · obtain rfl := Option.some.inj (hstub.symm.trans hid)
    rw [hcount]
    omega
  have hopen := xmpOpen_known (s := s') omem hstub hm1 (by rw [htab]; exact Nat.succ_ne_zero _)
  rw [htab] at hopen
  have hrun' : FileOp.run ⟨s', [⟨ids.1, w.state.brk + 2⟩], [⟨ids.1, ids.2⟩]⟩ (.open path omem) =
      ⟨addHandle s' (w.state.brk + 2), [⟨ids.1, w.state.brk + 2⟩, ⟨ids.1, w.state.brk + 2⟩],
        [⟨ids.1, ids.2⟩]⟩ := by
    simp only [FileOp.run, hopen, hstub, Option.getD_some, if_true]
  rw [hrun']
  exact ⟨⟨List.mem_cons_self, by simp [FileOp.Steady, handleCount]⟩, trivial⟩

theorem openFileTable_xmpRelease (s : CYCstate) (fh : Ptr) (mem : FullPage) :
    (xmpRelease s fh mem).1.openFileTable = s.openFileTable := by
  unfold xmpRelease
  dsimp only
  split <;> rfl

/-- After its only handle is released, a new file still has an entry. -/
theorem not_tableOk_released (hh : w.handles = []) (hf : w.files = [])
    (hids : nextIds w.state.vaddrMap = ids) (path : String) (mode : UInt32) (mem : CreateMem)
    (page : FullPage) :
    EveryStep FileOp.run FileOp.Allowed w
      [.create path mode mem 0, .release ⟨ids.1, w.state.brk + 2⟩ page] ∧
    ¬ EveryState FileOp.run TableOk w
      [.create path mode mem 0, .release ⟨ids.1, w.state.brk + 2⟩ page] := by
  obtain ⟨s', hrun, htab, -⟩ := run_create_first hh hf hids path mode mem
  refine ⟨⟨trivial, ?_, trivial⟩, fun h => ?_⟩
  · rw [hrun]
    exact List.mem_cons_self
  · have hlast := h.2.2
    rw [hrun] at hlast
    have hok := (hlast ⟨ids.1, ids.2⟩ List.mem_cons_self).null_iff.mpr
      (by simp [FileOp.run, handleCount])
    simp only [FileOp.run, openFileTable_xmpRelease, htab] at hok
    exact absurd hok (Nat.succ_ne_zero _)

end

theorem nextIds_newFileSystem :
    nextIds (newFileSystem 5).vaddrMap = (((1 : Nat) : Int), ((2 : Nat) : Int)) := by
  have hm := freshMount_newFileSystem (n := 5) (by omega) (by omega)
  obtain ⟨h₁, h₂⟩ := (hm.vaddrMap.hasSlots (by omega)).getFreePtr_twice
  simp only [nextIds, h₁, h₂]

/-- A file is created on a new file system, opened once more, and one of the
    handles released. -/
theorem tableOk_first_file :
    EveryState FileOp.run TableOk ⟨newFileSystem 5, [], []⟩
      [.create "/a" 33188 default 0, .open "/a" default,
        .release ⟨(1 : Nat), (newFileSystem 5).brk + 2⟩ default] := by
  have hall := steady_first (w := ⟨newFileSystem 5, [], []⟩) rfl rfl nextIds_newFileSystem
    (by decide) (by decide) "/a" 33188 default default default
  exact tableOk_of_steady
    { (default : CYCstate) with nand := initNAND (makefs (blankNAND 5 default)).1.file default }
    [] (fun f hf => by cases hf) _ (hall.imp fun _ _ h => h.1) (hall.imp fun _ _ h => h.2)

/-- A file is created and its handle released: the table keeps an entry for a
    file that has no handle. -/
theorem not_tableOk_after_release :
    EveryStep FileOp.run FileOp.Allowed ⟨newFileSystem 5, [], []⟩
      [.create "/a" 33188 default 0,
        .release ⟨(1 : Nat), (newFileSystem 5).brk + 2⟩ default] ∧
    ¬ EveryState FileOp.run TableOk ⟨newFileSystem 5, [], []⟩
      [.create "/a" 33188 default 0,
        .release ⟨(1 : Nat), (newFileSystem 5).brk + 2⟩ default] :=
  not_tableOk_released (w := ⟨newFileSystem 5, [], []⟩) rfl rfl nextIds_newFileSystem "/a" 33188
    default default

end Cycology
