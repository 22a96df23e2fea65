import Cycology.NewFileSystem
import Cycology.OpenTable
import Cycology.Release

/- What removing a file gives back.

   A file holds a stub file, an entry of the open-file table, two ids and the
   blocks of its log. Once its last link is unlinked and its last handle
   released, all four should be free again (`Removed`).

   They never are. `xmp_unlink` leaves a file alone while the table has an entry
   for it, nothing ever clears an entry, and nothing puts an id back on the free
   chain of the address map: entries are only ever set (`entry_kept`), and slots
   only ever leave the chain (`slotChain_run`). -/
namespace Cycology
open ByteMem LinkedChain Runs

/-- A call of one of the four callbacks. -/
inductive VfsOp where
  | file (op : FileOp)
  | unlink (path : String) (nlink errno : Nat) (ret : Int)

def VfsOp.run (w : Session) : VfsOp → Session
  | .file op => op.run w
  | .unlink path nlink errno ret =>
    { w with state := (xmpUnlink w.state path nlink errno ret).1 }

/-- Everything file `f`, with its stub at `path` and its log in `blocks`, held is
    free again. -/
structure Removed (s : CYCstate) (path : String) (f : FileIds) (blocks : List Nat) : Prop where
  stub : s.stubs path = none
  entry : s.openFileTable f.fileID = 0
  ids : ∃ free, Chain (slotNext s.vaddrMap) (ofLink s.vaddrMap.freePtr) free ∧
    f.fileID.toNat ∈ free ∧ f.logID.toNat ∈ free
  blocks : ∃ ps cs, Chain (partialNext s.nand) (ofLink s.lists.partialHead) ps ∧
    Chain (completeNext s.nand) (ofLink s.lists.completeHead) cs ∧
    ∀ b ∈ blocks, (blocksOf (ps ++ cs)).count b = 1

/-- A create that finds two free slots in a map of `slots`. -/
def EnoughSlots (slots : Nat) (w : Session) : VfsOp → Prop
  | .file (.create _ _ _ _) => ∃ p q free, SlotChain w.state.vaddrMap slots (p :: q :: free)
  | _ => True

/-! ## Entries are never cleared -/

section
variable {s : CYCstate}

theorem entry_xmpCreate (path : String) (mode : UInt32) (mem : CreateMem) (errno : Nat) :
    (xmpCreate s path mode mem errno).1.openFileTable (nextIds s.vaddrMap).1 ≠ 0 ∧
    ∀ id, s.openFileTable id ≠ 0 → (xmpCreate s path mode mem errno).1.openFileTable id ≠ 0 := by
  obtain ⟨htab, -⟩ := tables_createOpenFile s mode mem
  obtain ⟨htab', -⟩ := tables_xmpCreate s path mode mem errno
  rw [htab', htab]
  constructor
  · rw [update_same]
    exact Nat.succ_ne_zero _
  · intro id h
    unfold update
    split
    · exact Nat.succ_ne_zero _
    · split
      · exact Nat.succ_ne_zero _
      · exact h

theorem entry_openFirst (id : Int) (mem : OpenMem) :
    (openFirst s id mem).1.openFileTable id ≠ 0 ∧
    ∀ i, s.openFileTable i ≠ 0 → (openFirst s id mem).1.openFileTable i ≠ 0 := by
  unfold openFirst
  dsimp only
  constructor
  · rw [update_same]
    exact Nat.succ_ne_zero _
  · intro i h
    unfold update
    split
    · exact Nat.succ_ne_zero _
    · split
      · unfold openActiveLog update
        dsimp only
        split
        · exact Nat.succ_ne_zero _
        · exact h
      · exact h

theorem entry_xmpOpen (path : String) (mem : OpenMem) :
    ((xmpOpen s path mem).2.1 = 0 →
      (xmpOpen s path mem).1.openFileTable ((s.stubs path).getD 0) ≠ 0) ∧
    ∀ id, s.openFileTable id ≠ 0 → (xmpOpen s path mem).1.openFileTable id ≠ 0 := by
  unfold xmpOpen
  split
  · exact ⟨fun h => absurd h (by dsimp only; omega), fun _ h => h⟩
  · rename_i id hid
    rw [hid, Option.getD_some]
    split
    · exact ⟨fun h => absurd h (by dsimp only; omega), fun _ h => h⟩
    · by_cases h0 : s.openFileTable id = 0
      · rw [if_pos h0]
        exact ⟨fun _ => (entry_openFirst id mem).1, (entry_openFirst id mem).2⟩
      · rw [if_neg h0]
        exact ⟨fun _ => h0, fun _ h => h⟩

theorem tables_logsRecycle (log : LogHeader) (nextPage nextErases : Int) :
    (logsRecycle log nextPage nextErases s).openFileTable = s.openFileTable ∧
    (logsRecycle log nextPage nextErases s).vaddrMap = s.vaddrMap := by
  have hlast : (recycleLastBlock log nextPage s).1.openFileTable = s.openFileTable ∧
      (recycleLastBlock log nextPage s).1.vaddrMap = s.vaddrMap := by
    unfold recycleLastBlock
    split_ifs <;> exact ⟨rfl, rfl⟩
  have hfull : ∀ (v : Int) (t : CYCstate),
      (recycleFullBlocks log v t).openFileTable = t.openFileTable ∧
      (recycleFullBlocks log v t).vaddrMap = t.vaddrMap := by
    intro v t
    unfold recycleFullBlocks
    split_ifs <;> exact ⟨rfl, rfl⟩
  unfold logsRecycle
  cases hr : recycleLastBlock log nextPage s with
  | mk t v =>
  rw [hr] at hlast
  obtain ⟨ht, hm⟩ := hlast
  obtain ⟨ht', hm'⟩ := hfull v t
  dsimp only
  split
  · exact ⟨ht'.trans ht, hm'.trans hm⟩
  · exact ⟨ht, hm⟩

theorem tables_removeFile (id : Int) :
    (removeFile s id).openFileTable = s.openFileTable ∧
    (removeFile s id).vaddrMap = s.vaddrMap := by
  unfold removeFile
  dsimp only
  split
  · obtain ⟨ht, hm⟩ := tables_logsRecycle (s := { s with nand := _ }) _ _ _
    exact ⟨ht, hm⟩
  · exact ⟨rfl, rfl⟩

theorem tables_xmpUnlink (path : String) (nlink errno : Nat) (ret : Int) :
    (xmpUnlink s path nlink errno ret).1.openFileTable = s.openFileTable ∧
    (xmpUnlink s path nlink errno ret).1.vaddrMap = s.vaddrMap := by
  unfold xmpUnlink
  split
  · exact ⟨rfl, rfl⟩
  · rename_i id hid
    obtain ⟨ht, hm⟩ := tables_removeFile (s := s) id
    split_ifs
    · exact ⟨rfl, rfl⟩
    · exact ⟨rfl, rfl⟩
    · exact ⟨ht, hm⟩
    · exact ⟨ht, hm⟩
    · exact ⟨rfl, rfl⟩

theorem vaddrMap_xmpCreate (path : String) (mode : UInt32) (mem : CreateMem) (errno : Nat) :
    (xmpCreate s path mode mem errno).1.vaddrMap =
      ((getFreePtr (getFreePtr s.vaddrMap).2).2.setMap
        (getFreePtr (getFreePtr s.vaddrMap).2).1.toNat
        (getFreeBlock s.nand s.lists 1).freePage).setMap (getFreePtr s.vaddrMap).1.toNat
        (getFreeBlock s.nand s.lists 1).freePage := by
  unfold xmpCreate
  dsimp only
  split <;> rfl

theorem vaddrMap_openFirst (id : Int) (mem : OpenMem) :
    (openFirst s id mem).1.vaddrMap = s.vaddrMap := by
  unfold openFirst openActiveLog
  dsimp only
  split <;> rfl

theorem vaddrMap_xmpOpen (path : String) (mem : OpenMem) :
    (xmpOpen s path mem).1.vaddrMap = s.vaddrMap := by
  unfold xmpOpen
  split
  · rfl
  · rename_i id hid
    split
    · rfl
    · by_cases h0 : s.openFileTable id = 0
      · rw [if_pos h0]
        exact vaddrMap_openFirst id mem
      · rw [if_neg h0]
        rfl

end

/-! ## Runs -/

section
variable {w : Session}

/-- An entry that is set stays set. -/
theorem entry_kept (op : VfsOp) {id : Int} (h : w.state.openFileTable id ≠ 0) :
    (op.run w).state.openFileTable id ≠ 0 := by
  cases op with
  | unlink path nlink errno ret =>
    show (xmpUnlink w.state path nlink errno ret).1.openFileTable id ≠ 0
    rw [(tables_xmpUnlink path nlink errno ret).1]
    exact h
  | file op =>
    cases op with
    | create path mode mem errno =>
      have hkept := (entry_xmpCreate path mode mem errno).2 id h
      simp only [VfsOp.run, FileOp.run]
      split <;> exact hkept
    | «open» path mem =>
      have hkept := (entry_xmpOpen path mem).2 id h
      simp only [VfsOp.run, FileOp.run]
      split <;> exact hkept
    | release handle mem =>
      show (xmpRelease w.state handle.oFile mem).1.openFileTable id ≠ 0
      rw [openFileTable_xmpRelease]
      exact h

theorem entry_of_handle (w : Session) (op : VfsOp)
    (hw : ∀ h ∈ w.handles, w.state.openFileTable h.file ≠ 0) :
    ∀ h ∈ (op.run w).handles, (op.run w).state.openFileTable h.file ≠ 0 := by
  have hold : ∀ h ∈ w.handles, (op.run w).state.openFileTable h.file ≠ 0 :=
    fun h hh => entry_kept op (hw h hh)
  cases op with
  | unlink path nlink errno ret => exact hold
  | file op =>
    cases op with
    | create path mode mem errno =>
      have hnew := (entry_xmpCreate (s := w.state) path mode mem errno).1
      simp only [VfsOp.run, FileOp.run] at hold ⊢
      split at hold
      · rename_i hres
        rw [if_pos hres]
        intro h hh
        rcases List.mem_cons.mp hh with rfl | hh
        · exact hnew
        · exact hold h hh
      · rename_i hres
        rw [if_neg hres]
        exact hold
    | «open» path mem =>
      have hnew := (entry_xmpOpen (s := w.state) path mem).1
      simp only [VfsOp.run, FileOp.run] at hold ⊢
      split at hold
      · rename_i hres
        rw [if_pos hres]
        intro h hh
        rcases List.mem_cons.mp hh with rfl | hh
        · exact hnew hres
        · exact hold h hh
      · rename_i hres
        rw [if_neg hres]
        exact hold
    | release handle mem => exact fun h hh => hold h (List.mem_of_mem_erase hh)

theorem entry_after (ops : List VfsOp) {id : Int} (h : w.state.openFileTable id ≠ 0) :
    (after VfsOp.run w ops).state.openFileTable id ≠ 0 := by
  induction ops generalizing w with
  | nil => exact h
  | cons op ops ih => exact ih (entry_kept op h)

theorem entries_after (ops : List VfsOp)
    (hw : ∀ h ∈ w.handles, w.state.openFileTable h.file ≠ 0) :
    ∀ h ∈ (after VfsOp.run w ops).handles,
      (after VfsOp.run w ops).state.openFileTable h.file ≠ 0 := by
  induction ops generalizing w with
  | nil => exact hw
  | cons op ops ih => exact ih (entry_of_handle w op hw)

/-- A create takes two slots off the chain, and nothing else changes it. -/
theorem slotChain_run {slots : Nat} {free : List Nat} (op : VfsOp)
    (h : SlotChain w.state.vaddrMap slots free) (he : EnoughSlots slots w op) :
    ∃ free', SlotChain (op.run w).state.vaddrMap slots free' ∧ ∀ p ∈ free', p ∈ free := by
  have hsame : (op.run w).state.vaddrMap = w.state.vaddrMap →
      ∃ free', SlotChain (op.run w).state.vaddrMap slots free' ∧ ∀ p ∈ free', p ∈ free :=
    fun heq => ⟨free, heq ▸ h, fun _ hp => hp⟩
  cases op with
  | unlink path nlink errno ret => exact hsame (tables_xmpUnlink path nlink errno ret).2
  | file op =>
    cases op with
    | create path mode mem errno =>
      -- `p` is the slot of the file and `q` that of its log
      obtain ⟨p, q, rest, hpq⟩ := he
      obtain rfl := Chain.unique h.chain hpq.chain
      obtain ⟨-, h₁⟩ := h.pop
      obtain ⟨hq, h₂⟩ := h₁.pop
      have hnd := h.chain.nodup
      obtain ⟨hp, hnd'⟩ := List.nodup_cons.mp hnd
      have hmap : (FileOp.run w (.create path mode mem errno)).state.vaddrMap =
          ((getFreePtr (getFreePtr w.state.vaddrMap).2).2.setMap
            (getFreePtr (getFreePtr w.state.vaddrMap).2).1.toNat
            (getFreeBlock w.state.nand w.state.lists 1).freePage).setMap
            (getFreePtr w.state.vaddrMap).1.toNat
            (getFreeBlock w.state.nand w.state.lists 1).freePage := by
        simp only [FileOp.run]
        split <;> exact vaddrMap_xmpCreate path mode mem errno
      refine ⟨rest, ?_, fun r hr => by simp [hr]⟩
      show SlotChain (FileOp.run w (.create path mode mem errno)).state.vaddrMap slots rest
      rw [hmap, hq, (hpq.pop).1]
      exact (h₂.assign (List.nodup_cons.mp hnd').1 _).assign
        (fun hm => hp (List.mem_cons_of_mem _ hm)) _
    | «open» path mem =>
      refine hsame ?_
      simp only [VfsOp.run, FileOp.run]
      split <;> exact vaddrMap_xmpOpen path mem
    | release handle mem => exact hsame vaddrMap_xmpRelease

/-- The chain at the end of a run is part of the chain at its start. -/
theorem slotChain_after {slots : Nat} {free : List Nat} (ops : List VfsOp)
    (h : SlotChain w.state.vaddrMap slots free)
    (he : EveryStep VfsOp.run (EnoughSlots slots) w ops) :
    ∃ free', SlotChain (after VfsOp.run w ops).state.vaddrMap slots free' ∧
      ∀ p ∈ free', p ∈ free := by
  induction ops generalizing w free with
  | nil => exact ⟨free, h, fun _ hp => hp⟩
  | cons op ops ih =>
    obtain ⟨free₁, h₁, hsub₁⟩ := slotChain_run op h he.1
    obtain ⟨free₂, h₂, hsub₂⟩ := ih h₁ he.2
    exact ⟨free₂, h₂, fun p hp => hsub₁ p (hsub₂ p hp)⟩

/-- In no run is a file ever removed: not one that has had a handle, whatever the
    run does, and not one that was on the device before, as long as creates find
    free slots. -/
theorem never_removed (hw : w.handles = []) (ops : List VfsOp) (path : String) (f : FileIds)
    (blocks : List Nat) :
    (∀ pre post, ops = pre ++ post →
      (∃ h ∈ (after VfsOp.run w pre).handles, h.file = f.fileID) →
      ¬ Removed (after VfsOp.run w ops).state path f blocks) ∧
    ∀ slots free, SlotChain w.state.vaddrMap slots free → f.fileID.toNat ∉ free →
      EveryStep VfsOp.run (EnoughSlots slots) w ops →
      ¬ Removed (after VfsOp.run w ops).state path f blocks := by
  constructor
  · rintro pre post rfl ⟨h, hh, hfile⟩ hr
    rw [after_append] at hr
    have hentry := entries_after pre (by rw [hw]; intro h hh; cases hh) h hh
    exact entry_after post hentry (hfile ▸ hr.entry)
  · intro slots free hchain hoff he hr
    obtain ⟨free', hchain', hsub⟩ := slotChain_after ops hchain he
    obtain ⟨free'', hc, hid, -⟩ := hr.ids
    -- a removed file's slot would be on the chain, which only ever gets shorter
    obtain rfl := Chain.unique hc hchain'.chain
    exact hoff (hsub _ hid)

end

/-- A file created, unlinked while it is open, and its handle released. -/
def unlinkThenClose (path : String) (mode : UInt32) (mem : CreateMem) (page : FullPage)
    (handle : Handle) : List VfsOp :=
  [.file (.create path mode mem 0), .unlink path 1 0 0, .file (.release handle page)]

/-- In a session without files: no handle is left at the end, and the table still
    has an entry for the file. -/
theorem entry_unlinkThenClose {w : Session} {ids : Int × Int} (hh : w.handles = [])
    (hf : w.files = []) (hids : nextIds w.state.vaddrMap = ids) (path : String) (mode : UInt32)
    (mem : CreateMem) (page : FullPage) :
    (∃ h ∈ (after VfsOp.run w [.file (.create path mode mem 0)]).handles, h.file = ids.1) ∧
    (after VfsOp.run w (unlinkThenClose path mode mem page ⟨ids.1, w.state.brk + 2⟩)).handles =
      [] ∧
    (after VfsOp.run w
      (unlinkThenClose path mode mem page ⟨ids.1, w.state.brk + 2⟩)).state.openFileTable ids.1 ≠
      0 := by
  obtain ⟨s', hrun, htab, -⟩ := run_create_first hh hf hids path mode mem
  have hone : after VfsOp.run w [.file (.create path mode mem 0)] =
      ⟨s', [⟨ids.1, w.state.brk + 2⟩], [⟨ids.1, ids.2⟩]⟩ := hrun
  have hall : after VfsOp.run w
      (unlinkThenClose path mode mem page ⟨ids.1, w.state.brk + 2⟩) =
      after VfsOp.run ⟨s', [⟨ids.1, w.state.brk + 2⟩], [⟨ids.1, ids.2⟩]⟩
        [.unlink path 1 0 0, .file (.release ⟨ids.1, w.state.brk + 2⟩ page)] := by
    rw [← hone]
    rfl
  rw [hone, hall]
  refine ⟨⟨_, List.mem_cons_self, rfl⟩, ?_, ?_⟩
  · simp [after, VfsOp.run, FileOp.run]
  · refine entry_after _ ?_
    show s'.openFileTable ids.1 ≠ 0
    rw [htab]
    exact Nat.succ_ne_zero _

/-- The first file of a new file system of five blocks. -/
theorem first_file_not_removed :
    ¬ Removed (after VfsOp.run ⟨newFileSystem 5, [], []⟩ (unlinkThenClose "/a" 33188 default default
      ⟨((1 : Nat) : Int), (newFileSystem 5).brk + 2⟩)).state "/a" ⟨(1 : Nat), (2 : Nat)⟩ [2] := by
  obtain ⟨hhandle, -⟩ := entry_unlinkThenClose (w := ⟨newFileSystem 5, [], []⟩) rfl rfl
    nextIds_newFileSystem "/a" 33188 default default
  exact (never_removed rfl _ "/a" ⟨(1 : Nat), (2 : Nat)⟩ [2]).1
    [.file (.create "/a" 33188 default 0)] _ rfl hhandle

/-- Its last link is unlinked and its last handle released, and it is not
    removed. -/
theorem entry_left_behind :
    (after VfsOp.run ⟨newFileSystem 5, [], []⟩ (unlinkThenClose "/a" 33188 default default
      ⟨((1 : Nat) : Int), (newFileSystem 5).brk + 2⟩)).handles = [] ∧
    ¬ Removed (after VfsOp.run ⟨newFileSystem 5, [], []⟩ (unlinkThenClose "/a" 33188 default default
      ⟨((1 : Nat) : Int), (newFileSystem 5).brk + 2⟩)).state "/a" ⟨(1 : Nat), (2 : Nat)⟩ [2] := by
  obtain ⟨-, hclosed, hentry⟩ := entry_unlinkThenClose (w := ⟨newFileSystem 5, [], []⟩) rfl rfl
    nextIds_newFileSystem "/a" 33188 default default
  refine ⟨hclosed, fun hr => ?_⟩
  have hgone := hr.entry
  dsimp only at hgone hentry
  exact hentry hgone

end Cycology
