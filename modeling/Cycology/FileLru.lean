import Cycology.Filesystem
import Cycology.Lib.Dll

/- The order in which files are evicted.

   A run touches files (`fs_updateFileInLru`) and evicts the one at the tail
   (`fs_evictLruFile`). What the list should hold is plain: a touched file goes
   to the front, an eviction takes the last one off (`LruOp.apply`).

   The list holds just that after every step exactly if no file is touched that
   is third or further down at that moment (`files_listed_iff`): for such a
   file `updateLruFileHead` gives the link back to the file before it instead of
   the old head.

   An eviction frees the file, so no run touches a file it has evicted. -/
namespace Cycology.PageCache
open LinkedChain DoublyLinked Runs.Fallible

/-- The walk from the head and the walk from the tail list the files of `l` in
    opposite orders. -/
structure FilesListed (s : Mem) (l : List Ptr) : Prop where
  forward : Walk (fun p => (s.files p).lruFileNext) 0 s.lruFileHead l
  backward : Walk (fun p => (s.files p).lruFilePrev) 0 s.lruFileTail l.reverse

/-! ## Runs -/

inductive LruOp where
  | touch (file : Ptr)
  | evict
  deriving DecidableEq, Repr

/-- What an operation does to the list of files, most recently touched first. -/
def LruOp.apply (l : List Ptr) : LruOp → List Ptr
  | .touch file => file :: l.erase file
  | .evict => l.dropLast

def LruOp.exec (s : Mem) (fuel : Nat) : LruOp → Except Fault Mem
  | .touch file => fsUpdateFileInLru s file fuel
  | .evict => fsEvictLruFile s fuel

def execAll (s : Mem) (fuel : Nat) : List LruOp → Except Fault Mem
  | [] => .ok s
  | op :: ops => do
    let s ← op.exec s fuel
    execAll s fuel ops

/-- The file an operation frees. -/
def LruOp.frees (l : List Ptr) : LruOp → List Ptr
  | .touch _ => []
  | .evict => l.getLast?.toList

/-- Only files are touched, none of them once an eviction has freed it, and evictions
    happen only while some file is listed. -/
def Allowed : List Ptr → List Ptr → List LruOp → Prop
  | _, _, [] => True
  | l, freed, .touch file :: ops =>
    (file ≠ 0 ∧ file ∉ freed) ∧ Allowed (LruOp.apply l (.touch file)) freed ops
  | l, freed, .evict :: ops =>
    l ≠ [] ∧ Allowed (LruOp.apply l .evict) (LruOp.frees l .evict ++ freed) ops

/-- After every step of the run the list holds the files it should. -/
def ListedThroughout (fuel : Nat) : Mem → List Ptr → List LruOp → Prop
  | _, _, [] => True
  | s, l, op :: ops => ∀ s', op.exec s fuel = .ok s' →
    FilesListed s' (op.apply l) ∧ ListedThroughout fuel s' (op.apply l) ops

/-- No file is touched that is third or further down. -/
def ShallowTouches : List Ptr → List LruOp → Prop
  | _, [] => True
  | l, .touch file :: ops => file ∉ l.drop 2 ∧ ShallowTouches (LruOp.apply l (.touch file)) ops
  | l, .evict :: ops => ShallowTouches (LruOp.apply l .evict) ops

/-! ## Flushing leaves the list alone -/

/-- The list of files is the same. -/
structure SameFileLru (s s' : Mem) : Prop where
  head : s'.lruFileHead = s.lruFileHead
  tail : s'.lruFileTail = s.lruFileTail
  next : ∀ p, (s'.files p).lruFileNext = (s.files p).lruFileNext
  prev : ∀ p, (s'.files p).lruFilePrev = (s.files p).lruFilePrev

namespace SameFileLru
variable {s s' s'' : Mem}

theorem refl (s : Mem) : SameFileLru s s := ⟨rfl, rfl, fun _ => rfl, fun _ => rfl⟩

theorem trans (h : SameFileLru s s') (h' : SameFileLru s' s'') : SameFileLru s s'' where
  head := h'.head.trans h.head
  tail := h'.tail.trans h.tail
  next p := (h'.next p).trans (h.next p)
  prev p := (h'.prev p).trans (h.prev p)

theorem setEntry (s : Mem) (p : Ptr) (f : CacheEntry → CacheEntry) :
    SameFileLru s (s.setEntry p f) := ⟨rfl, rfl, fun _ => rfl, fun _ => rfl⟩

theorem setCache (s : Mem) (f : AddressCache → AddressCache) : SameFileLru s (s.setCache f) :=
  ⟨rfl, rfl, fun _ => rfl, fun _ => rfl⟩

theorem setFile (s : Mem) (p : Ptr) {f : OpenFile → OpenFile}
    (hn : ∀ e, (f e).lruFileNext = e.lruFileNext) (hp : ∀ e, (f e).lruFilePrev = e.lruFilePrev) :
    SameFileLru s (s.setFile p f) :=
  ⟨rfl, rfl, Mem.field_setFile s p f _ hn, Mem.field_setFile s p f _ hp⟩

end SameFileLru

section
variable {s s' : Mem} {file entry : Ptr}

theorem sameFileLru_cacheRemove (h : cacheRemove s entry = .ok s') : SameFileLru s s' := by
  unfold cacheRemove at h
  simp only [bind_eq_ok, Mem.access_eq_ok] at h
  obtain ⟨s₁, ⟨-, rfl⟩, s₂, ⟨-, rfl⟩, s₃, hmid, hend⟩ := h
  have hmid' : SameFileLru s₂ s₃ := by
    split at hmid
    · cases hmid
      exact SameFileLru.setCache _ _
    · split at hmid
      · cases hmid
      · cases hmid
        exact SameFileLru.refl _
  cases hend
  exact hmid'.trans (SameFileLru.setCache _ _)

theorem sameFileLru_removePage {l : PageList}
    (hhead : ∀ p f, (l.setHead p f).lruFileNext = f.lruFileNext ∧
      (l.setHead p f).lruFilePrev = f.lruFilePrev)
    (htail : ∀ p f, (l.setTail p f).lruFileNext = f.lruFileNext ∧
      (l.setTail p f).lruFilePrev = f.lruFilePrev)
    (h : removePage l s file entry = .ok s') : SameFileLru s s' := by
  unfold removePage at h
  simp only [bind_eq_ok, Mem.access_eq_ok] at h
  obtain ⟨s₁, ⟨-, rfl⟩, s₂, hmid, hend⟩ := h
  have hmid' : SameFileLru s₁ s₂ := by
    split at hmid
    · cases hmid
      exact SameFileLru.setFile _ _ (fun f => (hhead _ f).1) fun f => (hhead _ f).2
    · simp only [bind_eq_ok, Mem.access_eq_ok] at hmid
      obtain ⟨s₃, ⟨-, rfl⟩, hset⟩ := hmid
      cases hset
      exact SameFileLru.setEntry _ _ _
  refine hmid'.trans ?_
  split at hend
  · cases hend
    exact SameFileLru.setFile _ _ (fun f => (htail _ f).1) fun f => (htail _ f).2
  · simp only [bind_eq_ok, Mem.access_eq_ok] at hend
    obtain ⟨s₃, ⟨-, rfl⟩, hset⟩ := hend
    cases hset
    exact SameFileLru.setEntry _ _ _

theorem sameFileLru_removeDataPage (h : openFileRemoveDataPage s file entry = .ok s') :
    SameFileLru s s' :=
  sameFileLru_removePage (fun _ _ => ⟨rfl, rfl⟩) (fun _ _ => ⟨rfl, rfl⟩) h

theorem sameFileLru_removeMetadataPage (h : openFileRemoveMetadataPage s file entry = .ok s') :
    SameFileLru s s' :=
  sameFileLru_removePage (fun _ _ => ⟨rfl, rfl⟩) (fun _ _ => ⟨rfl, rfl⟩) h

theorem sameFileLru_flushDataFrom {fuel : Nat} {current : Ptr}
    (h : flushDataFrom s file fuel current = .ok s') : SameFileLru s s' := by
  induction fuel generalizing s current with
  | zero => cases h
  | succ fuel ih =>
    rw [flushDataFrom] at h
    split at h
    · cases h
      exact SameFileLru.refl _
    · simp only [bind_eq_ok] at h
      obtain ⟨s₁, h₁, s₂, h₂, h₃⟩ := h
      exact ((sameFileLru_removeDataPage h₁).trans (sameFileLru_cacheRemove h₂)).trans (ih h₃)

theorem sameFileLru_allocateFreePage {freePage log : Ptr}
    (h : allocateFreePage s freePage log = .ok s') : SameFileLru s s' := by
  unfold allocateFreePage at h
  simp only [bind_eq_ok, Mem.access_eq_ok] at h
  obtain ⟨s₁, ⟨-, rfl⟩, s₂, ⟨-, rfl⟩, hend⟩ := h
  cases hend
  exact ⟨rfl, rfl, fun _ => rfl, fun _ => rfl⟩

theorem sameFileLru_flushMetadataEntry (h : flushMetadataEntry s file entry = .ok s') :
    SameFileLru s s' := by
  unfold flushMetadataEntry at h
  simp only [bind_eq_ok] at h
  obtain ⟨s₁, h₁, s₂, h₂, h₃⟩ := h
  have hmid : SameFileLru s s₁ := by
    split at h₁
    · exact sameFileLru_allocateFreePage h₁
    · cases h₁
      exact SameFileLru.refl _
  exact (hmid.trans (sameFileLru_removeMetadataPage h₂)).trans (sameFileLru_cacheRemove h₃)

theorem sameFileLru_flushMetadataLevel {level : Int} {fuel : Nat} {current : Ptr}
    (h : flushMetadataLevel s file level fuel current = .ok s') : SameFileLru s s' := by
  induction fuel generalizing s current with
  | zero => cases h
  | succ fuel ih =>
    rw [flushMetadataLevel] at h
    split at h
    · cases h
      exact SameFileLru.refl _
    · simp only [bind_eq_ok] at h
      obtain ⟨s₁, h₁, h₂⟩ := h
      have hmid : SameFileLru s s₁ := by
        split at h₁
        · exact sameFileLru_flushMetadataEntry h₁
        · cases h₁
          exact SameFileLru.refl _
      exact hmid.trans (ih h₂)

theorem sameFileLru_flushMetadataLevels {fuel : Nat} {level : Int} {steps : Nat}
    (h : flushMetadataLevels s file fuel level steps = .ok s') : SameFileLru s s' := by
  induction steps generalizing s level with
  | zero =>
    cases h
    exact SameFileLru.refl _
  | succ steps ih =>
    simp only [flushMetadataLevels, bind_eq_ok] at h
    obtain ⟨s₁, h₁, h₂⟩ := h
    exact (sameFileLru_flushMetadataLevel h₁).trans (ih h₂)

/-- An eviction is the removal of the file at the tail, once its pages are out. -/
theorem evict_cases {fuel : Nat} (h : fsEvictLruFile s fuel = .ok s') :
    ∃ s₁, SameFileLru s s₁ ∧ fsRemoveFileFromLru s₁ s.lruFileTail = .ok s' := by
  simp only [fsEvictLruFile, fsFlushDataPages, fsFlushMetadataPages, bind_eq_ok,
    Mem.access_eq_ok] at h
  obtain ⟨s₁, ⟨s₀, ⟨-, rfl⟩, h₁⟩, s₂, ⟨s₃, ⟨-, rfl⟩, h₂⟩, h₃⟩ := h
  exact ⟨s₂, (sameFileLru_flushDataFrom h₁).trans (sameFileLru_flushMetadataLevels h₂), h₃⟩

end

/-! ## The links after an operation -/

section
variable (s : Mem) (p v q : Ptr)

@[simp] theorem lruFileNext_setNext :
    ((s.setFile p fun f => { f with lruFileNext := v }).files q).lruFileNext =
      if q = p then v else (s.files q).lruFileNext := by
  by_cases hq : q = p
  · rw [if_pos hq, hq, Mem.files_setFile_same]
  · rw [if_neg hq, Mem.files_setFile_other _ _ _ hq]

@[simp] theorem lruFilePrev_setPrev :
    ((s.setFile p fun f => { f with lruFilePrev := v }).files q).lruFilePrev =
      if q = p then v else (s.files q).lruFilePrev := by
  by_cases hq : q = p
  · rw [if_pos hq, hq, Mem.files_setFile_same]
  · rw [if_neg hq, Mem.files_setFile_other _ _ _ hq]

@[simp] theorem lruFilePrev_setNext :
    ((s.setFile p fun f => { f with lruFileNext := v }).files q).lruFilePrev =
      (s.files q).lruFilePrev :=
  Mem.field_setFile s p (fun f => { f with lruFileNext := v }) (·.lruFilePrev) (fun _ => rfl) q

@[simp] theorem lruFileNext_setPrev :
    ((s.setFile p fun f => { f with lruFilePrev := v }).files q).lruFileNext =
      (s.files q).lruFileNext :=
  Mem.field_setFile s p (fun f => { f with lruFilePrev := v }) (·.lruFileNext) (fun _ => rfl) q

end

section
variable {s : Mem} {file : Ptr}

theorem updateLruFileHead_spec (hp : (s.files file).lruFilePrev ≠ 0) :
    (updateLruFileHead s file).lruFileHead = file ∧
    (updateLruFileHead s file).lruFileTail =
      (if (s.files file).lruFileNext = 0 then (s.files file).lruFilePrev else s.lruFileTail) ∧
    (∀ x, ((updateLruFileHead s file).files x).lruFileNext =
      if x = file then s.lruFileHead
      else if x = (s.files file).lruFilePrev then (s.files file).lruFileNext
      else (s.files x).lruFileNext) ∧
    ∀ x, ((updateLruFileHead s file).files x).lruFilePrev =
      if x = file then 0
      else if (s.files file).lruFileNext ≠ 0 ∧ x = (s.files file).lruFileNext then
        (s.files file).lruFilePrev
      else if x = (s.files file).lruFilePrev then file
      else (s.files x).lruFilePrev := by
  by_cases hn : (s.files file).lruFileNext = 0 <;> simp [updateLruFileHead, hp, hn]

theorem addFileToLru_spec (s : Mem) (file : Ptr) :
    (addFileToLru s file).lruFileHead = file ∧
    (addFileToLru s file).lruFileTail = (if s.lruFileHead = 0 then file else s.lruFileTail) ∧
    (∀ x, ((addFileToLru s file).files x).lruFileNext =
      if x = file then s.lruFileHead else (s.files x).lruFileNext) ∧
    ∀ x, x ≠ s.lruFileHead → ((addFileToLru s file).files x).lruFilePrev =
      if x = file then 0 else (s.files x).lruFilePrev := by
  by_cases hh : s.lruFileHead = 0
  · simp [addFileToLru, hh]
  · simp +contextual [addFileToLru, hh]

theorem prev_head_addFileToLru (hh : s.lruFileHead ≠ 0) :
    ((addFileToLru s file).files s.lruFileHead).lruFilePrev = file := by
  simp [addFileToLru, hh]

end

/-! ## One step -/

/-- The list of files, linked both ways. -/
def FilesLinked (s : Mem) (l : List Ptr) : Prop :=
  Dll (fun p => (s.files p).lruFileNext) (fun p => (s.files p).lruFilePrev) 0
    s.lruFileHead s.lruFileTail l

theorem filesListed_iff {s : Mem} {l : List Ptr} : FilesListed s l ↔ FilesLinked s l := by
  unfold FilesLinked
  rw [dll_iff_walks]
  exact ⟨fun h => ⟨h.forward, h.backward⟩, fun h => ⟨h.1, h.2⟩⟩

section
variable {s s' : Mem} {l : List Ptr} {file : Ptr} {fuel : Nat}

/-- The search finds the files of the list. -/
theorem lruContains_eq {b : Bool} {cur : Ptr}
    (h : Walk (fun p => (s.files p).lruFileNext) 0 cur l)
    (hb : lruContains s file fuel cur = .ok b) : b = decide (file ∈ l) := by
  induction fuel generalizing cur l with
  | zero => cases hb
  | succ fuel ih =>
    rw [lruContains] at hb
    cases l with
    | nil =>
      rw [if_pos (Walk.nil_iff.mp h)] at hb
      cases hb
      simp
    | cons a l =>
      obtain ⟨rfl, ha, ht⟩ := Walk.cons_iff.mp h
      rw [if_neg ha] at hb
      by_cases hf : cur = file
      · rw [if_pos hf] at hb
        cases hb
        simp [hf]
      · rw [if_neg hf] at hb
        rw [ih ht hb]
        simp [Ne.symm hf]

theorem lruContains_ok {cur : Ptr} (h : Walk (fun p => (s.files p).lruFileNext) 0 cur l)
    (hf : l.length < fuel) : ∃ b, lruContains s file fuel cur = .ok b := by
  induction l generalizing cur fuel with
  | nil =>
    obtain ⟨fuel, rfl⟩ := Nat.exists_eq_succ_of_ne_zero (Nat.ne_of_gt hf)
    exact ⟨false, by rw [lruContains, if_pos (Walk.nil_iff.mp h)]⟩
  | cons a l ih =>
    obtain ⟨fuel, rfl⟩ := Nat.exists_eq_succ_of_ne_zero (Nat.ne_of_gt (Nat.zero_lt_of_lt hf))
    obtain ⟨rfl, ha, ht⟩ := Walk.cons_iff.mp h
    rw [lruContains, if_neg ha]
    by_cases hc : cur = file
    · exact ⟨true, if_pos hc⟩
    · rw [if_neg hc]
      exact ih ht (by simpa using hf)

theorem filesLinked_addFileToLru (h : FilesLinked s l) (hf : file ≠ 0) (hnew : file ∉ l) :
    FilesLinked (addFileToLru s file) (file :: l) := by
  obtain ⟨hhead, htail, hnext, hprev⟩ := addFileToLru_spec s file
  have hmem : ∀ x ∈ l, x ≠ file := fun x hx hxf => hnew (hxf ▸ hx)
  unfold FilesLinked
  rw [hhead]
  refine Dll.push_front h hf ?_ ?_ (fun x hx => ?_) (fun x hx hxh => ?_)
    (fun hh => prev_head_addFileToLru hh) ?_
  · simp only [hnext, if_true]
  · by_cases hfh : file = s.lruFileHead
    · cases l with
      | nil => exact absurd (hfh.trans h.1) hf
      | cons a l => exact absurd (hfh.trans h.1) (hmem a (by simp)).symm
    · simp only [hprev file hfh, if_true]
  · simp only [hnext, if_neg (hmem x hx)]
  · simp only [hprev x hxh, if_neg (hmem x hx)]
  · rw [htail]
    simp only [h.eq_nil_iff]

/-- A touch of the second file brings it to the front. -/
theorem filesLinked_second {a : Ptr} (h : FilesLinked s (a :: file :: l)) :
    FilesLinked (updateLruFileHead s file) (file :: a :: l) := by
  have hprev : (s.files file).lruFilePrev = a := h.prev_second
  have ha : a ≠ 0 := h.ne_null (by simp)
  have hnd := h.nodup
  simp only [List.nodup_cons, List.mem_cons, not_or] at hnd
  obtain ⟨⟨haf, hal⟩, hfl, -⟩ := hnd
  obtain ⟨hhead', htail', hnext', hprev'⟩ := updateLruFileHead_spec (hprev ▸ ha)
  rw [hprev] at htail' hnext' hprev'
  have hhead : s.lruFileHead = a := h.head_eq
  have hfile : file ∉ a :: l := by simp [Ne.symm haf, hfl]
  have hseg := Dll.at_iff.mp (show FilesLinked s ([a] ++ file :: l) from h)
  have hna : a ≠ (s.files file).lruFileNext := by
    intro hc
    cases l with
    | nil => exact ha (hc.trans hseg.2.2.1)
    | cons c l =>
      refine hal ?_
      rw [hc]
      simp [show (s.files file).lruFileNext = c from hseg.2.2.1]
  unfold FilesLinked
  rw [hhead']
  have hlist : [a] ++ file :: l = a :: file :: l := rfl
  refine Dll.move_to_front (hlist ▸ h) (List.cons_ne_nil a [])  (fun x hx hne => ?_) ?_
    (fun x hx hne hxh => ?_) (fun hne => ?_) ?_ ?_ ?_ ?_
  · have hxf : x ≠ file := fun hc => hfile (hc ▸ hx)
    simp only [hnext', if_neg hxf, if_neg (hprev ▸ hne : x ≠ a)]
  · simp only [hprev, hnext', if_neg haf, if_true]
  · have hxf : x ≠ file := fun hc => hfile (hc ▸ hx)
    simp only [hprev', if_neg hxf, if_neg (fun hc : _ ∧ _ => hne hc.2),
      if_neg (hhead ▸ hxh : x ≠ a)]
  · have hnf : (s.files file).lruFileNext ≠ file := by
      intro hc
      cases l with
      | nil => exact hne hseg.2.2.1
      | cons c l =>
        have hcf : (s.files file).lruFileNext = c := hseg.2.2.1
        exact hfl (by rw [← hcf, hc]; exact List.mem_cons_self)
    simp only [hprev', if_neg hnf, hprev, if_pos (⟨hne, trivial⟩ : _ ∧ True)]
  · simp only [hnext', if_true]
  · simp only [hprev', if_true]
  · simp only [hhead, hprev', if_neg haf, if_neg (fun hc : _ ∧ _ => hna hc.2), if_true]
  · rw [htail', hprev]
    congr 1
    cases l with
    | nil => simp [show (s.files file).lruFileNext = 0 from hseg.2.2.1]
    | cons c l =>
      have hc : (s.files file).lruFileNext = c := hseg.2.2.1
      have hc0 : c ≠ 0 := h.ne_null (by simp)
      simp [hc, hc0]

/-- Further down, the old head gets no link back. -/
theorem not_filesLinked_deep {a b : Ptr} {l' : List Ptr} (h : FilesLinked s (a :: b :: l))
    (hf : file ∈ l) : ¬ FilesLinked (updateLruFileHead s file) (file :: a :: l') := by
  obtain ⟨l₁, l₂, rfl⟩ := List.append_of_mem hf
  have hnd := h.nodup
  have ha : a ≠ 0 := h.ne_null (by simp)
  obtain ⟨hf0, h₁, h₂⟩ :=
    Dll.at_iff.mp (show FilesLinked s ((a :: b :: l₁) ++ file :: l₂) from h)
  -- the file's neighbours are not the head
  have hprevmem : (s.files file).lruFilePrev ∈ b :: l₁ := by
    have hs := h₁.2.2.2
    exact hs.last_mem (by simp)
  have hp0 : (s.files file).lruFilePrev ≠ 0 := h.ne_null (by
    have := hprevmem
    simp only [List.mem_cons, List.mem_append] at this ⊢
    tauto)
  have hpa : a ≠ (s.files file).lruFilePrev := by
    intro hc
    rw [← hc] at hprevmem
    exact (List.nodup_cons.mp hnd).1 (by
      simp only [List.mem_cons, List.mem_append] at hprevmem ⊢
      tauto)
  have hna : ¬ ((s.files file).lruFileNext ≠ 0 ∧ a = (s.files file).lruFileNext) := by
    rintro ⟨hn0, hc⟩
    have hl₂ : l₂ ≠ [] := by
      rintro rfl
      exact hn0 h₂.1
    have hmem : (s.files file).lruFileNext ∈ l₂ := h₂.first_mem hl₂
    rw [← hc] at hmem
    exact (List.nodup_cons.mp hnd).1 (by simp [hmem])
  have haf : a ≠ file := by
    rintro rfl
    exact (List.nodup_cons.mp hnd).1 (by simp)
  obtain ⟨-, -, -, hprev'⟩ := updateLruFileHead_spec hp0
  intro hl
  have hback := hl.prev_second
  have hold : (s.files a).lruFilePrev = 0 := h.prev_head
  simp only [hprev', if_neg haf, if_neg hna, if_neg hpa, hold] at hback
  exact hf0 hback.symm

theorem filesLinked_evict {a : Ptr} (h : FilesLinked s (l ++ [a]))
    (he : fsEvictLruFile s fuel = .ok s') : FilesLinked s' l := by
  obtain ⟨s₁, hsame, hrem⟩ := evict_cases he
  have h₁ : FilesLinked s₁ (l ++ [a]) := by
    unfold FilesLinked
    rw [hsame.head, hsame.tail]
    exact h.congr (fun p _ => hsame.next p) fun p _ => hsame.prev p
  have htail : s.lruFileTail = a := (Seg.concat_iff.mp h).1
  have htail₁ : s₁.lruFileTail = a := (Seg.concat_iff.mp h₁).1
  have hnext : (s₁.files a).lruFileNext = 0 := (Seg.concat_iff.mp h₁).2.2.1
  rw [htail] at hrem
  simp only [fsRemoveFileFromLru, hnext, bind_eq_ok] at hrem
  obtain ⟨s₂, hmid, hend⟩ := hrem
  by_cases hah : a = s₁.lruFileHead
  · -- the only file
    rw [if_pos hah] at hmid
    cases hmid
    rw [if_pos htail₁.symm] at hend
    cases hend
    have hl : l = [] := by
      cases l with
      | nil => rfl
      | cons b l =>
        have hba : b = a := (hah.trans h₁.head_eq).symm
        have hnd := h₁.nodup
        rw [hba] at hnd
        exact absurd (List.mem_append_right l (List.mem_singleton.mpr rfl))
          (List.nodup_cons.mp hnd).1
    subst hl
    exact ⟨rfl, h₁.prev_head⟩
  · rw [if_neg hah] at hmid
    simp only [bind_eq_ok, Mem.access_eq_ok] at hmid
    obtain ⟨s₃, ⟨hp0, rfl⟩, hset⟩ := hmid
    cases hset
    rw [Mem.lruFileTail_setFile, if_pos htail₁.symm] at hend
    cases hend
    have hl : l ≠ [] := by
      rintro rfl
      exact hah h₁.head_eq.symm
    have hremoved : Dll
        (fun p => if p = (s₃.files a).lruFilePrev then 0 else (s₃.files p).lruFileNext)
        (fun p => (s₃.files p).lruFilePrev) 0 s₃.lruFileHead (s₃.files a).lruFilePrev (l ++ []) :=
      Dll.remove h₁ (fun x _ hx => if_neg hx) (fun _ => by rw [if_pos rfl]; exact hnext.symm)
        (fun _ _ _ => rfl) (fun hc => absurd hnext hc) (by rw [if_neg hl]) (by rw [if_pos rfl])
    rw [List.append_nil] at hremoved
    unfold FilesLinked
    simp only [lruFileNext_setNext, lruFilePrev_setNext, Mem.lruFileHead_setFile]
    exact hremoved

theorem filesLinked_touch_iff (h : FilesLinked s l) (hf : file ≠ 0)
    (ht : fsUpdateFileInLru s file fuel = .ok s') :
    FilesLinked s' (file :: l.erase file) ↔ file ∉ l.drop 2 := by
  simp only [fsUpdateFileInLru, bind_eq_ok] at ht
  obtain ⟨b, hb, ht⟩ := ht
  rw [lruContains_eq (dll_iff_walks.mp h).1 hb] at ht
  by_cases hmem : file ∈ l
  · simp only [hmem, decide_true, if_true] at ht
    cases ht
    cases l with
    | nil => cases hmem
    | cons a l =>
      by_cases hfa : file = a
      · -- already in front: nothing changes
        subst hfa
        have hprev : (s.files file).lruFilePrev = 0 := h.prev_head
        have hnd := List.nodup_cons.mp h.nodup
        rw [List.erase_cons_head, updateLruFileHead, if_pos hprev]
        simp only [List.drop_succ_cons, h, true_iff]
        exact fun hm => hnd.1 (List.mem_of_mem_drop hm)
      · rw [List.erase_cons_tail (by simpa using Ne.symm hfa)]
        cases l with
        | nil => simp [hfa] at hmem
        | cons b l =>
          by_cases hfb : file = b
          · subst hfb
            have hnd := List.nodup_cons.mp (List.nodup_cons.mp h.nodup).2
            rw [List.erase_cons_head]
            simp only [filesLinked_second h, List.drop_succ_cons, List.drop_zero, true_iff]
            exact hnd.1
          · have hdeep : file ∈ l := by simpa [hfa, hfb] using hmem
            simp only [not_filesLinked_deep h hdeep, List.drop_succ_cons, List.drop_zero, hdeep,
              not_true_eq_false]
  · simp only [hmem, decide_false, Bool.false_eq_true, if_false] at ht
    cases ht
    rw [List.erase_of_not_mem hmem]
    simp only [filesLinked_addFileToLru h hf hmem, true_iff]
    exact fun hm => hmem (List.mem_of_mem_drop hm)

theorem listedThroughout_of_linked (ops : List LruOp) : ∀ {s s' : Mem} {l freed : List Ptr},
    FilesLinked s l → Allowed l freed ops → execAll s fuel ops = .ok s' →
    (ListedThroughout fuel s l ops ↔ ShallowTouches l ops) := by
  induction ops with
  | nil => intros; simp [ListedThroughout, ShallowTouches]
  | cons op ops ih =>
    intro s s' l freed h hall hrun
    simp only [execAll, bind_eq_ok] at hrun
    obtain ⟨s₁, hop, hrun⟩ := hrun
    have hone : ListedThroughout fuel s l (op :: ops) ↔
        FilesListed s₁ (op.apply l) ∧ ListedThroughout fuel s₁ (op.apply l) ops := by
      constructor
      · exact fun hl => hl s₁ hop
      · intro hl s₂ hop₂
        obtain rfl := Except.ok.inj (hop.symm.trans hop₂)
        exact hl
    rw [hone, filesListed_iff]
    cases op with
    | touch file =>
      obtain ⟨⟨hf, -⟩, hall⟩ := hall
      have htouch := filesLinked_touch_iff h hf hop
      constructor
      · rintro ⟨hl, hrest⟩
        exact ⟨htouch.mp hl, (ih hl hall hrun).mp hrest⟩
      · rintro ⟨hshallow, hrest⟩
        have hl := htouch.mpr hshallow
        exact ⟨hl, (ih hl hall hrun).mpr hrest⟩
    | evict =>
      obtain ⟨hne, hall⟩ := hall
      obtain ⟨l, a, rfl⟩ := (List.eq_nil_or_concat' l).resolve_left hne
      have hl : FilesLinked s₁ (LruOp.apply (l ++ [a]) .evict) := by
        rw [LruOp.apply, List.dropLast_concat]
        exact filesLinked_evict h hop
      simp only [hl, true_and]
      exact ih hl hall hrun

end

/-! ## Runs return -/

/-- No file has pages in the cache. -/
def NoPages (s : Mem) : Prop := ∀ p, (s.files p).dataHead = 0 ∧ (s.files p).metadataHead = 0

section
variable {s : Mem} {l : List Ptr} {fuel : Nat}

theorem heads_setNext (p v q : Ptr) :
    ((s.setFile p fun f => { f with lruFileNext := v }).files q).dataHead = (s.files q).dataHead ∧
    ((s.setFile p fun f => { f with lruFileNext := v }).files q).metadataHead =
      (s.files q).metadataHead :=
  ⟨Mem.field_setFile s p (fun f => { f with lruFileNext := v }) (·.dataHead) (fun _ => rfl) q,
    Mem.field_setFile s p (fun f => { f with lruFileNext := v }) (·.metadataHead) (fun _ => rfl) q⟩

theorem heads_setPrev (p v q : Ptr) :
    ((s.setFile p fun f => { f with lruFilePrev := v }).files q).dataHead = (s.files q).dataHead ∧
    ((s.setFile p fun f => { f with lruFilePrev := v }).files q).metadataHead =
      (s.files q).metadataHead :=
  ⟨Mem.field_setFile s p (fun f => { f with lruFilePrev := v }) (·.dataHead) (fun _ => rfl) q,
    Mem.field_setFile s p (fun f => { f with lruFilePrev := v }) (·.metadataHead) (fun _ => rfl) q⟩

theorem noPages_touch {file : Ptr} (h : NoPages s) :
    NoPages (updateLruFileHead s file) ∧ NoPages (addFileToLru s file) := by
  constructor
  · intro q
    by_cases hp : (s.files file).lruFilePrev = 0
    · rw [updateLruFileHead, if_pos hp]
      exact h q
    · by_cases hn : (s.files file).lruFileNext = 0
      · simpa [updateLruFileHead, hp, hn, heads_setNext, heads_setPrev] using h q
      · simpa [updateLruFileHead, hp, hn, heads_setNext, heads_setPrev] using h q
  · intro q
    by_cases hh : s.lruFileHead = 0
    · simpa [addFileToLru, hh, heads_setNext, heads_setPrev] using h q
    · simpa [addFileToLru, hh, heads_setNext, heads_setPrev] using h q

theorem flushMetadataLevels_nil {file : Ptr} (hf : 0 < fuel) (h : (s.files file).metadataHead = 0)
    (steps : Nat) (level : Int) : flushMetadataLevels s file fuel level steps = .ok s := by
  obtain ⟨fuel, rfl⟩ := Nat.exists_eq_succ_of_ne_zero (Nat.ne_of_gt hf)
  induction steps generalizing level with
  | zero => rfl
  | succ steps ih =>
    simp only [flushMetadataLevels, h, flushMetadataLevel, if_true, ok_bind]
    exact ih _

theorem evict_ok (h : FilesLinked s l) (hne : l ≠ []) (hp : NoPages s) (hf : 0 < fuel) :
    ∃ s', fsEvictLruFile s fuel = .ok s' ∧ NoPages s' := by
  have htail : s.lruFileTail ≠ 0 := h.ne_null (Seg.last_mem h hne)
  obtain ⟨hd, hm⟩ := hp s.lruFileTail
  obtain ⟨fuel', rfl⟩ := Nat.exists_eq_succ_of_ne_zero (Nat.ne_of_gt hf)
  have hdata : fsFlushDataPages s s.lruFileTail (fuel' + 1) = .ok s := by
    rw [fsFlushDataPages, Mem.access_ne _ htail, ok_bind, hd, flushDataFrom, if_pos rfl]
  have hmeta : fsFlushMetadataPages s s.lruFileTail (fuel' + 1) = .ok s := by
    rw [fsFlushMetadataPages, Mem.access_ne _ htail, ok_bind]
    exact flushMetadataLevels_nil hf hm _ _
  rw [fsEvictLruFile, hdata, ok_bind, hmeta, ok_bind, fsRemoveFileFromLru]
  by_cases hh : s.lruFileTail = s.lruFileHead
  · simp only [if_pos hh, ok_bind]
    rw [if_pos trivial]
    exact ⟨_, rfl, hp⟩
  · obtain ⟨l, a, rfl⟩ := (List.eq_nil_or_concat' l).resolve_left hne
    have hseg := Seg.concat_iff.mp h
    have hl : l ≠ [] := by
      rintro rfl
      exact hh (hseg.1.trans h.head_eq.symm)
    have hprev : (s.files s.lruFileTail).lruFilePrev ≠ 0 := by
      rw [hseg.1]
      exact hseg.2.2.2.ne_null (hseg.2.2.2.last_mem hl)
    simp only [if_neg hh, Mem.access_ne _ hprev, ok_bind, Mem.lruFileTail_setFile, if_true]
    exact ⟨_, rfl, fun q => by simpa [heads_setNext] using hp q⟩

/-- A run on files without pages returns, given more turns than there are
    touches, as long as it keeps the list in order. -/
theorem execAll_ok (ops : List LruOp) : ∀ {s : Mem} {l freed : List Ptr},
    FilesLinked s l → NoPages s → Allowed l freed ops → ShallowTouches l ops →
    l.length + ops.length < fuel → ∃ s', execAll s fuel ops = .ok s' := by
  induction ops with
  | nil => exact fun {s} _ _ _ _ _ _ _ => ⟨s, rfl⟩
  | cons op ops ih =>
    intro s l freed h hp hall hshallow hf
    simp only [List.length_cons] at hf
    cases op with
    | touch file =>
      obtain ⟨⟨hfile, -⟩, hall⟩ := hall
      obtain ⟨hshallow, hrest⟩ := hshallow
      obtain ⟨b, hb⟩ : ∃ b, lruContains s file fuel s.lruFileHead = .ok b :=
        lruContains_ok (dll_iff_walks.mp h).1 (by omega)
      have hlen : (file :: l.erase file).length ≤ l.length + 1 :=
        Nat.succ_le_succ List.length_erase_le
      have hop : fsUpdateFileInLru s file fuel =
          .ok (if b then updateLruFileHead s file else addFileToLru s file) := by
        rw [fsUpdateFileInLru, hb, ok_bind]
        cases b <;> rfl
      have hp' : NoPages (if b then updateLruFileHead s file else addFileToLru s file) := by
        cases b
        · exact (noPages_touch hp).2
        · exact (noPages_touch hp).1
      obtain ⟨s', hs'⟩ := ih ((filesLinked_touch_iff h hfile hop).mpr hshallow) hp' hall hrest
        (by omega)
      refine ⟨s', ?_⟩
      rw [execAll, LruOp.exec, hop, ok_bind, hs']
    | evict =>
      obtain ⟨hne, hall⟩ := hall
      obtain ⟨s₁, hop, hp'⟩ := evict_ok h hne hp (show 0 < fuel by omega)
      have hl : FilesLinked s₁ (LruOp.apply l .evict) := by
        obtain ⟨l, a, rfl⟩ := (List.eq_nil_or_concat' l).resolve_left hne
        rw [LruOp.apply, List.dropLast_concat]
        exact filesLinked_evict h hop
      obtain ⟨s', hs'⟩ := ih hl hp' hall hshallow (by
        simp only [LruOp.apply, List.length_dropLast]
        omega)
      refine ⟨s', ?_⟩
      rw [execAll, LruOp.exec, hop, ok_bind, hs']

end

/-- Starting from the empty list, every step of a run leaves the touched and not
    evicted files in the list, the most recently touched first, exactly if no
    touched file is third or further down at that moment. -/
theorem files_listed_iff {s s' : Mem} (hhead : s.lruFileHead = 0) (htail : s.lruFileTail = 0)
    {fuel : Nat} {ops : List LruOp} (hall : Allowed [] [] ops)
    (hrun : execAll s fuel ops = .ok s') :
    ListedThroughout fuel s [] ops ↔ ShallowTouches [] ops :=
  listedThroughout_of_linked ops (⟨hhead, htail⟩ : FilesLinked s []) hall hrun

/-- Two files touched in turns, the older one evicted, and a third one touched. -/
theorem files_listed_two :
    ListedThroughout 9 default [] [.touch 1, .touch 2, .touch 1, .evict, .touch 3, .touch 1] := by
  have hlinked : FilesLinked default [] := ⟨rfl, rfl⟩
  have hall : Allowed [] [] [.touch 1, .touch 2, .touch 1, .evict, .touch 3, .touch 1] := by
    simp [Allowed, LruOp.apply, LruOp.frees]
  have hshallow : ShallowTouches [] [.touch 1, .touch 2, .touch 1, .evict, .touch 3, .touch 1] := by
    simp [ShallowTouches, LruOp.apply]
  obtain ⟨s', hrun⟩ : ∃ s', execAll default 9 _ = .ok s' :=
    execAll_ok _ hlinked (fun _ => ⟨rfl, rfl⟩) hall hshallow (by simp)
  exact (files_listed_iff rfl rfl hall hrun).mpr hshallow

/-- Three files, and the one touched first is touched again. -/
theorem files_not_listed_third :
    Allowed [] [] [.touch 1, .touch 2, .touch 3, .touch 1] ∧
    ¬ ListedThroughout 9 default [] [.touch 1, .touch 2, .touch 3, .touch 1] := by
  have hlinked : FilesLinked default [] := ⟨rfl, rfl⟩
  have hall : Allowed [] [] [.touch 1, .touch 2, .touch 3, .touch 1] := by simp [Allowed]
  refine ⟨hall, ?_⟩
  obtain ⟨s', hrun⟩ : ∃ s', execAll default 9 [.touch 1, .touch 2, .touch 3, .touch 1] = .ok s' :=
    ⟨_, rfl⟩
  rw [listedThroughout_of_linked _ hlinked hall hrun]
  simp [ShallowTouches, LruOp.apply]

end Cycology.PageCache
