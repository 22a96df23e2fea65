import Cycology.Relisted

/- The two page lists of an open file, while entries come and go.

   A run makes entries with `cache_newEntry`, adds each of them to one of the two
   lists once, and removes entries the list has at that time. After every such run
   the list has the added entries that were not removed, in the order they were
   added, from its head on, and in the other order from its tail on; the other list
   of the file is as it was (`pageLists_run`). -/
namespace Cycology.PageCache
open ByteMem LinkedChain DoublyLinked Runs.Fallible

def FileList.other : FileList → FileList
  | .data => .metadata
  | .metadata => .data

def FileList.remove : FileList → Mem → Ptr → Ptr → Except Fault Mem
  | .data => openFileRemoveDataPage
  | .metadata => openFileRemoveMetadataPage

/-! ## Runs -/

/-- The calls of a run. -/
inductive ListOp where
  | newEntry (key wp : Ptr)
  | add (entry : Ptr)
  | remove (entry : Ptr)
  deriving DecidableEq, Repr

/-- The memory, and the entries that were made and not added yet. -/
structure Listing where
  mem : Mem
  fresh : List Ptr

def listStep (k : FileList) (file : Ptr) (st : Listing) : ListOp → Except Fault Listing
  | .newEntry key wp =>
    let (s, entry) := cacheNewEntry st.mem key wp
    .ok { mem := s, fresh := if entry = 0 then st.fresh else entry :: st.fresh }
  | .add entry => do
    let s ← k.add st.mem file entry
    .ok { mem := s, fresh := st.fresh.filter (· ≠ entry) }
  | .remove entry => do
    let s ← k.remove st.mem file entry
    .ok { st with mem := s }

/-- What is added was made in the run, and what is removed is on the list. -/
def ListAllowed (k : FileList) (file : Ptr) (st : Listing) : ListOp → Prop
  | .newEntry _ _ => True
  | .add entry => entry ∈ st.fresh
  | .remove entry => ∃ l, entry ∈ l ∧
      Walk (fun e => k.fields.next (st.mem.entries e)) 0 (k.fields.head (st.mem.files file)) l

def ListOp.added : ListOp → Option Ptr
  | .add entry => some entry
  | _ => none

/-- The entries a run adds and does not remove, in the order they are added in. -/
def addedNotRemoved (ops : List ListOp) : List Ptr :=
  (ops.filterMap ListOp.added).filter fun e => ListOp.remove e ∉ ops

/-! ## The fields of a list -/

namespace FileList
variable (k : FileList) (p q : Ptr) (f : OpenFile) (e : CacheEntry)

theorem remove_eq : k.remove = removePage k.fields := by cases k <;> rfl

@[simp] theorem head_setHead : k.fields.head (k.fields.setHead p f) = p := by cases k <;> rfl
@[simp] theorem tail_setHead : k.fields.tail (k.fields.setHead p f) = k.fields.tail f := by
  cases k <;> rfl
@[simp] theorem head_setTail : k.fields.head (k.fields.setTail p f) = k.fields.head f := by
  cases k <;> rfl
@[simp] theorem tail_setTail : k.fields.tail (k.fields.setTail p f) = p := by cases k <;> rfl
@[simp] theorem next_setNext : k.fields.next (k.fields.setNext p e) = p := by cases k <;> rfl
@[simp] theorem prev_setNext : k.fields.prev (k.fields.setNext p e) = k.fields.prev e := by
  cases k <;> rfl
@[simp] theorem next_setPrev : k.fields.next (k.fields.setPrev p e) = k.fields.next e := by
  cases k <;> rfl
@[simp] theorem prev_setPrev : k.fields.prev (k.fields.setPrev p e) = p := by cases k <;> rfl

end FileList

/-- Only the fields of one list differ, and of no file but one. -/
structure ListEdit (k : FileList) (file : Ptr) (s s' : Mem) : Prop where
  keys : s'.keys = s.keys
  pages : s'.pages = s.pages
  logs : s'.logs = s.logs
  cache : s'.cache = s.cache
  brk : s'.brk = s.brk
  entry : ∀ e, ∃ n p, s'.entries e = k.fields.setPrev p (k.fields.setNext n (s.entries e))
  ends : ∃ h t, s'.files file = k.fields.setTail t (k.fields.setHead h (s.files file))
  file : ∀ f, f ≠ file → s'.files f = s.files f

namespace ListEdit
variable {k : FileList} {file : Ptr} {s s' s'' : Mem}

theorem own_links (k : FileList) (e : CacheEntry) :
    ∃ n p, e = k.fields.setPrev p (k.fields.setNext n e) :=
  ⟨k.fields.next e, k.fields.prev e, by cases k <;> rfl⟩

theorem refl (s : Mem) : ListEdit k file s s where
  keys := rfl
  pages := rfl
  logs := rfl
  cache := rfl
  brk := rfl
  entry e := own_links k (s.entries e)
  ends := ⟨k.fields.head (s.files file), k.fields.tail (s.files file), by cases k <;> rfl⟩
  file _ _ := rfl

theorem trans (h : ListEdit k file s s') (h' : ListEdit k file s' s'') :
    ListEdit k file s s'' where
  keys := h'.keys.trans h.keys
  pages := h'.pages.trans h.pages
  logs := h'.logs.trans h.logs
  cache := h'.cache.trans h.cache
  brk := h'.brk.trans h.brk
  entry e := by
    obtain ⟨n, p, he⟩ := h.entry e
    obtain ⟨n', p', he'⟩ := h'.entry e
    refine ⟨n', p', ?_⟩
    rw [he', he]
    cases k <;> rfl
  ends := by
    obtain ⟨n, p, he⟩ := h.ends
    obtain ⟨n', p', he'⟩ := h'.ends
    refine ⟨n', p', ?_⟩
    rw [he', he]
    cases k <;> rfl
  file f hf := (h'.file f hf).trans (h.file f hf)

theorem setEntry (s : Mem) (x : Ptr) {g : CacheEntry → CacheEntry}
    (hg : ∀ e, ∃ n p, g e = k.fields.setPrev p (k.fields.setNext n e)) :
    ListEdit k file s (s.setEntry x g) where
  keys := rfl
  pages := rfl
  logs := rfl
  cache := rfl
  brk := rfl
  entry e := by
    by_cases he : e = x
    · rw [he, Mem.entries_setEntry_same]
      exact hg _
    · rw [Mem.entries_setEntry_other _ _ _ he]
      exact own_links k (s.entries e)
  ends := (refl s).ends
  file _ _ := rfl

theorem setFile (s : Mem) {g : OpenFile → OpenFile}
    (hg : ∀ f, ∃ h t, g f = k.fields.setTail t (k.fields.setHead h f)) :
    ListEdit k file s (s.setFile file g) where
  keys := rfl
  pages := rfl
  logs := rfl
  cache := rfl
  brk := rfl
  entry e := own_links k (s.entries e)
  ends := by
    rw [Mem.files_setFile_same]
    exact hg _
  file _ hf := Mem.files_setFile_other _ _ _ hf

theorem setNext (s : Mem) (x n : Ptr) :
    ListEdit k file s (s.setEntry x (k.fields.setNext n)) :=
  setEntry s x fun e => ⟨n, k.fields.prev e, by cases k <;> rfl⟩

theorem setPrev (s : Mem) (x p : Ptr) :
    ListEdit k file s (s.setEntry x (k.fields.setPrev p)) :=
  setEntry s x fun e => ⟨k.fields.next e, p, by cases k <;> rfl⟩

theorem setHead (s : Mem) (h : Ptr) : ListEdit k file s (s.setFile file (k.fields.setHead h)) :=
  setFile s fun f => ⟨h, k.fields.tail f, by cases k <;> rfl⟩

theorem setTail (s : Mem) (t : Ptr) : ListEdit k file s (s.setFile file (k.fields.setTail t)) :=
  setFile s fun f => ⟨k.fields.head f, t, by cases k <;> rfl⟩

theorem other (h : ListEdit k file s s') :
    (∀ f, k.other.fields.head (s'.files f) = k.other.fields.head (s.files f) ∧
      k.other.fields.tail (s'.files f) = k.other.fields.tail (s.files f)) ∧
    ∀ e, k.other.fields.next (s'.entries e) = k.other.fields.next (s.entries e) ∧
      k.other.fields.prev (s'.entries e) = k.other.fields.prev (s.entries e) := by
  constructor
  · intro f
    by_cases hf : f = file
    · obtain ⟨a, b, hends⟩ := h.ends
      rw [hf, hends]
      cases k <;> exact ⟨rfl, rfl⟩
    · rw [h.file f hf]
      exact ⟨rfl, rfl⟩
  · intro e
    obtain ⟨n, p, he⟩ := h.entry e
    rw [he]
    cases k <;> exact ⟨rfl, rfl⟩

end ListEdit

/-! ## Removing -/

section
variable {k : FileList} {s s' : Mem} {file e : Ptr} {l l₁ l₂ : List Ptr}

/-- The first half of a removal: what is before the entry goes on behind it. -/
theorem unlink_next (hlist : ListIs k s file (l₁ ++ e :: l₂)) :
    ∃ s₁, (if e = k.fields.head (s.files file) then
        .ok (s.setFile file (k.fields.setHead (k.fields.next (s.entries e))))
      else do
        let s ← s.access (k.fields.prev (s.entries e))
        .ok (s.setEntry (k.fields.prev (s.entries e))
          (k.fields.setNext (k.fields.next (s.entries e))))) = (.ok s₁ : Except Fault Mem) ∧
      ListEdit k file s s₁ ∧
      (∀ x, x ∉ l₁ ∨ x ≠ k.fields.prev (s.entries e) → s₁.entries x = s.entries x) ∧
      (k.fields.prev (s.entries e) ≠ 0 →
        k.fields.next (s₁.entries (k.fields.prev (s.entries e))) = k.fields.next (s.entries e)) ∧
      (∀ x, k.fields.prev (s₁.entries x) = k.fields.prev (s.entries x)) ∧
      k.fields.head (s₁.files file) =
        (if l₁ = [] then k.fields.next (s.entries e) else k.fields.head (s.files file)) ∧
      k.fields.tail (s₁.files file) = k.fields.tail (s.files file) := by
  have hnd := hlist.nodup
  obtain ⟨-, h₁, -⟩ := Dll.at_iff.mp hlist
  by_cases hl₁ : l₁ = []
  · subst hl₁
    obtain ⟨hhead, hprev⟩ := h₁
    refine ⟨_, if_pos hhead.symm, ListEdit.setHead s _, fun _ _ => rfl, fun h0 => ?_,
      fun _ => rfl, ?_, ?_⟩
    · exact absurd hprev h0
    · rw [Mem.files_setFile_same, FileList.head_setHead, if_pos rfl]
    · rw [Mem.files_setFile_same, FileList.tail_setHead]
  · have hmem := h₁.last_mem hl₁
    have hprev := h₁.ne_null hmem
    have hhead : e ≠ k.fields.head (s.files file) := by
      intro heq
      rw [List.nodup_middle, List.nodup_cons] at hnd
      apply hnd.1
      rw [heq]
      exact List.mem_append_left _ (h₁.first_mem hl₁)
    refine ⟨s.setEntry (k.fields.prev (s.entries e)) (k.fields.setNext (k.fields.next (s.entries e))),
      ?_, ListEdit.setNext s _ _, fun x hx => ?_, fun _ => ?_, ?_, ?_, rfl⟩
    · rw [if_neg hhead, Mem.access_ne s hprev, ok_bind]
    · apply Mem.entries_setEntry_other
      rintro rfl
      rcases hx with hx | hx
      · exact hx hmem
      · exact hx rfl
    · rw [Mem.entries_setEntry_same, FileList.next_setNext]
    · exact Mem.field_setEntry s _ _ k.fields.prev fun c => k.prev_setNext _ c
    · rw [if_neg hl₁, Mem.files_setEntry]

/-- The second half: what is behind it is linked back before it. -/
theorem unlink_prev {t : Mem} (hlist : ListIs k s file (l₁ ++ e :: l₂))
    (htail : k.fields.tail (t.files file) = k.fields.tail (s.files file))
    (hnext : k.fields.next (t.entries e) = k.fields.next (s.entries e))
    (hprev : k.fields.prev (t.entries e) = k.fields.prev (s.entries e)) :
    ∃ s', (if e = k.fields.tail (s.files file) then
        .ok (t.setFile file (k.fields.setTail (k.fields.prev (t.entries e))))
      else do
        let t ← t.access (k.fields.next (t.entries e))
        .ok (t.setEntry (k.fields.next (t.entries e))
          (k.fields.setPrev (k.fields.prev (t.entries e))))) = (.ok s' : Except Fault Mem) ∧
      ListEdit k file t s' ∧
      (∀ x, x ∉ l₂ ∨ x ≠ k.fields.next (s.entries e) → s'.entries x = t.entries x) ∧
      (k.fields.next (s.entries e) ≠ 0 →
        k.fields.prev (s'.entries (k.fields.next (s.entries e))) = k.fields.prev (s.entries e)) ∧
      (∀ x, k.fields.next (s'.entries x) = k.fields.next (t.entries x)) ∧
      k.fields.tail (s'.files file) =
        (if l₂ = [] then k.fields.prev (s.entries e) else k.fields.tail (s.files file)) ∧
      k.fields.head (s'.files file) = k.fields.head (t.files file) := by
  have hnd := hlist.nodup
  obtain ⟨-, -, h₂⟩ := Dll.at_iff.mp hlist
  by_cases hl₂ : l₂ = []
  · subst hl₂
    obtain ⟨hnull, hlast⟩ := h₂
    refine ⟨_, if_pos hlast.symm, ListEdit.setTail t _, fun _ _ => rfl, fun h0 => ?_,
      fun _ => rfl, ?_, ?_⟩
    · exact absurd hnull h0
    · rw [Mem.files_setFile_same, FileList.tail_setTail, if_pos rfl, hprev]
    · rw [Mem.files_setFile_same, FileList.head_setTail]
  · have hmem := h₂.first_mem hl₂
    have hnull := h₂.ne_null hmem
    have hlast : e ≠ k.fields.tail (s.files file) := by
      intro heq
      rw [List.nodup_middle, List.nodup_cons] at hnd
      apply hnd.1
      rw [heq]
      exact List.mem_append_right _ (h₂.last_mem hl₂)
    refine ⟨t.setEntry (k.fields.next (s.entries e)) (k.fields.setPrev (k.fields.prev (s.entries e))),
      ?_, ListEdit.setPrev t _ _, fun x hx => ?_, fun _ => ?_, ?_, ?_, rfl⟩
    · rw [if_neg hlast, hnext, Mem.access_ne t hnull, ok_bind, hnext, hprev]
    · apply Mem.entries_setEntry_other
      rintro rfl
      rcases hx with hx | hx
      · exact hx hmem
      · exact hx rfl
    · rw [Mem.entries_setEntry_same, FileList.prev_setPrev]
    · exact Mem.field_setEntry t _ _ k.fields.next fun c => k.next_setPrev _ c
    · rw [if_neg hl₂, Mem.files_setEntry, htail]

theorem remove_listed (hfile : file ≠ 0) (hlist : ListIs k s file (l₁ ++ e :: l₂)) :
    ∃ s', k.remove s file e = .ok s' ∧ ListIs k s' file (l₁ ++ l₂) ∧ ListEdit k file s s' ∧
      ∀ x, x ∉ l₁ ++ e :: l₂ → s'.entries x = s.entries x := by
  have hnd := hlist.nodup
  obtain ⟨he, h₁, h₂⟩ := Dll.at_iff.mp hlist
  rw [List.nodup_middle, List.nodup_cons] at hnd
  -- neither neighbour of the entry is the entry
  have hprev : k.fields.prev (s.entries e) = 0 ∨ k.fields.prev (s.entries e) ∈ l₁ := by
    by_cases hl₁ : l₁ = []
    · subst hl₁
      exact .inl h₁.2
    · exact .inr (h₁.last_mem hl₁)
  have hnext : k.fields.next (s.entries e) = 0 ∨ k.fields.next (s.entries e) ∈ l₂ := by
    by_cases hl₂ : l₂ = []
    · subst hl₂
      exact .inl h₂.1
    · exact .inr (h₂.first_mem hl₂)
  have hep : e ≠ k.fields.prev (s.entries e) := by
    intro heq
    rcases hprev with h0 | hmem
    · exact he (heq.trans h0)
    · exact hnd.1 (heq ▸ List.mem_append_left _ hmem)
  obtain ⟨t, hfirst, hedit₁, hother₁, hlink₁, hback, hhead, htail⟩ := unlink_next hlist
  obtain ⟨s', hsecond, hedit₂, hother₂, hlink₂, hforth, htail', hhead'⟩ :=
    unlink_prev (t := t) hlist htail (by rw [hother₁ e (.inr hep)]) (hback e)
  refine ⟨s', ?_, ?_, hedit₁.trans hedit₂, fun x hx => ?_⟩
  · rw [FileList.remove_eq, removePage, Mem.access_ne s hfile, ok_bind]
    dsimp only
    rw [hfirst, ok_bind]
    exact hsecond
  · exact Dll.remove hlist (fun x _ hx => by rw [hforth, hother₁ x (.inr hx)])
      (fun h0 => by rw [hforth, hlink₁ h0])
      (fun x _ hx => by rw [hother₂ x (.inr hx), hback]) hlink₂
      (hhead'.trans hhead) htail'
  · have hx₁ : x ∉ l₁ := fun h => hx (List.mem_append_left _ h)
    have hx₂ : x ∉ l₂ := fun h => hx (List.mem_append_right _ (List.mem_cons_of_mem _ h))
    rw [hother₂ x (.inl hx₂), hother₁ x (.inl hx₁)]

/-! ## Adding -/

theorem addMetadataPage_new (hlist : ListIs .metadata s file l) (he : e ≠ 0) (hnin : e ∉ l)
    (hnext : (s.entries e).fileMetadataNext = 0) (hprev : (s.entries e).fileMetadataPrev = 0)
    (h : openFileAddMetadataPage s file e = .ok s') : ListIs .metadata s' file (l ++ [e]) := by
  rw [openFileAddMetadataPage, Mem.access_ne s he, ok_bind, if_pos ⟨hnext, hprev⟩] at h
  dsimp only at h
  set tail := (s.files file).metadataTail with htail
  have hd : Dll (fun x => (s.entries x).fileMetadataNext) (fun x => (s.entries x).fileMetadataPrev)
      0 (s.files file).metadataHead tail l := hlist
  by_cases h0 : tail = 0
  · -- the first entry of the list
    rw [if_pos h0] at h
    obtain rfl := Except.ok.inj h
    have hnil : l = [] := by
      by_contra hl
      exact hd.ne_null (Seg.last_mem hd hl) h0
    subst hnil
    refine ⟨?_, he, hprev, hnext, ?_⟩
    · exact congrArg OpenFile.metadataHead (Mem.files_setFile_same _ _ _)
    · exact (congrArg OpenFile.metadataTail (Mem.files_setFile_same _ _ _)).trans
        (congrArg OpenFile.metadataTail (Mem.files_setFile_same _ _ _))
  · rw [if_neg h0] at h
    obtain rfl := Except.ok.inj h
    have hl : l ≠ [] := by
      rintro rfl
      exact h0 hd.2
    have hne : ∀ x ∈ l, x ≠ e := fun x hx hxe => hnin (hxe ▸ hx)
    have hte : e ≠ tail := fun heq => hne tail (Seg.last_mem hd hl) heq.symm
    set link : CacheEntry → CacheEntry := fun c => { c with fileMetadataNext := e }
    set back : CacheEntry → CacheEntry := fun c => { c with fileMetadataPrev := tail }
    set s₁ := s.setEntry tail link with hs₁
    have hnexts : ∀ x, ((s₁.setEntry e back).entries x).fileMetadataNext =
        (s₁.entries x).fileMetadataNext :=
      Mem.field_setEntry s₁ e back (·.fileMetadataNext) fun _ => rfl
    have hdone : Dll (fun x => ((s₁.setEntry e back).entries x).fileMetadataNext)
        (fun x => ((s₁.setEntry e back).entries x).fileMetadataPrev)
        0 (s.files file).metadataHead e (l ++ [e]) := by
      refine hd.push_back he ?_ ?_ (fun x hx => ?_) (fun x hx hxt => ?_) (fun _ => ?_) ?_
      · rw [Mem.entries_setEntry_same]
      · rw [hnexts, hs₁, Mem.entries_setEntry_other _ _ _ hte]
        exact hnext
      · rw [Mem.entries_setEntry_other _ _ _ (hne x hx)]
        exact Mem.field_setEntry s tail link (·.fileMetadataPrev) (fun _ => rfl) x
      · rw [hnexts, hs₁, Mem.entries_setEntry_other _ _ _ hxt]
      · rw [hnexts]
        exact congrArg CacheEntry.fileMetadataNext (Mem.entries_setEntry_same s tail link)
      · rw [if_neg hl]
    have hends := Mem.files_setFile_same (s₁.setEntry e back) file
      fun f => { f with metadataTail := e }
    unfold ListIs FileList.fields metadataList
    dsimp only
    rw [hends]
    exact hdone

theorem add_edit (he : e ≠ 0) : ∃ s', k.add s file e = .ok s' ∧ ListEdit k file s s' ∧
    ∀ x, x ≠ e → (k.fields.tail (s.files file) ≠ 0 → x ≠ k.fields.tail (s.files file)) →
      s'.entries x = s.entries x := by
  by_cases hlinked : k.fields.next (s.entries e) = 0 ∧ k.fields.prev (s.entries e) = 0
  · cases k with
    | data =>
      change (s.entries e).fileDataNext = 0 ∧ (s.entries e).fileDataPrev = 0 at hlinked
      change ∃ s', openFileAddDataPage s file e = .ok s' ∧ _
      rw [openFileAddDataPage, Mem.access_ne s he, ok_bind, if_pos hlinked]
      dsimp only
      have hprev : ListEdit .data file s _ := ListEdit.setPrev s e (s.files file).dataTail
      have hlinks := hprev.trans (ListEdit.setNext _ e 0)
      by_cases h0 : (s.files file).dataTail = 0
      · rw [if_pos h0]
        refine ⟨_, rfl, hlinks.trans ((ListEdit.setHead _ e).trans (ListEdit.setTail _ e)),
          fun x hx _ => ?_⟩
        rw [Mem.entries_setFile, Mem.entries_setFile, Mem.entries_setEntry_other _ _ _ hx,
          Mem.entries_setEntry_other _ _ _ hx]
      · rw [if_neg h0]
        refine ⟨_, rfl, hlinks.trans ((ListEdit.setNext _ _ e).trans (ListEdit.setTail _ e)),
          fun x hx hxt => ?_⟩
        have hxt : x ≠ (s.files file).dataTail := hxt h0
        rw [Mem.entries_setFile, Mem.entries_setEntry_other _ _ _ hxt,
          Mem.entries_setEntry_other _ _ _ hx, Mem.entries_setEntry_other _ _ _ hx]
    | metadata =>
      change (s.entries e).fileMetadataNext = 0 ∧ (s.entries e).fileMetadataPrev = 0 at hlinked
      change ∃ s', openFileAddMetadataPage s file e = .ok s' ∧ _
      rw [openFileAddMetadataPage, Mem.access_ne s he, ok_bind, if_pos hlinked]
      dsimp only
      by_cases h0 : (s.files file).metadataTail = 0
      · rw [if_pos h0]
        exact ⟨_, rfl, (ListEdit.setTail (k := .metadata) s e).trans (ListEdit.setHead _ e),
          fun _ _ _ => rfl⟩
      · rw [if_neg h0]
        refine ⟨_, rfl, (ListEdit.setNext (k := .metadata) s _ e).trans
          ((ListEdit.setPrev _ e _).trans (ListEdit.setTail _ e)), fun x hx hxt => ?_⟩
        have hxt : x ≠ (s.files file).metadataTail := hxt h0
        rw [Mem.entries_setFile, Mem.entries_setEntry_other _ _ _ hx,
          Mem.entries_setEntry_other _ _ _ hxt]
  · exact ⟨s, add_linked he hlinked, ListEdit.refl s, fun _ _ _ => rfl⟩

theorem add_new (hlist : ListIs k s file l) (he : e ≠ 0) (hnin : e ∉ l)
    (hnext : k.fields.next (s.entries e) = 0) (hprev : k.fields.prev (s.entries e) = 0) :
    ∃ s', k.add s file e = .ok s' ∧ ListIs k s' file (l ++ [e]) ∧ ListEdit k file s s' ∧
      ∀ x, x ∉ l ++ [e] → s'.entries x = s.entries x := by
  obtain ⟨s', hadd, hedit, hother⟩ : ∃ s', k.add s file e = .ok s' ∧ _ := add_edit he
  refine ⟨s', hadd, ?_, hedit, fun x hx => hother x (fun hxe => hx (by simp [hxe])) ?_⟩
  · cases k with
    | data => exact addDataPage_new hlist he hnin hnext hprev hadd
    | metadata => exact addMetadataPage_new hlist he hnin hnext hprev hadd
  · rintro h0 rfl
    apply hx
    apply List.mem_append_left
    apply Seg.last_mem hlist
    rintro rfl
    exact h0 hlist.2

end

/-! ## The invariant of a run -/

/-- The list of the file is `l`; what is fresh has no links and is not on it. The
    other list has not changed since `s₀`. -/
structure ListRun (k : FileList) (file : Ptr) (s₀ : Mem) (st : Listing) (l : List Ptr) :
    Prop where
  list : ListIs k st.mem file l
  allocated : ∀ e ∈ l, e ≤ st.mem.brk
  notFresh : ∀ e ∈ l, e ∉ st.fresh
  fresh : ∀ e ∈ st.fresh, e ≠ 0 ∧ e ≤ st.mem.brk ∧
    k.fields.next (st.mem.entries e) = 0 ∧ k.fields.prev (st.mem.entries e) = 0
  brk : s₀.brk ≤ st.mem.brk
  otherEnds : k.other.fields.head (st.mem.files file) = k.other.fields.head (s₀.files file) ∧
    k.other.fields.tail (st.mem.files file) = k.other.fields.tail (s₀.files file)
  otherLinks : ∀ e, e ≤ s₀.brk →
    k.other.fields.next (st.mem.entries e) = k.other.fields.next (s₀.entries e) ∧
    k.other.fields.prev (st.mem.entries e) = k.other.fields.prev (s₀.entries e)

/-- An entry that was made before and is not waiting to be added. -/
def Spent (st : Listing) (e : Ptr) : Prop := e ≤ st.mem.brk ∧ e ∉ st.fresh

namespace ListRun
variable {k : FileList} {file e : Ptr} {s₀ : Mem} {st st' : Listing} {l l₁ l₂ : List Ptr}

theorem edit (h : ListRun k file s₀ st l) {s' : Mem} {l' fresh' : List Ptr}
    (hedit : ListEdit k file st.mem s') (hlist : ListIs k s' file l')
    (hsub : ∀ x ∈ fresh', x ∈ st.fresh ∧ s'.entries x = st.mem.entries x)
    (hmem : ∀ x ∈ l', x ≤ st.mem.brk ∧ x ∉ fresh') :
    ListRun k file s₀ { mem := s', fresh := fresh' } l' where
  list := hlist
  allocated x hx := by
    rw [hedit.brk]
    exact (hmem x hx).1
  notFresh x hx := (hmem x hx).2
  fresh x hx := by
    obtain ⟨hin, hsame⟩ := hsub x hx
    rw [hedit.brk, hsame]
    exact h.fresh x hin
  brk := by
    rw [hedit.brk]
    exact h.brk
  otherEnds := by
    obtain ⟨hhead, htail⟩ := hedit.other.1 file
    exact ⟨hhead.trans h.otherEnds.1, htail.trans h.otherEnds.2⟩
  otherLinks x hx := by
    obtain ⟨hnext, hprev⟩ := hedit.other.2 x
    exact ⟨hnext.trans (h.otherLinks x hx).1, hprev.trans (h.otherLinks x hx).2⟩

theorem newEntry (h : ListRun k file s₀ st l) (key wp : Ptr) :
    ∃ st', listStep k file st (.newEntry key wp) = .ok st' ∧ ListRun k file s₀ st' l ∧
      ∀ x, Spent st x → Spent st' x := by
  by_cases hfull : st.mem.cache.maxSize ≤ st.mem.cache.size
  · refine ⟨st, ?_, h, fun _ hx => hx⟩
    rw [listStep, cacheNewEntry, if_pos hfull]
    rfl
  · set s' : Mem :=
      { st.mem with
        brk := st.mem.brk + 1
        entries := update st.mem.entries (st.mem.brk + 1) (freshEntry key wp)
        cache := { st.mem.cache with size := cint (st.mem.cache.size + 1) } }
    have hnew : cacheNewEntry st.mem key wp = (s', st.mem.brk + 1) := if_neg hfull
    refine ⟨{ mem := s', fresh := (st.mem.brk + 1) :: st.fresh }, ?_, ?_⟩
    · rw [listStep, hnew]
      dsimp only
      rw [if_neg (Nat.succ_ne_zero _)]
    have hne : ∀ {x}, x ≤ st.mem.brk → x ≠ st.mem.brk + 1 := fun hx heq =>
      Nat.not_succ_le_self _ (heq ▸ hx)
    have hold : ∀ {x}, x ≤ st.mem.brk → s'.entries x = st.mem.entries x :=
      fun hx => update_other _ _ (hne hx)
    have hmade : s'.entries (st.mem.brk + 1) = freshEntry key wp := update_same ..
    refine ⟨⟨?_, fun x hx => Nat.le_succ_of_le (h.allocated x hx), fun x hx hin => ?_,
      fun x hx => ?_, Nat.le_succ_of_le h.brk, h.otherEnds, fun x hx => ?_⟩,
      fun x hx => ⟨Nat.le_succ_of_le hx.1, fun hin => ?_⟩⟩
    · exact Dll.congr h.list (fun x hx => congrArg k.fields.next (hold (h.allocated x hx)))
        fun x hx => congrArg k.fields.prev (hold (h.allocated x hx))
    · rcases List.mem_cons.mp hin with heq | hin
      · exact hne (h.allocated x hx) heq
      · exact h.notFresh x hx hin
    · rcases List.mem_cons.mp hx with rfl | hx
      · rw [hmade]
        cases k <;> exact ⟨Nat.succ_ne_zero _, le_refl _, rfl, rfl⟩
      · obtain ⟨h0, hle, hlinks⟩ := h.fresh x hx
        rw [hold hle]
        exact ⟨h0, Nat.le_succ_of_le hle, hlinks⟩
    · rw [hold (le_trans hx h.brk)]
      exact h.otherLinks x hx
    · rcases List.mem_cons.mp hin with heq | hin
      · exact hne hx.1 heq
      · exact hx.2 hin

theorem add (h : ListRun k file s₀ st l) (he : e ∈ st.fresh) :
    ∃ st', listStep k file st (.add e) = .ok st' ∧ ListRun k file s₀ st' (l ++ [e]) ∧
      ∀ x, Spent st x → Spent st' x := by
  obtain ⟨h0, hle, hnext, hprev⟩ := h.fresh e he
  have hnin : e ∉ l := fun hl => h.notFresh e hl he
  obtain ⟨s', hadd, hlist, hedit, hother⟩ := add_new h.list h0 hnin hnext hprev
  refine ⟨{ mem := s', fresh := st.fresh.filter (· ≠ e) }, ?_,
    h.edit hedit hlist (fun x hx => ?_) (fun x hx => ?_), fun x hx => ⟨?_, fun hin => ?_⟩⟩
  · rw [listStep, hadd]
    rfl
  · obtain ⟨hin, hxe⟩ := List.mem_filter.mp hx
    refine ⟨hin, hother x fun hmem => ?_⟩
    rcases List.mem_append.mp hmem with hl | hl
    · exact h.notFresh x hl hin
    · exact of_decide_eq_true hxe (List.mem_singleton.mp hl)
  · rcases List.mem_append.mp hx with hl | hl
    · exact ⟨h.allocated x hl, fun hin => h.notFresh x hl (List.mem_of_mem_filter hin)⟩
    · rw [List.mem_singleton.mp hl]
      exact ⟨hle, fun hin => of_decide_eq_true (List.mem_filter.mp hin).2 rfl⟩
  · rw [hedit.brk]
    exact hx.1
  · exact hx.2 (List.mem_of_mem_filter hin)

theorem remove (h : ListRun k file s₀ st l) (hfile : file ≠ 0) (he : e ∈ l) :
    ∃ st', listStep k file st (.remove e) = .ok st' ∧ ListRun k file s₀ st' (l.erase e) ∧
      (∀ x, Spent st x → Spent st' x) ∧ Spent st' e := by
  have hnd := h.list.nodup
  obtain ⟨l₁, l₂, rfl⟩ := List.append_of_mem he
  obtain ⟨s', hrem, hlist, hedit, hother⟩ := remove_listed hfile h.list
  have hnin : e ∉ l₁ := by
    rw [List.nodup_middle, List.nodup_cons] at hnd
    exact fun hl => hnd.1 (List.mem_append_left _ hl)
  have herase : (l₁ ++ e :: l₂).erase e = l₁ ++ l₂ := by
    rw [List.erase_append_right _ hnin, List.erase_cons_head]
  have hsub : ∀ x ∈ l₁ ++ l₂, x ∈ l₁ ++ e :: l₂ := by
    intro x hx
    simp only [List.mem_append, List.mem_cons] at hx ⊢
    tauto
  have hspent : ∀ x, Spent st x → Spent { st with mem := s' } x :=
    fun x hx => ⟨by rw [hedit.brk]; exact hx.1, hx.2⟩
  refine ⟨{ st with mem := s' }, ?_, ?_, hspent, hspent e ⟨h.allocated e he, h.notFresh e he⟩⟩
  · rw [listStep, hrem]
    rfl
  · rw [herase]
    exact h.edit hedit hlist
      (fun x hx => ⟨hx, hother x fun hl => h.notFresh x hl hx⟩)
      fun x hx => ⟨h.allocated x (hsub x hx), h.notFresh x (hsub x hx)⟩

/-- A run returns. What it adds was not spent before, and what it leaves on the list
    was there, or was added, and was not removed. -/
theorem run (hfile : file ≠ 0) {ops : List ListOp} (h : ListRun k file s₀ st l)
    (hrun : EveryStep (listStep k file) (ListAllowed k file) st ops) :
    ∃ st', outcome (listStep k file) st ops = .ok st' ∧
      ListRun k file s₀ st'
        ((l ++ ops.filterMap ListOp.added).filter fun e => ListOp.remove e ∉ ops) ∧
      ∀ e, Spent st e → e ∉ ops.filterMap ListOp.added := by
  induction ops generalizing st l with
  | nil =>
    refine ⟨st, rfl, ?_, fun _ _ => List.not_mem_nil⟩
    simpa using h
  | cons op ops ih =>
    obtain ⟨hallow, hrun⟩ := hrun
    cases op with
    | newEntry key wp =>
      obtain ⟨st₁, hstep, h₁, hspent⟩ := h.newEntry key wp
      obtain ⟨st', hout, h', hnot⟩ := ih h₁ (hrun st₁ hstep)
      refine ⟨st', outcome_cons_eq_ok.mpr ⟨st₁, hstep, hout⟩, ?_, fun e he => ?_⟩
      · simpa [List.filterMap_cons, ListOp.added] using h'
      · simpa [List.filterMap_cons, ListOp.added] using hnot e (hspent e he)
    | add x =>
      obtain ⟨st₁, hstep, h₁, hspent⟩ := h.add hallow
      obtain ⟨st', hout, h', hnot⟩ := ih h₁ (hrun st₁ hstep)
      refine ⟨st', outcome_cons_eq_ok.mpr ⟨st₁, hstep, hout⟩, ?_, fun e he => ?_⟩
      · rw [List.append_assoc] at h'
        simpa [List.filterMap_cons, ListOp.added] using h'
      · have hne : e ≠ x := fun heq => he.2 (heq ▸ hallow)
        simpa [List.filterMap_cons, ListOp.added, hne] using hnot e (hspent e he)
    | remove x =>
      obtain ⟨l', hx, hwalk⟩ := hallow
      obtain rfl := Chain.unique (Seg.walk h.list) hwalk
      obtain ⟨st₁, hstep, h₁, hspent, hxspent⟩ := h.remove hfile hx
      obtain ⟨st', hout, h', hnot⟩ := ih h₁ (hrun st₁ hstep)
      refine ⟨st', outcome_cons_eq_ok.mpr ⟨st₁, hstep, hout⟩, ?_, fun e he => ?_⟩
      · have hsame : ((l ++ (ListOp.remove x :: ops).filterMap ListOp.added).filter
            fun e => ListOp.remove e ∉ ListOp.remove x :: ops) =
            (l.erase x ++ ops.filterMap ListOp.added).filter fun e => ListOp.remove e ∉ ops := by
          rw [h.list.nodup.erase_eq_filter, List.filter_append, List.filter_append,
            List.filter_filter]
          congr 1
          · apply List.filter_congr
            intro e _
            by_cases hex : e = x
            · simp [hex]
            · simp [hex]
          · -- what was removed is not added again
            apply List.filter_congr
            intro e he
            have hne : e ≠ x := fun heq => hnot x hxspent (heq ▸ he)
            simp [hne]
        rw [hsame]
        exact h'
      · simpa [List.filterMap_cons, ListOp.added] using hnot e (hspent e he)

end ListRun

/-- **The page lists of a file.** For each of the two lists, starting from the empty
    list, every run of additions of entries freshly made by `cache_newEntry` and
    removals of entries on the list returns. The walk from the head then gives the
    entries added and not removed in the order they were added in, the walk from the
    tail gives the reverse, the head and the tail are `NULL` if there is none, and the
    other list of the file is untouched. -/
theorem pageLists_run (k : FileList) {file : Ptr} (hfile : file ≠ 0) (s : Mem)
    (hhead : k.fields.head (s.files file) = 0) (htail : k.fields.tail (s.files file) = 0)
    {ops : List ListOp}
    (hrun : EveryStep (listStep k file) (ListAllowed k file) { mem := s, fresh := [] } ops) :
    ∃ st, outcome (listStep k file) { mem := s, fresh := [] } ops = .ok st ∧
      Walk (fun e => k.fields.next (st.mem.entries e)) 0 (k.fields.head (st.mem.files file))
        (addedNotRemoved ops) ∧
      Walk (fun e => k.fields.prev (st.mem.entries e)) 0 (k.fields.tail (st.mem.files file))
        (addedNotRemoved ops).reverse ∧
      (addedNotRemoved ops = [] → k.fields.head (st.mem.files file) = 0 ∧
        k.fields.tail (st.mem.files file) = 0) ∧
      (k.other.fields.head (st.mem.files file) = k.other.fields.head (s.files file) ∧
        k.other.fields.tail (st.mem.files file) = k.other.fields.tail (s.files file)) ∧
      ∀ e, e ≤ s.brk →
        k.other.fields.next (st.mem.entries e) = k.other.fields.next (s.entries e) ∧
        k.other.fields.prev (st.mem.entries e) = k.other.fields.prev (s.entries e) := by
  have h : ListRun k file s { mem := s, fresh := [] } [] :=
    ⟨⟨hhead, htail⟩, by simp, by simp, by simp, le_refl _, ⟨rfl, rfl⟩, fun _ _ => ⟨rfl, rfl⟩⟩
  obtain ⟨st, hout, h', -⟩ := h.run hfile hrun
  rw [List.nil_append] at h'
  obtain ⟨hforth, hback⟩ := dll_iff_walks.mp h'.list
  refine ⟨st, hout, hforth, hback, fun hnil => ?_, h'.otherEnds, h'.otherLinks⟩
  have hlist := h'.list
  rw [addedNotRemoved] at hnil
  rw [hnil] at hlist
  exact hlist

/-- Two metadata pages are made and added, and the first one is removed. -/
def twoPages : List ListOp := [.newEntry 2 3, .newEntry 4 5, .add 10, .add 11, .remove 10]

theorem pageLists_two :
    addedNotRemoved twoPages = [11] ∧
    ∃ st, outcome (listStep .metadata 1) { mem := openedFile 0, fresh := [] } twoPages = .ok st ∧
      Walk (fun e => metadataList.next (st.mem.entries e)) 0
        (metadataList.head (st.mem.files 1)) [11] := by
  have hrun : EveryStep (listStep .metadata 1) (ListAllowed .metadata 1)
      { mem := openedFile 0, fresh := [] } twoPages := by
    refine (EveryStep.cons_ok rfl).mpr ⟨trivial, (EveryStep.cons_ok rfl).mpr ⟨trivial,
      (EveryStep.cons_ok rfl).mpr ⟨?_, (EveryStep.cons_ok rfl).mpr ⟨?_,
      (EveryStep.cons_ok rfl).mpr ⟨⟨[10, 11], by decide, by decide⟩, trivial⟩⟩⟩⟩⟩
    · exact List.mem_of_elem_eq_true rfl
    · exact List.mem_of_elem_eq_true rfl
  obtain ⟨st, hout, hforth, -⟩ := pageLists_run .metadata (by decide) (openedFile 0) rfl rfl hrun
  exact ⟨rfl, st, hout, hforth⟩

end Cycology.PageCache
