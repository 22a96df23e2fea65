import Cycology.PageLists

/- Flushing the metadata pages of a file.

   `fs_flushMetadataPages` walks through the metadata list once for each level and
   takes the entries of the level out, of the list with `openFile_removeMetadataPage`
   and of the table with `cache_remove`, which frees them. The calls it makes are
   written down here as it makes them, and a run may be watched: then it fails if it
   reads an entry that was freed.

   The list is always emptied, in the order of the levels, with one page allocated for
   each dirty entry. But `cache_remove` only takes the first entry of a bin out of the
   table. So all entries leave the table, and no freed entry is read, exactly if every
   entry in front of one of them in a bin is flushed before it (`flushMetadata_iff`). -/
namespace Cycology.PageCache
open ByteMem LinkedChain DoublyLinked Runs.Fallible

/-! ## The calls of a flush -/

/-- The functions `fs_flushMetadataPages` calls for an entry. -/
inductive FlushCall where
  | allocateFreePage (freePage log : Ptr)
  | removeMetadataPage (entry : Ptr)
  | cacheRemove (entry : Ptr)
  deriving DecidableEq, Repr

def FlushCall.exec (file : Ptr) (s : Mem) : FlushCall → Except Fault Mem
  | .allocateFreePage freePage log => PageCache.allocateFreePage s freePage log
  | .removeMetadataPage entry => openFileRemoveMetadataPage s file entry
  | .cacheRemove entry => PageCache.cacheRemove s entry

/-- The cache entries a call reads or writes. -/
def FlushCall.uses (file : Ptr) (s : Mem) : FlushCall → List Ptr
  | .allocateFreePage _ _ => []
  | .removeMetadataPage entry =>
    entry :: ((if entry = (s.files file).metadataHead then []
        else [(s.entries entry).fileMetadataPrev]) ++
      if entry = (s.files file).metadataTail then [] else [(s.entries entry).fileMetadataNext])
  | .cacheRemove entry => [entry, s.cache.table (cacheHash s (s.entries entry).key)]

/-- Why a flush does not return. -/
inductive FlushFault where
  | call (fault : Fault)
  | freed
  deriving DecidableEq, Repr

/-- The memory, and the calls made so far. -/
structure Flushing where
  mem : Mem
  calls : List FlushCall

namespace Flushing

/-- `cache_remove` frees the entry it is given. -/
def Freed (st : Flushing) (entry : Ptr) : Prop := FlushCall.cacheRemove entry ∈ st.calls

instance (st : Flushing) (entry : Ptr) : Decidable (st.Freed entry) :=
  inferInstanceAs (Decidable (_ ∈ _))

/-- A call. If the run is watched, it must not use a freed entry. -/
def call (watched : Bool) (file : Ptr) (st : Flushing) (c : FlushCall) :
    Except FlushFault Flushing :=
  if watched ∧ ∃ e ∈ c.uses file st.mem, st.Freed e then .error .freed
  else
    match c.exec file st.mem with
    | .ok s => .ok { mem := s, calls := st.calls ++ [c] }
    | .error fault => .error (.call fault)

/-- `flushMetadataEntry`. -/
def entry (watched : Bool) (file : Ptr) (st : Flushing) (current : Ptr) :
    Except FlushFault Flushing := do
  let e := st.mem.entries current
  let st ←
    (if e.dirty ≠ 0 then
      st.call watched file
        (.allocateFreePage e.wp (st.mem.files (st.mem.keys e.key).file).mainExtentLog)
    else .ok st)
  let st ← st.call watched file (.removeMetadataPage current)
  st.call watched file (.cacheRemove current)

/-- `flushMetadataLevel`. -/
def level (watched : Bool) (file : Ptr) (lvl : Int) :
    Nat → Flushing → Ptr → Except FlushFault Flushing
  | 0, _, _ => .error (.call .fuel)
  | fuel + 1, st, current =>
    if current = 0 then .ok st
    else if watched ∧ st.Freed current then .error .freed
    else do
      let next := (st.mem.entries current).fileMetadataNext
      let st ←
        (if (st.mem.keys (st.mem.entries current).key).levelsAbove = lvl then
          st.entry watched file current
        else .ok st)
      level watched file lvl fuel st next

/-- `flushMetadataLevels`. -/
def levels (watched : Bool) (file : Ptr) (fuel : Nat) (lvl : Int) :
    Nat → Flushing → Except FlushFault Flushing
  | 0, st => .ok st
  | steps + 1, st => do
    let st ← level watched file lvl fuel st (st.mem.files file).metadataHead
    levels watched file fuel (lvl + 1) steps st

end Flushing

/-- `fs_flushMetadataPages`, with its calls. -/
def flushCalls (watched : Bool) (s : Mem) (file : Ptr) (fuel : Nat) :
    Except FlushFault Flushing :=
  if file = 0 then .error (.call .null)
  else Flushing.levels watched file fuel 1 ((s.files file).treeHeight - 1).toNat
    { mem := s, calls := [] }

/-! ## What a flush should do -/

def levelOf (s : Mem) (entry : Ptr) : Int := (s.keys (s.entries entry).key).levelsAbove

/-- The entries level by level, and in the order of the list within a level. -/
def flushOrder (s : Mem) (file : Ptr) (l : List Ptr) : List Ptr :=
  (List.range ((s.files file).treeHeight - 1).toNat).flatMap fun i : Nat =>
    l.filter fun e => levelOf s e = 1 + i

/-- The calls for an entry: one page is allocated if it is dirty, and none if not. -/
def entryCalls (s : Mem) (file entry : Ptr) : List FlushCall :=
  (if (s.entries entry).dirty ≠ 0 then
    [.allocateFreePage (s.entries entry).wp (s.files file).mainExtentLog] else []) ++
  [.removeMetadataPage entry, .cacheRemove entry]

/-- The metadata list of the file is `l`, of its own entries on the levels below the
    height of its tree, which are in the table. The dirty ones have a page, and the file
    has a log then. -/
structure Flushable (s : Mem) (file : Ptr) (bins : Nat → List Ptr) (l : List Ptr) : Prop where
  notNull : file ≠ 0
  list : ListIs .metadata s file l
  table : Table s bins
  linked : ∀ e ∈ l, ∃ b, e ∈ bins b
  own : ∀ e ∈ l, (s.keys (s.entries e).key).file = file
  level : ∀ e ∈ l, 1 ≤ levelOf s e ∧ levelOf s e < (s.files file).treeHeight
  page : ∀ e ∈ l, (s.entries e).dirty ≠ 0 → (s.entries e).wp ≠ 0 ∧ (s.files file).mainExtentLog ≠ 0

/-- The flush went through the entries in order, with the right calls for each, and the
    list is empty. -/
structure ListFlushed (s : Mem) (file : Ptr) (l : List Ptr) (st : Flushing) : Prop where
  head : (st.mem.files file).metadataHead = 0
  tail : (st.mem.files file).metadataTail = 0
  calls : st.calls = (flushOrder s file l).flatMap (entryCalls s file)
  active : (s.files file).mainExtentLog ≠ 0 →
    (st.mem.logs (s.files file).mainExtentLog).log.active =
      ((s.logs (s.files file).mainExtentLog).log.active +
        (l.filter fun e => (s.entries e).dirty ≠ 0).length) % 2 ^ 32

/-- Every entry in front of an entry of the list in its bin is flushed before it. -/
def FrontFirst (s : Mem) (file : Ptr) (bins : Nat → List Ptr) (l : List Ptr) : Prop :=
  ∀ e ∈ l, ∀ b l₁ l₂, bins b = l₁ ++ e :: l₂ → ∀ x ∈ l₁, [x, e].Sublist (flushOrder s file l)

/-! ## The calls and the memory -/

section
variable {watched : Bool} {file e : Ptr} {st st' : Flushing} {c : FlushCall}

theorem Flushing.call_eq_ok (h : st.call watched file c = .ok st') :
    c.exec file st.mem = .ok st'.mem ∧ st'.calls = st.calls ++ [c] := by
  unfold Flushing.call at h
  split at h
  · cases h
  · split at h
    · rename_i s hs
      obtain rfl := Except.ok.inj h
      exact ⟨hs, rfl⟩
    · cases h

theorem Flushing.call_ok {s : Mem} (hexec : c.exec file st.mem = .ok s)
    (hfreed : watched = true → ∀ e ∈ c.uses file st.mem, ¬ st.Freed e) :
    st.call watched file c = .ok { mem := s, calls := st.calls ++ [c] } := by
  unfold Flushing.call
  rw [if_neg (fun h => ?_), hexec]
  obtain ⟨hw, x, hx, hf⟩ := h
  exact hfreed hw x hx hf

theorem Flushing.entry_mem (h : st.entry watched file e = .ok st') :
    flushMetadataEntry st.mem file e = .ok st'.mem := by
  obtain ⟨st₁, hfirst, h⟩ := bind_eq_ok.mp h
  obtain ⟨st₂, hlist, htable⟩ := bind_eq_ok.mp h
  refine bind_eq_ok.mpr ⟨st₁.mem, ?_, bind_eq_ok.mpr
    ⟨st₂.mem, (call_eq_ok hlist).1, (call_eq_ok htable).1⟩⟩
  by_cases hd : (st.mem.entries e).dirty ≠ 0
  · rw [if_pos hd] at hfirst ⊢
    exact (call_eq_ok hfirst).1
  · rw [if_neg hd] at hfirst ⊢
    rw [Except.ok.inj hfirst]

theorem Flushing.level_mem {lvl : Int} {fuel : Nat} {current : Ptr}
    (h : Flushing.level watched file lvl fuel st current = .ok st') :
    flushMetadataLevel st.mem file lvl fuel current = .ok st'.mem := by
  induction fuel generalizing st current with
  | zero => cases h
  | succ fuel ih =>
    rw [Flushing.level] at h
    rw [flushMetadataLevel]
    by_cases hc : current = 0
    · rw [if_pos hc] at h ⊢
      rw [Except.ok.inj h]
    · rw [if_neg hc] at h ⊢
      split at h
      · cases h
      · obtain ⟨st₁, hstep, h⟩ := bind_eq_ok.mp h
        refine bind_eq_ok.mpr ⟨st₁.mem, ?_, ih h⟩
        split
        · rename_i hl
          rw [if_pos hl] at hstep
          exact entry_mem hstep
        · rename_i hl
          rw [if_neg hl] at hstep
          rw [Except.ok.inj hstep]

theorem Flushing.levels_mem {lvl : Int} {fuel steps : Nat}
    (h : Flushing.levels watched file fuel lvl steps st = .ok st') :
    flushMetadataLevels st.mem file fuel lvl steps = .ok st'.mem := by
  induction steps generalizing st lvl with
  | zero => rw [flushMetadataLevels, Except.ok.inj h]
  | succ steps ih =>
    obtain ⟨st₁, hlevel, h⟩ := bind_eq_ok.mp h
    exact bind_eq_ok.mpr ⟨st₁.mem, level_mem hlevel, ih h⟩

theorem flushCalls_mem {s : Mem} {fuel : Nat} (h : flushCalls watched s file fuel = .ok st') :
    fsFlushMetadataPages s file fuel = .ok st'.mem := by
  unfold flushCalls at h
  split at h
  · cases h
  · rename_i hfile
    rw [fsFlushMetadataPages, Mem.access_ne s hfile, ok_bind]
    exact Flushing.levels_mem h

end

/-! ## The invariant of a flush -/

/-- The entries of `done` are flushed; those of `dropped` have left the table too. -/
structure FlushInv (s : Mem) (file : Ptr) (bins : Nat → List Ptr) (l : List Ptr) (st : Flushing)
    (done dropped : List Ptr) : Prop where
  list : ListIs .metadata st.mem file (l.filter (· ∉ done))
  table : Table st.mem fun b => (bins b).filter (· ∉ dropped)
  sub : ∀ e ∈ dropped, e ∈ done
  calls : st.calls = done.flatMap (entryCalls s file)
  keys : st.mem.keys = s.keys
  entry : ∀ e, (st.mem.entries e).key = (s.entries e).key ∧
    (st.mem.entries e).wp = (s.entries e).wp ∧ (st.mem.entries e).dirty = (s.entries e).dirty
  address : ∀ f, (st.mem.files f).address = (s.files f).address
  log : (st.mem.files file).mainExtentLog = (s.files file).mainExtentLog
  maxSize : st.mem.cache.maxSize = s.cache.maxSize
  active : (s.files file).mainExtentLog ≠ 0 →
    (st.mem.logs (s.files file).mainExtentLog).log.active =
      ((s.logs (s.files file).mainExtentLog).log.active +
        (done.filter fun e => (s.entries e).dirty ≠ 0).length) % 2 ^ 32

/-- The bin of an entry. -/
def binOf (s : Mem) (e : Ptr) : Nat := cacheHash s (s.entries e).key

/-- The entry is the first one left in its bin. -/
def IsFront (s : Mem) (bins : Nat → List Ptr) (dropped : List Ptr) (e : Ptr) : Prop :=
  ((bins (binOf s e)).filter (· ∉ dropped)).head? = some e

instance (s : Mem) (bins : Nat → List Ptr) (dropped : List Ptr) (e : Ptr) :
    Decidable (IsFront s bins dropped e) := inferInstanceAs (Decidable (_ = _))

/-- What has left the table after the entries of a list were flushed. -/
def dropAfter (s : Mem) (bins : Nat → List Ptr) : List Ptr → List Ptr → List Ptr
  | dropped, [] => dropped
  | dropped, e :: es =>
    dropAfter s bins (if IsFront s bins dropped e then e :: dropped else dropped) es

/-! ## One entry -/

section
variable {s t t' : Mem} {bins : Nat → List Ptr} {file e : Ptr} {l done dropped : List Ptr}
  {st : Flushing} {watched : Bool}

theorem Table.head_eq (ht : Table t bins) (b : Nat) :
    t.cache.table b = (bins b).head?.getD 0 := (ht.walk b).head_eq.symm

/-- `cache_remove` of an entry of the table takes it out if it is the first of its bin,
    and changes nothing else but the count. -/
theorem cacheRemove_table (ht : Table t bins) (he : e ∈ bins (cacheHash t (t.entries e).key)) :
    ∃ t', cacheRemove t e = .ok t' ∧
      t' = { t with cache := t'.cache } ∧ t'.cache.maxSize = t.cache.maxSize ∧
      Table t' fun b => (bins b).filter fun x =>
        ¬ (x = e ∧ (bins (cacheHash t (t.entries e).key)).head? = some e) := by
  obtain ⟨c, l, hbin⟩ := List.exists_cons_of_ne_nil (List.ne_nil_of_mem he)
  have hc : t.cache.table (cacheHash t (t.entries e).key) = c := by
    rw [ht.head_eq, hbin]
    rfl
  have hcin : c ∈ bins (cacheHash t (t.entries e).key) := hbin ▸ List.mem_cons_self
  by_cases hce : c = e
  · subst hce
    refine ⟨_, cacheRemove_first (ht.ne_zero he) hc, rfl, rfl, ?_⟩
    have hdrop : Table ((t.setCache fun a => { a with
        table := update a.table (cacheHash t (t.entries c).key) (t.entries c).next }).setCache
          fun a => { a with size := cint (a.size - 1) })
        (update bins (cacheHash t (t.entries c).key) l) :=
      ht.drop_first hbin rfl rfl rfl rfl rfl rfl
    have hsame : (update bins (cacheHash t (t.entries c).key) l) = fun b =>
        (bins b).filter fun x =>
          ¬ (x = c ∧ (bins (cacheHash t (t.entries c).key)).head? = some c) := by
      funext b
      have hfirst : (bins (cacheHash t (t.entries c).key)).head? = some c := by
        rw [hbin]
        rfl
      simp only [hfirst, and_true]
      by_cases hb : b = cacheHash t (t.entries c).key
      · have hnd : (c :: l).Nodup := hbin ▸ Chain.nodup (ht.walk _)
        rw [hb, update_same, hbin, List.filter_cons_of_neg (by simp)]
        refine (List.filter_eq_self.mpr fun x hx => ?_).symm
        exact decide_eq_true fun hxc => (List.nodup_cons.mp hnd).1 (hxc ▸ hx)
      · rw [update_other _ _ hb]
        refine (List.filter_eq_self.mpr fun x hx => ?_).symm
        exact decide_eq_true fun hxc => hb ((ht.hashed b x hx).2.symm.trans (by rw [hxc]))
    rw [← hsame]
    exact hdrop
  · have hnum : entryNum t c ≠ entryNum t e := fun hn => hce (ht.unique hcin he hn)
    refine ⟨_, cacheRemove_other (ht.ne_zero he) (ht.ne_zero hcin) hc hnum, rfl, rfl, ?_⟩
    have hsame : (fun b => (bins b).filter fun x =>
        ¬ (x = e ∧ (bins (cacheHash t (t.entries e).key)).head? = some e)) = bins := by
      funext b
      refine List.filter_eq_self.mpr fun x _ => decide_eq_true fun hx => hce ?_
      rw [hbin] at hx
      exact Option.some.inj hx.2
    rw [hsame]
    exact ht.congr rfl (fun _ => rfl) rfl (le_refl _) (fun _ => rfl) (fun _ _ _ => rfl)
      fun _ _ _ => rfl

theorem FlushInv.freed_iff (h : FlushInv s file bins l st done dropped) {x : Ptr} :
    st.Freed x ↔ x ∈ done := by
  unfold Flushing.Freed
  rw [h.calls, List.mem_flatMap]
  constructor
  · intro hx
    obtain ⟨y, hy, hx⟩ := hx
    rcases List.mem_append.mp hx with hx | hx
    · split at hx
      · simp at hx
      · cases hx
    · simp at hx
      exact hx ▸ hy
  · intro hx
    exact ⟨x, hx, List.mem_append_right _ (by simp)⟩

theorem allocateFreePage_eq {freePage log : Ptr} (hpage : freePage ≠ 0) (hlog : log ≠ 0) :
    allocateFreePage t freePage log = .ok { t with
      pages := update t.pages freePage { t.pages freePage with address := (t.logs log).nextPage }
      logs := update t.logs log
        { t.logs log with log := (t.logs log).log.setActive ((t.logs log).log.active + 1) } } := by
  rw [allocateFreePage, Mem.access_ne _ hlog, ok_bind, Mem.access_ne _ hpage, ok_bind]

theorem FlushInv.allocate (h : FlushInv s file bins l st done dropped)
    (hf : Flushable s file bins l) (he : e ∈ l) :
    ∃ st₁ : Flushing, (∀ watched, (if (st.mem.entries e).dirty ≠ 0 then
        st.call watched file (.allocateFreePage (st.mem.entries e).wp
          (st.mem.files (st.mem.keys (st.mem.entries e).key).file).mainExtentLog)
        else .ok st) = .ok st₁) ∧
      st₁.calls = st.calls ++ (if (s.entries e).dirty ≠ 0 then
        [.allocateFreePage (s.entries e).wp (s.files file).mainExtentLog] else []) ∧
      st₁.mem = { st.mem with pages := st₁.mem.pages, logs := st₁.mem.logs } ∧
      ((s.files file).mainExtentLog ≠ 0 →
        (st₁.mem.logs (s.files file).mainExtentLog).log.active =
          ((s.logs (s.files file).mainExtentLog).log.active +
            ((done ++ [e]).filter fun e => (s.entries e).dirty ≠ 0).length) % 2 ^ 32) := by
  obtain ⟨hkey, hwp, hdirty⟩ := h.entry e
  have hlog : (st.mem.files (st.mem.keys (st.mem.entries e).key).file).mainExtentLog =
      (s.files file).mainExtentLog := by
    rw [hkey, h.keys, hf.own e he, h.log]
  rw [hlog, hwp, hdirty]
  by_cases hd : (s.entries e).dirty ≠ 0
  · obtain ⟨hwp0, hlog0⟩ := hf.page e he hd
    refine ⟨_, fun watched => (if_pos hd).trans (Flushing.call_ok (allocateFreePage_eq hwp0 hlog0)
      fun _ x hx => absurd hx List.not_mem_nil), ?_, rfl, fun _ => ?_⟩
    · rw [if_pos hd]
    · dsimp only
      rw [update_same]
      dsimp only
      rw [active_setActive, h.active hlog0, List.filter_append, List.length_append,
        List.filter_cons_of_pos (by simpa using hd)]
      norm_num
      omega
  · refine ⟨st, fun watched => if_neg hd, ?_, rfl, fun hlog0 => ?_⟩
    · rw [if_neg hd, List.append_nil]
    · rw [h.active hlog0, List.filter_append, List.filter_cons_of_neg (by simpa using hd),
        List.filter_nil, List.append_nil]

theorem uses_listed {l₁ l₂ : List Ptr} (hlist : ListIs .metadata t file (l₁ ++ e :: l₂)) {x : Ptr}
    (hx : x ∈ (FlushCall.removeMetadataPage e).uses file t) : x ∈ l₁ ++ e :: l₂ := by
  obtain ⟨-, h₁, h₂⟩ := Dll.at_iff.mp hlist
  change Seg _ _ 0 0 (t.files file).metadataHead l₁ (t.entries e).fileMetadataPrev e at h₁
  change Seg _ _ 0 e (t.entries e).fileMetadataNext l₂ (t.files file).metadataTail 0 at h₂
  rcases List.mem_cons.mp hx with rfl | hx
  · simp
  · rcases List.mem_append.mp hx with hx | hx
    · split at hx
      · cases hx
      · rename_i hhead
        have hl₁ : l₁ ≠ [] := by
          intro hnil
          subst hnil
          exact hhead h₁.1.symm
        rw [List.mem_singleton.mp hx]
        exact List.mem_append_left _ (h₁.last_mem hl₁)
    · split at hx
      · cases hx
      · rename_i htail
        have hl₂ : l₂ ≠ [] := by
          intro hnil
          subst hnil
          exact htail h₂.2.symm
        rw [List.mem_singleton.mp hx]
        exact List.mem_append_right _ (List.mem_cons_of_mem _ (h₂.first_mem hl₂))

theorem filter_ne_middle {l₁ l₂ : List Ptr} (hnd : (l₁ ++ e :: l₂).Nodup) :
    (l₁ ++ e :: l₂).filter (· ≠ e) = l₁ ++ l₂ := by
  rw [List.nodup_middle, List.nodup_cons] at hnd
  rw [List.filter_append, List.filter_cons_of_neg (by simp), ← List.filter_append]
  exact List.filter_eq_self.mpr fun x hx => decide_eq_true fun hxe => hnd.1 (hxe ▸ hx)

theorem filter_notMem_concat (l done : List Ptr) (e : Ptr) :
    l.filter (· ∉ done ++ [e]) = (l.filter (· ∉ done)).filter (· ≠ e) := by
  rw [List.filter_filter]
  refine List.filter_congr fun x _ => ?_
  by_cases hx : x = e
  · simp [hx]
  · simp [hx]

theorem filter_dropped (bin dropped : List Ptr) (e : Ptr) (p : Prop) [Decidable p] :
    bin.filter (· ∉ if p then e :: dropped else dropped) =
      (bin.filter (· ∉ dropped)).filter fun x => ¬ (x = e ∧ p) := by
  rw [List.filter_filter]
  refine List.filter_congr fun x _ => ?_
  by_cases hp : p
  · by_cases hx : x = e
    · simp [hp, hx]
    · simp [hp, hx]
  · simp [hp]

/-- What the cache reads of a memory in which the entries of `dropped` have left the
    table. -/
structure TableLeft (s : Mem) (file : Ptr) (bins : Nat → List Ptr) (dropped : List Ptr)
    (t : Mem) : Prop where
  table : Table t fun b => (bins b).filter (· ∉ dropped)
  keys : t.keys = s.keys
  entry : ∀ e, (t.entries e).key = (s.entries e).key ∧ (t.entries e).wp = (s.entries e).wp ∧
    (t.entries e).dirty = (s.entries e).dirty
  address : ∀ f, (t.files f).address = (s.files f).address
  log : (t.files file).mainExtentLog = (s.files file).mainExtentLog
  maxSize : t.cache.maxSize = s.cache.maxSize

theorem FlushInv.tableLeft (h : FlushInv s file bins l st done dropped)
    (hmem : t = { st.mem with pages := t.pages, logs := t.logs }) :
    TableLeft s file bins dropped t := by
  rw [hmem]
  refine ⟨?_, h.keys, h.entry, h.address, h.log, h.maxSize⟩
  exact h.table.congr rfl (fun _ => rfl) rfl (le_refl _) (fun _ => rfl) (fun _ _ _ => rfl)
    fun _ _ _ => rfl

theorem TableLeft.edit (h : TableLeft s file bins dropped t)
    (hedit : ListEdit .metadata file t t') : TableLeft s file bins dropped t' := by
  have hentry : ∀ x, (t'.entries x).key = (t.entries x).key ∧
      (t'.entries x).wp = (t.entries x).wp ∧ (t'.entries x).dirty = (t.entries x).dirty ∧
      (t'.entries x).next = (t.entries x).next := by
    intro x
    obtain ⟨n, p, hx⟩ := hedit.entry x
    rw [hx]
    exact ⟨rfl, rfl, rfl, rfl⟩
  have hfiles : ∀ f, (t'.files f).address = (t.files f).address ∧
      (t'.files f).mainExtentLog = (t.files f).mainExtentLog := by
    intro f
    by_cases hff : f = file
    · obtain ⟨a, b, hends⟩ := hedit.ends
      rw [hff, hends]
      exact ⟨rfl, rfl⟩
    · rw [hedit.file f hff]
      exact ⟨rfl, rfl⟩
  refine ⟨?_, hedit.keys.trans h.keys, fun x => ?_, fun f => (hfiles f).1.trans (h.address f),
    (hfiles file).2.trans h.log, by rw [hedit.cache, h.maxSize]⟩
  · exact h.table.congr hedit.keys (fun f => (hfiles f).1) (by rw [hedit.cache])
      (le_of_eq hedit.brk.symm) (fun b => by rw [hedit.cache]) (fun _ x _ => (hentry x).1)
      fun _ x _ => (hentry x).2.2.2
  · obtain ⟨hkey, hwp, hdirty, -⟩ := hentry x
    obtain ⟨hkey', hwp', hdirty'⟩ := h.entry x
    exact ⟨hkey.trans hkey', hwp.trans hwp', hdirty.trans hdirty'⟩

theorem TableLeft.binOf_eq (h : TableLeft s file bins dropped t) (x : Ptr) :
    cacheHash t (t.entries x).key = binOf s x := by
  rw [cacheHash_frame h.keys h.address h.maxSize, (h.entry x).1, binOf]

theorem TableLeft.remove (h : TableLeft s file bins dropped t)
    (he : e ∈ (bins (binOf s e)).filter (· ∉ dropped)) :
    ∃ t', cacheRemove t e = .ok t' ∧ t' = { t with cache := t'.cache } ∧
      TableLeft s file bins (if IsFront s bins dropped e then e :: dropped else dropped) t' := by
  obtain ⟨t', hok, hmem, hmax, htable⟩ := cacheRemove_table h.table (by
    rw [h.binOf_eq]
    exact he)
  refine ⟨t', hok, hmem, ?_, ?_, ?_, ?_, ?_, hmax.trans h.maxSize⟩
  · rw [h.binOf_eq] at htable
    have hsame := fun b => filter_dropped (bins b) dropped e (IsFront s bins dropped e)
    rw [funext hsame]
    exact htable
  · rw [hmem]
    exact h.keys
  · rw [hmem]
    exact h.entry
  · rw [hmem]
    exact h.address
  · rw [hmem]
    exact h.log

theorem FlushInv.freed_allocate (h : FlushInv s file bins l st done dropped) {st₁ : Flushing}
    (hcalls : st₁.calls = st.calls ++ (if (s.entries e).dirty ≠ 0 then
      [.allocateFreePage (s.entries e).wp (s.files file).mainExtentLog] else []))
    {x : Ptr} (hx : st₁.Freed x) : x ∈ done := by
  unfold Flushing.Freed at hx
  rw [hcalls] at hx
  rcases List.mem_append.mp hx with hx | hx
  · exact h.freed_iff.mp hx
  · split at hx
    · simp at hx
    · cases hx

/-- An entry that is flushed leaves the list, and the table too if it is the first one
    left in its bin. A watched flush of it goes through if the first one is not freed. -/
theorem FlushInv.step (h : FlushInv s file bins l st done dropped)
    (hf : Flushable s file bins l) (he : e ∈ l) (hnot : e ∉ done) :
    ∃ st₁, FlushInv s file bins l st₁ (done ++ [e])
        (if IsFront s bins dropped e then e :: dropped else dropped) ∧
      ∀ watched, (watched = true → ∀ c,
        ((bins (binOf s e)).filter (· ∉ dropped)).head? = some c → c ∉ done) →
        st.entry watched file e = .ok st₁ := by
  obtain ⟨st₁, halloc, hcalls, hmem, hactive⟩ := h.allocate hf he
  have hin : e ∈ l.filter (· ∉ done) := List.mem_filter.mpr ⟨he, decide_eq_true hnot⟩
  obtain ⟨l₁, l₂, hsplit⟩ := List.append_of_mem hin
  have hlist₁ : ListIs .metadata st₁.mem file (l₁ ++ e :: l₂) := by
    rw [hmem, ← hsplit]
    exact h.list
  obtain ⟨t₂, hrem, hlist₂, hedit, -⟩ := remove_listed hf.notNull hlist₁
  have hleft₂ : TableLeft s file bins dropped t₂ := (h.tableLeft hmem).edit hedit
  obtain ⟨b, hb⟩ := hf.linked e he
  have hin₂ : e ∈ (bins (binOf s e)).filter (· ∉ dropped) := by
    rw [show binOf s e = b from (hf.table.hashed b e hb).2]
    exact List.mem_filter.mpr ⟨hb, decide_eq_true fun hd => hnot (h.sub e hd)⟩
  obtain ⟨t₃, hcache, hmem₃, hleft₃⟩ := hleft₂.remove hin₂
  refine ⟨{ mem := t₃, calls := st.calls ++ entryCalls s file e }, ?_, fun watched hfront => ?_⟩
  · refine ⟨?_, hleft₃.table, fun x hx => ?_, ?_, hleft₃.keys, hleft₃.entry, hleft₃.address,
      hleft₃.log, hleft₃.maxSize, fun hlog0 => ?_⟩
    · rw [filter_notMem_concat, hsplit, filter_ne_middle hlist₁.nodup, hmem₃]
      exact hlist₂
    · split at hx
      · rcases List.mem_cons.mp hx with rfl | hx
        · simp
        · exact List.mem_append_left _ (h.sub x hx)
      · exact List.mem_append_left _ (h.sub x hx)
    · rw [h.calls, List.flatMap_append, List.flatMap_singleton]
    · rw [hmem₃, hedit.logs]
      exact hactive hlog0
  · have hremove : st₁.call watched file (.removeMetadataPage e) =
        .ok { mem := t₂, calls := st₁.calls ++ [.removeMetadataPage e] } := by
      refine Flushing.call_ok hrem fun _ x hx hx' => ?_
      have hxl := uses_listed hlist₁ hx
      rw [← hsplit] at hxl
      exact of_decide_eq_true (List.mem_filter.mp hxl).2 (h.freed_allocate hcalls hx')
    have hcacheRemove : Flushing.call watched file
        { mem := t₂, calls := st₁.calls ++ [.removeMetadataPage e] } (.cacheRemove e) =
        .ok { mem := t₃, calls := st₁.calls ++ [.removeMetadataPage e] ++ [.cacheRemove e] } := by
      refine Flushing.call_ok hcache fun hw x hx hx' => ?_
      have hdone : x ∈ done := by
        apply h.freed_allocate hcalls
        rcases List.mem_append.mp hx' with hx' | hx'
        · exact hx'
        · simp at hx'
      rcases List.mem_cons.mp hx with rfl | hx
      · exact hnot hdone
      · -- the first entry of the bin, whose key is compared
        rw [List.mem_singleton.mp hx, hleft₂.binOf_eq, hleft₂.table.head_eq] at hdone
        obtain ⟨c, l', hc⟩ := List.exists_cons_of_ne_nil (List.ne_nil_of_mem hin₂)
        rw [hc] at hdone
        refine hfront hw c ?_ hdone
        rw [hc]
        rfl
    have hcallsEq : entryCalls s file e = (if (s.entries e).dirty ≠ 0 then
        [.allocateFreePage (s.entries e).wp (s.files file).mainExtentLog] else []) ++
        [.removeMetadataPage e, .cacheRemove e] := rfl
    rw [Flushing.entry, halloc watched, ok_bind, hremove, ok_bind, hcacheRemove, hcallsEq, hcalls]
    simp

end

/-! ## All entries -/

section
variable {s : Mem} {bins : Nat → List Ptr} {file e x : Ptr}
  {l done dropped es pre post l₁ l₂ : List Ptr} {st st' : Flushing} {watched : Bool}
  {lvl : Int} {fuel steps : Nat}

theorem Flushing.call_unwatched {c : FlushCall} (h : st.call watched file c = .ok st') :
    st.call false file c = .ok st' := by
  unfold Flushing.call at h ⊢
  rw [if_neg (by simp)]
  split at h
  · cases h
  · exact h

theorem Flushing.entry_unwatched (h : st.entry watched file e = .ok st') :
    st.entry false file e = .ok st' := by
  obtain ⟨st₁, hfirst, h⟩ := bind_eq_ok.mp h
  obtain ⟨st₂, hlist, htable⟩ := bind_eq_ok.mp h
  refine bind_eq_ok.mpr ⟨st₁, ?_, bind_eq_ok.mpr
    ⟨st₂, call_unwatched hlist, call_unwatched htable⟩⟩
  by_cases hd : (st.mem.entries e).dirty ≠ 0
  · rw [if_pos hd] at hfirst ⊢
    exact call_unwatched hfirst
  · rw [if_neg hd] at hfirst ⊢
    exact hfirst

theorem FlushInv.entry_inv (h : FlushInv s file bins l st done dropped)
    (hf : Flushable s file bins l) (he : e ∈ l) (hnot : e ∉ done)
    (hstep : st.entry watched file e = .ok st') :
    FlushInv s file bins l st' (done ++ [e])
      (if IsFront s bins dropped e then e :: dropped else dropped) := by
  obtain ⟨st₁, h₁, hok⟩ := h.step hf he hnot
  have hsame := hok false (fun hw => by cases hw)
  obtain rfl := Except.ok.inj (hsame.symm.trans (Flushing.entry_unwatched hstep))
  exact h₁

/-- Each of the entries is the first one left in its bin when it is flushed. -/
def AllFront (s : Mem) (bins : Nat → List Ptr) : List Ptr → List Ptr → Prop
  | _, [] => True
  | dropped, e :: es => IsFront s bins dropped e ∧ AllFront s bins (e :: dropped) es

theorem FlushInv.run (hf : Flushable s file bins l) (h : FlushInv s file bins l st done dropped)
    (hes : ∀ e ∈ es, e ∈ l ∧ e ∉ done) (hnd : es.Nodup) :
    ∃ st', outcome (Flushing.entry false file) st es = .ok st' ∧
      FlushInv s file bins l st' (done ++ es) (dropAfter s bins dropped es) ∧
      ((∀ x ∈ done, x ∈ dropped) → AllFront s bins dropped es →
        outcome (Flushing.entry true file) st es = .ok st') := by
  induction es generalizing st done dropped with
  | nil => exact ⟨st, rfl, by rw [List.append_nil]; exact h, fun _ _ => rfl⟩
  | cons e es ih =>
    obtain ⟨hnin, hnd⟩ := List.nodup_cons.mp hnd
    obtain ⟨he, hnot⟩ := hes e List.mem_cons_self
    obtain ⟨st₁, h₁, hok⟩ := h.step hf he hnot
    obtain ⟨st', hrun, h', hwatched⟩ := ih h₁ (fun x hx => by
      obtain ⟨hxl, hxd⟩ := hes x (List.mem_cons_of_mem _ hx)
      have hxe : x ≠ e := fun hxe => hnin (hxe ▸ hx)
      exact ⟨hxl, by simp [hxd, hxe]⟩) hnd
    refine ⟨st', outcome_cons_eq_ok.mpr ⟨st₁, hok false (fun hw => by cases hw), hrun⟩, ?_,
      fun hall hfront => ?_⟩
    · rw [List.append_assoc] at h'
      exact h'
    · obtain ⟨hfirst, hfront⟩ := hfront
      rw [if_pos hfirst] at hwatched
      refine outcome_cons_eq_ok.mpr ⟨st₁, hok true fun _ c hc hdone => ?_, hwatched ?_ hfront⟩
      · have hmem := List.mem_of_mem_head? (Option.mem_def.mpr hc)
        exact of_decide_eq_true (List.mem_filter.mp hmem).2 (hall c hdone)
      · intro x hx
        rcases List.mem_append.mp hx with hx | hx
        · exact List.mem_cons_of_mem _ (hall x hx)
        · exact List.mem_cons.mpr (.inl (List.mem_singleton.mp hx))

theorem FlushInv.run_inv (hf : Flushable s file bins l)
    (h : FlushInv s file bins l st done dropped) (hes : ∀ e ∈ es, e ∈ l ∧ e ∉ done)
    (hnd : es.Nodup) (hrun : outcome (Flushing.entry watched file) st es = .ok st') :
    FlushInv s file bins l st' (done ++ es) (dropAfter s bins dropped es) ∧
      outcome (Flushing.entry false file) st es = .ok st' := by
  have hsame : ∀ {es st}, outcome (Flushing.entry watched file) st es = .ok st' →
      outcome (Flushing.entry false file) st es = .ok st' := by
    intro es
    induction es with
    | nil => exact fun h => h
    | cons e es ih =>
      intro st hrun
      obtain ⟨st₁, hstep, hrun⟩ := outcome_cons_eq_ok.mp hrun
      exact outcome_cons_eq_ok.mpr ⟨st₁, Flushing.entry_unwatched hstep, ih hrun⟩
  obtain ⟨st'', hrun', h', -⟩ := h.run hf hes hnd
  obtain rfl := Except.ok.inj (hrun'.symm.trans (hsame hrun))
  exact ⟨h', hrun'⟩

/-! ## The loops -/

/-- The walk for a level, from the part `r` of the list on, flushes the entries of the
    level in it. -/
theorem FlushInv.level_eq (hf : Flushable s file bins l)
    (h : FlushInv s file bins l st done dropped) {k r : List Ptr}
    (hsplit : l.filter (· ∉ done) = k ++ r) (hfuel : r.length < fuel) :
    Flushing.level watched file lvl fuel st (r.head?.getD 0) =
      outcome (Flushing.entry watched file) st (r.filter fun e => levelOf s e = lvl) := by
  induction r generalizing st done dropped k fuel with
  | nil =>
    obtain ⟨fuel, rfl⟩ := Nat.exists_eq_succ_of_ne_zero (Nat.ne_of_gt hfuel)
    rw [Flushing.level, if_pos (show ([] : List Ptr).head?.getD 0 = 0 from rfl)]
    rfl
  | cons e r ih =>
    obtain ⟨fuel, rfl⟩ := Nat.exists_eq_succ_of_ne_zero (Nat.ne_of_gt (Nat.zero_lt_of_lt hfuel))
    have hfuel : r.length < fuel := Nat.lt_of_succ_lt_succ hfuel
    have hlist := h.list
    rw [hsplit] at hlist
    obtain ⟨he0, -, hseg⟩ := Dll.at_iff.mp hlist
    have hnext : (st.mem.entries e).fileMetadataNext = r.head?.getD 0 := by
      cases r with
      | nil => exact hseg.1
      | cons a r => exact hseg.1
    have hmem : e ∈ l.filter (· ∉ done) := by
      rw [hsplit]
      simp
    obtain ⟨he, hnot⟩ := List.mem_filter.mp hmem
    have hnot : e ∉ done := of_decide_eq_true hnot
    have hlevel : (st.mem.keys (st.mem.entries e).key).levelsAbove = levelOf s e := by
      rw [h.keys, (h.entry e).1, levelOf]
    have hcur : (e :: r).head?.getD 0 = e := rfl
    rw [hcur, Flushing.level, if_neg he0, if_neg (fun hw => hnot (h.freed_iff.mp hw.2)), hlevel,
      hnext]
    by_cases hl : levelOf s e = lvl
    · rw [if_pos hl, List.filter_cons_of_pos (by simpa using hl), outcome]
      cases hstep : st.entry watched file e with
      | error fault => rfl
      | ok st₁ =>
        have h₁ := h.entry_inv hf he hnot hstep
        have hsplit₁ : l.filter (· ∉ done ++ [e]) = k ++ r := by
          rw [filter_notMem_concat, hsplit, filter_ne_middle hlist.nodup]
        exact ih h₁ hsplit₁ hfuel
    · rw [if_neg hl, List.filter_cons_of_neg (by simpa using hl), ok_bind]
      exact ih h (k := k ++ [e]) (by rw [hsplit]; simp) hfuel

theorem FlushInv.levels_eq (hf : Flushable s file bins l)
    (h : FlushInv s file bins l st done dropped) (hfuel : l.length < fuel)
    (hdone : ∀ e ∈ l, e ∈ done ↔ levelOf s e < lvl) :
    Flushing.levels watched file fuel lvl steps st =
      outcome (Flushing.entry watched file) st
        ((List.range steps).flatMap fun i : Nat => l.filter fun e => levelOf s e = lvl + i) := by
  induction steps generalizing st done dropped lvl with
  | zero => rfl
  | succ steps ih =>
    have hhead : (st.mem.files file).metadataHead = (l.filter (· ∉ done)).head?.getD 0 := by
      have hlist := h.list
      cases hl : l.filter (· ∉ done) with
      | nil =>
        rw [hl] at hlist
        exact hlist.1
      | cons a r =>
        rw [hl] at hlist
        exact hlist.head_eq
    have hlen : (l.filter (· ∉ done)).length < fuel :=
      lt_of_le_of_lt (List.length_filter_le _ _) hfuel
    have hthis : (l.filter (· ∉ done)).filter (fun e => levelOf s e = lvl) =
        l.filter fun e => levelOf s e = lvl := by
      rw [List.filter_filter]
      refine List.filter_congr fun e he => ?_
      by_cases hl : levelOf s e = lvl
      · have hnot : e ∉ done := fun hd => absurd ((hdone e he).mp hd) (by omega)
        simp [hl, hnot]
      · simp [hl]
    rw [Flushing.levels, hhead, h.level_eq hf (k := []) rfl hlen, hthis, List.range_succ_eq_map,
      List.flatMap_cons, outcome_append, List.flatMap_map]
    simp only [Nat.cast_zero, add_zero]
    cases hrun : outcome (Flushing.entry watched file) st
        (l.filter fun e => levelOf s e = lvl) with
    | error fault => rfl
    | ok st₁ =>
      have hnd : l.Nodup := by
        have := hf.list.nodup
        exact this
      obtain ⟨h₁, -⟩ := h.run_inv hf (fun e he => by
        obtain ⟨he, hl⟩ := List.mem_filter.mp he
        have hl : levelOf s e = lvl := of_decide_eq_true hl
        exact ⟨he, fun hd => absurd ((hdone e he).mp hd) (by omega)⟩) (hnd.filter _) hrun
      rw [ok_bind, ok_bind, ih h₁ fun e he => ?_]
      · congr 2
        funext i
        refine List.filter_congr fun e _ => ?_
        simp only [decide_eq_decide]
        push_cast
        omega
      · rw [List.mem_append, List.mem_filter, hdone e he]
        simp only [he, true_and, decide_eq_true_eq]
        omega

/-! ## The order -/

theorem mem_flushOrder (hf : Flushable s file bins l) : e ∈ flushOrder s file l ↔ e ∈ l := by
  unfold flushOrder
  rw [List.mem_flatMap]
  constructor
  · intro he
    obtain ⟨i, -, he⟩ := he
    exact List.mem_of_mem_filter he
  · intro he
    obtain ⟨hlow, hhigh⟩ := hf.level e he
    refine ⟨(levelOf s e - 1).toNat, List.mem_range.mpr (by omega),
      List.mem_filter.mpr ⟨he, decide_eq_true ?_⟩⟩
    omega

theorem nodup_flushOrder (hf : Flushable s file bins l) : (flushOrder s file l).Nodup := by
  have hnd : l.Nodup := hf.list.nodup
  unfold flushOrder
  rw [List.nodup_flatMap]
  refine ⟨fun i _ => hnd.filter _, ?_⟩
  refine List.nodup_range.imp fun {i j} hij => ?_
  intro e hi hj
  have hi := of_decide_eq_true (List.mem_filter.mp hi).2
  have hj := of_decide_eq_true (List.mem_filter.mp hj).2
  omega

/-- An entry is the first one left exactly if all in front of it have left. -/
theorem isFront_iff (hnd : (bins (binOf s e)).Nodup) (hnot : e ∉ dropped)
    (hbin : bins (binOf s e) = l₁ ++ e :: l₂) :
    IsFront s bins dropped e ↔ ∀ x ∈ l₁, x ∈ dropped := by
  have hkeep : (e :: l₂).filter (· ∉ dropped) = e :: l₂.filter (· ∉ dropped) :=
    List.filter_cons_of_pos (decide_eq_true hnot)
  unfold IsFront
  rw [hbin, List.filter_append, hkeep]
  constructor
  · intro hfirst x hx
    by_contra hxd
    have hmem : x ∈ l₁.filter (· ∉ dropped) := List.mem_filter.mpr ⟨hx, decide_eq_true hxd⟩
    obtain ⟨a, m, hm⟩ := List.exists_cons_of_ne_nil (List.ne_nil_of_mem hmem)
    rw [hm] at hfirst
    have hae : a = e := Option.some.inj hfirst
    have ha : a ∈ l₁ := List.mem_of_mem_filter (hm ▸ List.mem_cons_self : a ∈ l₁.filter _)
    rw [hbin, List.nodup_middle, List.nodup_cons] at hnd
    exact hnd.1 (hae ▸ List.mem_append_left _ ha)
  · intro hall
    have hnil : l₁.filter (· ∉ dropped) = [] :=
      List.filter_eq_nil_iff.mpr fun x hx => by simpa using hall x hx
    rw [hnil]
    rfl

theorem dropAfter_sub (hx : x ∈ dropAfter s bins dropped es) : x ∈ dropped ∨ x ∈ es := by
  induction es generalizing dropped with
  | nil => exact .inl hx
  | cons e es ih =>
    rcases ih hx with h | h
    · split at h
      · rcases List.mem_cons.mp h with rfl | h
        · exact .inr List.mem_cons_self
        · exact .inl h
      · exact .inl h
    · exact .inr (List.mem_cons_of_mem _ h)

theorem sub_dropAfter (hx : x ∈ dropped) : x ∈ dropAfter s bins dropped es := by
  induction es generalizing dropped with
  | nil => exact hx
  | cons e es ih =>
    apply ih
    split
    · exact List.mem_cons_of_mem _ hx
    · exact hx

/-- All leave the table exactly if each is the first one left when it is flushed. -/
theorem dropAfter_all_iff (hnd : es.Nodup) (hdis : ∀ e ∈ es, e ∉ dropped) :
    (∀ e ∈ es, e ∈ dropAfter s bins dropped es) ↔ AllFront s bins dropped es := by
  induction es generalizing dropped with
  | nil => simp [AllFront]
  | cons e es ih =>
    obtain ⟨hnin, hnd⟩ := List.nodup_cons.mp hnd
    have hnot := hdis e List.mem_cons_self
    have hrest : ∀ x ∈ es, x ∉ e :: dropped := by
      intro x hx hxd
      rcases List.mem_cons.mp hxd with rfl | hxd
      · exact hnin hx
      · exact hdis x (List.mem_cons_of_mem _ hx) hxd
    by_cases hfirst : IsFront s bins dropped e
    · rw [AllFront, dropAfter, if_pos hfirst, ← ih hnd hrest]
      constructor
      · exact fun h => ⟨hfirst, fun x hx => h x (List.mem_cons_of_mem _ hx)⟩
      · intro h x hx
        rcases List.mem_cons.mp hx with rfl | hx
        · exact sub_dropAfter List.mem_cons_self
        · exact h.2 x hx
    · refine iff_of_false (fun h => ?_) fun h => hfirst h.1
      have he := h e List.mem_cons_self
      rw [dropAfter, if_neg hfirst] at he
      rcases dropAfter_sub he with he | he
      · exact hnot he
      · exact hnin he

theorem pair_sublist_iff (hnd : (pre ++ e :: post).Nodup) :
    [x, e].Sublist (pre ++ e :: post) ↔ x ∈ pre := by
  constructor
  · intro hsub
    obtain ⟨a, b, hab, ha, hb⟩ := List.sublist_append_iff.mp hsub
    have hpost : e ∉ post := by
      rw [List.nodup_middle, List.nodup_cons] at hnd
      exact fun h => hnd.1 (List.mem_append_right _ h)
    cases a with
    | nil =>
      rw [List.nil_append] at hab
      rw [← hab] at hb
      -- the entry would stand behind itself
      have hmem : e ∈ post := by
        cases hb with
        | cons _ hb => exact hb.subset (by simp)
        | cons_cons _ hb => exact hb.subset (by simp)
      exact absurd hmem hpost
    | cons y a =>
      obtain ⟨hy, -⟩ := List.cons.inj hab
      rw [hy]
      exact ha.subset List.mem_cons_self
  · intro hx
    have hone : [x].Sublist pre := List.singleton_sublist.mpr hx
    have htwo : [e].Sublist (e :: post) := List.singleton_sublist.mpr List.mem_cons_self
    exact hone.append htwo

/-- Flushing in the order, each entry is the first one left in its bin exactly if every
    entry in front of one is flushed before it. -/
theorem allFront_iff (hf : Flushable s file bins l) {pre es : List Ptr}
    (horder : flushOrder s file l = pre ++ es) (hdropped : ∀ x, x ∈ dropped ↔ x ∈ pre) :
    AllFront s bins dropped es ↔ ∀ e ∈ es, ∀ b l₁ l₂, bins b = l₁ ++ e :: l₂ →
      ∀ x ∈ l₁, [x, e].Sublist (flushOrder s file l) := by
  have hndo := nodup_flushOrder hf
  induction es generalizing pre dropped with
  | nil => simp [AllFront]
  | cons e es ih =>
    have hsplit : pre ++ e :: es = (pre ++ [e]) ++ es := by simp
    have hel : e ∈ l := (mem_flushOrder hf).mp (by rw [horder]; simp)
    obtain ⟨b, hb⟩ := hf.linked e hel
    have hbin : ∀ {b l₁ l₂}, bins b = l₁ ++ e :: l₂ → b = binOf s e := by
      intro b l₁ l₂ hsp
      exact (hf.table.hashed b e (by rw [hsp]; simp)).2.symm
    obtain ⟨l₁, l₂, hsp⟩ := List.append_of_mem hb
    obtain rfl := hbin hsp
    have hnd : (bins (binOf s e)).Nodup := Chain.nodup (hf.table.walk _)
    have hnot : e ∉ dropped := by
      rw [hdropped]
      rw [horder, List.nodup_middle, List.nodup_cons, List.mem_append, not_or] at hndo
      exact hndo.1.1
    have hfirst : IsFront s bins dropped e ↔ ∀ b l₁ l₂, bins b = l₁ ++ e :: l₂ →
        ∀ x ∈ l₁, [x, e].Sublist (flushOrder s file l) := by
      constructor
      · intro hfr b m₁ m₂ hm x hx
        obtain rfl := hbin hm
        rw [horder]
        rw [horder] at hndo
        exact (pair_sublist_iff hndo).mpr
          ((hdropped x).mp ((isFront_iff hnd hnot hm).mp hfr x hx))
      · intro hall
        refine (isFront_iff hnd hnot hsp).mpr fun x hx => (hdropped x).mpr ?_
        have hsub := hall _ l₁ l₂ hsp x hx
        rw [horder] at hsub hndo
        exact (pair_sublist_iff hndo).mp hsub
    have hnew : ∀ x, x ∈ e :: dropped ↔ x ∈ pre ++ [e] := by
      intro x
      rw [List.mem_cons, List.mem_append, hdropped, List.mem_singleton, or_comm]
    rw [List.forall_mem_cons]
    exact and_congr hfirst (ih (horder.trans hsplit) hnew)

end

/-- **A flush is complete and bottom-up, but for the table.** For every file whose
    metadata list has its own entries of the table, on levels below the height of its
    tree, `fs_flushMetadataPages` returns, with an empty list; it has removed every entry
    once, level by level and in the order of the list, and allocated one page for each
    dirty one. All entries have left the table as well, and no entry was used after it
    was freed, exactly if every entry in front of one of them in its bin is flushed
    before it. -/
theorem flushMetadata_iff {s : Mem} {file : Ptr} {bins : Nat → List Ptr} {l : List Ptr}
    (hf : Flushable s file bins l) {fuel : Nat} (hfuel : l.length < fuel) :
    (∃ st, flushCalls false s file fuel = .ok st ∧
      fsFlushMetadataPages s file fuel = .ok st.mem ∧ ListFlushed s file l st) ∧
    ((∃ st, flushCalls true s file fuel = .ok st ∧ ListFlushed s file l st ∧
      ∀ e ∈ l, ¬ InTable st.mem e) ↔ FrontFirst s file bins l) := by
  have hinit : FlushInv s file bins l { mem := s, calls := [] } [] [] := by
    refine ⟨by simpa using hf.list, by simpa using hf.table, by simp, rfl, rfl,
      fun _ => ⟨rfl, rfl, rfl⟩, fun _ => rfl, rfl, rfl, fun _ => ?_⟩
    simp [LogHeader.active, Buf.uint]
  have hrun : ∀ watched, flushCalls watched s file fuel =
      outcome (Flushing.entry watched file) { mem := s, calls := [] } (flushOrder s file l) := by
    intro watched
    rw [flushCalls, if_neg hf.notNull, hinit.levels_eq hf hfuel fun e he => ?_]
    · rfl
    · have hlow := (hf.level e he).1
      simp only [List.not_mem_nil, false_iff]
      omega
  have hmem : ∀ e, e ∈ flushOrder s file l ↔ e ∈ l := fun e => mem_flushOrder hf
  have hnd := nodup_flushOrder hf
  obtain ⟨st, hout, hinv, hwatched⟩ := hinit.run hf
    (fun e he => ⟨(hmem e).mp he, List.not_mem_nil⟩) hnd
  rw [List.nil_append] at hinv
  have hlist : ListFlushed s file l st := by
    have hempty : l.filter (· ∉ flushOrder s file l) = [] :=
      List.filter_eq_nil_iff.mpr fun e he => by simpa using (hmem e).mpr he
    have hnil := hinv.list
    rw [hempty] at hnil
    refine ⟨hnil.1, hnil.2, hinv.calls, fun hlog => ?_⟩
    have hperm : (flushOrder s file l).Perm l :=
      (List.perm_ext_iff_of_nodup hnd hf.list.nodup).mpr hmem
    rw [hinv.active hlog, (hperm.filter _).length_eq]
  have hcalls : flushCalls false s file fuel = .ok st := (hrun false).trans hout
  refine ⟨⟨st, hcalls, flushCalls_mem hcalls, hlist⟩, ?_⟩
  -- an entry has left the table if it was the first one left in its bin
  have hleft : (∀ e ∈ l, ¬ InTable st.mem e) ↔
      ∀ e ∈ flushOrder s file l, e ∈ dropAfter s bins [] (flushOrder s file l) := by
    constructor
    · intro hout e he
      by_contra hnot
      obtain ⟨b, hb⟩ := hf.linked e ((hmem e).mp he)
      exact hout e ((hmem e).mp he) (hinv.table.inTable_iff.mpr
        ⟨b, List.mem_filter.mpr ⟨hb, decide_eq_true hnot⟩⟩)
    · intro hall e he hin
      obtain ⟨b, hb⟩ := hinv.table.inTable_iff.mp hin
      exact of_decide_eq_true (List.mem_filter.mp hb).2 (hall e ((hmem e).mpr he))
  have hfront : FrontFirst s file bins l ↔ AllFront s bins [] (flushOrder s file l) := by
    have hall : AllFront s bins [] (flushOrder s file l) ↔ _ :=
      allFront_iff hf (List.nil_append _).symm fun _ => Iff.rfl
    rw [hall]
    exact forall_congr' fun e => by rw [hmem]
  rw [hfront, ← dropAfter_all_iff hnd (by simp), ← hleft]
  constructor
  · intro h
    obtain ⟨st', hst', -, htable⟩ := h
    rw [hrun] at hst'
    obtain ⟨-, hsame⟩ := hinit.run_inv hf
      (fun e he => ⟨(hmem e).mp he, List.not_mem_nil⟩) hnd hst'
    obtain rfl := Except.ok.inj (hsame.symm.trans hout)
    exact htable
  · intro htable
    have hall := (dropAfter_all_iff hnd (by simp)).mp (hleft.mp htable)
    exact ⟨st, (hrun true).trans (hwatched (by simp) hall), hlist, htable⟩

/-- Three metadata pages of one level and one bin, of the numbers 11, 2 and 6, on the
    list of the file in the order `x`, `y`, `z`. -/
def collidingPages (x y z : Ptr) : Mem :=
  { (default : Mem) with
    keys := fun p => { file := 1, dataOffset := if p = 10 then 10 else if p = 11 then 1 else 5
                       levelsAbove := 1 }
    entries := fun p => { freshEntry p 1 with
      next := if p = 10 then 11 else if p = 11 then 12 else 0
      fileMetadataNext := if p = x then y else if p = y then z else 0
      fileMetadataPrev := if p = z then y else if p = y then x else 0 }
    files := fun _ => { (default : OpenFile) with
      treeHeight := 2, metadataHead := x, metadataTail := z }
    brk := 12
    cache := { maxSize := 4, size := 3, table := fun b => if b = 3 then 10 else 0
               lruDataHead := 0, lruDataTail := 0 } }

def threeBins : Nat → List Ptr := fun b => if b = 3 then [10, 11, 12] else []

theorem collidingPages_table (x y z : Ptr) : Table (collidingPages x y z) threeBins := by
  set s := collidingPages 0 0 0
  have hcase : ∀ P : Nat → List Ptr → Ptr → Prop, P 3 [10, 11, 12] 10 → (∀ b, P b [] 0) →
      ∀ b, P b (threeBins b) (s.cache.table b) := by
    intro P h3 hother b
    by_cases hb : b = 3
    · subst hb
      exact h3
    · have hbin : threeBins b = [] := if_neg hb
      have htable : s.cache.table b = 0 := if_neg hb
      rw [hbin, htable]
      exact hother b
  have htable : Table s threeBins := by
    refine ⟨?_, ?_, ?_, ?_⟩
    · exact hcase (fun _ l p => Walk (fun e => (s.entries e).next) 0 p l) (by decide)
        fun _ => Walk.nil_iff.mpr rfl
    · exact hcase (fun _ l _ => l.Pairwise fun e e' => entryStr s e < entryStr s e') (by decide)
        fun _ => List.Pairwise.nil
    · exact hcase (fun b l _ => ∀ e ∈ l, (s.entries e).key ≠ 0 ∧ cacheHash s (s.entries e).key = b)
        (by decide) fun _ _ he => absurd he List.not_mem_nil
    · exact hcase (fun _ l _ => ∀ e ∈ l, e ≤ s.brk) (by decide)
        fun _ _ he => absurd he List.not_mem_nil
  exact htable.congr rfl (fun _ => rfl) rfl (le_refl _) (fun _ => rfl) (fun _ _ _ => rfl)
    fun _ _ _ => rfl

theorem collidingPages_flushable {x y z : Ptr}
    (hlist : ListIs .metadata (collidingPages x y z) 1 [x, y, z])
    (hin : ∀ e ∈ [x, y, z], e ∈ threeBins 3) :
    Flushable (collidingPages x y z) 1 threeBins [x, y, z] where
  notNull := by decide
  list := hlist
  table := collidingPages_table x y z
  linked e he := ⟨3, hin e he⟩
  own _ _ := rfl
  level _ _ := ⟨le_refl _, show (1 : Int) < 2 by decide⟩
  page _ _ hd := absurd rfl hd

theorem inOrder_listed : ListIs .metadata (collidingPages 10 11 12) 1 [10, 11, 12] :=
  ⟨rfl, by decide, rfl, rfl, by decide, rfl, rfl, by decide, rfl, rfl, rfl⟩

/-- The pages are on the list as they are in the bin. -/
theorem flushMetadata_in_order :
    (∃ st, flushCalls false (collidingPages 10 11 12) 1 9 = .ok st ∧
      fsFlushMetadataPages (collidingPages 10 11 12) 1 9 = .ok st.mem ∧
      ListFlushed (collidingPages 10 11 12) 1 [10, 11, 12] st) ∧
    ∃ st, flushCalls true (collidingPages 10 11 12) 1 9 = .ok st ∧
      ListFlushed (collidingPages 10 11 12) 1 [10, 11, 12] st ∧
      ∀ e ∈ [10, 11, 12], ¬ InTable st.mem e := by
  obtain ⟨hflushed, hremoved⟩ :=
    flushMetadata_iff (collidingPages_flushable inOrder_listed (by decide)) (show 3 < 9 by decide)
  refine ⟨hflushed, hremoved.mpr fun e he b l₁ l₂ hbin x hx => ?_⟩
  have horder : flushOrder (collidingPages 10 11 12) 1 [10, 11, 12] = [10, 11, 12] := by decide
  rw [horder]
  -- the bin is the list
  have hb : [10, 11, 12] = l₁ ++ e :: l₂ := by
    unfold threeBins at hbin
    split at hbin
    · exact hbin
    · exact absurd hbin.symm (by simp)
  rw [hb]
  exact (List.singleton_sublist.mpr hx).append (List.singleton_sublist.mpr List.mem_cons_self)

/-- The second page of the bin is the first one of the list: it is freed and stays in
    the bin, the first page goes, and the removal of the third one reads it. -/
theorem flushMetadata_out_of_order :
    Flushable (collidingPages 11 10 12) 1 threeBins [11, 10, 12] ∧
    flushCalls true (collidingPages 11 10 12) 1 9 = .error .freed := by
  have hlist : ListIs .metadata (collidingPages 11 10 12) 1 [11, 10, 12] :=
    ⟨rfl, by decide, rfl, rfl, by decide, rfl, rfl, by decide, rfl, rfl, rfl⟩
  exact ⟨collidingPages_flushable hlist (by decide), rfl⟩

end Cycology.PageCache
