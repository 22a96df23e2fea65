import Cycology.CacheTable
import Cycology.Filesystem
import Cycology.Lib.Runs

/- The order in which data pages were last put into the cache.

   A run puts data pages (`putPageIntoCache`) and flushes files
   (`fs_flushDataPages`). Beside the memory it carries the entries that were put,
   the latest first, and the list from `lruDataHead` should hold those of them
   that are still in the table (`DataListed`).

   Two things break it. `putPageIntoCache` links every entry in at the head, also
   one that is on the list, and then the list runs in a circle; and `cache_remove`
   takes a flushed page out of the table but not off the list. While only files
   without data pages are flushed, the list is right throughout exactly if no page
   is put under a key that is cached (`data_listed_iff`). -/
namespace Cycology.PageCache
open ByteMem LinkedChain Runs.Fallible

/-! ## Runs -/

/-- The entry is in a bin of the table. -/
def InTable (s : Mem) (e : Ptr) : Prop :=
  ∃ b l, Walk (fun e => (s.entries e).next) 0 (s.cache.table b) l ∧ e ∈ l

/-- The entry is in the table and holds a data page. -/
def DataCached (s : Mem) (e : Ptr) : Prop :=
  InTable s e ∧ (s.keys (s.entries e).key).levelsAbove = 0

/-- The memory, and the entries put so far, the latest first. -/
structure Puts where
  mem : Mem
  order : List Ptr

inductive DataOp where
  | put (page key : Ptr)
  | flush (file : Ptr)
  deriving DecidableEq, Repr

def DataOp.exec (fuel : Nat) (c : Puts) : DataOp → Except Fault Puts
  | .put page key => do
    let (s, entry) ← putPageIntoCache c.mem page key fuel
    .ok { mem := s, order := entry :: c.order.erase entry }
  | .flush file => do
    let s ← fsFlushDataPages c.mem file fuel
    .ok { mem := s, order := c.order }

/-- The walk from the head lists the data entries in the table, each once, the
    latest put first, and ends at the tail. -/
def DataListed (c : Puts) : Prop :=
  ∃ l, Walk (fun e => (c.mem.entries e).lruDataNext) 0 c.mem.cache.lruDataHead l ∧ l.Nodup ∧
    (∀ e, e ∈ l ↔ DataCached c.mem e) ∧ l.Sublist c.order ∧
    c.mem.cache.lruDataTail = l.getLast?.getD 0

/-- Pages are put under data keys, below the maximum size, and files are flushed. -/
def DataOp.Allowed (c : Puts) : DataOp → Prop
  | .put _ key => key ≠ 0 ∧ (c.mem.keys key).file ≠ 0 ∧ (c.mem.keys key).levelsAbove = 0 ∧
      c.mem.cache.size < c.mem.cache.maxSize
  | .flush file => file ≠ 0

/-- A file that is flushed has no data pages. -/
def DataOp.FlushesNothing (c : Puts) : DataOp → Prop
  | .put _ _ => True
  | .flush file => (c.mem.files file).dataHead = 0

/-- A page is put under a key that is not cached. -/
def DataOp.PutsNewKey (fuel : Nat) (c : Puts) : DataOp → Prop
  | .put _ key => cacheGet c.mem key fuel = .ok 0
  | .flush _ => True

instance (c : Puts) : ∀ op, Decidable (DataOp.Allowed c op)
  | .put _ _ => inferInstanceAs (Decidable (_ ∧ _ ∧ _ ∧ _))
  | .flush _ => inferInstanceAs (Decidable (_ ≠ _))

instance (c : Puts) : ∀ op, Decidable (DataOp.FlushesNothing c op)
  | .put _ _ => inferInstanceAs (Decidable True)
  | .flush _ => inferInstanceAs (Decidable (_ = _))

instance (fuel : Nat) (c : Puts) : ∀ op, Decidable (DataOp.PutsNewKey fuel c op)
  | .put _ _ => inferInstanceAs (Decidable (_ = _))
  | .flush _ => inferInstanceAs (Decidable True)

/-! ## What a put leaves alone -/

/-- All the table depends on is the same. -/
structure SameTable (s s' : Mem) : Prop where
  keys : s'.keys = s.keys
  address : ∀ p, (s'.files p).address = (s.files p).address
  maxSize : s'.cache.maxSize = s.cache.maxSize
  size : s'.cache.size = s.cache.size
  table : ∀ b, s'.cache.table b = s.cache.table b
  brk : s'.brk = s.brk
  key : ∀ e, (s'.entries e).key = (s.entries e).key
  next : ∀ e, (s'.entries e).next = (s.entries e).next
  wp : ∀ e, (s'.entries e).wp = (s.entries e).wp

/-- The list of data pages is the same, too. -/
structure SameCache (s s' : Mem) : Prop extends SameTable s s' where
  head : s'.cache.lruDataHead = s.cache.lruDataHead
  tail : s'.cache.lruDataTail = s.cache.lruDataTail
  lruNext : ∀ e, (s'.entries e).lruDataNext = (s.entries e).lruDataNext

namespace SameTable
variable {s s' s'' : Mem}

theorem refl (s : Mem) : SameTable s s :=
  ⟨rfl, fun _ => rfl, rfl, rfl, fun _ => rfl, rfl, fun _ => rfl, fun _ => rfl, fun _ => rfl⟩

theorem trans (h : SameTable s s') (h' : SameTable s' s'') : SameTable s s'' where
  keys := h'.keys.trans h.keys
  address p := (h'.address p).trans (h.address p)
  maxSize := h'.maxSize.trans h.maxSize
  size := h'.size.trans h.size
  table b := (h'.table b).trans (h.table b)
  brk := h'.brk.trans h.brk
  key e := (h'.key e).trans (h.key e)
  next e := (h'.next e).trans (h.next e)
  wp e := (h'.wp e).trans (h.wp e)

theorem setEntry (s : Mem) (p : Ptr) {f : CacheEntry → CacheEntry}
    (hf : ∀ e, (f e).key = e.key ∧ (f e).next = e.next ∧ (f e).wp = e.wp) :
    SameTable s (s.setEntry p f) :=
  ⟨rfl, fun _ => rfl, rfl, rfl, fun _ => rfl, rfl,
    Mem.field_setEntry s p f _ fun e => (hf e).1,
    Mem.field_setEntry s p f _ fun e => (hf e).2.1,
    Mem.field_setEntry s p f _ fun e => (hf e).2.2⟩

theorem bins {b : Nat → List Ptr} (h : SameTable s s') (ht : Table s b) : Table s' b :=
  ht.congr h.keys h.address h.maxSize (le_of_eq h.brk.symm) h.table
    (fun _ e _ => h.key e) fun _ e _ => h.next e

end SameTable

namespace SameCache
variable {s s' s'' : Mem}

theorem refl (s : Mem) : SameCache s s := ⟨SameTable.refl s, rfl, rfl, fun _ => rfl⟩

theorem trans (h : SameCache s s') (h' : SameCache s' s'') : SameCache s s'' where
  toSameTable := h.toSameTable.trans h'.toSameTable
  head := h'.head.trans h.head
  tail := h'.tail.trans h.tail
  lruNext e := (h'.lruNext e).trans (h.lruNext e)

theorem setEntry (s : Mem) (p : Ptr) {f : CacheEntry → CacheEntry}
    (hf : ∀ e, (f e).key = e.key ∧ (f e).next = e.next ∧ (f e).wp = e.wp)
    (hlru : ∀ e, (f e).lruDataNext = e.lruDataNext) : SameCache s (s.setEntry p f) :=
  ⟨SameTable.setEntry s p hf, rfl, rfl, Mem.field_setEntry s p f _ hlru⟩

theorem setFile (s : Mem) (p : Ptr) {f : OpenFile → OpenFile}
    (hf : ∀ e, (f e).address = e.address) : SameCache s (s.setFile p f) :=
  ⟨⟨rfl, Mem.field_setFile s p f _ hf, rfl, rfl, fun _ => rfl, rfl, fun _ => rfl, fun _ => rfl,
    fun _ => rfl⟩, rfl, rfl, fun _ => rfl⟩

theorem setFileLru (s : Mem) (head tail : Ptr) :
    SameCache s { s with lruFileHead := head, lruFileTail := tail } :=
  ⟨⟨rfl, fun _ => rfl, rfl, rfl, fun _ => rfl, rfl, fun _ => rfl, fun _ => rfl, fun _ => rfl⟩,
    rfl, rfl, fun _ => rfl⟩

end SameCache

/-! ### Assignment by assignment

A preorder on memories holds across a call if it holds across each assignment of it. -/

section
variable {R : Mem → Mem → Prop} {s s' : Mem} {file entry : Ptr} {fuel : Nat}

theorem rel_addDataPage (hrefl : ∀ s, R s s) (htrans : ∀ {s t u}, R s t → R t u → R s u)
    (hhead : ∀ s p v, R s (s.setFile p fun f => { f with dataHead := v }))
    (htail : ∀ s p v, R s (s.setFile p fun f => { f with dataTail := v }))
    (hnext : ∀ s p v, R s (s.setEntry p fun e => { e with fileDataNext := v }))
    (hprev : ∀ s p v, R s (s.setEntry p fun e => { e with fileDataPrev := v }))
    (h : openFileAddDataPage s file entry = .ok s') : R s s' := by
  obtain ⟨s₁, hs₁, hadd⟩ := bind_eq_ok.mp h
  obtain ⟨-, rfl⟩ := Mem.access_eq_ok.mp hs₁
  split at hadd
  · obtain rfl := Except.ok.inj hadd
    refine htrans ?_ (htail _ _ _)
    have hentry : R s₁ _ := htrans (hprev s₁ entry (s₁.files file).dataTail) (hnext _ entry 0)
    split
    · exact htrans hentry (hhead _ _ _)
    · exact htrans hentry (hnext _ _ _)
  · obtain rfl := Except.ok.inj hadd
    exact hrefl _

theorem rel_addMetadataPage (hrefl : ∀ s, R s s) (htrans : ∀ {s t u}, R s t → R t u → R s u)
    (hhead : ∀ s p v, R s (s.setFile p fun f => { f with metadataHead := v }))
    (htail : ∀ s p v, R s (s.setFile p fun f => { f with metadataTail := v }))
    (hnext : ∀ s p v, R s (s.setEntry p fun e => { e with fileMetadataNext := v }))
    (hprev : ∀ s p v, R s (s.setEntry p fun e => { e with fileMetadataPrev := v }))
    (h : openFileAddMetadataPage s file entry = .ok s') : R s s' := by
  obtain ⟨s₁, hs₁, hadd⟩ := bind_eq_ok.mp h
  obtain ⟨-, rfl⟩ := Mem.access_eq_ok.mp hs₁
  split at hadd
  · dsimp only at hadd
    split at hadd
    · obtain rfl := Except.ok.inj hadd
      exact htrans (htail _ _ _) (hhead _ _ _)
    · obtain rfl := Except.ok.inj hadd
      refine htrans ?_ (htail _ _ _)
      exact htrans (hnext _ _ _) (hprev _ _ _)
  · obtain rfl := Except.ok.inj hadd
    exact hrefl _

theorem rel_updateFileInLru (hrefl : ∀ s, R s s) (htrans : ∀ {s t u}, R s t → R t u → R s u)
    (hnext : ∀ s p v, R s (s.setFile p fun f => { f with lruFileNext := v }))
    (hprev : ∀ s p v, R s (s.setFile p fun f => { f with lruFilePrev := v }))
    (hends : ∀ (s : Mem) head tail, R s { s with lruFileHead := head, lruFileTail := tail })
    (h : fsUpdateFileInLru s file fuel = .ok s') : R s s' := by
  obtain ⟨listed, -, h⟩ := bind_eq_ok.mp h
  split at h
  · obtain rfl := Except.ok.inj h
    unfold updateLruFileHead
    dsimp only
    split
    · exact hrefl s
    · refine htrans ?_ (hends _ _ _)
      refine htrans ?_ (hprev _ _ _)
      refine htrans ?_ (hnext _ _ _)
      have hfile : R s _ := htrans
        (hnext s (s.files file).lruFilePrev (s.files file).lruFileNext)
        (hprev _ (s.files file).lruFilePrev file)
      split
      · exact htrans hfile (hprev _ _ _)
      · exact htrans hfile (hends _ _ _)
  · obtain rfl := Except.ok.inj h
    unfold addFileToLru
    dsimp only
    refine htrans ?_ (hends _ _ _)
    have hfile : R s _ := htrans (hnext s file s.lruFileHead) (hprev _ file 0)
    split
    · exact htrans hfile (hprev _ _ _)
    · exact htrans hfile (hends _ _ _)

theorem sameCache_addDataPage (h : openFileAddDataPage s file entry = .ok s') :
    SameCache s s' := by
  refine rel_addDataPage SameCache.refl SameCache.trans (fun s p v => ?_) (fun s p v => ?_)
    (fun s p v => ?_) (fun s p v => ?_) h
  · exact SameCache.setFile s p fun _ => rfl
  · exact SameCache.setFile s p fun _ => rfl
  · exact SameCache.setEntry s p (fun _ => ⟨rfl, rfl, rfl⟩) fun _ => rfl
  · exact SameCache.setEntry s p (fun _ => ⟨rfl, rfl, rfl⟩) fun _ => rfl

theorem sameCache_addMetadataPage (h : openFileAddMetadataPage s file entry = .ok s') :
    SameCache s s' := by
  refine rel_addMetadataPage SameCache.refl SameCache.trans (fun s p v => ?_) (fun s p v => ?_)
    (fun s p v => ?_) (fun s p v => ?_) h
  · exact SameCache.setFile s p fun _ => rfl
  · exact SameCache.setFile s p fun _ => rfl
  · exact SameCache.setEntry s p (fun _ => ⟨rfl, rfl, rfl⟩) fun _ => rfl
  · exact SameCache.setEntry s p (fun _ => ⟨rfl, rfl, rfl⟩) fun _ => rfl

theorem sameCache_updateFileInLru (h : fsUpdateFileInLru s file fuel = .ok s') :
    SameCache s s' := by
  refine rel_updateFileInLru SameCache.refl SameCache.trans (fun s p v => ?_) (fun s p v => ?_)
    SameCache.setFileLru h
  · exact SameCache.setFile s p fun _ => rfl
  · exact SameCache.setFile s p fun _ => rfl

end

/-! ## The list after a put -/

section
variable {s s' : Mem} {page key e entry : Ptr} {fuel : Nat}

theorem addDataPageToLru_spec (h : cacheAddDataPageToLru s entry = .ok s') :
    SameTable s s' ∧ s'.cache.lruDataHead = entry ∧
    s'.cache.lruDataTail =
      (if s.cache.lruDataHead = 0 then entry else s.cache.lruDataTail) ∧
    ∀ e, (s'.entries e).lruDataNext =
      if e = entry then s.cache.lruDataHead else (s.entries e).lruDataNext := by
  unfold cacheAddDataPageToLru at h
  simp only [bind_eq_ok, Mem.access_eq_ok] at h
  obtain ⟨s₁, ⟨-, rfl⟩, h⟩ := h
  cases h
  set next : CacheEntry → CacheEntry := fun e => { e with lruDataNext := s₁.cache.lruDataHead }
  set prev : CacheEntry → CacheEntry := fun e => { e with lruDataPrev := 0 }
  set s₂ := (s₁.setEntry entry next).setEntry entry prev with hs₂
  have htable : SameTable s₁ s₂ :=
    (SameTable.setEntry s₁ entry (f := next) fun _ => ⟨rfl, rfl, rfl⟩).trans
      (SameTable.setEntry _ entry (f := prev) fun _ => ⟨rfl, rfl, rfl⟩)
  have hnext : ∀ e, (s₂.entries e).lruDataNext =
      if e = entry then s₁.cache.lruDataHead else (s₁.entries e).lruDataNext := by
    intro e
    rw [hs₂, Mem.field_setEntry _ _ prev (·.lruDataNext) fun _ => rfl]
    split
    · rename_i he
      rw [he, Mem.entries_setEntry_same]
    · rename_i he
      rw [Mem.entries_setEntry_other _ _ _ he]
  by_cases hhead : s₁.cache.lruDataHead = 0
  · simp only [if_pos hhead]
    refine ⟨htable.trans ?_, rfl, rfl, hnext⟩
    exact ⟨rfl, fun _ => rfl, rfl, rfl, fun _ => rfl, rfl, fun _ => rfl, fun _ => rfl, fun _ => rfl⟩
  · simp only [if_neg hhead]
    set f : CacheEntry → CacheEntry := fun e => { e with lruDataPrev := entry }
    have hback := SameTable.setEntry s₂ s₁.cache.lruDataHead (f := f) fun _ => ⟨rfl, rfl, rfl⟩
    refine ⟨(htable.trans hback).trans ?_, rfl, rfl, fun e => ?_⟩
    · exact ⟨rfl, fun _ => rfl, rfl, rfl, fun _ => rfl, rfl, fun _ => rfl, fun _ => rfl,
        fun _ => rfl⟩
    · exact (Mem.field_setEntry s₂ _ f (·.lruDataNext) (fun _ => rfl) e).trans (hnext e)

/-- A data page is put by `cache_set`, and then linked in at the head. -/
theorem put_cases (hlevel : (s.keys key).levelsAbove = 0)
    (h : putPageIntoCache s page key fuel = .ok (s', entry)) :
    ∃ s₁, cacheSet s key page fuel = .ok (s₁, entry) ∧ (s₁.keys = s.keys → SameTable s₁ s' ∧
      s'.cache.lruDataHead = entry ∧
      s'.cache.lruDataTail =
        (if s₁.cache.lruDataHead = 0 then entry else s₁.cache.lruDataTail) ∧
      ∀ e, (s'.entries e).lruDataNext =
        if e = entry then s₁.cache.lruDataHead else (s₁.entries e).lruDataNext) := by
  unfold putPageIntoCache at h
  simp only [bind_eq_ok] at h
  obtain ⟨⟨s₁, e⟩, hset, s₂, hadd, s₃, hlru, h⟩ := h
  cases h
  refine ⟨s₁, hset, fun hkeys => ?_⟩
  rw [if_pos (by rw [hkeys, hlevel])] at hadd
  obtain ⟨s₄, hdata, hadd⟩ := bind_eq_ok.mp hadd
  have hfile := sameCache_addDataPage hdata
  obtain ⟨htable, hhead, htail, hnext⟩ := addDataPageToLru_spec hadd
  have hend := sameCache_updateFileInLru hlru
  refine ⟨(hfile.toSameTable.trans htable).trans hend.toSameTable, hend.head.trans hhead, ?_,
    fun e => ?_⟩
  · rw [hend.tail, htail, hfile.head, hfile.tail]
  · rw [hend.lruNext, hnext, hfile.head, hfile.lruNext]

end

/-! ## The invariant -/

/-- The bins of the table are `bins`, all its entries hold data pages, and these
    are listed in the order of the puts. -/
structure DataChain (c : Puts) (bins : Nat → List Ptr) : Prop where
  table : Table c.mem bins
  data : ∀ b, ∀ e ∈ bins b, (c.mem.keys (c.mem.entries e).key).levelsAbove = 0
  walk : Walk (fun e => (c.mem.entries e).lruDataNext) 0 c.mem.cache.lruDataHead c.order
  members : ∀ e, e ∈ c.order ↔ ∃ b, e ∈ bins b
  tail : c.mem.cache.lruDataTail = c.order.getLast?.getD 0

theorem Table.inTable_iff {s : Mem} {bins : Nat → List Ptr} (ht : Table s bins) {e : Ptr} :
    InTable s e ↔ ∃ b, e ∈ bins b := by
  constructor
  · rintro ⟨b, l, hw, he⟩
    exact ⟨b, Chain.unique hw (ht.walk b) ▸ he⟩
  · rintro ⟨b, he⟩
    exact ⟨b, _, ht.walk b, he⟩

namespace DataChain
variable {c c' : Puts} {bins : Nat → List Ptr} {page key : Ptr} {fuel : Nat}

theorem dataListed (hc : DataChain c bins) : DataListed c := by
  refine ⟨c.order, hc.walk, Chain.nodup hc.walk, fun e => ?_, List.Sublist.refl _, hc.tail⟩
  rw [hc.members, DataCached, hc.table.inTable_iff]
  constructor
  · rintro ⟨b, he⟩
    exact ⟨⟨b, he⟩, hc.data b e he⟩
  · exact fun h => h.1

theorem put_outcome (hc : DataChain c bins) (hop : (DataOp.put page key).Allowed c)
    (h : DataOp.exec fuel c (.put page key) = .ok c') :
    ∃ s₁ entry bins', SetOutcome c.mem bins key page s₁ entry bins' ∧
      c'.order = entry :: c.order.erase entry ∧ SameTable s₁ c'.mem ∧
      c'.mem.cache.lruDataHead = entry ∧
      c'.mem.cache.lruDataTail =
        (if c.mem.cache.lruDataHead = 0 then entry else c.mem.cache.lruDataTail) ∧
      ∀ e, (c'.mem.entries e).lruDataNext =
        if e = entry then c.mem.cache.lruDataHead else (s₁.entries e).lruDataNext := by
  obtain ⟨hkey, -, hlevel, hroom⟩ := hop
  obtain ⟨⟨s', entry⟩, hput, hc'⟩ := bind_eq_ok.mp h
  cases hc'
  obtain ⟨s₁, hset, hrest⟩ := put_cases hlevel hput
  obtain ⟨bins', hout⟩ := cacheSet_spec hc.table hkey (fun _ => hroom) hset
  obtain ⟨htable, hhead, htail, hnext⟩ := hrest hout.keys
  refine ⟨s₁, entry, bins', hout, rfl, htable, hhead, ?_, fun e => ?_⟩
  · rw [htail, hout.cache.2.1, hout.cache.2.2]
  · rw [hnext, hout.cache.2.1]

theorem get_eq {s s' : Mem} {e r : Ptr} (ht : Table s bins) {bins' : Nat → List Ptr}
    (hout : SetOutcome s bins key page s' e bins') (hget : cacheGet s key fuel = .ok r) :
    (r = 0 → ∀ b, e ∉ bins b) ∧ (r ≠ 0 → ∃ b, e ∈ bins b) := by
  obtain ⟨hfound, huniq⟩ := cacheGet_spec ht hget
  constructor
  · intro hr b he
    exact ht.ne_zero he ((huniq b e he (hout.old_num he)).symm.trans hr)
  · intro hr
    obtain ⟨hmem, hn⟩ := hfound hr
    by_contra hnone
    exact hout.num_ne hmem (fun hre => hnone ⟨_, hre ▸ hmem⟩) hn

theorem put_new (hc : DataChain c bins) (hop : (DataOp.put page key).Allowed c)
    (h : DataOp.exec fuel c (.put page key) = .ok c') (hget : cacheGet c.mem key fuel = .ok 0) :
    ∃ bins', DataChain c' bins' := by
  obtain ⟨s₁, entry, bins', hout, horder, htable, hhead, htail, hnext⟩ := hc.put_outcome hop h
  have hfresh : ∀ b, entry ∉ bins b := (get_eq hc.table hout hget).1 rfl
  have hnin : entry ∉ c.order := fun he => by
    obtain ⟨b, hb⟩ := (hc.members entry).mp he
    exact hfresh b hb
  rw [List.erase_of_not_mem hnin] at horder
  have hentry : entry ∈ bins' (cacheHash c.mem key) := (hout.members _ _).mpr (.inr ⟨rfl, rfl⟩)
  refine ⟨bins', htable.bins hout.table, fun b e he => ?_, ?_, fun e => ?_, ?_⟩
  · -- the new key is that of a data page, too
    rw [htable.keys, htable.key, hout.keys]
    by_cases heq : e = entry
    · rw [heq, (hout.new hfresh).2.2]
      exact hop.2.2.1
    · rw [hout.others e heq]
      exact hc.data b e (((hout.members b e).mp he).resolve_right fun h => heq h.2)
  · rw [horder, hhead, Walk.cons_iff, hnext, if_pos rfl]
    refine ⟨rfl, hout.table.ne_zero hentry, hc.walk.congr fun e he => ?_⟩
    have heq : e ≠ entry := fun heq => hnin (heq ▸ he)
    rw [hnext, if_neg heq, hout.others e heq]
  · rw [horder, List.mem_cons, hc.members]
    constructor
    · rintro (rfl | ⟨b, he⟩)
      · exact ⟨_, hentry⟩
      · exact ⟨b, (hout.members b e).mpr (.inl he)⟩
    · rintro ⟨b, he⟩
      exact ((hout.members b e).mp he).elim (fun he => .inr ⟨b, he⟩) fun he => .inl he.2
  · -- the first page of an empty list is its tail as well
    rw [htail, horder, hc.tail]
    have hwalk := hc.walk
    cases horder' : c.order with
    | nil =>
      rw [horder', Walk.nil_iff] at hwalk
      rw [if_pos hwalk]
      rfl
    | cons e l =>
      rw [horder'] at hwalk
      obtain ⟨hhd, he, -⟩ := Walk.cons_iff.mp hwalk
      rw [if_neg (hhd ▸ he), List.getLast?_cons_cons]

/-- A page put under a cached key: its entry is on the list twice. -/
theorem put_cached (hc : DataChain c bins) (hop : (DataOp.put page key).Allowed c)
    (h : DataOp.exec fuel c (.put page key) = .ok c') (hlisted : DataListed c') :
    cacheGet c.mem key fuel = .ok 0 := by
  obtain ⟨s₁, entry, bins', hout, -, -, hhead, -, hnext⟩ := hc.put_outcome hop h
  obtain ⟨r, hget⟩ : ∃ r, cacheGet c.mem key fuel = .ok r := by
    obtain ⟨⟨s', e⟩, hput, -⟩ := bind_eq_ok.mp h
    obtain ⟨s₂, hset, -⟩ := put_cases hop.2.2.1 hput
    obtain ⟨r, hplace, -⟩ := bind_eq_ok.mp hset
    rw [cacheGet, hplace, ok_bind]
    dsimp only
    split
    · exact ⟨_, rfl⟩
    · exact ⟨_, rfl⟩
  by_cases hr : r = 0
  · rw [hget, hr]
  · exfalso
    obtain ⟨b, hb⟩ := (get_eq hc.table hout hget).2 hr
    have hentry : entry ∈ c.order := (hc.members entry).mpr ⟨b, hb⟩
    obtain ⟨l₁, l₂, hsplit⟩ := List.append_of_mem hentry
    have hwalk := hc.walk
    have hnd := Chain.nodup hwalk
    rw [hsplit] at hwalk hnd
    have hne : entry ≠ 0 := hc.table.ne_zero hb
    -- the walk after the put starts at the entry and comes back to it
    obtain ⟨l, hl, -⟩ := hlisted
    rw [hhead] at hl
    cases l with
    | nil => exact hne (Walk.nil_iff.mp hl)
    | cons e l =>
      obtain ⟨rfl, -, ht⟩ := Walk.cons_iff.mp hl
      refine Walk.not_mem_of_next hne ht ?_
      rw [hnext, if_pos rfl] at ht
      refine hwalk.mem_of_links (fun e he => ?_) ht
      have heq : e ≠ entry := by
        rintro rfl
        exact (List.nodup_append.mp hnd).2.2 e he e (by simp) rfl
      rw [hnext, if_neg heq, hout.others e heq]

theorem flush_none {file : Ptr} (hc : DataChain c bins)
    (hnone : (DataOp.flush file).FlushesNothing c)
    (h : DataOp.exec fuel c (.flush file) = .ok c') : DataChain c' bins := by
  simp only [DataOp.exec, fsFlushDataPages, bind_eq_ok, Mem.access_eq_ok] at h
  obtain ⟨s₁, ⟨s₂, ⟨-, rfl⟩, hflush⟩, hc'⟩ := h
  rw [show (c.mem.files file).dataHead = 0 from hnone] at hflush
  cases fuel with
  | zero => cases hflush
  | succ fuel =>
    rw [flushDataFrom, if_pos rfl] at hflush
    cases hflush
    cases hc'
    exact hc

theorem create {s s₀ : Mem} {size : Int} (h : cacheCreate s size = some s₀) :
    DataChain { mem := s₀, order := [] } fun _ => [] := by
  refine ⟨Table.create h, fun _ e he => absurd he List.not_mem_nil, ?_, fun e => ?_, ?_⟩
  · exact Walk.nil_iff.mpr (cacheCreate_eq h).2.2.1
  · simp
  · exact (cacheCreate_eq h).2.2.2

end DataChain

theorem listed_iff_of_chain {c c' : Puts} {bins : Nat → List Ptr} (hc : DataChain c bins)
    {fuel : Nat} {ops : List DataOp} (hall : EveryStep (DataOp.exec fuel) DataOp.Allowed c ops)
    (hflush : EveryStep (DataOp.exec fuel) DataOp.FlushesNothing c ops)
    (hrun : outcome (DataOp.exec fuel) c ops = .ok c') :
    EveryState (DataOp.exec fuel) DataListed c ops ↔
      EveryStep (DataOp.exec fuel) (DataOp.PutsNewKey fuel) c ops := by
  refine EveryStep.everyState_iff (I := fun c => ∃ bins, DataChain c bins) ?_ ?_ ?_
    (hall.and hflush) ⟨bins, hc⟩ hrun
  · rintro c op c' ⟨bins, hc⟩ ⟨hop, hnone⟩ hexec hnew
    cases op with
    | put page key => exact hc.put_new hop hexec hnew
    | flush file => exact ⟨bins, hc.flush_none hnone hexec⟩
  · rintro c op c' ⟨bins, hc⟩ ⟨hop, -⟩ hexec hlisted
    cases op with
    | put page key => exact hc.put_cached hop hexec hlisted
    | flush file => trivial
  · exact fun ⟨bins, hc⟩ => hc.dataListed

/-- Starting from a new cache, in a run of puts of data pages below the maximum
    size and of flushes of files without data pages, the list of data pages holds
    throughout the data entries in the table, each once and the latest put first,
    exactly if every page is put under a key that is not cached. -/
theorem data_listed_iff {s s₀ : Mem} {size : Int} (hcreate : cacheCreate s size = some s₀)
    {fuel : Nat} {ops : List DataOp} {c : Puts}
    (hall : EveryStep (DataOp.exec fuel) DataOp.Allowed { mem := s₀, order := [] } ops)
    (hflush : EveryStep (DataOp.exec fuel) DataOp.FlushesNothing { mem := s₀, order := [] } ops)
    (hrun : outcome (DataOp.exec fuel) { mem := s₀, order := [] } ops = .ok c) :
    EveryState (DataOp.exec fuel) DataListed { mem := s₀, order := [] } ops ↔
      EveryStep (DataOp.exec fuel) (DataOp.PutsNewKey fuel) { mem := s₀, order := [] } ops :=
  listed_iff_of_chain (DataChain.create hcreate) hall hflush hrun

/-- An empty cache, and keys of one file. -/
def oneFile : Mem :=
  { (default : Mem) with
    keys := fun p => { file := 1, dataOffset := p, levelsAbove := 0 }
    brk := 9
    cache := { maxSize := 4, size := 0, table := fun _ => 0, lruDataHead := 0, lruDataTail := 0 } }

theorem oneFile_create : cacheCreate oneFile 4 = some oneFile := rfl

/-- Pages put under two keys, and an empty file flushed. -/
theorem data_listed_two_puts :
    EveryState (DataOp.exec 9) DataListed { mem := oneFile, order := [] }
      [.put 5 1, .put 6 2, .flush 3] :=
  (data_listed_iff oneFile_create (by decide) (by decide) rfl).mpr (by decide)

/-- A page put twice under one key, and a page put and flushed. -/
theorem data_not_listed :
    (EveryStep (DataOp.exec 9) DataOp.Allowed { mem := oneFile, order := [] }
        [.put 5 1, .put 6 1] ∧
      ¬ EveryState (DataOp.exec 9) DataListed { mem := oneFile, order := [] }
        [.put 5 1, .put 6 1]) ∧
    (EveryStep (DataOp.exec 9) DataOp.Allowed { mem := oneFile, order := [] }
        [.put 5 1, .flush 1] ∧
      ¬ EveryState (DataOp.exec 9) DataListed { mem := oneFile, order := [] }
        [.put 5 1, .flush 1]) := by
  refine ⟨⟨by decide, ?_⟩, ⟨by decide, ?_⟩⟩
  · rw [listed_iff_of_chain (DataChain.create oneFile_create) (by decide) (by decide) rfl]
    decide
  · intro h
    obtain ⟨-, h⟩ := h
    obtain ⟨-, h⟩ := h _ rfl
    obtain ⟨l, hl, -, hmem, -⟩ := h _ rfl
    -- the entry is on the list, but the flush has emptied its bin
    have hin : (10 : Ptr) ∈ l := by
      cases l with
      | nil => exact absurd (Walk.nil_iff.mp hl) (by decide)
      | cons e l =>
        have he : 10 = e := (Walk.cons_iff.mp hl).1
        exact he ▸ List.mem_cons_self
    obtain ⟨⟨b, l', hw, hl'⟩, -⟩ := (hmem 10).mp hin
    change Walk _ 0 (update (update (fun _ => 0) (cacheHash oneFile 1) 10)
      (cacheHash oneFile 1) 0 b) l' at hw
    have hbin : update (update (fun _ => 0) (cacheHash oneFile 1) 10) (cacheHash oneFile 1) 0 b =
        0 := by
      by_cases hb : b = cacheHash oneFile 1
      · rw [hb, update_same]
      · rw [update_other _ _ hb, update_other _ _ hb]
    rw [hbin] at hw
    cases l' with
    | nil => cases hl'
    | cons e l' =>
      obtain ⟨rfl, he, -⟩ := Walk.cons_iff.mp hw
      exact he rfl

end Cycology.PageCache
