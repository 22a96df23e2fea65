import Cycology.DataLru
import Cycology.TreeWalk

/- `filesystem.c`: pages read into the cache, and data written.

   `fs_getPage` reads a page that is not in the cache, after its parent, and puts
   both into the cache on the way down. What it reads them from is still made up
   for tests. `fs_writeData` puts a data page and then gets the parent, to mark it
   dirty.

   All these calls only ever add: they allocate keys and pages, and put entries
   into the table (`Extends`). Those that put no data page leave the lists of data
   pages alone (`DataKept`). -/
namespace Cycology.PageCache
open ByteMem LinkedChain Runs.Fallible

/-- What `fs_getPage` reads and nothing here writes: the array in the inode of a
    file, and the bytes around the contents of a page. The indices it reads at may
    be out of bounds. -/
structure Surroundings where
  directPage : Ptr → Int → Int
  around : Ptr → Int → UInt8

def Fault.toWalk : Fault → WalkFault
  | .null => .null
  | .fuel => .fuel

/-- A call of the cache among those that may also divide by 0. -/
def lifted {α : Type} (x : Except Fault α) : Except WalkFault α := x.mapError Fault.toWalk

/-- A key in a new place. -/
def Mem.newKey (s : Mem) (k : PageKey) : Mem × Ptr :=
  ({ s with brk := s.brk + 1, keys := update s.keys (s.brk + 1) k }, s.brk + 1)

/-! ## Reading -/

/-- `readWpFromDisk`: a new page, with a byte set for some addresses. -/
def readWpFromDisk (s : Mem) (address : Int) : Mem × Ptr :=
  let wp := s.brk + 1
  let page := (s.pages wp).nandPage
  let page :=
    if address ≠ 0 then
      if address = 300 then page.setNum 1 0 1
      else if address = 600 then page.setNum 1 1016 2
      else if address = 1 then page.setNum 1 0 3
      else page
    else page
  ({ s with brk := wp, pages := update s.pages wp { s.pages wp with nandPage := page } }, wp)

/-- `contents[i]` of a page, a `char`. -/
def contentsAt (env : Surroundings) (s : Mem) (wp : Ptr) (i : Int) : Int :=
  let byte :=
    if 0 ≤ i ∧ i < PAGESIZE then (s.pages wp).nandPage.byte i.toNat else env.around wp i
  if byte.toNat < 128 then byte.toNat else byte.toNat - 256

/-- The end of `fs_getPage`: a page that is not cached is read and put. -/
def readIntoCache (s : Mem) (desiredAddr : Int) (desiredKey : Ptr) (bound : Nat) :
    Except WalkFault (Mem × Ptr) :=
  let (s, wp) := readWpFromDisk s desiredAddr
  lifted (putPageIntoCache s wp desiredKey bound)

/-- `fs_getPage`: the memory and the entry, or `NULL`. -/
def fsGetPage (env : Surroundings) (bound : Nat) :
    Nat → Mem → Ptr → Except WalkFault (Mem × Ptr)
  | 0, _, _ => .error .fuel
  | fuel + 1, s, desiredKey => do
    let key := s.keys desiredKey
    let maxFileHeight := (s.files key.file).treeHeight
    if maxFileHeight ≤ key.levelsAbove then .ok (s, 0)
    else
      let desired ← lifted (cacheGet s desiredKey bound)
      if desired ≠ 0 then .ok (s, desired)
      else if key.levelsAbove = maxFileHeight - 1 then
        let desiredIndex ← getIndexInInode key.dataOffset maxFileHeight
        readIntoCache s (env.directPage key.file desiredIndex) desiredKey bound
      else
        let parent ← getParentKey key
        let (s, parentKey) := s.newKey parent
        let (s, parentEntry) ← fsGetPage env bound fuel s parentKey
        let s ← lifted (s.access parentEntry)
        let s ← lifted (s.access (s.entries parentEntry).wp)
        let desiredIndex := getIndexInParent key.dataOffset (s.keys parentKey).dataOffset
        readIntoCache s (contentsAt env s (s.entries parentEntry).wp desiredIndex) desiredKey bound

/-! ## Writing -/

/-- `prepareWriteablePage`. -/
def prepareWriteablePage (s : Mem) (key : Ptr) (data : Buf 1024) : Except Fault (Mem × Ptr) := do
  let wp := s.brk + 1
  let s := { s with brk := wp }
  let s ← allocateFreePage s wp (s.files (s.keys key).file).mainExtentLog
  let page := s.pages wp
  .ok ({ s with
    pages := update s.pages wp { page with nandPage := page.nandPage.setContents data } }, wp)

/-- `fs_updateParentPage`; what would use `childAddress` is commented out. -/
def fsUpdateParentPage (env : Surroundings) (s : Mem) (childKey : Ptr) (_childAddress dirty : Int)
    (fuel : Nat) : Except WalkFault Mem := do
  let parent ← getParentKey (s.keys childKey)
  let (s, parentKey) := s.newKey parent
  let (s, parentPage) ← fsGetPage env fuel fuel s parentKey
  if parentPage = 0 then .ok s
  else .ok (s.setEntry parentPage fun e => { e with dirty := dirty })

/-- `fs_writeData`: the memory and the page. -/
def fsWriteData (env : Surroundings) (s : Mem) (dataKey : Ptr) (data : Buf 1024) (fuel : Nat) :
    Except WalkFault (Mem × Ptr) := do
  let (s, dataPage) ← lifted (prepareWriteablePage s dataKey data)
  let (s, _) ← lifted (putPageIntoCache s dataPage dataKey fuel)
  let s ← fsUpdateParentPage env s dataKey (s.pages dataPage).address 1 fuel
  .ok (s, dataPage)

theorem lifted_eq_ok {α : Type} {x : Except Fault α} {a : α} :
    lifted x = .ok a ↔ x = .ok a := by
  cases x with
  | error e => exact ⟨nofun, nofun⟩
  | ok b =>
    change Except.ok b = Except.ok a ↔ _
    rw [Except.ok.injEq, Except.ok.injEq]

/-! ## Fields that a call leaves alone -/

/-- What `π` reads of a file and `ρ` of an entry is the same. -/
structure SameFields {β γ : Type} (π : OpenFile → β) (ρ : CacheEntry → γ) (s s' : Mem) : Prop where
  file : ∀ p, π (s'.files p) = π (s.files p)
  entry : ∀ e, ρ (s'.entries e) = ρ (s.entries e)

section
variable {β γ : Type} {π : OpenFile → β} {ρ : CacheEntry → γ} {s s' s'' : Mem}
  {file entry : Ptr} {fuel : Nat}

namespace SameFields

theorem refl (s : Mem) : SameFields π ρ s s := ⟨fun _ => rfl, fun _ => rfl⟩

theorem trans (h : SameFields π ρ s s') (h' : SameFields π ρ s' s'') : SameFields π ρ s s'' :=
  ⟨fun p => (h'.file p).trans (h.file p), fun e => (h'.entry e).trans (h.entry e)⟩

theorem setEntry (s : Mem) (p : Ptr) {f : CacheEntry → CacheEntry} (hf : ∀ e, ρ (f e) = ρ e) :
    SameFields π ρ s (s.setEntry p f) := ⟨fun _ => rfl, Mem.field_setEntry s p f ρ hf⟩

theorem setFile (s : Mem) (p : Ptr) {f : OpenFile → OpenFile} (hf : ∀ e, π (f e) = π e) :
    SameFields π ρ s (s.setFile p f) := ⟨Mem.field_setFile s p f π hf, fun _ => rfl⟩

theorem setFileLru (s : Mem) (head tail : Ptr) :
    SameFields π ρ s { s with lruFileHead := head, lruFileTail := tail } :=
  ⟨fun _ => rfl, fun _ => rfl⟩

theorem setCache (s : Mem) (f : AddressCache → AddressCache) : SameFields π ρ s (s.setCache f) :=
  ⟨fun _ => rfl, fun _ => rfl⟩

end SameFields

theorem updateFileInLru_fields (hn : ∀ f p, π { f with lruFileNext := p } = π f)
    (hp : ∀ f p, π { f with lruFilePrev := p } = π f)
    (h : fsUpdateFileInLru s file fuel = .ok s') : SameFields π ρ s s' := by
  refine rel_updateFileInLru SameFields.refl SameFields.trans (fun s p v => ?_)
    (fun s p v => ?_) SameFields.setFileLru h
  · exact SameFields.setFile s p fun f => hn f v
  · exact SameFields.setFile s p fun f => hp f v

theorem addDataPageToLru_fields (hn : ∀ e p, ρ { e with lruDataNext := p } = ρ e)
    (hp : ∀ e p, ρ { e with lruDataPrev := p } = ρ e)
    (h : cacheAddDataPageToLru s entry = .ok s') : SameFields π ρ s s' := by
  obtain ⟨s₁, hs₁, hadd⟩ := bind_eq_ok.mp h
  obtain ⟨-, rfl⟩ := Mem.access_eq_ok.mp hs₁
  obtain rfl := Except.ok.inj hadd
  refine SameFields.trans ?_ (SameFields.setCache _ _)
  have hentry : SameFields π ρ s₁ _ := (SameFields.setEntry s₁ entry
    (f := fun e => { e with lruDataNext := s₁.cache.lruDataHead }) fun e => hn e _).trans
      (SameFields.setEntry _ entry (f := fun e => { e with lruDataPrev := 0 }) fun e => hp e _)
  split
  · exact hentry.trans (SameFields.setCache _ _)
  · exact hentry.trans (SameFields.setEntry _ _ fun e => hp e _)

theorem addDataPage_fields (hh : ∀ f p, π { f with dataHead := p } = π f)
    (ht : ∀ f p, π { f with dataTail := p } = π f)
    (hn : ∀ e p, ρ { e with fileDataNext := p } = ρ e)
    (hp : ∀ e p, ρ { e with fileDataPrev := p } = ρ e)
    (h : openFileAddDataPage s file entry = .ok s') : SameFields π ρ s s' := by
  refine rel_addDataPage SameFields.refl SameFields.trans (fun s p v => ?_) (fun s p v => ?_)
    (fun s p v => ?_) (fun s p v => ?_) h
  · exact SameFields.setFile s p fun f => hh f v
  · exact SameFields.setFile s p fun f => ht f v
  · exact SameFields.setEntry s p fun e => hn e v
  · exact SameFields.setEntry s p fun e => hp e v

theorem addMetadataPage_fields (hh : ∀ f p, π { f with metadataHead := p } = π f)
    (ht : ∀ f p, π { f with metadataTail := p } = π f)
    (hn : ∀ e p, ρ { e with fileMetadataNext := p } = ρ e)
    (hp : ∀ e p, ρ { e with fileMetadataPrev := p } = ρ e)
    (h : openFileAddMetadataPage s file entry = .ok s') : SameFields π ρ s s' := by
  refine rel_addMetadataPage SameFields.refl SameFields.trans (fun s p v => ?_)
    (fun s p v => ?_) (fun s p v => ?_) (fun s p v => ?_) h
  · exact SameFields.setFile s p fun f => hh f v
  · exact SameFields.setFile s p fun f => ht f v
  · exact SameFields.setEntry s p fun e => hn e v
  · exact SameFields.setEntry s p fun e => hp e v

end

/-! ## What the calls keep -/

/-- The table with its entries in `bins`, whose keys are allocated. -/
structure Formed (s : Mem) (bins : Nat → List Ptr) : Prop extends Table s bins where
  allocated : ∀ b, ∀ e ∈ bins b, (s.entries e).key ≤ s.brk

/-- From `s` to `s'` memory was allocated and entries were put into the table. -/
structure Extends (s : Mem) (bins : Nat → List Ptr) (s' : Mem) (bins' : Nat → List Ptr) : Prop where
  formed : Formed s' bins'
  members : ∀ b, ∀ e ∈ bins b, e ∈ bins' b
  brk : s.brk ≤ s'.brk
  keys : ∀ k, k ≤ s.brk → s'.keys k = s.keys k
  key : ∀ e, e ≤ s.brk → (s'.entries e).key = (s.entries e).key
  file : ∀ p, (s'.files p).address = (s.files p).address ∧
    (s'.files p).treeHeight = (s.files p).treeHeight

/-- The lists of data pages are the same, and no entry there was is linked anew. -/
structure DataKept (s s' : Mem) : Prop where
  ends : ∀ p, (s'.files p).dataHead = (s.files p).dataHead ∧
    (s'.files p).dataTail = (s.files p).dataTail
  links : ∀ e, e ≤ s.brk → (s'.entries e).fileDataNext = (s.entries e).fileDataNext ∧
    (s'.entries e).fileDataPrev = (s.entries e).fileDataPrev

section
variable {s s' s'' : Mem} {bins bins' bins'' : Nat → List Ptr} {key k wp e entry page file : Ptr}
  {fuel bound : Nat} {env : Surroundings}

namespace Extends

theorem refl (hf : Formed s bins) : Extends s bins s bins :=
  ⟨hf, fun _ _ he => he, le_refl _, fun _ _ => rfl, fun _ _ => rfl, fun _ => ⟨rfl, rfl⟩⟩

theorem trans (h : Extends s bins s' bins') (h' : Extends s' bins' s'' bins'') :
    Extends s bins s'' bins'' where
  formed := h'.formed
  members b e he := h'.members b e (h.members b e he)
  brk := le_trans h.brk h'.brk
  keys k hk := (h'.keys k (le_trans hk h.brk)).trans (h.keys k hk)
  key e he := (h'.key e (le_trans he h.brk)).trans (h.key e he)
  file p := ⟨(h'.file p).1.trans (h.file p).1, (h'.file p).2.trans (h.file p).2⟩

theorem numKey_eq (h : Extends s bins s' bins') (hk : k ≤ s.brk) : numKey s' k = numKey s k := by
  simp only [numKey, h.keys k hk, (h.file _).1]

theorem entryNum_eq (hf : Formed s bins) (h : Extends s bins s' bins') {b : Nat}
    (he : e ∈ bins b) : entryNum s' e = entryNum s e := by
  rw [entryNum, h.key e (hf.fresh b e he), h.numKey_eq (hf.allocated b e he), entryNum]

theorem newKey (hf : Formed s bins) (h : Extends s bins s' bins) (hle : key ≤ s.brk)
    (hnew : NewKey s bins key) : NewKey s' bins key := by
  intro b x hx
  rw [h.entryNum_eq hf hx, h.numKey_eq hle]
  exact hnew b x hx

theorem sameTable (h : Extends s bins s' bins') (hs : SameTable s' s'')
    (hh : ∀ p, (s''.files p).treeHeight = (s'.files p).treeHeight) :
    Extends s bins s'' bins' where
  formed := by
    refine ⟨hs.bins h.formed.toTable, fun b e he => ?_⟩
    rw [hs.key, hs.brk]
    exact h.formed.allocated b e he
  members := h.members
  brk := by
    rw [hs.brk]
    exact h.brk
  keys k hk := by
    rw [hs.keys]
    exact h.keys k hk
  key e he := by
    rw [hs.key]
    exact h.key e he
  file p := ⟨(hs.address p).trans (h.file p).1, (hh p).trans (h.file p).2⟩

end Extends

theorem DataKept.refl (s : Mem) : DataKept s s := ⟨fun _ => ⟨rfl, rfl⟩, fun _ _ => ⟨rfl, rfl⟩⟩

theorem DataKept.trans (h : DataKept s s') (hle : s.brk ≤ s'.brk) (h' : DataKept s' s'') :
    DataKept s s'' where
  ends p := ⟨(h'.ends p).1.trans (h.ends p).1, (h'.ends p).2.trans (h.ends p).2⟩
  links e he := by
    have he' := h'.links e (le_trans he hle)
    exact ⟨he'.1.trans (h.links e he).1, he'.2.trans (h.links e he).2⟩

/-! ### Allocating -/

theorem Formed.alloc (hf : Formed s bins) (he : s'.entries = s.entries) (hc : s'.cache = s.cache)
    (hp : s'.files = s.files) (hb : s.brk ≤ s'.brk)
    (hk : ∀ k, k ≤ s.brk → s'.keys k = s.keys k) :
    Extends s bins s' bins ∧ DataKept s s' := by
  have hnum : ∀ k, k ≤ s.brk → numKey s' k = numKey s k := by
    intro k hle
    simp only [numKey, hk k hle, hp]
  have hstr : ∀ b, ∀ e ∈ bins b, entryStr s' e = entryStr s e := by
    intro b e hmem
    rw [entryStr, entryNum, he, hnum _ (hf.allocated b e hmem), entryStr, entryNum]
  refine ⟨⟨⟨⟨fun b => ?_, fun b => ?_, fun b e hmem => ?_, fun b e hmem => ?_⟩,
    fun b e hmem => ?_⟩, fun _ _ he => he, hb, hk, fun _ _ => by rw [he],
    fun _ => by rw [hp]; exact ⟨rfl, rfl⟩⟩,
    ⟨fun _ => by rw [hp]; exact ⟨rfl, rfl⟩, fun _ _ => by rw [he]; exact ⟨rfl, rfl⟩⟩⟩
  · rw [he, hc]
    exact hf.walk b
  · refine (hf.sorted b).imp_of_mem fun {x y} hx hy hlt => ?_
    rw [hstr b x hx, hstr b y hy]
    exact hlt
  · rw [he, cacheHash, hnum _ (hf.allocated b e hmem), hc]
    exact hf.hashed b e hmem
  · exact le_trans (hf.fresh b e hmem) hb
  · rw [he]
    exact le_trans (hf.allocated b e hmem) hb

theorem newKey_extends (hf : Formed s bins) (k : PageKey) :
    Extends s bins (s.newKey k).1 bins ∧ DataKept s (s.newKey k).1 := by
  refine hf.alloc rfl rfl rfl (Nat.le_succ _) fun p hp => ?_
  exact update_other _ _ (Nat.ne_of_lt (Nat.lt_succ_of_le hp))

theorem newKey_ne_zero (s : Mem) (k : PageKey) : (s.newKey k).2 ≠ 0 := Nat.succ_ne_zero _

theorem keys_newKey (s : Mem) (k : PageKey) : (s.newKey k).1.keys (s.newKey k).2 = k :=
  update_same _ _ _

theorem readWpFromDisk_extends (hf : Formed s bins) (address : Int) :
    Extends s bins (readWpFromDisk s address).1 bins ∧
      DataKept s (readWpFromDisk s address).1 :=
  hf.alloc rfl rfl rfl (Nat.le_succ _) fun _ _ => rfl

theorem prepareWriteablePage_extends (hf : Formed s bins) {data : Buf 1024}
    (h : prepareWriteablePage s key data = .ok (s', wp)) :
    s'.cache = s.cache ∧ Extends s bins s' bins ∧ DataKept s s' := by
  obtain ⟨s₁, halloc, h₁⟩ := bind_eq_ok.mp h
  unfold allocateFreePage at halloc
  obtain ⟨s₂, hs₂, halloc⟩ := bind_eq_ok.mp halloc
  obtain ⟨-, rfl⟩ := Mem.access_eq_ok.mp hs₂
  obtain ⟨s₃, hs₃, halloc⟩ := bind_eq_ok.mp halloc
  obtain ⟨-, rfl⟩ := Mem.access_eq_ok.mp hs₃
  obtain rfl := Except.ok.inj halloc
  obtain ⟨rfl, -⟩ := Prod.mk.inj (Except.ok.inj h₁)
  exact ⟨rfl, hf.alloc rfl rfl rfl (Nat.le_succ _) fun _ _ => rfl⟩

/-! ### Putting -/

theorem SetOutcome.below (h : SetOutcome s bins key wp s' entry bins') (he : e ≤ s.brk) :
    s'.entries e = { s.entries e with next := (s'.entries e).next, wp := (s'.entries e).wp } := by
  by_cases hee : e = entry
  · subst hee
    by_cases hold : ∃ b, e ∈ bins b
    · obtain ⟨b, hb⟩ := hold
      rw [(h.old b hb).1]
    · rw [(h.new (not_exists.mp hold)).1] at he
      exact absurd he (Nat.not_succ_le_self _)
  · rw [h.others e hee]

theorem SetOutcome.extends (hf : Formed s bins) (hle : key ≤ s.brk)
    (h : SetOutcome s bins key wp s' entry bins') :
    Extends s bins s' bins' ∧ DataKept s s' := by
  have hkeys : ∀ e, e ≤ s.brk → (s'.entries e).key = (s.entries e).key := by
    intro e he
    rw [h.below he]
  refine ⟨⟨⟨h.table, fun b e he => ?_⟩, fun b e he => (h.members b e).mpr (.inl he), h.brk,
    fun k _ => by rw [h.keys], hkeys, fun p => by rw [h.files]; exact ⟨rfl, rfl⟩⟩,
    ⟨fun p => by rw [h.files]; exact ⟨rfl, rfl⟩, fun e he => ?_⟩⟩
  · by_cases hold : ∃ b, e ∈ bins b
    · obtain ⟨c, hc⟩ := hold
      rw [hkeys e (hf.fresh c e hc)]
      exact le_trans (hf.allocated c e hc) h.brk
    · -- a new entry has the new key
      have hnone := not_exists.mp hold
      have hee : e = entry := (((h.members b e).mp he).resolve_left (hnone b)).2
      rw [hee] at hnone ⊢
      rw [(h.new hnone).2.2]
      exact le_trans hle h.brk
  · rw [h.below he]
    exact ⟨rfl, rfl⟩

/-- The ends and the links of the lists of data pages are the same. -/
abbrev SameDataLists : Mem → Mem → Prop :=
  SameFields (fun f => (f.dataHead, f.dataTail)) fun e => (e.fileDataNext, e.fileDataPrev)

theorem DataKept.sameDataLists (h : DataKept s s') (h' : SameDataLists s' s'') :
    DataKept s s'' where
  ends p := by
    obtain ⟨hh, ht⟩ := Prod.mk.inj (h'.file p)
    exact ⟨hh.trans (h.ends p).1, ht.trans (h.ends p).2⟩
  links e he := by
    obtain ⟨hn, hp⟩ := Prod.mk.inj (h'.entry e)
    exact ⟨hn.trans (h.links e he).1, hp.trans (h.links e he).2⟩

/-- What a put does: `cache_set`, and for a data page `openFile_addDataPage`. -/
theorem putPage_spec (hf : Formed s bins) (hkey : key ≠ 0) (hle : key ≤ s.brk)
    (h : putPageIntoCache s page key fuel = .ok (s', entry)) :
    ∃ s₁ bins', SetOutcome s bins key page s₁ entry bins' ∧ Extends s bins s' bins' ∧
      entryNum s' entry = numKey s key ∧
      ((s.keys key).levelsAbove ≠ 0 → DataKept s s') ∧
      ((s.keys key).levelsAbove = 0 → ∃ s₂,
        openFileAddDataPage s₁ (s.keys key).file entry = .ok s₂ ∧ SameDataLists s₂ s') := by
  obtain ⟨⟨s₁, e⟩, hset, hrest⟩ := bind_eq_ok.mp h
  obtain ⟨s₂, hadd, hrest⟩ := bind_eq_ok.mp hrest
  obtain ⟨s₃, hlru, hrest⟩ := bind_eq_ok.mp hrest
  obtain ⟨rfl, rfl⟩ := Prod.mk.inj (Except.ok.inj hrest)
  have he : e ≠ 0 := by
    split at hadd
    · obtain ⟨s₄, hdata, -⟩ := bind_eq_ok.mp hadd
      obtain ⟨s₅, hacc, -⟩ := bind_eq_ok.mp hdata
      exact (Mem.access_eq_ok.mp hacc).1
    · obtain ⟨s₄, hacc, -⟩ := bind_eq_ok.mp hadd
      exact (Mem.access_eq_ok.mp hacc).1
  obtain ⟨bins', hout⟩ := cacheSet_entry hf.toTable hkey he hset
  obtain ⟨hext, hkept⟩ := hout.extends hf hle
  have htable := (sameCache_updateFileInLru hlru).toSameTable
  have hheight : SameFields (fun f => f.treeHeight) (fun _ => ()) s₂ s₃ :=
    updateFileInLru_fields (fun _ _ => rfl) (fun _ _ => rfl) hlru
  have hlists : SameDataLists s₂ s₃ :=
    updateFileInLru_fields (fun _ _ => rfl) (fun _ _ => rfl) hlru
  rw [hout.keys] at hadd
  refine ⟨s₁, bins', hout, ?_⟩
  split at hadd
  · rename_i hlevel
    obtain ⟨s₄, hdata, hadd⟩ := bind_eq_ok.mp hadd
    have hheight₄ : SameFields (fun f => f.treeHeight) (fun _ => ()) s₁ s₄ :=
      addDataPage_fields (fun _ _ => rfl) (fun _ _ => rfl) (fun _ _ => rfl) (fun _ _ => rfl) hdata
    have hheight₂ : SameFields (fun f => f.treeHeight) (fun _ => ()) s₄ s₂ :=
      addDataPageToLru_fields (fun _ _ => rfl) (fun _ _ => rfl) hadd
    have hlists₂ : SameDataLists s₄ s₂ :=
      addDataPageToLru_fields (fun _ _ => rfl) (fun _ _ => rfl) hadd
    have hsame : SameTable s₁ s₃ := ((sameCache_addDataPage hdata).toSameTable.trans
      (addDataPageToLru_spec hadd).1).trans htable
    refine ⟨hext.sameTable hsame ((hheight₄.trans hheight₂).trans hheight).file, ?_,
      fun hne => absurd hlevel hne, fun _ => ⟨s₄, hdata, hlists₂.trans hlists⟩⟩
    rw [entryNum_congr hsame.keys hsame.address (hsame.key e), hout.num]
  · rename_i hlevel
    have hheight₂ : SameFields (fun f => f.treeHeight) (fun _ => ()) s₁ s₂ :=
      addMetadataPage_fields (fun _ _ => rfl) (fun _ _ => rfl) (fun _ _ => rfl) (fun _ _ => rfl)
        hadd
    have hlists₂ : SameDataLists s₁ s₂ :=
      addMetadataPage_fields (fun _ _ => rfl) (fun _ _ => rfl) (fun _ _ => rfl) (fun _ _ => rfl)
        hadd
    have hsame : SameTable s₁ s₃ := (sameCache_addMetadataPage hadd).toSameTable.trans htable
    refine ⟨hext.sameTable hsame (hheight₂.trans hheight).file, ?_,
      fun _ => hkept.sameDataLists (hlists₂.trans hlists), fun hzero => absurd hzero hlevel⟩
    rw [entryNum_congr hsame.keys hsame.address (hsame.key e), hout.num]

/-! ### Reading and writing -/

theorem readIntoCache_extends (hf : Formed s bins) (hkey : key ≠ 0) (hle : key ≤ s.brk)
    {address : Int} (h : readIntoCache s address key bound = .ok (s', entry)) :
    ∃ bins', Extends s bins s' bins' ∧ ((s.keys key).levelsAbove ≠ 0 → DataKept s s') := by
  obtain ⟨hext₁, hkept₁⟩ := readWpFromDisk_extends hf address
  obtain ⟨s₂, bins', -, hext₂, -, hkept₂, -⟩ :=
    putPage_spec hext₁.formed hkey (le_trans hle hext₁.brk) (lifted_eq_ok.mp h)
  exact ⟨bins', hext₁.trans hext₂, fun hlevel => hkept₁.trans hext₁.brk (hkept₂ hlevel)⟩

theorem getParentKey_fields {key parent : PageKey} (h : getParentKey key = .ok parent) :
    parent.file = key.file ∧ parent.levelsAbove = cint (key.levelsAbove + 1) := by
  obtain ⟨num, -, hparent⟩ := bind_eq_ok.mp h
  rw [← Except.ok.inj hparent]
  exact ⟨rfl, rfl⟩

theorem parent_level {key parent : PageKey} {height : Int} (h : getParentKey key = .ok parent)
    (hlo : 0 ≤ key.levelsAbove) (hhi : key.levelsAbove < height) (hint : IsInt height) :
    parent.levelsAbove = key.levelsAbove + 1 := by
  rw [(getParentKey_fields h).2]
  apply cint_eq
  unfold IsInt at hint ⊢
  omega

/-- `fs_getPage` finds the page at the top of the file, or in the cache, or reads it:
    from the inode, or after it has got the parent. -/
theorem fsGetPage_cases (h : fsGetPage env bound (fuel + 1) s key = .ok (s', entry)) :
    ((s.files (s.keys key).file).treeHeight ≤ (s.keys key).levelsAbove ∧ s' = s ∧ entry = 0) ∨
    (s.keys key).levelsAbove < (s.files (s.keys key).file).treeHeight ∧
      ((entry ≠ 0 ∧ cacheGet s key bound = .ok entry ∧ s' = s) ∨
        cacheGet s key bound = .ok 0 ∧
          ((∃ address, readIntoCache s address key bound = .ok (s', entry)) ∨
            ∃ parent s₁ parentEntry address, getParentKey (s.keys key) = .ok parent ∧
              fsGetPage env bound fuel (s.newKey parent).1 (s.newKey parent).2 =
                .ok (s₁, parentEntry) ∧
              readIntoCache s₁ address key bound = .ok (s', entry))) := by
  rw [fsGetPage] at h
  dsimp only at h
  split at h
  · rename_i htop
    obtain ⟨rfl, rfl⟩ := Prod.mk.inj (Except.ok.inj h)
    exact .inl ⟨htop, rfl, rfl⟩
  · rename_i hbelow
    refine .inr ⟨not_le.mp hbelow, ?_⟩
    obtain ⟨desired, hget, h⟩ := bind_eq_ok.mp h
    have hget := lifted_eq_ok.mp hget
    split at h
    · rename_i hfound
      obtain ⟨rfl, rfl⟩ := Prod.mk.inj (Except.ok.inj h)
      exact .inl ⟨hfound, hget, rfl⟩
    · rename_i hnone
      rw [not_not.mp hnone] at hget
      refine .inr ⟨hget, ?_⟩
      split at h
      · obtain ⟨i, -, h⟩ := bind_eq_ok.mp h
        exact .inl ⟨_, h⟩
      · obtain ⟨parent, hparent, h⟩ := bind_eq_ok.mp h
        obtain ⟨⟨s₁, parentEntry⟩, hrec, h⟩ := bind_eq_ok.mp h
        obtain ⟨s₂, hs₂, h⟩ := bind_eq_ok.mp h
        obtain ⟨-, rfl⟩ := Mem.access_eq_ok.mp (lifted_eq_ok.mp hs₂)
        obtain ⟨s₃, hs₃, h⟩ := bind_eq_ok.mp h
        obtain ⟨-, rfl⟩ := Mem.access_eq_ok.mp (lifted_eq_ok.mp hs₃)
        exact .inr ⟨parent, s₃, parentEntry, _, hparent, hrec, h⟩

theorem fsGetPage_extends (hf : Formed s bins) (hkey : key ≠ 0) (hle : key ≤ s.brk)
    (h : fsGetPage env bound fuel s key = .ok (s', entry)) :
    ∃ bins', Extends s bins s' bins' ∧ (1 ≤ (s.keys key).levelsAbove →
      IsInt (s.files (s.keys key).file).treeHeight → DataKept s s') := by
  induction fuel generalizing s bins key s' entry with
  | zero => cases h
  | succ fuel ih =>
    obtain ⟨-, rfl, -⟩ | ⟨hbelow, ⟨-, -, rfl⟩ | ⟨-, ⟨address, hread⟩ |
      ⟨parent, s₁, parentEntry, address, hparent, hrec, hread⟩⟩⟩ := fsGetPage_cases h
    · exact ⟨bins, Extends.refl hf, fun _ _ => DataKept.refl s'⟩
    · exact ⟨bins, Extends.refl hf, fun _ _ => DataKept.refl s'⟩
    · obtain ⟨bins', hext, hkept⟩ := readIntoCache_extends hf hkey hle hread
      exact ⟨bins', hext, fun hlevel _ => hkept (by omega)⟩
    · -- the parent is got first, with its key in a new place
      obtain ⟨hext₁, hkept₁⟩ := newKey_extends hf parent
      obtain ⟨bins₂, hext₂, hkept₂⟩ :=
        ih hext₁.formed (newKey_ne_zero s parent) (le_refl _) hrec
      have hext := hext₁.trans hext₂
      obtain ⟨bins', hext₃, hkept₃⟩ :=
        readIntoCache_extends hext.formed hkey (le_trans hle hext.brk) hread
      refine ⟨bins', hext.trans hext₃, fun hlevel hint => ?_⟩
      have hup := parent_level hparent (by omega) hbelow hint
      have hkept₂' : DataKept (s.newKey parent).1 s₁ := by
        apply hkept₂
        · rw [keys_newKey, hup]
          omega
        · rw [keys_newKey, (getParentKey_fields hparent).1]
          exact hint
      refine (hkept₁.trans hext₁.brk hkept₂').trans hext.brk (hkept₃ ?_)
      rw [hext.keys key hle]
      omega

theorem fsUpdateParentPage_extends (hf : Formed s bins) {address dirty : Int}
    (h : fsUpdateParentPage env s key address dirty fuel = .ok s') :
    ∃ bins', Extends s bins s' bins' ∧ ((s.keys key).levelsAbove = 0 →
      IsInt (s.files (s.keys key).file).treeHeight → DataKept s s') := by
  obtain ⟨parent, hparent, h⟩ := bind_eq_ok.mp h
  dsimp only [Mem.newKey] at h
  obtain ⟨⟨s₂, parentPage⟩, hget, h⟩ := bind_eq_ok.mp h
  obtain ⟨hext₁, hkept₁⟩ := newKey_extends hf parent
  obtain ⟨bins₂, hext₂, hkept₂⟩ :=
    fsGetPage_extends hext₁.formed (newKey_ne_zero s parent) (le_refl _) hget
  have hkept : (s.keys key).levelsAbove = 0 →
      IsInt (s.files (s.keys key).file).treeHeight → DataKept s s₂ := by
    intro hlevel hint
    refine hkept₁.trans hext₁.brk (hkept₂ ?_ ?_)
    · rw [keys_newKey, (getParentKey_fields hparent).2, hlevel]
      decide
    · rw [keys_newKey, (getParentKey_fields hparent).1]
      exact hint
  split at h
  · obtain rfl := Except.ok.inj h
    exact ⟨bins₂, hext₁.trans hext₂, hkept⟩
  · obtain rfl := Except.ok.inj h
    refine ⟨bins₂, (hext₁.trans hext₂).sameTable ?_ fun _ => rfl, fun hlevel hint => ?_⟩
    · exact SameTable.setEntry _ _ fun _ => ⟨rfl, rfl, rfl⟩
    · refine (hkept hlevel hint).sameDataLists ?_
      exact SameFields.setEntry _ _ fun _ => rfl

/-- A write prepares a page, puts it and then gets its parent. -/
theorem fsWriteData_cases {data : Buf 1024}
    (h : fsWriteData env s key data fuel = .ok (s', page)) :
    ∃ s₁ s₂ entry, prepareWriteablePage s key data = .ok (s₁, page) ∧
      putPageIntoCache s₁ page key fuel = .ok (s₂, entry) ∧
      fsUpdateParentPage env s₂ key (s₂.pages page).address 1 fuel = .ok s' := by
  obtain ⟨⟨s₁, dataPage⟩, hprep, h⟩ := bind_eq_ok.mp h
  obtain ⟨⟨s₂, entry⟩, hput, h⟩ := bind_eq_ok.mp h
  obtain ⟨s₃, hparent, h⟩ := bind_eq_ok.mp h
  obtain ⟨rfl, rfl⟩ := Prod.mk.inj (Except.ok.inj h)
  exact ⟨s₁, s₂, entry, lifted_eq_ok.mp hprep, lifted_eq_ok.mp hput, hparent⟩

theorem fsWriteData_extends (hf : Formed s bins) (hkey : key ≠ 0) (hle : key ≤ s.brk)
    {data : Buf 1024} (h : fsWriteData env s key data fuel = .ok (s', page)) :
    ∃ bins', Extends s bins s' bins' := by
  obtain ⟨s₁, s₂, entry, hprep, hput, hparent⟩ := fsWriteData_cases h
  obtain ⟨-, hext₁, -⟩ := prepareWriteablePage_extends hf hprep
  obtain ⟨-, bins₂, -, hext₂, -⟩ := putPage_spec hext₁.formed hkey (le_trans hle hext₁.brk) hput
  obtain ⟨bins', hext₃, -⟩ := fsUpdateParentPage_extends hext₂.formed hparent
  exact ⟨bins', (hext₁.trans hext₂).trans hext₃⟩

end

end Cycology.PageCache
