import Cycology.FullCache

/- The page cache as an array of pages.

   `fs_getPage` and `fs_writeData` put many pages into the cache on the way, one for each
   level of the file, under numbers that may be the same for different pages. What they
   give back does not show it: in every run that returns they answer as a plain array of
   pages would, with one page for each number (`cache_is_array`). A page that is not in the
   cache yet may hold anything, since what it is read from is made up; so the array is
   found from the end of the run (`answers_backward`).

   The pages marked as dirty, which a flush writes out, are the parents of the pages
   written, and no others (`dirty_iff_child_written`).

   Each call has a key of its own, which no one changes. The runs here do not flush. -/
namespace Cycology.PageCache
open ByteMem LinkedChain Runs.Fallible

/-! ## Calls -/

/-- A call of `fs_getPage` or of `fs_writeData`, with a new key. -/
inductive PagingCall where
  | get (key : PageKey)
  | write (key : PageKey) (data : Buf 1024)

/-- The contents of the page an entry holds. -/
def entryContents (s : Mem) (e : Ptr) : Buf 1024 :=
  FullPage.contents (s.pages (s.entries e).wp).nandPage

/-- The memory, and the contents of the page that is returned. -/
def PagingCall.exec (env : Surroundings) (fuel : Nat) (s : Mem) :
    PagingCall → Except WalkFault (Mem × Option (Buf 1024))
  | .get key => do
    let (s, desiredKey) := s.newKey key
    let (s, desired) ← fsGetPage env fuel fuel s desiredKey
    .ok (s, if desired = 0 then none else some (entryContents s desired))
  | .write key data => do
    let (s, dataKey) := s.newKey key
    let (s, dataPage) ← fsWriteData env s dataKey data fuel
    .ok (s, some (FullPage.contents (s.pages dataPage).nandPage))

/-- The number that stands for a key. -/
def pageNum (files : Ptr → OpenFile) (key : PageKey) : Int :=
  cint (cint ((files key.file).address + key.dataOffset) + key.levelsAbove)

/-- The level is not below the top of the file. -/
def AboveTop (files : Ptr → OpenFile) (key : PageKey) : Prop :=
  (files key.file).treeHeight ≤ key.levelsAbove

instance (files : Ptr → OpenFile) (key : PageKey) : Decidable (AboveTop files key) :=
  inferInstanceAs (Decidable (_ ≤ _))

/-- An array of pages. -/
abbrev Pages := Int → Buf 1024

def plainCall (files : Ptr → OpenFile) (pages : Pages) : PagingCall → Pages × Option (Buf 1024)
  | .get key => (pages, if AboveTop files key then none else some (pages (pageNum files key)))
  | .write key data => (update pages (pageNum files key) data, some data)

/-- The number of the page a call marks as dirty: that of the parent of a page written. -/
def PagingCall.marks (files : Ptr → OpenFile) : PagingCall → Option Int
  | .get _ => none
  | .write key _ =>
    match getParentKey key with
    | .error _ => none
    | .ok parent => if AboveTop files parent then none else some (pageNum files parent)

/-- A page of this number is in the cache, and dirty. -/
def DirtyNum (s : Mem) (n : Int) : Prop :=
  ∃ e, InTable s e ∧ entryNum s e = n ∧ (s.entries e).dirty ≠ 0

/-! Of the files, only the addresses and the heights matter. -/

/-- The files have the same addresses and heights. -/
def SameShape (files files' : Ptr → OpenFile) : Prop :=
  ∀ p, (files' p).address = (files p).address ∧ (files' p).treeHeight = (files p).treeHeight

namespace SameShape
variable {files files' : Ptr → OpenFile}

theorem aboveTop_iff (h : SameShape files files') (key : PageKey) :
    AboveTop files' key ↔ AboveTop files key := by
  rw [AboveTop, (h _).2, AboveTop]

theorem pageNum_eq (h : SameShape files files') (key : PageKey) :
    pageNum files' key = pageNum files key := by
  rw [pageNum, (h _).1, pageNum]

theorem marks_eq (h : SameShape files files') (call : PagingCall) :
    call.marks files' = call.marks files := by
  cases call with
  | get key => rfl
  | write key data =>
    unfold PagingCall.marks
    simp only [h.aboveTop_iff, h.pageNum_eq]

theorem plainCall_eq (h : SameShape files files') : plainCall files' = plainCall files := by
  funext pages call
  cases call with
  | get key =>
    rw [plainCall, plainCall, h.pageNum_eq]
    simp only [h.aboveTop_iff]
  | write key data => rw [plainCall, plainCall, h.pageNum_eq]

end SameShape

/-! ## Lists that are linked anew -/

/-- The table, the pages, the marks and the heights of the files are the same. -/
structure SamePages (s s' : Mem) : Prop extends SameTable s s' where
  pages : s'.pages = s.pages
  dirty : ∀ e, (s'.entries e).dirty = (s.entries e).dirty
  height : ∀ p, (s'.files p).treeHeight = (s.files p).treeHeight

section
variable {s s' s'' : Mem} {file entry e page key : Ptr} {fuel : Nat}

namespace SamePages

theorem refl (s : Mem) : SamePages s s := ⟨SameTable.refl s, rfl, fun _ => rfl, fun _ => rfl⟩

theorem trans (h : SamePages s s') (h' : SamePages s' s'') : SamePages s s'' where
  toSameTable := h.toSameTable.trans h'.toSameTable
  pages := h'.pages.trans h.pages
  dirty e := (h'.dirty e).trans (h.dirty e)
  height p := (h'.height p).trans (h.height p)

theorem setEntry (s : Mem) (p : Ptr) {f : CacheEntry → CacheEntry}
    (hf : ∀ e, (f e).key = e.key ∧ (f e).next = e.next ∧ (f e).wp = e.wp)
    (hd : ∀ e, (f e).dirty = e.dirty) : SamePages s (s.setEntry p f) :=
  ⟨SameTable.setEntry s p hf, rfl, Mem.field_setEntry s p f _ hd, fun _ => rfl⟩

theorem setFile (s : Mem) (p : Ptr) {f : OpenFile → OpenFile}
    (hf : ∀ e, (f e).address = e.address) (hh : ∀ e, (f e).treeHeight = e.treeHeight) :
    SamePages s (s.setFile p f) :=
  ⟨(SameCache.setFile s p hf).toSameTable, rfl, fun _ => rfl, Mem.field_setFile s p f _ hh⟩

theorem setFileLru (s : Mem) (head tail : Ptr) :
    SamePages s { s with lruFileHead := head, lruFileTail := tail } :=
  ⟨(SameCache.setFileLru s head tail).toSameTable, rfl, fun _ => rfl, fun _ => rfl⟩

theorem setDataLru (s : Mem) (head tail : Ptr) :
    SamePages s (s.setCache fun c => { c with lruDataHead := head, lruDataTail := tail }) :=
  ⟨⟨rfl, fun _ => rfl, rfl, rfl, fun _ => rfl, rfl, fun _ => rfl, fun _ => rfl, fun _ => rfl⟩,
    rfl, fun _ => rfl, fun _ => rfl⟩

end SamePages

theorem samePages_addDataPage (h : openFileAddDataPage s file entry = .ok s') :
    SamePages s s' := by
  refine rel_addDataPage SamePages.refl SamePages.trans (fun s p v => ?_) (fun s p v => ?_)
    (fun s p v => ?_) (fun s p v => ?_) h
  · exact SamePages.setFile s p (fun _ => rfl) fun _ => rfl
  · exact SamePages.setFile s p (fun _ => rfl) fun _ => rfl
  · exact SamePages.setEntry s p (fun _ => ⟨rfl, rfl, rfl⟩) fun _ => rfl
  · exact SamePages.setEntry s p (fun _ => ⟨rfl, rfl, rfl⟩) fun _ => rfl

theorem samePages_addMetadataPage (h : openFileAddMetadataPage s file entry = .ok s') :
    SamePages s s' := by
  refine rel_addMetadataPage SamePages.refl SamePages.trans (fun s p v => ?_) (fun s p v => ?_)
    (fun s p v => ?_) (fun s p v => ?_) h
  · exact SamePages.setFile s p (fun _ => rfl) fun _ => rfl
  · exact SamePages.setFile s p (fun _ => rfl) fun _ => rfl
  · exact SamePages.setEntry s p (fun _ => ⟨rfl, rfl, rfl⟩) fun _ => rfl
  · exact SamePages.setEntry s p (fun _ => ⟨rfl, rfl, rfl⟩) fun _ => rfl

theorem samePages_updateFileInLru (h : fsUpdateFileInLru s file fuel = .ok s') :
    SamePages s s' := by
  refine rel_updateFileInLru SamePages.refl SamePages.trans (fun s p v => ?_) (fun s p v => ?_)
    SamePages.setFileLru h
  · exact SamePages.setFile s p (fun _ => rfl) fun _ => rfl
  · exact SamePages.setFile s p (fun _ => rfl) fun _ => rfl

theorem samePages_addDataPageToLru (h : cacheAddDataPageToLru s entry = .ok s') :
    SamePages s s' := by
  obtain ⟨s₁, hs₁, hadd⟩ := bind_eq_ok.mp h
  obtain ⟨-, rfl⟩ := Mem.access_eq_ok.mp hs₁
  obtain rfl := Except.ok.inj hadd
  refine SamePages.trans ?_ (SamePages.setDataLru _ entry _)
  have hentry : SamePages s₁ _ := (SamePages.setEntry s₁ entry
    (f := fun e => { e with lruDataNext := s₁.cache.lruDataHead }) (fun _ => ⟨rfl, rfl, rfl⟩)
      fun _ => rfl).trans (SamePages.setEntry _ entry (f := fun e => { e with lruDataPrev := 0 })
        (fun _ => ⟨rfl, rfl, rfl⟩) fun _ => rfl)
  split
  · exact hentry.trans (SamePages.setDataLru _ _ entry)
  · exact hentry.trans (SamePages.setEntry _ _ (fun _ => ⟨rfl, rfl, rfl⟩) fun _ => rfl)

theorem pages_cacheSet (h : cacheSet s key page fuel = .ok (s', e)) : s'.pages = s.pages := by
  have hlink : ∀ {t t' : Mem} {bin : Nat} {last next new : Ptr},
      linkEntry t bin last next new = .ok t' → t'.pages = t.pages := by
    intro t t' bin last next new h
    unfold linkEntry at h
    split at h
    · obtain ⟨t₁, ht₁, hlinked⟩ := bind_eq_ok.mp h
      obtain ⟨-, rfl⟩ := Mem.access_eq_ok.mp ht₁
      obtain rfl := Except.ok.inj hlinked
      rfl
    · split at h
      · obtain rfl := Except.ok.inj h
        rfl
      · obtain ⟨t₁, ht₁, hlinked⟩ := bind_eq_ok.mp h
        obtain ⟨-, rfl⟩ := Mem.access_eq_ok.mp ht₁
        obtain rfl := Except.ok.inj hlinked
        rfl
  obtain ⟨⟨last, next⟩, -, h⟩ := bind_eq_ok.mp h
  dsimp only at h
  split at h
  · obtain ⟨rfl, -⟩ := Prod.mk.inj (Except.ok.inj h)
    rfl
  · obtain ⟨s₁, hs₁, h⟩ := bind_eq_ok.mp h
    obtain ⟨rfl, -⟩ := Prod.mk.inj (Except.ok.inj h)
    rw [hlink hs₁]
    unfold cacheNewEntry
    split <;> rfl

/-- After `cache_set` a put only links lists anew. -/
theorem putPage_cases (h : putPageIntoCache s page key fuel = .ok (s', e)) :
    e ≠ 0 ∧ ∃ s₁, cacheSet s key page fuel = .ok (s₁, e) ∧ SamePages s₁ s' := by
  obtain ⟨⟨s₁, e₁⟩, hset, hrest⟩ := bind_eq_ok.mp h
  obtain ⟨s₂, hadd, hrest⟩ := bind_eq_ok.mp hrest
  obtain ⟨s₃, hlru, hrest⟩ := bind_eq_ok.mp hrest
  obtain ⟨rfl, rfl⟩ := Prod.mk.inj (Except.ok.inj hrest)
  have hend := samePages_updateFileInLru hlru
  split at hadd
  · obtain ⟨s₄, hdata, hadd⟩ := bind_eq_ok.mp hadd
    obtain ⟨s₅, hacc, -⟩ := bind_eq_ok.mp hdata
    exact ⟨(Mem.access_eq_ok.mp hacc).1, s₁, hset,
      ((samePages_addDataPage hdata).trans (samePages_addDataPageToLru hadd)).trans hend⟩
  · obtain ⟨s₄, hacc, -⟩ := bind_eq_ok.mp hadd
    exact ⟨(Mem.access_eq_ok.mp hacc).1, s₁, hset, (samePages_addMetadataPage hadd).trans hend⟩

end

/-! ## What a call adds -/

/-- From `s` to `s'` pages were put under numbers that had none. They are clean, and the
    others are as they were. -/
structure AddsPages (s : Mem) (bins : Nat → List Ptr) (s' : Mem) (bins' : Nat → List Ptr) : Prop
    extends Extends s bins s' bins' where
  allocated' : ∀ b, ∀ e ∈ bins' b, (s'.entries e).wp ≤ s'.brk
  pages : ∀ p, p ≤ s.brk → s'.pages p = s.pages p
  wp : ∀ b, ∀ e ∈ bins b, (s'.entries e).wp = (s.entries e).wp
  dirty : ∀ b, ∀ e ∈ bins b, (s'.entries e).dirty = (s.entries e).dirty
  clean : ∀ b, ∀ e ∈ bins' b, (∀ c, e ∉ bins c) → (s'.entries e).dirty = 0

/-- From `s` to `s'` the page `page` was put under the key's number, with `entry`. -/
structure PutsPage (s : Mem) (bins : Nat → List Ptr) (k p : Ptr) (s' : Mem) (entry : Ptr)
    (bins' : Nat → List Ptr) : Prop extends Extends s bins s' bins' where
  pages : s'.pages = s.pages
  mem : ∃ b, entry ∈ bins' b
  num : entryNum s' entry = numKey s k
  page : (s'.entries entry).wp = p
  others : ∀ b, ∀ e ∈ bins' b, e ≠ entry → e ∈ bins b
  wp : ∀ e, e ≠ entry → (s'.entries e).wp = (s.entries e).wp
  dirty : ∀ b, ∀ e ∈ bins b, (s'.entries e).dirty = (s.entries e).dirty
  clean : (∀ b, entry ∉ bins b) → (s'.entries entry).dirty = 0

/-- The table, whose pages are allocated. -/
structure Stocked (s : Mem) (bins : Nat → List Ptr) : Prop extends Formed s bins where
  wps : ∀ b, ∀ e ∈ bins b, (s.entries e).wp ≤ s.brk

section
variable {s s₀ s' s'' : Mem} {bins bins₀ bins' bins'' : Nat → List Ptr}
  {key k wp e entry page : Ptr} {fuel bound : Nat} {env : Surroundings}

namespace AddsPages

theorem refl (hs : Stocked s bins) : AddsPages s bins s bins :=
  ⟨Extends.refl hs.toFormed, hs.wps, fun _ _ => rfl, fun _ _ _ => rfl, fun _ _ _ => rfl,
    fun b _ he hnew => absurd he (hnew b)⟩

theorem trans (h : AddsPages s bins s' bins') (h' : AddsPages s' bins' s'' bins'') :
    AddsPages s bins s'' bins'' where
  toExtends := h.toExtends.trans h'.toExtends
  allocated' := h'.allocated'
  pages p hp := (h'.pages p (le_trans hp h.brk)).trans (h.pages p hp)
  wp b e he := (h'.wp b e (h.members b e he)).trans (h.wp b e he)
  dirty b e he := (h'.dirty b e (h.members b e he)).trans (h.dirty b e he)
  clean b e he hnew := by
    by_cases hold : ∃ c, e ∈ bins' c
    · obtain ⟨c, hc⟩ := hold
      rw [h'.dirty c e hc]
      exact h.clean c e hc hnew
    · exact h'.clean b e he (not_exists.mp hold)

theorem stocked (h : AddsPages s bins s' bins') : Stocked s' bins' := ⟨h.formed, h.allocated'⟩

theorem contents (hs : Stocked s bins) (h : AddsPages s bins s' bins') {b : Nat}
    (he : e ∈ bins b) : entryContents s' e = entryContents s e := by
  rw [entryContents, h.wp b e he, h.pages _ (hs.wps b e he), entryContents]

theorem alloc (hs : Stocked s bins) (he : s'.entries = s.entries) (hc : s'.cache = s.cache)
    (hp : s'.files = s.files) (hb : s.brk ≤ s'.brk) (hk : ∀ k, k ≤ s.brk → s'.keys k = s.keys k)
    (hpages : ∀ p, p ≤ s.brk → s'.pages p = s.pages p) : AddsPages s bins s' bins := by
  refine ⟨(hs.alloc he hc hp hb hk).1, fun b e hmem => ?_, hpages, fun b e hmem => ?_,
    fun b e hmem => ?_, fun b e hmem hnew => absurd hmem (hnew b)⟩
  · rw [he]
    exact le_trans (hs.wps b e hmem) hb
  · rw [he]
  · rw [he]

theorem newKey (hs : Stocked s bins) (k : PageKey) : AddsPages s bins (s.newKey k).1 bins := by
  refine alloc hs rfl rfl rfl (Nat.le_succ _) (fun p hp => ?_) fun _ _ => rfl
  exact update_other _ _ (Nat.ne_of_lt (Nat.lt_succ_of_le hp))

theorem readWpFromDisk (hs : Stocked s bins) (address : Int) :
    AddsPages s bins (Cycology.PageCache.readWpFromDisk s address).1 bins := by
  refine alloc hs rfl rfl rfl (Nat.le_succ _) (fun _ _ => rfl) fun p hp => ?_
  exact update_other _ _ (Nat.ne_of_lt (Nat.lt_succ_of_le hp))

end AddsPages

theorem prepareWriteablePage_adds (hs : Stocked s bins) {data : Buf 1024}
    (h : prepareWriteablePage s key data = .ok (s', wp)) :
    AddsPages s bins s' bins ∧ wp = s.brk + 1 ∧ wp ≤ s'.brk ∧
      FullPage.contents (s'.pages wp).nandPage = data := by
  obtain ⟨s₁, halloc, h₁⟩ := bind_eq_ok.mp h
  unfold allocateFreePage at halloc
  obtain ⟨s₂, hs₂, halloc⟩ := bind_eq_ok.mp halloc
  obtain ⟨-, rfl⟩ := Mem.access_eq_ok.mp hs₂
  obtain ⟨s₃, hs₃, halloc⟩ := bind_eq_ok.mp halloc
  obtain ⟨-, rfl⟩ := Mem.access_eq_ok.mp hs₃
  obtain rfl := Except.ok.inj halloc
  obtain ⟨rfl, rfl⟩ := Prod.mk.inj (Except.ok.inj h₁)
  refine ⟨AddsPages.alloc hs rfl rfl rfl (Nat.le_succ _) (fun _ _ => rfl) fun p hp => ?_, rfl,
    le_refl _, ?_⟩
  · have hne : p ≠ s.brk + 1 := Nat.ne_of_lt (Nat.lt_succ_of_le hp)
    exact (update_other _ _ hne).trans (update_other _ _ hne)
  · dsimp only
    rw [update_same]
    exact Buf.slice_blit_same _ data (by decide)

theorem putPage_puts (hs : Stocked s bins) (hkey : key ≠ 0) (hle : key ≤ s.brk)
    (h : putPageIntoCache s page key fuel = .ok (s', entry)) :
    ∃ bins', PutsPage s bins key page s' entry bins' := by
  obtain ⟨he, s₁, hset, hsame⟩ := putPage_cases h
  obtain ⟨bins', hout⟩ := cacheSet_entry hs.toTable hkey he hset
  refine ⟨bins', (hout.extends hs.toFormed hle).1.sameTable hsame.toSameTable hsame.height, ?_,
    ⟨_, hout.mem⟩, ?_, ?_, fun b x hx hne => ?_, fun x hne => ?_, fun b x hx => ?_,
    fun hnew => ?_⟩
  · rw [hsame.pages, pages_cacheSet hset]
  · rw [entryNum_congr hsame.keys hsame.address (hsame.key entry), hout.num]
  · rw [hsame.wp, hout.page]
  · exact ((hout.members b x).mp hx).resolve_right fun hc => hne hc.2
  · rw [hsame.wp, (hout.other hne).2]
  · rw [hsame.dirty]
    by_cases hxe : x = entry
    · subst hxe
      rw [(hout.old b hx).1]
    · rw [hout.others x hxe]
  · rw [hsame.dirty, (hout.new hnew).2.2]
    rfl

theorem PutsPage.stocked (hs : Stocked s bins) (h : PutsPage s bins key page s' entry bins')
    (hpage : page ≤ s.brk) : Stocked s' bins' := by
  refine ⟨h.formed, fun b e he => ?_⟩
  by_cases hee : e = entry
  · rw [hee, h.page]
    exact le_trans hpage h.brk
  · rw [h.wp e hee]
    exact le_trans (hs.wps b e (h.others b e he hee)) h.brk

theorem AddsPages.put (hf₀ : Formed s₀ bins₀) (h : AddsPages s₀ bins₀ s bins)
    (hle : key ≤ s₀.brk) (hnew : NewKey s₀ bins₀ key)
    (hput : PutsPage s bins key page s' entry bins') (hpage : page ≤ s.brk) :
    AddsPages s₀ bins₀ s' bins' := by
  -- the entry is none of the first table's: the number was new
  have hne : ∀ b, ∀ e ∈ bins₀ b, e ≠ entry := by
    rintro b e he rfl
    refine hnew b e he ?_
    rw [← (h.toExtends.trans hput.toExtends).entryNum_eq hf₀ he, hput.num, h.numKey_eq hle]
  refine ⟨h.toExtends.trans hput.toExtends, (hput.stocked h.stocked hpage).wps, fun p hp => ?_,
    fun b e he => ?_, fun b e he => ?_, fun b e he hnone => ?_⟩
  · rw [hput.pages, h.pages p hp]
  · rw [hput.wp e (hne b e he), h.wp b e he]
  · rw [hput.dirty b e (h.members b e he), h.dirty b e he]
  · by_cases hold : ∃ c, e ∈ bins c
    · obtain ⟨c, hc⟩ := hold
      rw [hput.dirty c e hc, h.clean c e hc hnone]
    · have hee : e = entry := by
        by_contra hee
        exact hold ⟨b, hput.others b e he hee⟩
      rw [hee] at hold ⊢
      exact hput.clean (not_exists.mp hold)

theorem AddsPages.read (hf₀ : Formed s₀ bins₀) (h : AddsPages s₀ bins₀ s bins) (hkey : key ≠ 0)
    (hle : key ≤ s₀.brk) (hnew : NewKey s₀ bins₀ key) {address : Int}
    (hread : readIntoCache s address key bound = .ok (s', entry)) :
    ∃ bins', AddsPages s₀ bins₀ s' bins' ∧ (∃ b, entry ∈ bins' b) ∧
      entryNum s' entry = numKey s key := by
  have halloc := AddsPages.readWpFromDisk h.stocked address
  have hle₁ : key ≤ s.brk := le_trans hle h.brk
  obtain ⟨bins', hput⟩ := putPage_puts halloc.stocked hkey (le_trans hle₁ halloc.brk)
    (lifted_eq_ok.mp hread)
  refine ⟨bins', (h.trans halloc).put hf₀ hle hnew hput (le_refl _), hput.mem, ?_⟩
  rw [hput.num, halloc.numKey_eq hle₁]

/-- `fs_getPage` adds the page and its parents, where they are missing. -/
theorem fsGetPage_addsPages (hs : Stocked s bins) (hkey : key ≠ 0) (hle : key ≤ s.brk)
    (h : fsGetPage env bound fuel s key = .ok (s', entry)) :
    ∃ bins', AddsPages s bins s' bins' ∧ (entry = 0 ↔ AboveTop s.files (s.keys key)) ∧
      (entry ≠ 0 → (∃ b, entry ∈ bins' b) ∧ entryNum s' entry = numKey s key) := by
  induction fuel generalizing s bins key s' entry with
  | zero => cases h
  | succ fuel ih =>
    obtain ⟨htop, rfl, rfl⟩ | ⟨hbelow, hcases⟩ := fsGetPage_cases h
    · exact ⟨bins, AddsPages.refl hs, ⟨fun _ => htop, fun _ => rfl⟩, fun hne => absurd rfl hne⟩
    · have hnot : ¬ AboveTop s.files (s.keys key) := not_le.mpr hbelow
      obtain ⟨hfound, hget, rfl⟩ | ⟨hget, hread⟩ := hcases
      · obtain ⟨hmem, hnum⟩ := (cacheGet_spec hs.toTable hget).1 hfound
        exact ⟨bins, AddsPages.refl hs, ⟨fun h0 => absurd h0 hfound, fun ht => absurd ht hnot⟩,
          fun _ => ⟨⟨_, hmem⟩, hnum⟩⟩
      · have hnew : NewKey s bins key := newKey_of_get hs.toTable hget
        suffices hadds : ∃ bins', AddsPages s bins s' bins' ∧ (∃ b, entry ∈ bins' b) ∧
            entryNum s' entry = numKey s key by
          obtain ⟨bins', hadds, hmem, hnum⟩ := hadds
          obtain ⟨b, hb⟩ := hmem
          have hne : entry ≠ 0 := hadds.formed.ne_zero hb
          exact ⟨bins', hadds, ⟨fun h0 => absurd h0 hne, fun ht => absurd ht hnot⟩,
            fun _ => ⟨⟨b, hb⟩, hnum⟩⟩
        obtain ⟨address, hread⟩ | ⟨parent, s₁, parentEntry, address, -, hrec, hread⟩ := hread
        · exact (AddsPages.refl hs).read hs.toFormed hkey hle hnew hread
        · -- the parent may have been put under the same number
          have halloc := AddsPages.newKey hs parent
          obtain ⟨bins₁, hadds, -⟩ := ih halloc.stocked (newKey_ne_zero s parent) (le_refl _) hrec
          have hboth := halloc.trans hadds
          obtain ⟨bins', hadds', hmem, hnum⟩ := hboth.read hs.toFormed hkey hle hnew hread
          exact ⟨bins', hadds', hmem, hnum.trans (hboth.numKey_eq hle)⟩

/-! ## Marks -/

/-- From `s` to `s'` no mark is set or cleared. -/
def SameMarks (s : Mem) (bins : Nat → List Ptr) (s' : Mem) (bins' : Nat → List Ptr) : Prop :=
  ∀ b, ∀ e ∈ bins' b,
    ((s'.entries e).dirty ≠ 0 ↔ (∃ c, e ∈ bins c) ∧ (s.entries e).dirty ≠ 0)

theorem SameMarks.trans (h : SameMarks s bins s' bins') (hmem : ∀ b, ∀ e ∈ bins b, e ∈ bins' b)
    (h' : SameMarks s' bins' s'' bins'') : SameMarks s bins s'' bins'' := by
  intro b e he
  rw [h' b e he]
  constructor
  · rintro ⟨⟨c, hc⟩, hdirty⟩
    exact (h c e hc).mp hdirty
  · rintro ⟨⟨c, hc⟩, hdirty⟩
    exact ⟨⟨c, hmem c e hc⟩, (h c e (hmem c e hc)).mpr ⟨⟨c, hc⟩, hdirty⟩⟩

theorem AddsPages.sameMarks (h : AddsPages s bins s' bins') : SameMarks s bins s' bins' := by
  intro b e he
  by_cases hold : ∃ c, e ∈ bins c
  · obtain ⟨c, hc⟩ := hold
    rw [h.dirty c e hc]
    exact ⟨fun hd => ⟨⟨c, hc⟩, hd⟩, fun hd => hd.2⟩
  · rw [h.clean b e he (not_exists.mp hold)]
    exact ⟨fun hd => absurd rfl hd, fun hd => absurd hd.1 hold⟩

theorem PutsPage.sameMarks (h : PutsPage s bins key page s' entry bins') :
    SameMarks s bins s' bins' := by
  intro b e he
  by_cases hold : ∃ c, e ∈ bins c
  · obtain ⟨c, hc⟩ := hold
    rw [h.dirty c e hc]
    exact ⟨fun hd => ⟨⟨c, hc⟩, hd⟩, fun hd => hd.2⟩
  · have hee : e = entry := by
      by_contra hee
      exact hold ⟨b, h.others b e he hee⟩
    rw [hee] at hold ⊢
    rw [h.clean (not_exists.mp hold)]
    exact ⟨fun hd => absurd rfl hd, fun hd => absurd hd.1 hold⟩

theorem Table.dirtyNum_iff (ht : Table s bins) {n : Int} :
    DirtyNum s n ↔ ∃ b, ∃ e ∈ bins b, entryNum s e = n ∧ (s.entries e).dirty ≠ 0 := by
  constructor
  · rintro ⟨e, he, hnum, hdirty⟩
    obtain ⟨b, hb⟩ := ht.inTable_iff.mp he
    exact ⟨b, e, hb, hnum, hdirty⟩
  · rintro ⟨b, e, hb, hnum, hdirty⟩
    exact ⟨e, ht.inTable_iff.mpr ⟨b, hb⟩, hnum, hdirty⟩

theorem SameMarks.dirtyNum_iff (h : SameMarks s bins s' bins') (hf : Formed s bins)
    (hext : Extends s bins s' bins') {n : Int} : DirtyNum s' n ↔ DirtyNum s n := by
  rw [hext.formed.dirtyNum_iff, hf.dirtyNum_iff]
  constructor
  · rintro ⟨b, e, he, hnum, hdirty⟩
    obtain ⟨⟨c, hc⟩, hdirty⟩ := (h b e he).mp hdirty
    exact ⟨c, e, hc, (hext.entryNum_eq hf hc).symm.trans hnum, hdirty⟩
  · rintro ⟨b, e, he, hnum, hdirty⟩
    have he' := hext.members b e he
    exact ⟨b, e, he', (hext.entryNum_eq hf he).trans hnum, (h b e he').mpr ⟨⟨b, he⟩, hdirty⟩⟩

/-- An entry of the table is marked. -/
def Mem.mark (s : Mem) (e : Ptr) : Mem := s.setEntry e fun c => { c with dirty := 1 }

theorem Stocked.mark (hs : Stocked s bins) (e : Ptr) :
    Stocked (s.mark e) bins ∧ Extends s bins (s.mark e) bins ∧
      ∀ x, entryContents (s.mark e) x = entryContents s x := by
  have htable : SameTable s (s.mark e) := SameTable.setEntry s e fun _ => ⟨rfl, rfl, rfl⟩
  have hext := (Extends.refl hs.toFormed).sameTable htable fun _ => rfl
  refine ⟨⟨hext.formed, fun b x hx => ?_⟩, hext, fun x => ?_⟩
  · rw [htable.wp, htable.brk]
    exact hs.wps b x hx
  · rw [entryContents, htable.wp, entryContents]
    rfl

theorem Stocked.dirtyNum_mark (hs : Stocked s bins) {b : Nat} (he : e ∈ bins b) {n : Int} :
    DirtyNum (s.mark e) n ↔ DirtyNum s n ∨ entryNum s e = n := by
  obtain ⟨hmark, hext, -⟩ := hs.mark e
  rw [hmark.dirtyNum_iff, hs.dirtyNum_iff]
  have hsame : ∀ x, x ≠ e → ((s.mark e).entries x).dirty = (s.entries x).dirty := fun x hx => by
    rw [Mem.mark, Mem.entries_setEntry_other _ _ _ hx]
  constructor
  · rintro ⟨c, x, hx, hnum, hdirty⟩
    rw [hext.entryNum_eq hs.toFormed hx] at hnum
    by_cases hxe : x = e
    · exact .inr (hxe ▸ hnum)
    · rw [hsame x hxe] at hdirty
      exact .inl ⟨c, x, hx, hnum, hdirty⟩
  · rintro (⟨c, x, hx, hnum, hdirty⟩ | hnum)
    · refine ⟨c, x, hx, (hext.entryNum_eq hs.toFormed hx).trans hnum, ?_⟩
      by_cases hxe : x = e
      · rw [hxe, Mem.mark, Mem.entries_setEntry_same]
        exact one_ne_zero
      · rw [hsame x hxe]
        exact hdirty
    · refine ⟨b, e, he, (hext.entryNum_eq hs.toFormed he).trans hnum, ?_⟩
      rw [Mem.mark, Mem.entries_setEntry_same]
      exact one_ne_zero

/-! ## Writing -/

/-- From `s` to `s'` the key's number got the data, and the other pages are as they were. -/
structure StoresData (s : Mem) (bins : Nat → List Ptr) (k : Ptr) (data : Buf 1024) (s' : Mem)
    (bins' : Nat → List Ptr) : Prop extends Extends s bins s' bins' where
  stocked : Stocked s' bins'
  written : ∃ b, ∃ e ∈ bins' b, entryNum s' e = numKey s k ∧ entryContents s' e = data
  others : ∀ b, ∀ e ∈ bins b, entryNum s e ≠ numKey s k → entryContents s' e = entryContents s e

theorem numKey_newKey (s : Mem) (key : PageKey) :
    numKey (s.newKey key).1 (s.newKey key).2 = pageNum s.files key := by
  rw [numKey, keys_newKey, pageNum]
  rfl

/-- `fs_updateParentPage` gets the parent and marks it, unless it is above the top. -/
theorem fsUpdateParentPage_spec (hs : Stocked s bins) {address : Int}
    (h : fsUpdateParentPage env s key address 1 fuel = .ok s') :
    ∃ parent s₁ bins', getParentKey (s.keys key) = .ok parent ∧ AddsPages s bins s₁ bins' ∧
      (AboveTop s.files parent ∧ s' = s₁ ∨ ¬ AboveTop s.files parent ∧
        ∃ b, ∃ e ∈ bins' b, entryNum s₁ e = pageNum s.files parent ∧ s' = s₁.mark e) := by
  obtain ⟨parent, hparent, h⟩ := bind_eq_ok.mp h
  obtain ⟨⟨s₁, parentPage⟩, hget, h⟩ := bind_eq_ok.mp h
  have halloc := AddsPages.newKey hs parent
  obtain ⟨bins', hadds, htop, hfound⟩ :=
    fsGetPage_addsPages halloc.stocked (newKey_ne_zero s parent) (le_refl _) hget
  rw [keys_newKey] at htop
  refine ⟨parent, s₁, bins', hparent, halloc.trans hadds, ?_⟩
  dsimp only at h
  split at h
  · rename_i h0
    exact .inl ⟨htop.mp h0, (Except.ok.inj h).symm⟩
  · rename_i hne
    obtain ⟨⟨b, hb⟩, hnum⟩ := hfound hne
    rw [numKey_newKey] at hnum
    exact .inr ⟨fun ht => hne (htop.mpr ht), b, parentPage, hb, hnum, (Except.ok.inj h).symm⟩

theorem fsWriteData_spec (hs : Stocked s bins) (hkey : key ≠ 0) (hle : key ≤ s.brk)
    {data : Buf 1024} (h : fsWriteData env s key data fuel = .ok (s', page)) :
    FullPage.contents (s'.pages page).nandPage = data ∧
    ∃ bins', StoresData s bins key data s' bins' ∧ ∀ n, DirtyNum s' n ↔
      DirtyNum s n ∨ (PagingCall.write (s.keys key) data).marks s.files = some n := by
  obtain ⟨s₁, s₂, entry, hprep, hput, hparent⟩ := fsWriteData_cases h
  obtain ⟨hadds₁, -, hpage, hdata⟩ := prepareWriteablePage_adds hs hprep
  obtain ⟨bins₂, hputs⟩ := putPage_puts hadds₁.stocked hkey (le_trans hle hadds₁.brk) hput
  have hstocked₂ := hputs.stocked hadds₁.stocked hpage
  obtain ⟨parent, s₃, bins₃, hparentKey, hadds₃, hmarked⟩ :=
    fsUpdateParentPage_spec hstocked₂ hparent
  have hext₂ := hadds₁.toExtends.trans hputs.toExtends
  have hext₃ := hext₂.trans hadds₃.toExtends
  rw [hext₂.keys key hle] at hparentKey
  rw [SameShape.aboveTop_iff hext₂.file, SameShape.pageNum_eq hext₂.file] at hmarked
  -- the page put holds the data, and nothing behind it changes that
  obtain ⟨b, hb⟩ := hputs.mem
  have hreturned : FullPage.contents (s₃.pages page).nandPage = data := by
    rw [hadds₃.pages page (le_trans hpage hputs.brk), hputs.pages, hdata]
  have hnum : entryNum s₃ entry = numKey s key := by
    rw [hadds₃.entryNum_eq hstocked₂.toFormed hb, hputs.num, hadds₁.numKey_eq hle]
  have hcontents : entryContents s₃ entry = data := by
    rw [hadds₃.contents hstocked₂ hb, entryContents, hputs.page, hputs.pages, hdata]
  have hothers : ∀ b, ∀ e ∈ bins b, entryNum s e ≠ numKey s key →
      entryContents s₃ e = entryContents s e := by
    intro c e he hne
    have he₁ := hadds₁.members c e he
    have hee : e ≠ entry := by
      rintro rfl
      refine hne ?_
      rw [← hext₃.entryNum_eq hs.toFormed he, hnum]
    rw [hadds₃.contents hstocked₂ (hputs.members c e he₁), entryContents, hputs.wp e hee,
      hputs.pages, ← entryContents, hadds₁.contents hs he]
  have hdirty : ∀ n, DirtyNum s₃ n ↔ DirtyNum s n := fun n => by
    rw [hadds₃.sameMarks.dirtyNum_iff hstocked₂.toFormed hadds₃.toExtends,
      hputs.sameMarks.dirtyNum_iff hadds₁.stocked.toFormed hputs.toExtends,
      hadds₁.sameMarks.dirtyNum_iff hs.toFormed hadds₁.toExtends]
  have hmarks : (PagingCall.write (s.keys key) data).marks s.files =
      if AboveTop s.files parent then none else some (pageNum s.files parent) := by
    rw [PagingCall.marks, hparentKey]
  rw [hmarks]
  obtain ⟨htop, rfl⟩ | ⟨hbelow, c, e, he, hmark, rfl⟩ := hmarked
  · refine ⟨hreturned, bins₃, ⟨hext₃, hadds₃.stocked, ⟨b, entry, hadds₃.members b entry hb, hnum,
      hcontents⟩, hothers⟩, fun n => ?_⟩
    rw [hdirty, if_pos htop]
    simp
  · obtain ⟨hstocked, hext, hsame⟩ := hadds₃.stocked.mark e
    refine ⟨hreturned, bins₃, ⟨hext₃.trans hext, hstocked, ⟨b, entry,
      hadds₃.members b entry hb, ?_, (hsame entry).trans hcontents⟩, fun d x hx hne => ?_⟩,
      fun n => ?_⟩
    · rw [hext.entryNum_eq hadds₃.formed (hadds₃.members b entry hb), hnum]
    · rw [hsame, hothers d x hx hne]
    · rw [hadds₃.stocked.dirtyNum_mark he, hdirty, hmark, if_neg hbelow, Option.some_inj]

/-! ## Runs -/

/-- The array has the pages that are in the cache. -/
def Shows (s : Mem) (pages : Pages) : Prop :=
  ∀ e, InTable s e → pages (entryNum s e) = entryContents s e

theorem Table.shows_iff (ht : Table s bins) {pages : Pages} :
    Shows s pages ↔ ∀ b, ∀ e ∈ bins b, pages (entryNum s e) = entryContents s e := by
  constructor
  · exact fun h b e he => h e (ht.inTable_iff.mpr ⟨b, he⟩)
  · intro h e he
    obtain ⟨b, hb⟩ := ht.inTable_iff.mp he
    exact h b e hb

/-- The pages of the table are those of one map: no number is in it twice. -/
theorem Table.holds_exists (ht : Table s bins) : ∃ m, Holds s bins m := by
  classical
  refine ⟨fun n => if h : ∃ e, (∃ b, e ∈ bins b) ∧ entryNum s e = n
    then some (s.entries h.choose).wp else none, ht, fun b e he => ?_, fun n hn => ?_⟩
  · have hex : ∃ x, (∃ b, x ∈ bins b) ∧ entryNum s x = entryNum s e := ⟨e, ⟨b, he⟩, rfl⟩
    obtain ⟨⟨c, hc⟩, hnum⟩ := hex.choose_spec
    rw [dif_pos hex, ht.unique hc he hnum]
  · by_contra hnone
    refine hn (dif_neg fun hex => ?_)
    obtain ⟨e, ⟨b, hb⟩, hnum⟩ := hex
    exact hnone ⟨b, e, hb, hnum⟩

theorem Table.shows_exists (ht : Table s bins) : ∃ pages, Shows s pages := by
  obtain ⟨m, hm⟩ := ht.holds_exists
  refine ⟨fun n => (m n).elim default fun wp => FullPage.contents (s.pages wp).nandPage,
    ht.shows_iff.mpr fun b e he => ?_⟩
  rw [hm.page b e he]
  rfl

/-- What one call answers, traced back from an array that has the pages after it. -/
theorem PagingCall.exec_spec (hs : Stocked s bins) {call : PagingCall} {r : Option (Buf 1024)}
    (h : call.exec env fuel s = .ok (s', r)) :
    ∃ bins', Stocked s' bins' ∧ Extends s bins s' bins' ∧
      (∀ pages', Shows s' pages' → ∃ pages, Shows s pages ∧
        plainCall s.files pages call = (pages', r)) ∧
      ∀ n, DirtyNum s' n ↔ DirtyNum s n ∨ call.marks s.files = some n := by
  cases call with
  | get key =>
    obtain ⟨⟨s₁, desired⟩, hget, h⟩ := bind_eq_ok.mp h
    obtain ⟨rfl, rfl⟩ := Prod.mk.inj (Except.ok.inj h)
    have halloc := AddsPages.newKey hs key
    obtain ⟨bins', hadds, htop, hfound⟩ :=
      fsGetPage_addsPages halloc.stocked (newKey_ne_zero s key) (le_refl _) hget
    rw [keys_newKey] at htop
    rw [numKey_newKey] at hfound
    have hboth := halloc.trans hadds
    refine ⟨bins', hboth.stocked, hboth.toExtends, fun pages hpages => ⟨pages, ?_, ?_⟩,
      fun n => ?_⟩
    · rw [hs.shows_iff]
      intro b e he
      rw [← hboth.entryNum_eq hs.toFormed he, hboth.formed.shows_iff.mp hpages b e
        (hboth.members b e he), hboth.contents hs he]
    -- a page above the top is not looked for; any other is in the cache when the call returns
    · have htop' : desired = 0 ↔ AboveTop s.files key := htop
      rw [plainCall]
      by_cases h0 : desired = 0
      · rw [if_pos h0, if_pos (htop'.mp h0)]
      · obtain ⟨⟨b, hb⟩, hnum⟩ := hfound h0
        rw [if_neg h0, if_neg fun ht => h0 (htop'.mpr ht), ← hnum,
          hboth.formed.shows_iff.mp hpages b desired hb]
    · rw [hboth.sameMarks.dirtyNum_iff hs.toFormed hboth.toExtends]
      simp [PagingCall.marks]
  | write key data =>
    obtain ⟨⟨s₁, page⟩, hwrite, h⟩ := bind_eq_ok.mp h
    obtain ⟨rfl, rfl⟩ := Prod.mk.inj (Except.ok.inj h)
    have halloc := AddsPages.newKey hs key
    obtain ⟨hreturned, bins', hwrites, hdirty⟩ :=
      fsWriteData_spec halloc.stocked (newKey_ne_zero s key) (le_refl _) hwrite
    rw [keys_newKey] at hdirty
    have hext := halloc.toExtends.trans hwrites.toExtends
    refine ⟨bins', hwrites.stocked, hext, fun pages hpages => ?_, fun n => ?_⟩
    · -- before the write the number may have had another page
      obtain ⟨x, hx⟩ : ∃ x, ∀ b, ∀ e ∈ bins b, entryNum s e = pageNum s.files key →
          entryContents s e = x := by
        by_cases hold : ∃ b, ∃ e ∈ bins b, entryNum s e = pageNum s.files key
        · obtain ⟨b, e, he, hnum⟩ := hold
          exact ⟨_, fun c y hy hnum' => by rw [hs.unique hy he (hnum'.trans hnum.symm)]⟩
        · exact ⟨default, fun b e he hnum => absurd ⟨b, e, he, hnum⟩ hold⟩
      have hshows := hwrites.formed.shows_iff.mp hpages
      have hdata : pages (pageNum s.files key) = data := by
        obtain ⟨b, e, he, hnum, hcontents⟩ := hwrites.written
        rw [← hcontents, ← hshows b e he, hnum, numKey_newKey]
      refine ⟨update pages (pageNum s.files key) x, hs.shows_iff.mpr fun b e he => ?_, ?_⟩
      · by_cases hnum : entryNum s e = pageNum s.files key
        · rw [hnum, update_same, hx b e he hnum]
        · have he' := halloc.members b e he
          rw [update_other _ _ hnum, ← hext.entryNum_eq hs.toFormed he,
            hshows b e (hwrites.members b e he'), hwrites.others b e he' ?_, halloc.contents hs he]
          rw [halloc.entryNum_eq hs.toFormed he, numKey_newKey]
          exact hnum
      · rw [plainCall, hreturned]
        congr 1
        funext n
        by_cases hn : n = pageNum s.files key
        · rw [hn, update_same, hdata]
        · rw [update_other _ _ hn, update_other _ _ hn]
    · rw [hdirty, halloc.sameMarks.dirtyNum_iff hs.toFormed halloc.toExtends,
        SameShape.marks_eq halloc.file]

/-- What a run from a new cache keeps. -/
def Running (files : Ptr → OpenFile) (s : Mem) : Prop :=
  ∃ bins, Stocked s bins ∧ SameShape files s.files

theorem Running.create {size : Int} (h : cacheCreate s size = some s₀) : Running s₀.files s₀ :=
  ⟨_, ⟨Formed.create h, fun _ _ he => absurd he List.not_mem_nil⟩, fun _ => ⟨rfl, rfl⟩⟩

variable {files : Ptr → OpenFile} {calls : List PagingCall} {rs : List (Option (Buf 1024))}

theorem Running.exec (hrun : Running files s) {call : PagingCall} {r : Option (Buf 1024)}
    (h : call.exec env fuel s = .ok (s', r)) :
    Running files s' ∧
      (∀ pages', Shows s' pages' → ∃ pages, Shows s pages ∧
        plainCall files pages call = (pages', r)) ∧
      ∀ n, DirtyNum s' n ↔ DirtyNum s n ∨ call.marks files = some n := by
  obtain ⟨bins, hs, hfiles⟩ := hrun
  obtain ⟨bins', hs', hext, hback, hdirty⟩ := PagingCall.exec_spec hs h
  rw [hfiles.plainCall_eq] at hback
  rw [hfiles.marks_eq] at hdirty
  refine ⟨⟨bins', hs', fun p => ?_⟩, hback, hdirty⟩
  exact ⟨(hext.file p).1.trans (hfiles p).1, (hext.file p).2.trans (hfiles p).2⟩

theorem Running.dirtyNum_iff (hrun : Running files s)
    (h : answers (PagingCall.exec env fuel) s calls = .ok (s', rs)) (n : Int) :
    DirtyNum s' n ↔ DirtyNum s n ∨ n ∈ calls.filterMap (PagingCall.marks files) := by
  induction calls generalizing s rs with
  | nil =>
    obtain ⟨rfl, -⟩ := Prod.mk.inj (Except.ok.inj h)
    simp
  | cons call calls ih =>
    obtain ⟨s₁, r, rs', hcall, hrest, -⟩ := answers_cons_eq_ok.mp h
    obtain ⟨hrun₁, -, hdirty⟩ := hrun.exec hcall
    rw [ih hrun₁ hrest, hdirty]
    simp only [List.mem_filterMap, List.mem_cons, exists_eq_or_imp, or_assoc]

end

/-- **The cache answers as an array of pages.** Whatever calls of `fs_getPage` and
    `fs_writeData` a run from a new cache makes, there is an array of pages, one for each
    number, that would have answered all of them the same way, and at the end it has the
    pages that are in the cache. So a page that was written is read again until it is
    written anew, and so is a page that was read. -/
theorem cache_is_array {s s₀ s' : Mem} {size : Int} (hcreate : cacheCreate s size = some s₀)
    {env : Surroundings} {fuel : Nat} {calls : List PagingCall} {rs : List (Option (Buf 1024))}
    (hrun : answers (PagingCall.exec env fuel) s₀ calls = .ok (s', rs)) :
    ∃ pages pages', replies (plainCall s₀.files) pages calls = (pages', rs) ∧
      Shows s' pages' := by
  have hend : Running s₀.files s' :=
    answers_invariant (fun h hcall => (h.exec hcall).1) (Running.create hcreate) hrun
  obtain ⟨bins, hs, -⟩ := hend
  obtain ⟨pages', hshows⟩ := hs.shows_exists
  obtain ⟨pages, -, hreplies⟩ := answers_backward (fun h hcall => (h.exec hcall).1)
    (fun h hcall hrel => (h.exec hcall).2.1 _ hrel) (Running.create hcreate) hrun hshows
  exact ⟨pages, pages', hreplies, hshows⟩

/-- `oneFile`, with the address 7 and of two levels, and room for eight pages. -/
def twoLevels : Mem :=
  { oneFile with
    files := fun _ =>
      { (default : OpenFile) with address := 7, mainExtentLog := 1, treeHeight := 2 }
    cache := { maxSize := 8, size := 0, table := fun _ => 0, lruDataHead := 0, lruDataTail := 0 } }

theorem twoLevels_create : cacheCreate twoLevels 8 = some twoLevels := rfl

/-- The second page of the file. -/
def secondPage : PageKey := { file := 1, dataOffset := 1024, levelsAbove := 0 }

def someData : Buf 1024 := Buf.ofFn 1024 fun _ => 7

/-- It is written and read. -/
theorem cache_is_array_second : ∃ s',
    answers (PagingCall.exec nothingAround 9) twoLevels
      [.write secondPage someData, .get secondPage] =
        .ok (s', [some someData, some someData]) := by
  obtain ⟨s', rs, hrun⟩ : ∃ s' rs, answers (PagingCall.exec nothingAround 9) twoLevels
      [.write secondPage someData, .get secondPage] = .ok (s', rs) := ⟨_, _, rfl⟩
  obtain ⟨pages, pages', hreplies, -⟩ := cache_is_array twoLevels_create hrun
  have hrs : [some someData, some (update pages (pageNum twoLevels.files secondPage) someData
      (pageNum twoLevels.files secondPage))] = rs := congrArg Prod.snd hreplies
  rw [update_same] at hrs
  exact ⟨s', hrs ▸ hrun⟩

/-- **The dirty pages are the parents of those written.** After any run from a new cache a
    number is that of a dirty page exactly if it is the number of the parent of a page
    that was written, and the parent is not above the top of its file. -/
theorem dirty_iff_child_written {s s₀ s' : Mem} {size : Int}
    (hcreate : cacheCreate s size = some s₀) {env : Surroundings} {fuel : Nat}
    {calls : List PagingCall} {rs : List (Option (Buf 1024))}
    (hrun : answers (PagingCall.exec env fuel) s₀ calls = .ok (s', rs)) (n : Int) :
    DirtyNum s' n ↔ n ∈ calls.filterMap (PagingCall.marks s₀.files) := by
  rw [(Running.create hcreate).dirtyNum_iff hrun n]
  have hnone : ¬ DirtyNum s₀ n := by
    rw [(Table.create hcreate).dirtyNum_iff]
    rintro ⟨b, e, he, -⟩
    cases he
  exact or_iff_right hnone

/-- The page with the number 8 is the parent of the second page. -/
theorem dirty_iff_child_written_second : ∃ s' rs,
    answers (PagingCall.exec nothingAround 9) twoLevels
      [.write secondPage someData, .get secondPage] = .ok (s', rs) ∧
    DirtyNum s' 8 ∧ ¬ DirtyNum s' 1031 := by
  obtain ⟨s', rs, hrun⟩ : ∃ s' rs, answers (PagingCall.exec nothingAround 9) twoLevels
      [.write secondPage someData, .get secondPage] = .ok (s', rs) := ⟨_, _, rfl⟩
  have hdirty := dirty_iff_child_written twoLevels_create hrun
  exact ⟨s', rs, hrun, (hdirty 8).mpr (by decide), fun h => absurd ((hdirty 1031).mp h) (by decide)⟩

end Cycology.PageCache
