import Cycology.FileLru
import Cycology.PageArray

/- Calls that return.

   `fs_getPage` and `fs_writeData` follow `NULL` when the cache is full, divide by 0 from
   level 127 on, use indices that may lie outside the arrays, write the numbers of keys to
   buffers that may be too short, and search a list of files that may run in a circle. None
   of this happens to a call whose page is at a level of its file, if the height is at most
   127, the indices and the keys on the way up are in bounds, the cache has room for a page
   of each level, and the file is not third or further down in the list of files by last
   use (`PagingCall.Fits`). A run of such calls returns, and what lies outside the arrays
   does not matter to it (`calls_return`). -/
namespace Cycology.PageCache
open ByteMem LinkedChain DoublyLinked Runs.Fallible

def PagingCall.key : PagingCall → PageKey
  | .get key => key
  | .write key _ => key

/-- A number from 1 on whose digits fit the buffers of `keyCmp` and `cache_hash`. For a
    power of ten these are a character short. -/
def NumFits (num : Int) : Prop := 1 ≤ num ∧ ∀ k : Nat, num ≠ 10 ^ k

/-- The way up from the key: each index lies in the array it is used on, and each key's
    number fits the buffers it is written to. -/
def WayInBounds (files : Ptr → OpenFile) (key : PageKey) : Prop :=
  ∃ fuel way, walkUp (files key.file).treeHeight fuel key = .ok way ∧ NumFits (pageNum files key) ∧
    (∀ parent ∈ way.parents,
      NumFits (pageNum files parent.1) ∧ 0 ≤ parent.2 ∧ parent.2 < PAGESIZE) ∧
    0 ≤ way.inodeIndex ∧ way.inodeIndex < DIRECT_PAGES

/-- What lies in the arrays of the inodes is the same. -/
def Surroundings.SameInside (env env' : Surroundings) : Prop :=
  ∀ file i, 0 ≤ i → i < DIRECT_PAGES → env'.directPage file i = env.directPage file i

/-- The call is at a level of its file, with a way up that is in bounds, the cache has room
    for all levels of it, and the file is not third or further down by last use. -/
structure PagingCall.Fits (s : Mem) (call : PagingCall) : Prop where
  file : call.key.file ≠ 0
  log : (s.files call.key.file).mainExtentLog ≠ 0
  level : 0 ≤ call.key.levelsAbove ∧
    call.key.levelsAbove < (s.files call.key.file).treeHeight
  height : (s.files call.key.file).treeHeight ≤ 127
  way : WayInBounds s.files call.key
  room : s.cache.size + (s.files call.key.file).treeHeight ≤ s.cache.maxSize
  shallow : ∀ l, FilesListed s l → call.key.file ∉ l.drop 2

/-- The table counted by `size`, with the files of the list, and enough turns. -/
structure Roomy (fuel : Nat) (s : Mem) (bins : Nat → List Ptr) (files : List Ptr) : Prop
    extends Stocked s bins where
  used : ∀ b, ∀ e ∈ bins b, (s.entries e).wp ≠ 0
  size : s.cache.size = entryCount s bins
  room : s.cache.size ≤ s.cache.maxSize
  maxSize : 0 < s.cache.maxSize ∧ IsInt s.cache.maxSize ∧ s.cache.maxSize.toNat < fuel
  listed : FilesLinked s files

/-- The file was touched, or not. -/
def Touched (file : Ptr) (files files' : List Ptr) : Prop :=
  files' = files ∨ files' = file :: files.erase file

section
variable {s s' s'' : Mem} {bins bins' : Nat → List Ptr} {key page entry file : Ptr}
  {fuel n d : Nat} {env : Surroundings} {files files' files'' : List Ptr}

namespace Touched

theorem nodup (h : Touched file files files') (hnd : files.Nodup) : files'.Nodup := by
  rcases h with rfl | rfl
  · exact hnd
  · exact List.nodup_cons.mpr ⟨hnd.not_mem_erase, hnd.erase file⟩

theorem trans (h : Touched file files files') (hnd : files.Nodup)
    (h' : Touched file files' files'') : Touched file files files'' := by
  rcases h with rfl | rfl
  · exact h'
  · rcases h' with rfl | rfl
    · exact .inr rfl
    · rw [List.erase_cons_head]
      exact .inr rfl

theorem erase_eq (h : Touched file files files') : files'.erase file = files.erase file := by
  rcases h with rfl | rfl
  · rfl
  · exact List.erase_cons_head ..

theorem length_le (h : Touched file files files') :
    files'.length ≤ (files.erase file).length + 1 := by
  rcases h with rfl | rfl
  · rw [List.length_erase]
    split <;> omega
  · exact le_refl _

/-- A file that was touched is not third. -/
theorem shallow (h : Touched file files files') (hnd : files.Nodup) (hs : file ∉ files.drop 2) :
    file ∉ files'.drop 2 := by
  rcases h with rfl | rfl
  · exact hs
  · exact fun hm => hnd.not_mem_erase (List.mem_of_mem_drop hm)

end Touched

namespace Roomy

theorem counted (h : Roomy fuel s bins files) : ∃ m, CountedTable s bins m := by
  obtain ⟨m, hm⟩ := h.holds_exists
  exact ⟨m, hm, h.size, h.room, h.maxSize.1, h.maxSize.2.1⟩

theorem length_lt (h : Roomy fuel s bins files) (b : Nat) : (bins b).length < fuel := by
  obtain ⟨m, hm⟩ := h.counted
  exact lt_of_le_of_lt (hm.length_le b) h.maxSize.2.2

theorem nodup (h : Roomy fuel s bins files) : files.Nodup := Dll.nodup h.listed

end Roomy

/-- What is left after calls that put at most `d` pages of the file `p`. -/
structure RoomLeft (fuel d : Nat) (p : Ptr) (s : Mem) (bins : Nat → List Ptr)
    (files : List Ptr) (s' : Mem) (bins' : Nat → List Ptr) (files' : List Ptr) : Prop
    extends Extends s bins s' bins' where
  roomy : Roomy fuel s' bins' files'
  touched : Touched p files files'
  size : s'.cache.size ≤ s.cache.size + d
  maxSize : s'.cache.maxSize = s.cache.maxSize

namespace RoomLeft

theorem refl (h : Roomy fuel s bins files) (d : Nat) (file : Ptr) :
    RoomLeft fuel d file s bins files s bins files :=
  ⟨Extends.refl h.toFormed, h, .inl rfl, by omega, rfl⟩

theorem trans {d' : Nat} {bins'' : Nat → List Ptr}
    (h : RoomLeft fuel d file s bins files s' bins' files') (hnd : files.Nodup)
    (h' : RoomLeft fuel d' file s' bins' files' s'' bins'' files'') :
    RoomLeft fuel (d + d') file s bins files s'' bins'' files'' := by
  have hsize := h.size
  have hsize' := h'.size
  exact ⟨h.toExtends.trans h'.toExtends, h'.roomy, h.touched.trans hnd h'.touched, by omega,
    h'.maxSize.trans h.maxSize⟩

theorem mono {d' : Nat} (h : RoomLeft fuel d file s bins files s' bins' files')
    (hd : d ≤ d') : RoomLeft fuel d' file s bins files s' bins' files' := by
  have hsize := h.size
  exact ⟨h.toExtends, h.roomy, h.touched, by omega, h.maxSize⟩

end RoomLeft

theorem Roomy.alloc (h : Roomy fuel s bins files) (hadds : AddsPages s bins s' bins)
    (he : s'.entries = s.entries) (hc : s'.cache = s.cache) (hl : SameFileLru s s') (file : Ptr) :
    RoomLeft fuel 0 file s bins files s' bins files := by
  refine ⟨hadds.toExtends, ⟨hadds.stocked, fun b e hmem => ?_, ?_, ?_, ?_, ?_⟩, .inl rfl, ?_, ?_⟩
  · rw [he]
    exact h.used b e hmem
  · rw [hc, h.size, entryCount, entryCount, hc]
  · rw [hc]
    exact h.room
  · rw [hc]
    exact h.maxSize
  · have hlisted := h.listed
    unfold FilesLinked at hlisted ⊢
    rw [hl.head, hl.tail, funext hl.next, funext hl.prev]
    exact hlisted
  · rw [hc, Nat.cast_zero, add_zero]
  · rw [hc]

/-! ## Putting -/

theorem sameFileLru_addDataPage (h : openFileAddDataPage s file entry = .ok s') :
    SameFileLru s s' := by
  refine rel_addDataPage SameFileLru.refl SameFileLru.trans (fun s p v => ?_) (fun s p v => ?_)
    (fun s p v => ?_) (fun s p v => ?_) h
  · exact SameFileLru.setFile s p (fun _ => rfl) fun _ => rfl
  · exact SameFileLru.setFile s p (fun _ => rfl) fun _ => rfl
  · exact SameFileLru.setEntry s p _
  · exact SameFileLru.setEntry s p _

theorem sameFileLru_addMetadataPage (h : openFileAddMetadataPage s file entry = .ok s') :
    SameFileLru s s' := by
  refine rel_addMetadataPage SameFileLru.refl SameFileLru.trans (fun s p v => ?_)
    (fun s p v => ?_) (fun s p v => ?_) (fun s p v => ?_) h
  · exact SameFileLru.setFile s p (fun _ => rfl) fun _ => rfl
  · exact SameFileLru.setFile s p (fun _ => rfl) fun _ => rfl
  · exact SameFileLru.setEntry s p _
  · exact SameFileLru.setEntry s p _

theorem sameFileLru_addDataPageToLru (h : cacheAddDataPageToLru s entry = .ok s') :
    SameFileLru s s' := by
  obtain ⟨s₁, hs₁, hadd⟩ := bind_eq_ok.mp h
  obtain ⟨-, rfl⟩ := Mem.access_eq_ok.mp hs₁
  obtain rfl := Except.ok.inj hadd
  refine SameFileLru.trans ?_ (SameFileLru.setCache _ _)
  have hentry : SameFileLru s₁ _ := (SameFileLru.setEntry s₁ entry
    fun e => { e with lruDataNext := s₁.cache.lruDataHead }).trans
      (SameFileLru.setEntry _ entry fun e => { e with lruDataPrev := 0 })
  split
  · exact hentry.trans (SameFileLru.setCache _ _)
  · exact hentry.trans (SameFileLru.setEntry _ _ _)

theorem addToLists_ok (s : Mem) (key file : Ptr) (he : entry ≠ 0) :
    ∃ s', (if (s.keys key).levelsAbove = 0 then do
        let s ← openFileAddDataPage s file entry
        cacheAddDataPageToLru s entry
      else openFileAddMetadataPage s file entry) = .ok s' ∧ SameFileLru s s' := by
  split
  · obtain ⟨s₁, hs₁⟩ : ∃ s₁, openFileAddDataPage s file entry = .ok s₁ := by
      rw [openFileAddDataPage, Mem.access_ne _ he, ok_bind]
      split <;> exact ⟨_, rfl⟩
    obtain ⟨s₂, hs₂⟩ : ∃ s₂, cacheAddDataPageToLru s₁ entry = .ok s₂ := by
      rw [cacheAddDataPageToLru, Mem.access_ne _ he, ok_bind]
      exact ⟨_, rfl⟩
    refine ⟨s₂, ?_, (sameFileLru_addDataPage hs₁).trans (sameFileLru_addDataPageToLru hs₂)⟩
    rw [hs₁, ok_bind, hs₂]
  · obtain ⟨s₁, hs₁⟩ : ∃ s₁, openFileAddMetadataPage s file entry = .ok s₁ := by
      rw [openFileAddMetadataPage, Mem.access_ne _ he, ok_bind]
      split
      · dsimp only
        split <;> exact ⟨_, rfl⟩
      · exact ⟨_, rfl⟩
    exact ⟨s₁, hs₁, sameFileLru_addMetadataPage hs₁⟩

theorem Roomy.putPage_ok (h : Roomy fuel s bins files) (hkey : key ≠ 0)
    (hof : (s.keys key).file = file) (hfile : file ≠ 0)
    (hroom : s.cache.size < s.cache.maxSize) (hturns : (files.erase file).length + 1 < fuel)
    (hshallow : file ∉ files.drop 2) (page : Ptr) :
    ∃ s' entry, putPageIntoCache s page key fuel = .ok (s', entry) ∧
      FilesLinked s' (file :: files.erase file) := by
  obtain ⟨⟨s₁, e⟩, hset⟩ : ∃ r, cacheSet s key page fuel = .ok r :=
    cacheSet_ok h.toTable (fun _ => hroom) h.length_lt
  obtain ⟨bins', hout⟩ := cacheSet_spec h.toTable hkey (fun _ => hroom) hset
  have he : e ≠ 0 := hout.table.ne_zero hout.mem
  obtain ⟨s₂, hs₂, hsame⟩ := addToLists_ok s₁ key file he
  have hlisted : FilesLinked s₂ files := by
    have hl := h.listed
    unfold FilesLinked at hl ⊢
    rw [hsame.head, hsame.tail, funext hsame.next, funext hsame.prev, hout.files,
      hout.fileList.1, hout.fileList.2]
    exact hl
  -- the search for the file ends, since the list does
  obtain ⟨b, hb⟩ : ∃ b, lruContains s₂ file fuel s₂.lruFileHead = .ok b :=
    lruContains_ok (dll_iff_walks.mp hlisted).1
      (lt_of_le_of_lt (Touched.length_le (.inl rfl)) hturns)
  obtain ⟨s₃, hs₃⟩ : ∃ s₃, fsUpdateFileInLru s₂ file fuel = .ok s₃ := by
    rw [fsUpdateFileInLru, hb, ok_bind]
    split <;> exact ⟨_, rfl⟩
  refine ⟨s₃, e, ?_, (filesLinked_touch_iff hlisted hfile hs₃).mpr hshallow⟩
  rw [putPageIntoCache, hset, ok_bind]
  dsimp only
  rw [hout.keys, hof, ← hout.keys, hs₂, ok_bind, hs₃]
  rfl

theorem Table.bins_eq (ht : Table s bins) (ht' : Table s bins') : bins = bins' :=
  funext fun b => Chain.unique (ht.walk b) (ht'.walk b)

theorem Roomy.put (h : Roomy fuel s bins files) (hkey : key ≠ 0) (hle : key ≤ s.brk)
    (hpage : page ≠ 0 ∧ page ≤ s.brk) (hof : (s.keys key).file = file) (hfile : file ≠ 0)
    (hroom : s.cache.size < s.cache.maxSize) (hturns : (files.erase file).length + 1 < fuel)
    (hshallow : file ∉ files.drop 2) :
    ∃ s' entry bins', putPageIntoCache s page key fuel = .ok (s', entry) ∧
      RoomLeft fuel 1 file s bins files s' bins' (file :: files.erase file) := by
  obtain ⟨s', entry, hput, hlisted⟩ :=
    h.putPage_ok hkey hof hfile hroom hturns hshallow page
  obtain ⟨-, s₁, hset, hsame⟩ := putPage_cases hput
  obtain ⟨bins', hout⟩ := cacheSet_spec h.toTable hkey (fun _ => hroom) hset
  obtain ⟨bins'', hputs⟩ := putPage_puts h.toStocked hkey hle hput
  obtain rfl := (hsame.bins hout.table).bins_eq hputs.formed.toTable
  obtain ⟨m, hm⟩ := h.counted
  obtain ⟨hsize, hmax⟩ := hm.size_set hout fun _ => hroom
  have hmaxSize : s'.cache.maxSize = s.cache.maxSize := by rw [hsame.maxSize, hout.cache.1]
  -- a number that was in the table takes no room
  have hsize' : s'.cache.size ≤ s.cache.size + (1 : Nat) := by
    rw [hsame.size]
    by_cases hold : ∃ b, entry ∈ bins b
    · obtain ⟨b, hb⟩ := hold
      rw [(hout.old b hb).2]
      omega
    · have hint : IsInt (s.cache.size + 1) := by
        have hpos := h.size
        have hmaxInt := h.maxSize.2.1
        unfold IsInt at hmaxInt ⊢
        omega
      rw [(hout.new (not_exists.mp hold)).2.1, cint_eq hint]
      exact le_refl _
  refine ⟨s', entry, bins', hput, hputs.toExtends, ⟨hputs.stocked h.toStocked hpage.2,
    fun b e he => ?_, ?_, ?_, ?_, hlisted⟩, .inr rfl, hsize', hmaxSize⟩
  · by_cases hee : e = entry
    · rw [hee, hputs.page]
      exact hpage.1
    · rw [hputs.wp e hee]
      exact h.used b e (hputs.others b e he hee)
  · rw [hsame.size, hsize, entryCount, entryCount, hsame.maxSize]
  · rw [hsame.size, hmaxSize]
    exact hmax
  · rw [hmaxSize]
    exact h.maxSize

/-! ## Reading -/

theorem Roomy.newKey (h : Roomy fuel s bins files) (k : PageKey) (file : Ptr) :
    RoomLeft fuel 0 file s bins files (s.newKey k).1 bins files :=
  h.alloc (AddsPages.newKey h.toStocked k) rfl rfl ⟨rfl, rfl, fun _ => rfl, fun _ => rfl⟩ file

theorem Roomy.read (h : Roomy fuel s bins files) (hkey : key ≠ 0) (hle : key ≤ s.brk)
    (hof : (s.keys key).file = file) (hfile : file ≠ 0)
    (hroom : s.cache.size < s.cache.maxSize) (hturns : (files.erase file).length + 1 < fuel)
    (hshallow : file ∉ files.drop 2) (address : Int) :
    ∃ s' entry bins' files', readIntoCache s address key fuel = .ok (s', entry) ∧
      RoomLeft fuel 1 file s bins files s' bins' files' := by
  have halloc := h.alloc (AddsPages.readWpFromDisk h.toStocked address) rfl rfl
    ⟨rfl, rfl, fun _ => rfl, fun _ => rfl⟩ file
  have hpage : (readWpFromDisk s address).2 ≠ 0 ∧
      (readWpFromDisk s address).2 ≤ (readWpFromDisk s address).1.brk :=
    ⟨Nat.succ_ne_zero _, le_refl _⟩
  obtain ⟨s', entry, bins', hput, hleft⟩ := halloc.roomy.put hkey (le_trans hle halloc.brk) hpage
    hof hfile hroom hturns hshallow
  refine ⟨s', entry, bins', _, ?_, (halloc.trans h.nodup hleft).mono (by omega)⟩
  rw [readIntoCache]
  dsimp only
  rw [hput]
  rfl

theorem getParentKey_ok {k : PageKey} {l : Nat} (hl : k.levelsAbove = l) (h127 : l < 127) :
    ∃ parent, getParentKey k = .ok parent ∧ parent.file = k.file ∧
      parent.levelsAbove = (l + 1 : Nat) := by
  obtain ⟨parent, hparent⟩ : ∃ parent, getParentKey k = .ok parent := by
    rw [getParentKey, hl, cdiv, if_neg (dataRange_ne_zero h127)]
    exact ⟨_, rfl⟩
  exact ⟨parent, hparent, (getParentKey_fields hparent).1,
    getParentKey_level hl (Nat.le_of_lt h127) hparent⟩

theorem WayInBounds.index {files : Ptr → OpenFile} {k : PageKey} (h : WayInBounds files k)
    (htop : k.levelsAbove = (files k.file).treeHeight - 1) :
    ∃ i, getIndexInInode k.dataOffset (files k.file).treeHeight = .ok i ∧
      0 ≤ i ∧ i < DIRECT_PAGES := by
  obtain ⟨fuel, way, hwalk, -, -, hinode⟩ := h
  cases fuel with
  | zero => cases hwalk
  | succ fuel =>
    rw [walkUp, if_neg (by omega), if_pos htop] at hwalk
    obtain ⟨i, hi, hret⟩ := bind_eq_ok.mp hwalk
    cases hret
    exact ⟨i, hi, hinode⟩

theorem WayInBounds.parent {files : Ptr → OpenFile} {k : PageKey} (h : WayInBounds files k)
    (htop : k.levelsAbove ≠ (files k.file).treeHeight - 1) {parent : PageKey}
    (hparent : getParentKey k = .ok parent) :
    WayInBounds files parent ∧ 0 ≤ getIndexInParent k.dataOffset parent.dataOffset ∧
      getIndexInParent k.dataOffset parent.dataOffset < PAGESIZE := by
  obtain ⟨fuel, way, hwalk, -, hparents, hinode⟩ := h
  cases fuel with
  | zero => cases hwalk
  | succ fuel =>
    rw [walkUp] at hwalk
    split at hwalk
    · cases hwalk
    · rw [hparent, ok_bind] at hwalk
      obtain ⟨rest, hrest, hret⟩ := bind_eq_ok.mp hwalk
      cases hret
      obtain ⟨hnum, hindex⟩ := hparents _ List.mem_cons_self
      rw [← (getParentKey_fields hparent).1] at hrest
      exact ⟨⟨fuel, rest, hrest, hnum, fun q hq => hparents q (List.mem_cons_of_mem _ hq),
        hinode⟩, hindex⟩

theorem SameShape.wayInBounds {files files' : Ptr → OpenFile} {k : PageKey}
    (hsame : SameShape files files') (h : WayInBounds files k) : WayInBounds files' k := by
  unfold WayInBounds at h ⊢
  simp only [hsame.pageNum_eq, (hsame k.file).2]
  exact h

theorem contentsAt_inside {i : Int} (hlo : 0 ≤ i) (hhi : i < PAGESIZE) (env env' : Surroundings)
    (s : Mem) (wp : Ptr) : contentsAt env' s wp i = contentsAt env s wp i := by
  have hin : 0 ≤ i ∧ i < PAGESIZE := ⟨hlo, hhi⟩
  simp only [contentsAt, if_pos hin]

/-- `fs_getPage` returns when there is room for the levels from the page's up, and reads
    nothing outside the arrays when the way up is in bounds. -/
theorem Roomy.getPage (h : Roomy fuel s bins files) (hkey : key ≠ 0) (hle : key ≤ s.brk)
    (hof : (s.keys key).file = file) (hfile : file ≠ 0) {l height : Nat}
    (hl : (s.keys key).levelsAbove = l) (hheight : (s.files file).treeHeight = height)
    (hd : l + d = height) (h127 : height ≤ 127)
    (hway : 0 < d → WayInBounds s.files (s.keys key)) (hroom : s.cache.size + d ≤ s.cache.maxSize)
    (hturns : (files.erase file).length + 1 < fuel) (hshallow : file ∉ files.drop 2)
    (hn : d < n) (env : Surroundings) :
    ∃ s' entry bins' files',
      (∀ env', env.SameInside env' → fsGetPage env' fuel n s key = .ok (s', entry)) ∧
      RoomLeft fuel d file s bins files s' bins' files' := by
  induction d generalizing s bins key l files n with
  | zero =>
    obtain ⟨n, rfl⟩ := Nat.exists_eq_succ_of_ne_zero (Nat.ne_of_gt hn)
    refine ⟨s, 0, bins, files, fun env' _ => ?_, RoomLeft.refl h _ _⟩
    rw [fsGetPage]
    exact if_pos (by rw [hof, hheight, hl]; omega)
  | succ d ih =>
    obtain ⟨n, rfl⟩ := Nat.exists_eq_succ_of_ne_zero (Nat.ne_of_gt (Nat.zero_lt_of_lt hn))
    obtain ⟨r, hget⟩ := cacheGet_ok h.toTable key h.length_lt
    have hway := hway (Nat.succ_pos d)
    have hheight' : (s.files (s.keys key).file).treeHeight = height := by rw [hof, hheight]
    by_cases hr : r = 0
    · rw [hr] at hget
      by_cases htop : (s.keys key).levelsAbove = height - 1
      · -- the page of the inode
        obtain ⟨i, hi, hlo, hhi⟩ := hway.index (by rw [hheight', htop])
        rw [hheight'] at hi
        obtain ⟨s', entry, bins', files', hread, hleft⟩ := h.read hkey hle hof hfile (by omega)
          hturns hshallow (env.directPage file i)
        refine ⟨s', entry, bins', files', fun env' hsame => ?_, hleft.mono (by omega)⟩
        rw [fsGetPage]
        dsimp only
        rw [hof, hheight, if_neg (by omega), hget]
        simp only [lifted, Except.mapError, ok_bind, ne_eq, not_true_eq_false, if_false,
          if_pos htop, hi, hsame file i hlo hhi, hread]
      · -- the parent comes first
        obtain ⟨parent, hparent, hpfile, hplevel⟩ := getParentKey_ok hl (by omega)
        obtain ⟨hpway, hlo, hhi⟩ := hway.parent (by rw [hheight']; exact htop) hparent
        have hnew := h.newKey parent file
        obtain ⟨s₁, parentEntry, bins₁, files₁, hrec, hleft₁⟩ := ih (n := n) hnew.roomy
          (newKey_ne_zero s parent) (le_refl _) (by rw [keys_newKey, hpfile, hof])
          (by rw [keys_newKey, hplevel]) hheight (by omega)
          (fun _ => by rw [keys_newKey]; exact hpway)
          (show s.cache.size + d ≤ s.cache.maxSize by omega) hturns hshallow (by omega)
        obtain ⟨bins₂, hadds, habove, hfound⟩ := fsGetPage_addsPages hnew.roomy.toStocked
          (newKey_ne_zero s parent) (le_refl _) (hrec env fun _ _ _ _ => rfl)
        obtain rfl := hadds.formed.bins_eq hleft₁.formed.toTable
        have hne : parentEntry ≠ 0 := fun h0 => by
          have htop := habove.mp h0
          rw [keys_newKey, AboveTop, hpfile, hplevel, hof] at htop
          change (s.files file).treeHeight ≤ _ at htop
          omega
        obtain ⟨⟨b, hb⟩, -⟩ := hfound hne
        have hwp := hleft₁.roomy.used b parentEntry hb
        have hpkey : s₁.keys (s.newKey parent).2 = parent := by
          rw [hleft₁.keys (s.newKey parent).2 (le_refl _), keys_newKey]
        -- and leaves room for the page
        have hboth := hnew.trans h.nodup hleft₁
        have hsize := hboth.size
        obtain ⟨s', entry, bins', files', hread, hleft⟩ := hleft₁.roomy.read hkey
          (le_trans hle hboth.brk) (by rw [hboth.keys key hle, hof]) hfile
          (by rw [hboth.maxSize]; omega) (by rw [hboth.touched.erase_eq]; exact hturns)
          (hboth.touched.shallow h.nodup hshallow)
          (contentsAt env s₁ (s₁.entries parentEntry).wp
            (getIndexInParent (s.keys key).dataOffset parent.dataOffset))
        refine ⟨s', entry, bins', files', fun env' hsame => ?_,
          (hboth.trans h.nodup hleft).mono (by omega)⟩
        rw [fsGetPage]
        dsimp only
        rw [hof, hheight, if_neg (by omega), hget]
        simp only [lifted, Except.mapError, ok_bind, ne_eq, not_true_eq_false, if_false,
          if_neg htop, hparent, hrec env' hsame, Mem.access_ne _ hne, Mem.access_ne _ hwp, hpkey,
          contentsAt_inside hlo hhi env env', hread]
    -- the page is in the cache
    · refine ⟨s, r, bins, files, fun env' _ => ?_, RoomLeft.refl h _ _⟩
      rw [fsGetPage]
      dsimp only
      rw [hof, hheight, if_neg (by omega), hget]
      exact if_pos hr

/-! ## Writing -/

theorem RoomLeft.mark (h : RoomLeft fuel d file s bins files s' bins' files') (e : Ptr) :
    RoomLeft fuel d file s bins files (s'.mark e) bins' files' := by
  obtain ⟨hstocked, hext, -⟩ := h.roomy.toStocked.mark e
  have htable : SameTable s' (s'.mark e) := SameTable.setEntry s' e fun _ => ⟨rfl, rfl, rfl⟩
  refine ⟨h.toExtends.trans hext, ⟨hstocked, fun b x hx => ?_, h.roomy.size, h.roomy.room,
    h.roomy.maxSize, h.roomy.listed⟩, h.touched, h.size, h.maxSize⟩
  rw [htable.wp]
  exact h.roomy.used b x hx

theorem Roomy.prepare (h : Roomy fuel s bins files)
    (hlog : (s.files (s.keys key).file).mainExtentLog ≠ 0) (data : Buf 1024) (file : Ptr) :
    ∃ s' wp, prepareWriteablePage s key data = .ok (s', wp) ∧ wp ≠ 0 ∧ wp ≤ s'.brk ∧
      RoomLeft fuel 0 file s bins files s' bins files := by
  obtain ⟨s', hprep, he, hc, hsame⟩ : ∃ s', prepareWriteablePage s key data = .ok (s', s.brk + 1) ∧
      s'.entries = s.entries ∧ s'.cache = s.cache ∧ SameFileLru s s' := by
    unfold prepareWriteablePage allocateFreePage
    dsimp only
    rw [Mem.access_ne _ hlog, ok_bind, Mem.access_ne _ (Nat.succ_ne_zero _)]
    exact ⟨_, rfl, rfl, rfl, rfl, rfl, fun _ => rfl, fun _ => rfl⟩
  obtain ⟨hadds, -, hle, -⟩ := prepareWriteablePage_adds h.toStocked hprep
  exact ⟨s', _, hprep, Nat.succ_ne_zero _, hle, h.alloc hadds he hc hsame file⟩

theorem Roomy.writeData (h : Roomy fuel s bins files) (hkey : key ≠ 0) (hle : key ≤ s.brk)
    (hof : (s.keys key).file = file) (hfile : file ≠ 0) {l height : Nat}
    (hl : (s.keys key).levelsAbove = l) (hheight : (s.files file).treeHeight = height)
    (hlt : l < height) (h127 : height ≤ 127)
    (hroom : s.cache.size + height ≤ s.cache.maxSize)
    (hlog : (s.files file).mainExtentLog ≠ 0) (hway : WayInBounds s.files (s.keys key))
    (hturns : (files.erase file).length + 1 < fuel) (hshallow : file ∉ files.drop 2)
    (data : Buf 1024) (env : Surroundings) :
    ∃ s' page bins' files',
      (∀ env', env.SameInside env' → fsWriteData env' s key data fuel = .ok (s', page)) ∧
      RoomLeft fuel height file s bins files s' bins' files' := by
  obtain ⟨s₁, wp, hprep, hwp, hwple, hleft₁⟩ :=
    h.prepare (hof.symm ▸ hlog) data file
  have hsize₁ := hleft₁.size
  have hmax₁ := hleft₁.maxSize
  obtain ⟨s₂, entry, bins₂, hput, hleft₂⟩ := hleft₁.roomy.put hkey (le_trans hle hleft₁.brk)
    ⟨hwp, hwple⟩ (by rw [hleft₁.keys key hle, hof]) hfile (by omega) hturns hshallow
  have hboth := hleft₁.trans h.nodup hleft₂
  have hsize₂ := hboth.size
  have hmax₂ := hboth.maxSize
  obtain ⟨parent, hparent, hpfile, hplevel⟩ := getParentKey_ok hl (by omega)
  have hnew := hleft₂.roomy.newKey parent file
  have hheight' : (s.files (s.keys key).file).treeHeight = height := by rw [hof, hheight]
  obtain ⟨s₃, parentPage, bins₃, files₃, hget, hleft₃⟩ := hnew.roomy.getPage (n := fuel)
    (d := height - (l + 1)) (newKey_ne_zero s₂ parent) (le_refl _)
    (by rw [keys_newKey, hpfile, hof]) hfile (by rw [keys_newKey, hplevel])
    ((hboth.file file).2.trans hheight) (by omega) h127
    (fun hpos => by
      rw [keys_newKey]
      exact SameShape.wayInBounds hboth.file
        (hway.parent (by rw [hheight', hl]; omega) hparent).1)
    (show s₂.cache.size + _ ≤ s₂.cache.maxSize by omega)
    (by rw [hleft₂.touched.erase_eq]; exact hturns) (hboth.touched.shallow h.nodup hshallow)
    (by have := h.size; have := h.maxSize; omega) env
  have hall := hboth.trans h.nodup (hnew.trans hleft₂.roomy.nodup hleft₃)
  obtain ⟨s₄, hupdate, hleft⟩ : ∃ s₄,
      (∀ env', env.SameInside env' →
        fsUpdateParentPage env' s₂ key (s₂.pages wp).address 1 fuel = .ok s₄) ∧
        RoomLeft fuel height file s bins files s₄ bins₃ files₃ := by
    have hkeys : s₂.keys key = s.keys key := hboth.keys key hle
    have hparents : ∀ env', env.SameInside env' →
        fsUpdateParentPage env' s₂ key (s₂.pages wp).address 1 fuel =
          if parentPage = 0 then .ok s₃ else .ok (s₃.mark parentPage) := by
      intro env' hsame
      rw [fsUpdateParentPage, hkeys, hparent, ok_bind]
      dsimp only
      rw [hget env' hsame, ok_bind]
      rfl
    by_cases hnone : parentPage = 0
    · exact ⟨s₃, fun env' hsame => (hparents env' hsame).trans (if_pos hnone),
        hall.mono (by omega)⟩
    · exact ⟨_, fun env' hsame => (hparents env' hsame).trans (if_neg hnone),
        (hall.mono (by omega)).mark parentPage⟩
  refine ⟨s₄, wp, bins₃, files₃, fun env' hsame => ?_, hleft⟩
  simp only [fsWriteData, lifted, Except.mapError, ok_bind, hprep, hput, hupdate env' hsame]

/-! ## Runs -/

theorem Roomy.exec (h : Roomy fuel s bins files) {call : PagingCall} (hfits : call.Fits s)
    (hturns : files.length + 1 < fuel) :
    ∃ s' r bins' files', (∀ env', env.SameInside env' → call.exec env' fuel s = .ok (s', r)) ∧
      Roomy fuel s' bins' files' ∧ files'.length ≤ files.length + 1 := by
  obtain ⟨l, hl⟩ := Int.eq_ofNat_of_zero_le hfits.level.1
  obtain ⟨height, hheight⟩ := Int.eq_ofNat_of_zero_le
    (le_trans hfits.level.1 (le_of_lt hfits.level.2))
  have hlevel := hfits.level.2
  have hmax := hfits.height
  have hroom := hfits.room
  have hsize := h.size
  have hmaxSize := h.maxSize
  have hfile := hfits.file
  have hlog := hfits.log
  have hway := hfits.way
  have hshallow := hfits.shallow files (filesListed_iff.mpr h.listed)
  generalize hk : call.key = key at *
  have hkeys : (s.newKey key).1.keys (s.newKey key).2 = key := keys_newKey s key
  have hnew := h.newKey key key.file
  have herase : (files.erase key.file).length ≤ files.length := List.length_erase_le ..
  cases call with
  | get key' =>
    obtain rfl : key' = key := hk
    obtain ⟨s', entry, bins', files', hget, hleft⟩ := hnew.roomy.getPage (n := fuel)
      (d := height - l) (newKey_ne_zero s key') (le_refl _) (by rw [hkeys]) hfile
      (by rw [hkeys]; exact hl) hheight (by omega) (by omega) (fun _ => by rw [hkeys]; exact hway)
      (show s.cache.size + _ ≤ s.cache.maxSize by omega) (by omega) hshallow (by omega) env
    refine ⟨s', if entry = 0 then none else some (entryContents s' entry), bins', files',
      fun env' hsame => ?_, hleft.roomy, le_trans hleft.touched.length_le (by omega)⟩
    rw [PagingCall.exec]
    dsimp only
    rw [hget env' hsame]
    rfl
  | write key' data =>
    obtain rfl : key' = key := hk
    obtain ⟨s', page, bins', files', hwrite, hleft⟩ := hnew.roomy.writeData
      (newKey_ne_zero s key') (le_refl _) (by rw [hkeys]) hfile (by rw [hkeys]; exact hl) hheight
      (by omega) (by omega) (show s.cache.size + _ ≤ s.cache.maxSize by omega) hlog
      (by rw [hkeys]; exact hway) (by omega) hshallow data env
    refine ⟨s', some (FullPage.contents (s'.pages page).nandPage), bins', files',
      fun env' hsame => ?_, hleft.roomy, le_trans hleft.touched.length_le (by omega)⟩
    rw [PagingCall.exec]
    dsimp only
    rw [hwrite env' hsame]
    rfl

theorem Roomy.create {s₀ : Mem} {size : Int} (hcreate : cacheCreate s size = some s₀)
    (hint : IsInt size) (hhead : s₀.lruFileHead = 0) (htail : s₀.lruFileTail = 0)
    (hfuel : size.toNat < fuel) : Roomy fuel s₀ (fun _ => []) [] := by
  obtain ⟨⟨hpos, -, hmax⟩, -⟩ := cacheCreate_eq hcreate
  have hcounted := CountedTable.create hcreate hint
  refine ⟨⟨Formed.create hcreate, fun _ _ he => absurd he List.not_mem_nil⟩,
    fun _ _ he => absurd he List.not_mem_nil, hcounted.size, hcounted.room, ?_, ?_⟩
  · rw [hmax]
    exact ⟨hpos, hint, hfuel⟩
  · unfold FilesLinked
    rw [hhead, htail]
    exact ⟨rfl, rfl⟩

end

/-- **Calls that fit return.** A run from a new cache, with no file in the list, returns if
    each call is at a level of a file with a log and at most 127 levels, the indices and the
    keys' numbers on the way up from its page are in bounds, the cache has room for all the
    levels, and the file is not third or further down in the list. Whatever lies outside the
    arrays, it ends in the same state, with the same answers. -/
theorem calls_return {s s₀ : Mem} {size : Int} (hcreate : cacheCreate s size = some s₀)
    (hint : IsInt size) (hhead : s₀.lruFileHead = 0) (htail : s₀.lruFileTail = 0)
    {env : Surroundings} {fuel : Nat} {calls : List PagingCall}
    (hfuel : size.toNat < fuel ∧ calls.length < fuel)
    (hfits : EveryStep (fun s call => (PagingCall.exec env fuel s call).map Prod.fst)
      (fun s call => call.Fits s) s₀ calls) :
    ∃ s' rs, ∀ env', env.SameInside env' →
      answers (PagingCall.exec env' fuel) s₀ calls = .ok (s', rs) := by
  have hall : ∃ s' rs, ∀ env' : { env' : Surroundings // env.SameInside env' },
      answers (PagingCall.exec env'.val fuel) s₀ calls = .ok (s', rs) := by
    refine EveryStep.answers_ok (i := ⟨env, fun _ _ _ _ => rfl⟩) (I := fun calls s =>
      ∃ bins files, Roomy fuel s bins files ∧ files.length + calls.length < fuel) ?_ hfits
      ⟨_, _, Roomy.create hcreate hint hhead htail hfuel.1, ?_⟩
    · rintro call calls s ⟨bins, files, hroomy, hturns⟩ hfits
      rw [List.length_cons] at hturns
      obtain ⟨s', r, bins', files', hcall, hroomy', hlength⟩ :=
        hroomy.exec hfits (show files.length + 1 < fuel by omega)
      exact ⟨s', r, fun env' => hcall env'.val env'.property, bins', files', hroomy', by omega⟩
    · rw [List.length_nil, Nat.zero_add]
      exact hfuel.2
  obtain ⟨s', rs, hrun⟩ := hall
  exact ⟨s', rs, fun env' hsame => hrun ⟨env', hsame⟩⟩

theorem numFits_of_not_dvd {num : Int} (h1 : 1 < num) (h10 : ¬ 10 ∣ num) : NumFits num := by
  refine ⟨by omega, fun k hk => ?_⟩
  cases k with
  | zero =>
    rw [Int.pow_zero] at hk
    omega
  | succ k =>
    rw [Int.pow_succ] at hk
    exact h10 ⟨10 ^ k, by omega⟩

theorem wayInBounds_second {s : Mem} (hheight : (s.files 1).treeHeight = 2)
    (haddress : (s.files 1).address = 7) : WayInBounds s.files secondPage := by
  have hnum : ∀ key : PageKey, key.file = 1 →
      pageNum s.files key = cint (cint (7 + key.dataOffset) + key.levelsAbove) := by
    intro key hkey
    rw [pageNum, hkey, haddress]
  refine ⟨2, ⟨[(⟨1, 0, 1⟩, 8)], 0⟩, ?_, ?_, ?_, by decide, by decide⟩
  · rw [show (s.files secondPage.file).treeHeight = 2 from hheight]
    decide
  · rw [hnum secondPage rfl]
    exact numFits_of_not_dvd (by decide) (by decide)
  · intro parent hparent
    obtain rfl := List.mem_singleton.mp hparent
    rw [hnum _ rfl]
    exact ⟨numFits_of_not_dvd (by decide) (by decide), by decide, by decide⟩

/-- The second page is written and read: its file is put into the list by the first call. -/
theorem calls_return_second : ∃ s' rs, ∀ env', nothingAround.SameInside env' →
    answers (PagingCall.exec env' 9) twoLevels
      [.write secondPage someData, .get secondPage] = .ok (s', rs) := by
  have hshallow : ∀ {s : Mem} {l : List Ptr},
      Walk (fun p => (s.files p).lruFileNext) 0 s.lruFileHead l → 1 ∉ l.drop 2 →
        ∀ l', FilesListed s l' → 1 ∉ l'.drop 2 := by
    rintro s l hwalk hl l' ⟨hl', -⟩
    rw [Chain.unique hl' hwalk]
    exact hl
  refine calls_return twoLevels_create (by decide) rfl rfl (by decide) ?_
  refine (EveryStep.cons_ok rfl).mpr ⟨⟨by decide, by decide, by decide, by decide,
    wayInBounds_second rfl rfl, by decide, hshallow (Walk.nil_iff.mpr rfl) (by decide)⟩, ?_⟩
  exact (EveryStep.cons_ok rfl).mpr ⟨⟨by decide, by decide, by decide, by decide,
    wayInBounds_second rfl rfl, by decide, hshallow (l := [1]) ⟨rfl, rfl⟩ (by decide)⟩, trivial⟩

end Cycology.PageCache
