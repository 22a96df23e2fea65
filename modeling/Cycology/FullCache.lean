import Cycology.CacheRemove
import Cycology.GetPage

/- A new key for a full cache.

   `cache_newEntry` answers `NULL` when the cache is full, and nobody asks. Nothing
   is evicted: `fs_evictLruFile` is never called. `cache_set` links the `NULL` in
   as if it were an entry, which goes well only behind the last entry of a bin, and
   `putPageIntoCache` writes to its links.

   So in every reachable cache that is full, a new key is handled as it should be
   by `cache_set` exactly if it comes behind all keys of a bin that is not empty, by
   `fs_getPage` exactly if it is above the top of its file, where nothing is put,
   and by `putPageIntoCache` and `fs_writeData` never (`full_cache_iff`). -/
namespace Cycology.PageCache
open ByteMem LinkedChain Runs.Fallible

/-! ## Runs -/

inductive FsOp where
  | newKey (key : PageKey)
  | set (key wp : Ptr)
  | remove (entry : Ptr)
  | put (page key : Ptr)
  | getPage (key : Ptr)
  | writeData (key : Ptr) (data : Buf 1024)

def FsOp.exec (env : Surroundings) (fuel : Nat) (s : Mem) : FsOp → Except WalkFault Mem
  | .newKey key => .ok (s.newKey key).1
  | .set key wp => do
    let (s, _) ← lifted (cacheSet s key wp fuel)
    .ok s
  | .remove entry => lifted (cacheRemove s entry)
  | .put page key => do
    let (s, _) ← lifted (putPageIntoCache s page key fuel)
    .ok s
  | .getPage key => do
    let (s, _) ← fsGetPage env fuel fuel s key
    .ok s
  | .writeData key data => do
    let (s, _) ← fsWriteData env s key data fuel
    .ok s

/-- Keys are allocated, and entries that are removed are in the table. -/
def FsOp.Allowed (s : Mem) : FsOp → Prop
  | .newKey _ => True
  | .set key _ | .put _ key | .getPage key | .writeData key _ => key ≠ 0 ∧ key ≤ s.brk
  | .remove entry => InTable s entry

/-! ## A new key -/

/-- Some entry of the table has the key. -/
def KeyIn (s : Mem) (key : Ptr) : Prop :=
  ∃ e, InTable s e ∧ keyCmp s key (s.entries e).key = 0

/-- The table, the size and all lists are as they were. -/
def Unchanged (s s' : Mem) : Prop :=
  s'.entries = s.entries ∧ s'.cache = s.cache ∧ s'.files = s.files ∧
    s'.lruFileHead = s.lruFileHead ∧ s'.lruFileTail = s.lruFileTail

/-- The call returns, and it either answers `NULL` and has changed nothing, or has
    made room for the key. -/
def Handled {ε : Type} (s : Mem) (key : Ptr) (call : Nat → Except ε (Mem × Ptr)) : Prop :=
  ∃ fuel s' r, call fuel = .ok (s', r) ∧
    (r = 0 ∧ Unchanged s s' ∨ KeyIn s' key ∧ s'.cache.size ≤ s'.cache.maxSize)

/-- The key's bin is not empty, and all keys in it compare smaller. -/
def BehindBin (s : Mem) (key : Ptr) : Prop :=
  s.cache.table (cacheHash s key) ≠ 0 ∧
  ∀ e, InTable s e → cacheHash s (s.entries e).key = cacheHash s key →
    0 < keyCmp s key (s.entries e).key

section
variable {s s' : Mem} {bins : Nat → List Ptr} {key wp page e : Ptr} {fuel bound : Nat}
  {env : Surroundings}

theorem Table.keyIn_iff (ht : Table s bins) :
    KeyIn s key ↔ ∃ b, ∃ e ∈ bins b, entryNum s e = numKey s key := by
  constructor
  · intro hin
    obtain ⟨e, he, hcmp⟩ := hin
    obtain ⟨b, hb⟩ := ht.inTable_iff.mp he
    exact ⟨b, e, hb, (keyCmp_eq_zero.mp hcmp).symm⟩
  · intro hin
    obtain ⟨b, e, hb, hn⟩ := hin
    exact ⟨e, ht.inTable_iff.mpr ⟨b, hb⟩, keyCmp_eq_zero.mpr hn.symm⟩

theorem Table.newKey_iff (ht : Table s bins) : NewKey s bins key ↔ ¬ KeyIn s key := by
  rw [ht.keyIn_iff]
  constructor
  · intro hnew hin
    obtain ⟨b, e, hb, hn⟩ := hin
    exact hnew b e hb hn
  · intro hin b e hb hn
    exact hin ⟨b, e, hb, hn⟩

theorem newKey_of_get (ht : Table s bins) (hget : cacheGet s key fuel = .ok 0) :
    NewKey s bins key := by
  intro b x hx hn
  exact ht.ne_zero hx ((cacheGet_spec ht hget).2 b x hx hn).symm

theorem behindBin_iff (ht : Table s bins) :
    BehindBin s key ↔ bins (cacheHash s key) ≠ [] ∧
      ∀ x ∈ bins (cacheHash s key), entryStr s x < decimal (numKey s key) := by
  have hempty : s.cache.table (cacheHash s key) = 0 ↔ bins (cacheHash s key) = [] := by
    have hw := ht.walk (cacheHash s key)
    constructor
    · intro h0
      rw [h0] at hw
      exact Chain.eq_nil hw
    · intro hnil
      rw [hnil] at hw
      exact Walk.nil_iff.mp hw
  constructor
  · intro h
    refine ⟨fun hnil => h.1 (hempty.mpr hnil), fun x hx => ?_⟩
    exact strcmp_pos.mp (h.2 x (ht.inTable_iff.mpr ⟨_, hx⟩) (ht.hashed _ x hx).2)
  · intro h
    refine ⟨fun h0 => h.1 (hempty.mp h0), fun e he hhash => ?_⟩
    apply strcmp_pos.mpr
    apply h.2
    rw [← hhash]
    exact ht.bin_cases he

/-! ## The calls in a full cache -/

theorem cacheSet_handled_iff (ht : Table s bins) (hnew : NewKey s bins key)
    (hfull : s.cache.maxSize ≤ s.cache.size) :
    Handled s key (cacheSet s key wp) ↔ BehindBin s key := by
  rw [behindBin_iff ht]
  constructor
  · intro h
    obtain ⟨fuel, s', r, hcall, -⟩ := h
    obtain ⟨-, -, hbehind⟩ := cacheSet_new_full ht hnew hfull hcall
    exact hbehind
  · intro h
    refine ⟨_, s, 0, cacheSet_behind ht hfull h.1 h.2 (Nat.lt_succ_self _), .inl ⟨rfl, ?_⟩⟩
    exact ⟨rfl, rfl, rfl, rfl, rfl⟩

theorem putPage_new_full (ht : Table s bins) (hnew : NewKey s bins key)
    (hfull : s.cache.maxSize ≤ s.cache.size) :
    putPageIntoCache s page key fuel ≠ .ok (s', e) := by
  intro h
  obtain ⟨⟨s₁, entry⟩, hset, h⟩ := bind_eq_ok.mp h
  obtain ⟨-, he, -⟩ := cacheSet_new_full ht hnew hfull hset
  obtain ⟨s₂, hadd, -⟩ := bind_eq_ok.mp h
  -- both lists write to the entry
  split at hadd
  · obtain ⟨s₃, hdata, -⟩ := bind_eq_ok.mp hadd
    obtain ⟨s₄, hacc, -⟩ := bind_eq_ok.mp hdata
    exact (Mem.access_eq_ok.mp hacc).1 he
  · obtain ⟨s₃, hacc, -⟩ := bind_eq_ok.mp hadd
    exact (Mem.access_eq_ok.mp hacc).1 he

theorem readIntoCache_new_full (hf : Formed s bins) (hle : key ≤ s.brk)
    (hnew : NewKey s bins key) (hfull : s.cache.maxSize ≤ s.cache.size) {address : Int} :
    readIntoCache s address key bound ≠ .ok (s', e) := by
  intro h
  obtain ⟨hext, -⟩ := readWpFromDisk_extends hf address
  exact putPage_new_full hext.formed.toTable (hext.newKey hf hle hnew) hfull (lifted_eq_ok.mp h)

/-- `fs_getPage` returns only if it puts nothing. -/
theorem fsGetPage_full (hf : Formed s bins) (hle : key ≤ s.brk)
    (hfull : s.cache.maxSize ≤ s.cache.size)
    (h : fsGetPage env bound fuel s key = .ok (s', e)) :
    s' = s ∧ (e = 0 → (s.files (s.keys key).file).treeHeight ≤ (s.keys key).levelsAbove) ∧
      (e ≠ 0 → ¬ NewKey s bins key) := by
  induction fuel generalizing s key s' e with
  | zero => cases h
  | succ fuel ih =>
    obtain ⟨htop, rfl, rfl⟩ | ⟨-, ⟨hfound, hget, rfl⟩ | ⟨hget, hread⟩⟩ := fsGetPage_cases h
    · exact ⟨rfl, fun _ => htop, fun h0 => absurd rfl h0⟩
    · refine ⟨rfl, fun h0 => absurd h0 hfound, fun _ hnew => ?_⟩
      obtain ⟨hmem, hnum⟩ := (cacheGet_spec hf.toTable hget).1 hfound
      exact hnew _ _ hmem hnum
    · have hnew : NewKey s bins key := newKey_of_get hf.toTable hget
      obtain ⟨address, hread⟩ | ⟨parent, s₁, parentEntry, address, -, hrec, hread⟩ := hread
      · exact absurd hread (readIntoCache_new_full hf hle hnew hfull)
      · -- getting the parent has put nothing, so there still is no room
        obtain ⟨hext, -⟩ := newKey_extends hf parent
        obtain ⟨rfl, -⟩ := ih hext.formed (le_refl _) hfull hrec
        exact absurd hread (readIntoCache_new_full hext.formed (le_trans hle hext.brk)
          (hext.newKey hf hle hnew) hfull)

theorem fsGetPage_handled_iff (hf : Formed s bins) (hle : key ≤ s.brk) (hnew : NewKey s bins key)
    (hfull : s.cache.maxSize ≤ s.cache.size) :
    Handled s key (fun fuel => fsGetPage env fuel fuel s key) ↔
      (s.files (s.keys key).file).treeHeight ≤ (s.keys key).levelsAbove := by
  constructor
  · intro h
    obtain ⟨fuel, s', r, hcall, -⟩ := h
    obtain ⟨-, htop, hold⟩ := fsGetPage_full hf hle hfull hcall
    apply htop
    by_contra hr
    exact hold hr hnew
  · intro h
    refine ⟨1, s, 0, ?_, .inl ⟨rfl, rfl, rfl, rfl, rfl, rfl⟩⟩
    dsimp only
    rw [fsGetPage]
    exact if_pos h

theorem fsWriteData_new_full (hf : Formed s bins) (hle : key ≤ s.brk)
    (hnew : NewKey s bins key) (hfull : s.cache.maxSize ≤ s.cache.size) {data : Buf 1024} :
    fsWriteData env s key data fuel ≠ .ok (s', page) := by
  intro h
  obtain ⟨s₁, s₂, entry, hprep, hput, -⟩ := fsWriteData_cases h
  obtain ⟨hcache, hext, -⟩ := prepareWriteablePage_extends hf hprep
  exact putPage_new_full hext.formed.toTable (hext.newKey hf hle hnew) (by rw [hcache]; exact hfull)
    hput

/-! ## Reachable caches -/

theorem Formed.create {s₀ : Mem} {size : Int} (h : cacheCreate s size = some s₀) :
    Formed s₀ fun _ => [] :=
  ⟨Table.create h, fun _ _ he => absurd he List.not_mem_nil⟩

theorem Formed.set (hf : Formed s bins) (hkey : key ≠ 0) (hle : key ≤ s.brk)
    (h : cacheSet s key wp fuel = .ok (s', e)) : ∃ bins', Formed s' bins' := by
  by_cases he : e = 0
  · -- only a new key that finds the cache full gets no entry
    refine ⟨bins, ?_⟩
    by_cases hroom : NewKey s bins key → s.cache.size < s.cache.maxSize
    · obtain ⟨bins', hout⟩ := cacheSet_spec hf.toTable hkey hroom h
      exact absurd he (hout.table.ne_zero hout.mem)
    · obtain ⟨hnew, hfull⟩ := Classical.not_imp.mp hroom
      rw [(cacheSet_new_full hf.toTable hnew (not_lt.mp hfull) h).1]
      exact hf
  · obtain ⟨bins', hout⟩ := cacheSet_entry hf.toTable hkey he h
    exact ⟨bins', (hout.extends hf hle).1.formed⟩

theorem Formed.remove (hf : Formed s bins) (he : InTable s e) (h : cacheRemove s e = .ok s') :
    ∃ bins', Formed s' bins' := by
  obtain ⟨⟨l, hbin⟩, rfl⟩ | ⟨-, rfl⟩ := cacheRemove_cases hf.toTable he h
  · refine ⟨_, hf.drop_first hbin rfl rfl rfl rfl rfl rfl, fun b x hx => ?_⟩
    exact hf.allocated b x ((hf.mem_drop hbin).mp hx).1
  · exact ⟨bins, hf.toTable.congr rfl (fun _ => rfl) rfl (le_refl _) (fun _ => rfl)
      (fun _ _ _ => rfl) fun _ _ _ => rfl, hf.allocated⟩

theorem Formed.exec (hf : Formed s bins) {op : FsOp} (hop : op.Allowed s)
    (h : op.exec env fuel s = .ok s') : ∃ bins', Formed s' bins' := by
  cases op with
  | newKey key =>
    obtain rfl := Except.ok.inj h
    exact ⟨bins, (newKey_extends hf key).1.formed⟩
  | set key wp =>
    obtain ⟨⟨s₁, e⟩, hset, h⟩ := bind_eq_ok.mp h
    obtain rfl := Except.ok.inj h
    exact hf.set hop.1 hop.2 (lifted_eq_ok.mp hset)
  | remove e => exact hf.remove hop (lifted_eq_ok.mp h)
  | put page key =>
    obtain ⟨⟨s₁, e⟩, hput, h⟩ := bind_eq_ok.mp h
    obtain rfl := Except.ok.inj h
    obtain ⟨-, bins', -, hext, -⟩ := putPage_spec hf hop.1 hop.2 (lifted_eq_ok.mp hput)
    exact ⟨bins', hext.formed⟩
  | getPage key =>
    obtain ⟨⟨s₁, e⟩, hget, h⟩ := bind_eq_ok.mp h
    obtain rfl := Except.ok.inj h
    obtain ⟨bins', hext, -⟩ := fsGetPage_extends hf hop.1 hop.2 hget
    exact ⟨bins', hext.formed⟩
  | writeData key data =>
    obtain ⟨⟨s₁, page⟩, hwrite, h⟩ := bind_eq_ok.mp h
    obtain rfl := Except.ok.inj h
    obtain ⟨bins', hext⟩ := fsWriteData_extends hf hop.1 hop.2 hwrite
    exact ⟨bins', hext.formed⟩

theorem Formed.reached {s₀ : Mem} {size : Int} (hcreate : cacheCreate s size = some s₀)
    {ops : List FsOp} (hall : EveryStep (FsOp.exec env fuel) FsOp.Allowed s₀ ops)
    (hrun : outcome (FsOp.exec env fuel) s₀ ops = .ok s') : ∃ bins, Formed s' bins :=
  hall.invariant (I := fun s => ∃ bins, Formed s bins)
    (fun hI hop hstep => hI.choose_spec.exec hop hstep) ⟨_, Formed.create hcreate⟩ hrun

end

/-- **A full cache is not asked whether it is full.** In every cache that a run of
    allocations, insertions and removals leads to from a new one and that is full, a
    key that is not in it is handled by `cache_set` exactly if it comes behind all
    keys of its bin and the bin is not empty; by `putPageIntoCache` and `fs_writeData`
    never; and by `fs_getPage` exactly if its level is not below the height of its
    file. -/
theorem full_cache_iff {s s₀ s' : Mem} {size : Int} (hcreate : cacheCreate s size = some s₀)
    {env : Surroundings} {fuel : Nat} {ops : List FsOp}
    (hall : EveryStep (FsOp.exec env fuel) FsOp.Allowed s₀ ops)
    (hrun : outcome (FsOp.exec env fuel) s₀ ops = .ok s')
    (hfull : s'.cache.size = s'.cache.maxSize) {key : Ptr} (hkey : key ≤ s'.brk)
    (hnew : ¬ KeyIn s' key) :
    (∀ wp, Handled s' key (cacheSet s' key wp) ↔ BehindBin s' key) ∧
    (∀ page, ¬ Handled s' key (putPageIntoCache s' page key)) ∧
    (∀ data, ¬ Handled s' key (fsWriteData env s' key data)) ∧
    (Handled s' key (fun fuel => fsGetPage env fuel fuel s' key) ↔
      (s'.files (s'.keys key).file).treeHeight ≤ (s'.keys key).levelsAbove) := by
  obtain ⟨bins, hf⟩ := Formed.reached hcreate hall hrun
  have hnew' : NewKey s' bins key := hf.newKey_iff.mpr hnew
  have hfull' := le_of_eq hfull.symm
  refine ⟨fun wp => cacheSet_handled_iff hf.toTable hnew' hfull', fun page h => ?_,
    fun data h => ?_, fsGetPage_handled_iff hf hkey hnew' hfull'⟩
  · obtain ⟨fuel, s₁, r, hcall, -⟩ := h
    exact putPage_new_full hf.toTable hnew' hfull' hcall
  · obtain ⟨fuel, s₁, r, hcall, -⟩ := h
    exact fsWriteData_new_full hf hkey hnew' hfull' hcall

/-- `oneFile` with a cache of one page. -/
def onePage : Mem :=
  { oneFile with
    cache := { maxSize := 1, size := 0, table := fun _ => 0, lruDataHead := 0, lruDataTail := 0 } }

theorem onePage_create : cacheCreate oneFile 1 = some onePage := rfl

/-- Nothing around the pages. -/
def nothingAround : Surroundings := { directPage := fun _ _ => 0, around := fun _ _ => 0 }

/-- The key 6 comes behind the key 2 that fills the cache. -/
theorem full_cache_six_behind_two :
    ∃ s', outcome (FsOp.exec nothingAround 9) onePage [.set 2 5] = .ok s' ∧
      (∀ wp, Handled s' 6 (cacheSet s' 6 wp)) ∧
      (∀ page, ¬ Handled s' 6 (putPageIntoCache s' page 6)) ∧
      (∀ data, ¬ Handled s' 6 (fsWriteData nothingAround s' 6 data)) ∧
      Handled s' 6 (fun fuel => fsGetPage nothingAround fuel fuel s' 6) := by
  have hall : EveryStep (FsOp.exec nothingAround 9) FsOp.Allowed onePage [.set 2 5] :=
    (EveryStep.cons_ok rfl).mpr ⟨⟨by decide, by decide⟩, trivial⟩
  obtain ⟨bins, hf⟩ := Formed.reached onePage_create hall rfl
  have hnew := hf.newKey_iff.mp (newKey_of_get hf.toTable (show cacheGet _ 6 9 = .ok 0 by rfl))
  obtain ⟨hset, hput, hwrite, hget⟩ := full_cache_iff onePage_create hall rfl rfl (by decide) hnew
  refine ⟨_, rfl, fun wp => (hset wp).mpr ⟨by decide, fun e he hbin => ?_⟩, hput, hwrite,
    hget.mpr (by decide)⟩
  obtain ⟨b, l, hw, hmem⟩ := he
  by_cases hb : b = 0
  · obtain rfl := hb
    obtain rfl : l = [10] := hw.unique (by decide)
    obtain rfl := List.mem_singleton.mp hmem
    decide
  · obtain rfl : l = [] := hw.unique (Walk.nil_iff.mpr (update_other _ _ hb))
    cases hmem

/-- The key 2 comes before the key 6 that fills the cache. -/
theorem full_cache_two_before_six :
    ∃ s', EveryStep (FsOp.exec nothingAround 9) FsOp.Allowed onePage [.set 6 5] ∧
      outcome (FsOp.exec nothingAround 9) onePage [.set 6 5] = .ok s' ∧
      s'.cache.size = s'.cache.maxSize ∧ ¬ KeyIn s' 2 ∧
      ¬ Handled s' 2 (cacheSet s' 2 7) ∧ ¬ Handled s' 2 (putPageIntoCache s' 7 2) := by
  have hall : EveryStep (FsOp.exec nothingAround 9) FsOp.Allowed onePage [.set 6 5] :=
    (EveryStep.cons_ok rfl).mpr ⟨⟨by decide, by decide⟩, trivial⟩
  obtain ⟨bins, hf⟩ := Formed.reached onePage_create hall rfl
  have hnew := newKey_of_get hf.toTable (show cacheGet _ 2 9 = .ok 0 by rfl)
  refine ⟨_, hall, rfl, rfl, hf.newKey_iff.mp hnew, fun h => ?_, fun h => ?_⟩
  · have hbehind := (cacheSet_handled_iff hf.toTable hnew (le_refl _)).mp h
    exact absurd (hbehind.2 10 ⟨0, [10], by decide, by decide⟩ rfl) (by decide)
  · obtain ⟨fuel, s₁, r, hcall, -⟩ := h
    exact putPage_new_full hf.toTable hnew (le_refl _) hcall

end Cycology.PageCache
