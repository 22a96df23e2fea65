import Cycology.CachedRead
import Cycology.FullCache

/- The key of a cached read.

   `xmp_read` allocates one key and moves it on from page to page, `cache_newEntry`
   keeps the pointer, and at the end the key is freed. So after the read no entry is
   left with the key of a page that was read: the entries put for its pages all have
   the moved key, and the parents put on the way have numbers that no data page has
   (`pages_lost`).

   A read leaves a table that is in no order, so nothing is said here of bins and their
   order, only of the entries the table leads to (`Linked`). -/
namespace Cycology.PageCache
open ByteMem Loops Runs.Fallible

/-! ## What is in the cache -/

/-- The table leads to the entry. -/
inductive Linked (s : Mem) : Ptr → Prop
  | start (b : Nat) : s.cache.table b ≠ 0 → Linked s (s.cache.table b)
  | next {e : Ptr} : Linked s e → (s.entries e).next ≠ 0 → Linked s (s.entries e).next

/-- The entries and their keys are allocated. -/
def Allocated (s : Mem) : Prop := ∀ e, Linked s e → e ≤ s.brk ∧ (s.entries e).key ≤ s.brk

/-- The number that stands for a key with these fields. -/
def keyNum (s : Mem) (k : PageKey) : Int :=
  cint (cint ((s.files k.file).address + k.dataOffset) + k.levelsAbove)

/-- Some entry compares equal to the key. -/
def Cached (s : Mem) (k : PageKey) : Prop :=
  ∃ e, Linked s e ∧ numKey s (s.entries e).key = keyNum s k

/-- Some entry has the key. -/
def Held (s : Mem) (k : PageKey) : Prop := ∃ e, Linked s e ∧ s.keys (s.entries e).key = k

/-- `cache_get` finds an entry for a new key with these fields. -/
def Found (s : Mem) (k : PageKey) : Prop :=
  ∃ fuel e, cacheGet (s.newKey k).1 (s.newKey k).2 fuel = .ok e ∧ e ≠ 0

/-- Every page that a read got is held under its key, and found. -/
def KeysStay (r : CachedRead) (v : Reading) : Prop :=
  ∀ k < v.entries.length, Held v.mem (r.pageKey k) ∧ Found v.mem (r.pageKey k)

section
variable {s s' : Mem} {key e p last next newentry wp : Ptr} {k : PageKey} {bin fuel : Nat}

theorem Linked.of_same (h : Linked s' e) (ht : ∀ b, s'.cache.table b = s.cache.table b)
    (hn : ∀ e, (s'.entries e).next = (s.entries e).next) : Linked s e := by
  induction h with
  | start b hb =>
    rw [ht] at hb ⊢
    exact .start b hb
  | next _ h0 ih =>
    rw [hn] at h0 ⊢
    exact .next ih h0

theorem Linked.ne_zero (h : Linked s e) : e ≠ 0 := by
  cases h with
  | start b hb => exact hb
  | next _ h0 => exact h0

theorem Linked.grow (ht : ∀ b, s'.cache.table b = s.cache.table b ∨ s'.cache.table b = newentry)
    (hn : ∀ e, e ≠ 0 → e ≠ newentry ∧ (s'.entries e).next = (s.entries e).next ∨
      (s'.entries e).next = newentry ∨ (s'.entries e).next = 0 ∨ Linked s (s'.entries e).next)
    (h : Linked s' e) : Linked s e ∨ e = newentry := by
  induction h with
  | start b hb =>
    rcases ht b with hold | hnew
    · rw [hold] at hb ⊢
      exact .inl (.start b hb)
    · exact .inr hnew
  | next hlinked h0 ih =>
    obtain ⟨hne, hold⟩ | hnew | hnull | hin := hn _ hlinked.ne_zero
    · rw [hold] at h0 ⊢
      exact .inl (.next (ih.resolve_right hne) h0)
    · exact .inr hnew
    · exact absurd hnull h0
    · exact .inl hin

theorem linked_findPlace {r : Ptr × Ptr} (hnext : next = 0 ∨ Linked s next)
    (h : findPlace s key fuel last next = .ok r) : r.2 = 0 ∨ Linked s r.2 := by
  induction fuel generalizing last next with
  | zero => cases h
  | succ fuel ih =>
    rw [findPlace] at h
    split at h
    · rename_i hgo
      refine ih ?_ h
      by_cases h0 : (s.entries next).next = 0
      · exact .inl h0
      · exact .inr (.next (hnext.resolve_left hgo.1) h0)
    · obtain rfl := Except.ok.inj h
      exact hnext

theorem linked_start (s : Mem) (b : Nat) : s.cache.table b = 0 ∨ Linked s (s.cache.table b) := by
  by_cases h0 : s.cache.table b = 0
  · exact .inl h0
  · exact .inr (.start b h0)

theorem Held.cached (h : Held s k) : Cached s k := by
  obtain ⟨e, he, hkey⟩ := h
  refine ⟨e, he, ?_⟩
  rw [← hkey]
  rfl

theorem Found.cached (hs : Allocated s) (h : Found s k) : Cached s k := by
  obtain ⟨fuel, e, hget, he⟩ := h
  obtain ⟨⟨last, pair⟩, hplace, hget⟩ := bind_eq_ok.mp hget
  have hlinked := linked_findPlace (linked_start _ _) hplace
  dsimp only at hget
  split at hget
  · rename_i hkey
    obtain rfl := Except.ok.inj hget
    have hin : Linked (s.newKey k).1 pair := hlinked.resolve_left he
    have hold : Linked s pair := hin.of_same (fun _ => rfl) fun _ => rfl
    have hnum := decimal_inj (strcmp_eq_zero.mp hkey.2.2)
    refine ⟨pair, hold, ?_⟩
    have hle : (s.entries pair).key < s.brk + 1 := Nat.lt_succ_of_le (hs pair hold).2
    have hsame : numKey (s.newKey k).1 (s.entries pair).key = numKey s (s.entries pair).key := by
      simp only [numKey, Mem.newKey, update_other _ _ (ne_of_lt hle)]
    have hnew : numKey (s.newKey k).1 (s.newKey k).2 = keyNum s k := by
      simp only [numKey, keys_newKey]
      rfl
    exact hsame.symm.trans (hnum.symm.trans hnew)
  · exact absurd (Except.ok.inj hget).symm he

end

/-! ## Keys above the data pages -/

/-- A key that `fs_getPage` comes to on its way up from a data page. From the second level
    on it is that of the first page. -/
def Upper (file : Ptr) (k : PageKey) : Prop :=
  (∃ n : Int, -2097152 ≤ n ∧ n < 2097152 ∧ k = ⟨file, 8 * n.tdiv 129, 1⟩) ∨
    ∃ l : Nat, 2 ≤ l ∧ l ≤ 127 ∧ k = ⟨file, 0, l⟩

section
variable {file : Ptr} {k k' up : PageKey} {s : Mem} {m : Nat}

/-- Which keys of a file compare equal. -/
theorem keyNum_eq_iff (hfile : k.file = k'.file) : keyNum s k = keyNum s k' ↔
    (k.dataOffset + k.levelsAbove) % 4294967296 =
      (k'.dataOffset + k'.levelsAbove) % 4294967296 := by
  have hmod := cint_emod ((s.files k'.file).address + k.dataOffset)
  have hmod' := cint_emod ((s.files k'.file).address + k'.dataOffset)
  rw [keyNum, keyNum, cint_eq_cint_iff, hfile]
  omega

theorem upper_of_data (h : getParentKey ⟨file, cint (1024 * m), 0⟩ = .ok up) :
    Upper file up := by
  obtain ⟨n, hn, hlo, hhi, -⟩ := offset_eq m
  change cint (1024 * m) = 1024 * n at hn
  rw [hn, getParentKey_data hlo hhi] at h
  exact .inl ⟨n, hlo, hhi, (Except.ok.inj h).symm⟩

theorem Upper.parent (h : Upper file k) (hup : getParentKey k = .ok up) : Upper file up := by
  obtain ⟨n, hlo, hhi, rfl⟩ | ⟨l, hl, hl', rfl⟩ := h
  · -- all pages of the first level are in the range of the first parent
    have hn := tdiv_cases n 129
    have hfirst : (8 * n.tdiv 129).tdiv 133120 = 0 := by
      have hq := tdiv_cases (8 * n.tdiv 129) 133120
      omega
    have hrange : cint (PAGESIZE * cxor INDIRECT_PAGES (cint (1 + 1))) = 133120 := by decide
    unfold getParentKey cdiv at hup
    dsimp only at hup
    rw [hrange, if_neg (by decide), hfirst, ok_bind] at hup
    exact .inr ⟨2, le_refl _, by decide, (Except.ok.inj hup).symm⟩
  · rcases Nat.lt_or_eq_of_le hl' with hlt | rfl
    · rw [getParentKey_first hlt] at hup
      exact .inr ⟨l + 1, by omega, by omega, (Except.ok.inj hup).symm⟩
    · rw [getParentKey_divide rfl] at hup
      cases hup

theorem Upper.num_ne (h : Upper file k) (m : Nat) :
    keyNum s k ≠ keyNum s ⟨file, cint (1024 * m), 0⟩ := by
  intro heq
  have hm := cint_emod (1024 * m)
  obtain ⟨n, -, -, rfl⟩ | ⟨l, hl, hl', rfl⟩ := h
  · have hmod := (keyNum_eq_iff (by rfl)).mp heq
    dsimp only at hmod
    omega
  · have hmod := (keyNum_eq_iff (by rfl)).mp heq
    dsimp only at hmod
    omega

end

/-! ## What a call adds -/

/-- From `s` to `s'` memory was allocated. The table leads to the entries it led to, and to
    new ones with the key `cell` or one above the data pages of `file`. -/
structure Adds (file cell : Ptr) (s s' : Mem) : Prop where
  brk : s.brk ≤ s'.brk
  keys : ∀ p, p ≤ s.brk → s'.keys p = s.keys p
  key : ∀ e, e ≤ s.brk → (s'.entries e).key = (s.entries e).key
  address : ∀ p, (s'.files p).address = (s.files p).address
  linked : ∀ e, Linked s' e → Linked s e ∨ e ≤ s'.brk ∧ (s'.entries e).key ≤ s'.brk ∧
    ((s'.entries e).key = cell ∨ Upper file (s'.keys (s'.entries e).key))

section
variable {file cell : Ptr} {s s' s'' : Mem} {key e page last next newentry wp : Ptr}
  {bin fuel bound : Nat} {env : Surroundings}

namespace Adds

theorem trans (h : Adds file cell s s') (h' : Adds file cell s' s'') : Adds file cell s s'' where
  brk := le_trans h.brk h'.brk
  keys p hp := (h'.keys p (le_trans hp h.brk)).trans (h.keys p hp)
  key e he := (h'.key e (le_trans he h.brk)).trans (h.key e he)
  address p := (h'.address p).trans (h.address p)
  linked e he := by
    rcases h'.linked e he with he' | hnew
    · rcases h.linked e he' with hold | ⟨hle, hkey, hcell⟩
      · exact .inl hold
      · refine .inr ⟨le_trans hle h'.brk, ?_⟩
        rw [h'.key e hle, h'.keys _ hkey]
        exact ⟨le_trans hkey h'.brk, hcell⟩
    · exact .inr hnew

theorem of_same (hbrk : s.brk ≤ s'.brk) (hkeys : ∀ p, p ≤ s.brk → s'.keys p = s.keys p)
    (hkey : ∀ e, (s'.entries e).key = (s.entries e).key)
    (haddress : ∀ p, (s'.files p).address = (s.files p).address)
    (htable : ∀ b, s'.cache.table b = s.cache.table b)
    (hnext : ∀ e, (s'.entries e).next = (s.entries e).next) : Adds file cell s s' where
  brk := hbrk
  keys := hkeys
  key e _ := hkey e
  address := haddress
  linked _ he := .inl (he.of_same htable hnext)

theorem refl (s : Mem) : Adds file cell s s :=
  of_same (le_refl _) (fun _ _ => rfl) (fun _ => rfl) (fun _ => rfl) (fun _ => rfl) fun _ => rfl

theorem of_sameTable (h : SameTable s s') : Adds file cell s s' :=
  of_same (le_of_eq h.brk.symm) (fun p _ => by rw [h.keys]) h.key h.address h.table h.next

theorem newKey (s : Mem) (k : PageKey) : Adds file cell s (s.newKey k).1 := by
  refine of_same (Nat.le_succ _) (fun p hp => ?_) (fun _ => rfl) (fun _ => rfl) (fun _ => rfl)
    fun _ => rfl
  exact update_other _ _ (Nat.ne_of_lt (Nat.lt_succ_of_le hp))

end Adds

theorem readWpFromDisk_adds (s : Mem) (address : Int) :
    Adds file cell s (readWpFromDisk s address).1 :=
  Adds.of_same (Nat.le_succ _) (fun _ _ => rfl) (fun _ => rfl) (fun _ => rfl) (fun _ => rfl)
    fun _ => rfl

theorem setNext_fields (s : Mem) (p v e : Ptr) :
    ((s.setEntry p fun c => { c with next := v }).entries e).key = (s.entries e).key ∧
    (((s.setEntry p fun c => { c with next := v }).entries e).next = (s.entries e).next ∨
      ((s.setEntry p fun c => { c with next := v }).entries e).next = v) := by
  by_cases he : e = p
  · rw [he, Mem.entries_setEntry_same]
    exact ⟨rfl, .inr rfl⟩
  · rw [Mem.entries_setEntry_other _ _ _ he]
    exact ⟨rfl, .inl rfl⟩

theorem linkEntry_links (h : linkEntry s bin last next newentry = .ok s') :
    (s'.keys = s.keys ∧ s'.files = s.files ∧ s'.brk = s.brk ∧
      ∀ e, (s'.entries e).key = (s.entries e).key) ∧
    (∀ b, s'.cache.table b = s.cache.table b ∨ s'.cache.table b = newentry) ∧
    ∀ e, (s'.entries e).next = (s.entries e).next ∨ (s'.entries e).next = newentry ∨
      (s'.entries e).next = next := by
  unfold linkEntry at h
  split at h
  · obtain ⟨s₁, hs₁, hrest⟩ := bind_eq_ok.mp h
    obtain ⟨-, rfl⟩ := Mem.access_eq_ok.mp hs₁
    obtain rfl := Except.ok.inj hrest
    have hset := setNext_fields s₁ newentry next
    refine ⟨⟨rfl, rfl, rfl, fun e => (hset e).1⟩, fun b => ?_, fun e => (hset e).2.imp id .inr⟩
    by_cases hb : b = bin
    · right
      rw [hb]
      exact update_same _ _ _
    · left
      exact update_other _ _ hb
  · split at h
    · obtain rfl := Except.ok.inj h
      have hset := setNext_fields s last newentry
      exact ⟨⟨rfl, rfl, rfl, fun e => (hset e).1⟩, fun b => .inl rfl,
        fun e => (hset e).2.imp id .inl⟩
    · obtain ⟨s₁, hs₁, hrest⟩ := bind_eq_ok.mp h
      obtain ⟨-, rfl⟩ := Mem.access_eq_ok.mp hs₁
      obtain rfl := Except.ok.inj hrest
      have hset := setNext_fields s₁ newentry next
      have hlast := setNext_fields (s₁.setEntry newentry fun c => { c with next := next }) last
        newentry
      refine ⟨⟨rfl, rfl, rfl, fun e => (hlast e).1.trans (hset e).1⟩, fun b => .inl rfl,
        fun e => ?_⟩
      rcases (hlast e).2 with hold | hnew
      · rw [hold]
        exact (hset e).2.imp id .inr
      · exact .inr (.inl hnew)

theorem newEntry_adds (hnext : next = 0 ∨ Linked s next) (hle : key ≤ s.brk)
    (hkey : key = cell ∨ Upper file (s.keys key))
    (h : linkEntry (cacheNewEntry s key wp).1 bin last next (cacheNewEntry s key wp).2 = .ok s') :
    Adds file cell s s' := by
  obtain ⟨⟨hkeys, hfiles, hbrk, hkeyOf⟩, htable, hlinks⟩ := linkEntry_links h
  by_cases hfull : s.cache.maxSize ≤ s.cache.size
  · simp only [cacheNewEntry, if_pos hfull] at hkeys hfiles hbrk hkeyOf htable hlinks
    refine ⟨le_of_eq hbrk.symm, fun p _ => by rw [hkeys], fun e _ => hkeyOf e,
      fun p => by rw [hfiles], fun e he => ?_⟩
    have hgrow := he.grow htable fun x hx => ?_
    · exact .inl (hgrow.resolve_right he.ne_zero)
    · rcases hlinks x with hold | hnull | hlink
      · exact .inl ⟨hx, hold⟩
      · exact .inr (.inl hnull)
      · rw [hlink]
        exact .inr (.inr hnext)
  · simp only [cacheNewEntry, if_neg hfull] at hkeys hfiles hbrk hkeyOf htable hlinks
    have hbelow : ∀ e, e ≤ s.brk → e ≠ s.brk + 1 := fun e he => Nat.ne_of_lt (Nat.lt_succ_of_le he)
    have hnew : (s'.entries (s.brk + 1)).key = key := by
      rw [hkeyOf, update_same]
      rfl
    refine ⟨by rw [hbrk]; exact Nat.le_succ _, fun p _ => by rw [hkeys], fun e he => ?_,
      fun p => by rw [hfiles], fun e he => ?_⟩
    · rw [hkeyOf, update_other _ _ (hbelow e he)]
    · have hgrow := he.grow htable fun x _ => ?_
      · rcases hgrow with hold | rfl
        · exact .inl hold
        · right
          rw [hnew, hkeys, hbrk]
          exact ⟨le_refl _, le_trans hle (Nat.le_succ _), hkey⟩
      · rcases hlinks x with hold | hlink | hlink
        · rw [hold]
          by_cases hx : x = s.brk + 1
          · rw [hx, update_same]
            exact .inr (.inr (.inl rfl))
          · rw [update_other _ _ hx]
            exact .inl ⟨hx, rfl⟩
        · exact .inr (.inl hlink)
        · rw [hlink]
          exact .inr (.inr hnext)

theorem cacheSet_adds (hle : key ≤ s.brk) (hkey : key = cell ∨ Upper file (s.keys key))
    (h : cacheSet s key wp fuel = .ok (s', e)) : Adds file cell s s' := by
  obtain ⟨⟨last, next⟩, hplace, hrest⟩ := bind_eq_ok.mp h
  have hnext : next = 0 ∨ Linked s next := linked_findPlace (linked_start s _) hplace
  dsimp only at hrest
  split at hrest
  · -- only a page is replaced
    obtain ⟨rfl, rfl⟩ := Prod.mk.inj (Except.ok.inj hrest)
    refine Adds.of_same (le_refl _) (fun _ _ => rfl) ?_ (fun _ => rfl) (fun _ => rfl) ?_
    · exact Mem.field_setEntry s next _ (·.key) fun _ => rfl
    · exact Mem.field_setEntry s next _ (·.next) fun _ => rfl
  · obtain ⟨s₁, hlink, hret⟩ := bind_eq_ok.mp hrest
    obtain ⟨rfl, rfl⟩ := Prod.mk.inj (Except.ok.inj hret)
    exact newEntry_adds hnext hle hkey hlink

theorem putPage_adds (hle : key ≤ s.brk) (hkey : key = cell ∨ Upper file (s.keys key))
    (h : putPageIntoCache s page key fuel = .ok (s', e)) : Adds file cell s s' := by
  obtain ⟨⟨s₁, entry⟩, hset, hrest⟩ := bind_eq_ok.mp h
  obtain ⟨s₂, hadd, hrest'⟩ := bind_eq_ok.mp hrest
  obtain ⟨s₃, hlru, hret⟩ := bind_eq_ok.mp hrest'
  obtain ⟨rfl, rfl⟩ := Prod.mk.inj (Except.ok.inj hret)
  refine (cacheSet_adds hle hkey hset).trans (Adds.of_sameTable ?_)
  have htable : SameTable s₂ s₃ := (sameCache_updateFileInLru hlru).toSameTable
  split at hadd
  · obtain ⟨s₄, hdata, hlist⟩ := bind_eq_ok.mp hadd
    exact ((sameCache_addDataPage hdata).toSameTable.trans (addDataPageToLru_spec hlist).1).trans
      htable
  · exact (sameCache_addMetadataPage hadd).toSameTable.trans htable

theorem readIntoCache_adds (hle : key ≤ s.brk) (hkey : key = cell ∨ Upper file (s.keys key))
    {address : Int} (h : readIntoCache s address key bound = .ok (s', e)) :
    Adds file cell s s' :=
  (readWpFromDisk_adds s address).trans
    (putPage_adds (le_trans hle (Nat.le_succ _)) hkey (lifted_eq_ok.mp h))

/-- **One call of `fs_getPage`** adds the page and those above it. -/
theorem fsGetPage_adds (hle : key ≤ s.brk) (hkey : key = cell ∨ Upper file (s.keys key))
    (hup : ∀ up, getParentKey (s.keys key) = .ok up → Upper file up)
    (h : fsGetPage env bound fuel s key = .ok (s', e)) : Adds file cell s s' := by
  induction fuel generalizing s key s' e with
  | zero => cases h
  | succ fuel ih =>
    obtain ⟨-, rfl, -⟩ | ⟨-, ⟨-, -, rfl⟩ | ⟨-, ⟨address, hread⟩ |
      ⟨up, s₁, upEntry, address, hparent, hrec, hread⟩⟩⟩ := fsGetPage_cases h
    · exact Adds.refl s'
    · exact Adds.refl s'
    · exact readIntoCache_adds hle hkey hread
    · -- the new key of the parent is one above the data pages
      have hupper := hup up hparent
      have hbrk : (s.newKey up).2 ≤ (s.newKey up).1.brk := le_refl _
      have hrec' : Adds file cell (s.newKey up).1 s₁ := by
        refine ih hbrk (.inr ?_) (fun up' hup' => ?_) hrec
        · rw [keys_newKey]
          exact hupper
        · rw [keys_newKey] at hup'
          exact hupper.parent hup'
      have hadds := (Adds.newKey s up).trans hrec'
      refine hadds.trans (readIntoCache_adds (le_trans hle hadds.brk) ?_ hread)
      rw [hadds.keys key hle]
      exact hkey

end

/-! ## The loop -/

/-- All entries have the key of the read, which is now that of the next page, or keys that
    do not compare equal to that of page `k`. -/
structure Moved (r : CachedRead) (k : Nat) (v : Reading) : Prop where
  brk : v.key ≤ v.mem.brk
  cell : v.mem.keys v.key = r.pageKey v.entries.length
  allocated : Allocated v.mem
  others : ∀ e, Linked v.mem e → (v.mem.entries e).key = v.key ∨
    numKey v.mem (v.mem.entries e).key ≠ keyNum v.mem (r.pageKey k)

/-- The turns of the loop, less than half of the offsets there are. -/
structure Paced (v : Reading) : Prop where
  turns : 1024 * v.entries.length ≤ 2147485696
  int : IsInt v.bytesLeft
  left : v.GoesOn → 1024 * v.entries.length + v.bytesLeft ≤ 2147484671
  inPage : v.GoesOn → 1 ≤ v.bytesInPage ∧ v.bytesInPage ≤ 1024 ∧
    (v.entries.length = 0 ∨ v.bytesInPage = min 1024 v.bytesLeft)

section
variable {r : CachedRead} {v w : Reading} {s s' : Mem} {env : Surroundings} {file cell e : Ptr}
  {bound n k fuel : Nat}

theorem start_moved (hs : Allocated s) (hnew : ¬ Cached s (r.pageKey k)) :
    Moved r k (r.start s) := by
  have hsame : ∀ e, Linked (r.start s).mem e → Linked s e := by
    intro e he
    exact he.of_same (fun _ => rfl) fun _ => rfl
  refine ⟨le_refl _, ?_, fun e he => ?_, fun e he => .inr fun hnum => ?_⟩
  · simp only [CachedRead.start, start_offset, keys_newKey, CachedRead.pageKey]
    rfl
  · obtain ⟨hle, hkey⟩ := hs e (hsame e he)
    exact ⟨le_trans hle (Nat.le_succ _), le_trans hkey (Nat.le_succ _)⟩
  · -- the new key is none of those the entries have
    obtain ⟨-, hkey⟩ := hs e (hsame e he)
    have hpage : keyNum (r.start s).mem (r.pageKey k) = keyNum s (r.pageKey k) := rfl
    refine hnew ⟨e, hsame e he, ?_⟩
    rw [← hpage, ← hnum]
    simp only [numKey, CachedRead.start, Mem.newKey,
      update_other _ _ (Nat.ne_of_lt (Nat.lt_succ_of_le hkey))]

theorem Adds.allocated (h : Adds file cell s s') (hs : Allocated s) : Allocated s' := by
  intro e he
  rcases h.linked e he with hold | ⟨hle, hkey, -⟩
  · obtain ⟨hle, hkey⟩ := hs e hold
    refine ⟨le_trans hle h.brk, ?_⟩
    rw [h.key e hle]
    exact le_trans hkey h.brk
  · exact ⟨hle, hkey⟩

/-- What a call adds has the key of the read, or compares equal to no data page. -/
theorem Adds.others (h : Adds r.file cell s s') (hs : Allocated s)
    (hothers : ∀ e, Linked s e → (s.entries e).key = cell ∨
      numKey s (s.entries e).key ≠ keyNum s (r.pageKey k)) (he : Linked s' e) :
    (s'.entries e).key = cell ∨ numKey s' (s'.entries e).key ≠ keyNum s' (r.pageKey k) := by
  rcases h.linked e he with hold | ⟨-, -, hnew⟩
  · -- the entries there were have kept their keys
    obtain ⟨hle, hkey⟩ := hs e hold
    have hbefore := hothers e hold
    simp only [numKey, keyNum, h.key e hle, h.keys _ hkey, h.address] at hbefore ⊢
    exact hbefore
  · exact hnew.imp id fun hupper => hupper.num_ne _

theorem Moved.turn (h : Moved r k v)
    (hturn : Turn Reading.GoesOn (readPageTurn (fsGetPage env bound n)) v w) : Moved r k w := by
  obtain ⟨s', e, hget, -, -, rfl⟩ := readPageTurn_eq_ok.mp hturn.2
  have hadds : Adds r.file v.key v.mem s' := by
    refine fsGetPage_adds h.brk (.inl rfl) (fun up hup => ?_) hget
    rw [h.cell] at hup
    exact upper_of_data hup
  have hkey : s'.keys v.key = r.pageKey v.entries.length := (hadds.keys _ h.brk).trans h.cell
  have hsame : ∀ x, Linked (v.after s' e).mem x → Linked s' x := by
    intro x hx
    exact hx.of_same (fun _ => rfl) fun _ => rfl
  refine ⟨le_trans h.brk hadds.brk, ?_, fun x hx => ?_, fun x hx => ?_⟩
  · refine (keys_after hkey).trans ?_
    simp [Reading.after]
  · exact hadds.allocated h.allocated x (hsame x hx)
  · rcases hadds.others h.allocated h.others (hsame x hx) with hcell | hother
    · exact .inl hcell
    · by_cases hcell : (s'.entries x).key = v.key
      · exact .inl hcell
      · right
        simp only [numKey, Reading.after, update_other _ _ hcell] at hother ⊢
        exact hother

theorem start_paced (r : CachedRead) (s : Mem) : Paced (r.start s) := by
  have hint : IsInt (r.start s).bytesLeft := isInt_cint _
  have hmod : r.offset % 1024 < 1024 := Nat.mod_lt _ (by decide)
  refine ⟨by simp [CachedRead.start], hint, fun _ => ?_, fun _ => ?_⟩
  · unfold IsInt at hint
    simp only [CachedRead.start, List.length_nil] at hint ⊢
    omega
  · rw [start_bytesInPage]
    exact ⟨by omega, by omega, .inl rfl⟩

theorem Paced.turn {getPage : Mem → Ptr → Except WalkFault (Mem × Ptr)} (h : Paced v)
    (hturn : Turn Reading.GoesOn (readPageTurn getPage) v w) : Paced w := by
  obtain ⟨hgo, hbody⟩ := hturn
  obtain ⟨s', e, -, -, -, rfl⟩ := readPageTurn_eq_ok.mp hbody
  have hint := h.int
  have hleft := h.left hgo
  obtain ⟨hlo, hhi, hpage⟩ := h.inPage hgo
  unfold Reading.GoesOn at hgo
  unfold IsInt at hint
  have hnew : (v.after s' e).bytesLeft = v.bytesLeft - v.bytesInPage :=
    cint_eq ⟨by omega, by omega⟩
  have hlen : (v.after s' e).entries.length = v.entries.length + 1 := by
    simp [Reading.after]
  have hin : (v.after s' e).bytesInPage =
      if PAGESIZE ≤ (v.after s' e).bytesLeft then PAGESIZE else (v.after s' e).bytesLeft := rfl
  refine ⟨?_, isInt_cint _, fun hgo' => ?_, fun hgo' => ?_⟩
  · rw [hlen]
    omega
  · unfold Reading.GoesOn at hgo'
    rw [hnew] at hgo' ⊢
    rw [hlen]
    rcases hpage with hfirst | hmin
    · omega
    · omega
  · unfold Reading.GoesOn at hgo'
    rw [hin, PAGESIZE]
    split <;> omega

theorem Moved.not_cached (h : Moved r k v) (hp : Paced v) (hk : k < v.entries.length) :
    ¬ Cached v.mem (r.pageKey k) := by
  intro hcached
  obtain ⟨e, he, hnum⟩ := hcached
  have hturns := hp.turns
  have hcell := (h.others e he).resolve_right fun hne => hne hnum
  rw [hcell, numKey, h.cell] at hnum
  have hmod := (keyNum_eq_iff (by rfl)).mp (show keyNum v.mem (r.pageKey v.entries.length) =
    keyNum v.mem (r.pageKey k) from hnum)
  have hlast := cint_emod (1024 * (r.offset / 1024 + v.entries.length : Nat))
  have hpage := cint_emod (1024 * (r.offset / 1024 + k : Nat))
  simp only [CachedRead.pageKey] at hmod
  omega

/-- **A read** of a page that was not cached leaves nothing that compares equal to it. -/
theorem not_cached_after (hs : Allocated s)
    (hrun : r.run (fsGetPage env bound n) s fuel = .ok v) (hk : k < v.entries.length)
    (hnew : ¬ Cached s (r.pageKey k)) : Allocated v.mem ∧ ¬ Cached v.mem (r.pageKey k) := by
  obtain ⟨hreach, -⟩ := reaches_of_loop hrun
  have hmoved : Moved r k v :=
    hreach.invariant (start_moved hs hnew) fun _ _ h hturn => h.turn hturn
  have hpaced : Paced v := hreach.invariant (start_paced r s) fun _ _ h hturn => h.turn hturn
  exact ⟨hmoved.allocated, hmoved.not_cached hpaced hk⟩

end

/-- **The keys do not stay**, whatever is read through `fs_getPage` and however many pages:
    of the pages a read got that were not cached before, none is held by an entry with
    its key, and none is found by `cache_get`. -/
theorem pages_lost {r : CachedRead} {s : Mem} {env : Surroundings} {bound n fuel : Nat}
    {v : Reading} (hs : Allocated s) (hrun : r.run (fsGetPage env bound n) s fuel = .ok v)
    {k : Nat} (hk : k < v.entries.length) (hnew : ¬ Cached s (r.pageKey k)) :
    ¬ Held v.mem (r.pageKey k) ∧ ¬ Found v.mem (r.pageKey k) := by
  obtain ⟨halloc, hlost⟩ := not_cached_after hs hrun hk hnew
  exact ⟨fun h => hlost h.cached, fun h => hlost (h.cached halloc)⟩

/-- `oneFile` at the address 7, of 2048 bytes without indirect pages. -/
def twoPageFile : Mem := oneFile.setFile 1 fun f => { f with address := 7, treeHeight := 1 }

/-- All of it is asked for. -/
def readBothPages : CachedRead :=
  { file := 1, iSize := 2048, size := 2048, offset := 0, buf := fun _ => 0 }

theorem twoPageFile_empty (e : Ptr) : ¬ Linked twoPageFile e := by
  intro he
  induction he with
  | start b hb => exact hb rfl
  | next _ _ ih => exact ih

theorem twoPageFile_allocated : Allocated twoPageFile := fun e he => absurd he (twoPageFile_empty e)

theorem twoPageFile_not_cached (k : PageKey) : ¬ Cached twoPageFile k := by
  intro hcached
  obtain ⟨e, he, -⟩ := hcached
  exact twoPageFile_empty e he

theorem readBothPages_ok : ∃ v,
    readBothPages.run (fsGetPage nothingAround 9 9) twoPageFile 9 = .ok v ∧ v.entries.length = 2 :=
  ⟨_, rfl, rfl⟩

/-- Neither page of the file is found after it was read. -/
theorem two_pages_lost : ∃ v,
    readBothPages.run (fsGetPage nothingAround 9 9) twoPageFile 9 = .ok v ∧ v.entries.length = 2 ∧
    (¬ Held v.mem (readBothPages.pageKey 0) ∧ ¬ Found v.mem (readBothPages.pageKey 0)) ∧
    ¬ Held v.mem (readBothPages.pageKey 1) ∧ ¬ Found v.mem (readBothPages.pageKey 1) := by
  obtain ⟨v, hrun, hlen⟩ := readBothPages_ok
  refine ⟨v, hrun, hlen, ?_, ?_⟩
  · exact pages_lost twoPageFile_allocated hrun (by omega) (twoPageFile_not_cached _)
  · exact pages_lost twoPageFile_allocated hrun (by omega) (twoPageFile_not_cached _)

/-- So the keys of that read do not stay. -/
theorem keys_of_two_pages : ∃ v,
    readBothPages.run (fsGetPage nothingAround 9 9) twoPageFile 9 = .ok v ∧ v.entries.length = 2 ∧
    (∀ k < v.entries.length, ¬ Cached twoPageFile (readBothPages.pageKey k)) ∧
    ¬ KeysStay readBothPages v := by
  obtain ⟨v, hrun, hlen⟩ := readBothPages_ok
  refine ⟨v, hrun, hlen, fun k _ => twoPageFile_not_cached _, fun hstay => ?_⟩
  obtain ⟨hheld, -⟩ := hstay 0 (by omega)
  obtain ⟨-, hlost⟩ := not_cached_after twoPageFile_allocated hrun (k := 0) (by omega)
    (twoPageFile_not_cached _)
  exact hlost hheld.cached

end Cycology.PageCache
