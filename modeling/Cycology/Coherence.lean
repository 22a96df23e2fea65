import Cycology.PageOrder
import Cycology.ReadPages
import Cycology.WritePages

/- Cached pages and the files they were read from.

   A run is a sequence of calls of the file system, on any paths. After each the
   buffer that `cacheLoop` would return for a page should be that page of the file
   now at the path (`Coherent`), and every read should get the bytes of the file.

   The cache only learns of a change that `xmp_write` makes. A call that cuts off
   bytes of a cached page, or gives the name of cached pages to other bytes, leaves
   stale pages behind. A last page that is not full is read into a buffer whose other
   bytes are whatever `malloc` found, and a page asked for twice in a row ties the
   list into a circle. Where no call does any of these, all pages stay coherent and
   all reads are right (`coherent_throughout`). -/
namespace Cycology.PagedFs
open ByteMem LinkedChain DoublyLinked Runs.Fallible

/-! ## Runs -/

/-- A call of the file system. -/
inductive FsOp where
  | read (r : ReadCall)
  | write (w : WriteCall)
  | truncate (path : String) (size : Int)
  | ftruncate (path : String) (size : Int)
  | rename (source target : String) (flags : Nat)
  | unlink (path : String)
  | create (path : String) (flags : OpenFlags)

def exec (fuel : Nat) (s : Fs) : FsOp → Except Fault Fs
  | .read r => do
    let (s, _, _) ← xmpReadAt s r fuel
    .ok s
  | .write w => do
    let (s, _) ← xmpWriteAt s w fuel
    .ok s
  | .truncate path size => .ok (xmpTruncate s path size).1
  | .ftruncate path size => .ok (xmpFtruncate s path size).1
  | .rename source target flags => .ok (xmpRename s source target flags).1
  | .unlink path => .ok (xmpUnlink s path).1
  | .create path flags => .ok (xmpCreate s path flags).1

/-- At most so many pages are asked for. -/
def FsOp.pages : FsOp → Nat
  | .read r => (r.offset % 1023 + r.size + 1022) / 1023
  | .write w => w.pages
  | _ => 0

/-- The same list, with other bytes in the memory that `malloc` has not returned. -/
def LogSysCon.withFresh (c : LogSysCon) (fresh : Ptr → Buf PAGESIZE) : LogSysCon :=
  { c with pages := fun p => if p ≤ c.brk then c.pages p else fresh p }

/-- The buffer that `cacheLoop` would return for a page of a file is that page,
    whatever `malloc` finds. -/
def Coherent (s : Fs) : Prop :=
  ∀ path f, s.files path = some f → ∀ (n : Nat) (fresh : Ptr → Buf PAGESIZE), ∃ fuel c p,
    cacheLoop (s.con.withFresh fresh) path f n (sizeInPages f) fuel = .ok (c, p) ∧
      c.pages p = f.slice (n * PAGESIZE) PAGESIZE

/-- If the call is a read of a file, it copies the bytes of that file. -/
def ReadsFile (fuel : Nat) (s : Fs) (op : FsOp) : Prop :=
  ∀ r f, op = .read r → s.files r.path = some f → ReadsRight s.con f r fuel

/-! ## Calls that keep the pages coherent -/

/-- Page `n` of `path` is cached, in the buffer `p`. -/
def Cached (c : LogSysCon) (path : String) (n : Nat) (p : Ptr) : Prop :=
  ∃ l, Walk (fun p => (c.nodes p).next) 0 c.head l ∧ ((path, (n : Int)), p) ∈ l.map (content c)

/-- Page `n` of `path` is the one at the front. -/
def AtFront (c : LogSysCon) (path : String) (n : Nat) : Prop :=
  c.head ≠ 0 ∧ (c.nodes c.head).key = (path, (n : Int))

/-- The size and the ends of its pages are `int`s. -/
def SmallSize (size : Nat) : Prop := size + 1023 < 2147483648

instance (size : Nat) : Decidable (SmallSize size) := inferInstanceAs (Decidable (_ < _))

/-- When `size` lies within a page, that page is cached. -/
def EndCached (c : LogSysCon) (path : String) (size : Nat) : Prop :=
  size % 1023 = 0 ∨ ∃ p, Cached c path (size / 1023) p

/-- The cached pages of `path` are zero from byte `size` of the file on. -/
def ZeroBehind (c : LogSysCon) (path : String) (size : Nat) : Prop :=
  ∀ n p, Cached c path n p → ∀ i, size ≤ n * 1023 + i → (c.pages p).byte i = 0

/-- A read asks for no page at the front first. A write does not either, and stays
    where `int`s reach. A file is only cut where its cached pages are zero, and at
    the end of a page or in a cached page. A name is only given to a file whose
    pages are those cached under it. -/
def Harmless (s : Fs) : FsOp → Prop
  | .read r => ∀ f, s.files r.path = some f → r.offset ≤ f.size →
      r.offset + r.size < 18446744073709551616 ∧
        (0 < r.pages f → ¬ AtFront s.con r.path (r.offset / 1023))
  | .write w => (s.files w.path).isSome → 0 < w.pages →
      SmallSize (w.offset + w.size) ∧ ¬ AtFront s.con w.path (w.offset / 1023)
  | .truncate path size | .ftruncate path size => (s.files path).isSome → 0 ≤ size →
      SmallSize size.toNat ∧ ZeroBehind s.con path size.toNat ∧ EndCached s.con path size.toNat
  | .rename source target flags => ∀ f, s.files source = some f → flags = 0 →
      (∀ n p, Cached s.con target n p → s.con.pages p = f.slice (n * PAGESIZE) PAGESIZE) ∧
        EndCached s.con target f.size
  | .unlink _ => True
  | .create path flags =>
      (if (s.files path).isSome then ¬ (flags.creat ∧ flags.excl) ∧ flags.trunc
        else flags.creat) →
      ZeroBehind s.con path 0

/-- After the mount no page is cached, and no file ends within a page. -/
structure Mounted (s : Fs) : Prop where
  empty : s.con.head = 0
  whole : ∀ path f, s.files path = some f → f.size % 1023 = 0
  small : ∀ path f, s.files path = some f → SmallSize f.size

/-! ## What is cached -/

/-- The cached pages `h`: no two are in one buffer, each is the page of the file now
    at its path, and a last page that is not full is among them. -/
structure Stored (pages : Ptr → Buf PAGESIZE) (brk : Ptr) (files : String → Option File)
    (h : List (PageKey × Ptr)) : Prop where
  buffers : (h.map Prod.snd).Nodup
  below : ∀ e ∈ h, e.2 ≤ brk
  agree : ∀ path (n : Nat) p f, ((path, (n : Int)), p) ∈ h → files path = some f →
    pages p = f.slice (n * 1023) 1023
  small : ∀ path f, files path = some f → SmallSize f.size
  ends : ∀ path f, files path = some f →
    f.size % 1023 = 0 ∨ ∃ p, ((path, ((f.size / 1023 : Nat) : Int)), p) ∈ h

namespace Stored
variable {pages : Ptr → Buf PAGESIZE} {brk p : Ptr} {files : String → Option File}
  {h h' : List (PageKey × Ptr)} {path : String} {f f' : File} {n : Nat}

theorem perm (hs : Stored pages brk files h) (hp : h.Perm h') : Stored pages brk files h' where
  buffers := (hp.map _).nodup_iff.mp hs.buffers
  below e he := hs.below e (hp.mem_iff.mpr he)
  agree path n p f he := hs.agree path n p f (hp.mem_iff.mpr he)
  small := hs.small
  ends path f hf := (hs.ends path f hf).imp id fun ⟨p, hp'⟩ => ⟨p, hp.mem_iff.mp hp'⟩

theorem congr {pages' : Ptr → Buf PAGESIZE} (hs : Stored pages brk files h)
    (hp : ∀ p, p ≤ brk → pages' p = pages p) : Stored pages' brk files h where
  buffers := hs.buffers
  below := hs.below
  agree path n p f he hf := by
    rw [hp p (hs.below _ he)]
    exact hs.agree path n p f he hf
  small := hs.small
  ends := hs.ends

theorem add (hs : Stored pages brk files h) {page : Buf PAGESIZE}
    (hpage : ∀ f, files path = some f → page = f.slice (n * 1023) 1023) :
    Stored (update pages (brk + 1) page) (brk + 2) files (((path, (n : Int)), brk + 1) :: h) where
  buffers := by
    rw [List.map_cons, List.nodup_cons]
    refine ⟨fun hmem => ?_, hs.buffers⟩
    obtain ⟨e, he, hep⟩ := List.mem_map.mp hmem
    exact absurd (hs.below e he) (hep ▸ Nat.not_succ_le_self brk)
  below e he := by
    rcases List.mem_cons.mp he with rfl | he
    · exact Nat.le_succ _
    · exact Nat.le_add_right_of_le (hs.below e he)
  agree q m p g he hg := by
    rcases List.mem_cons.mp he with heq | he
    · obtain ⟨⟨rfl, hm⟩, rfl⟩ : (q = path ∧ (m : Int) = n) ∧ p = brk + 1 := by simpa using heq
      rw [update_same, Int.ofNat_inj.mp hm]
      exact hpage g hg
    · have hne : p ≠ brk + 1 := Nat.ne_of_lt (Nat.lt_succ_of_le (hs.below _ he))
      rw [update_other _ _ hne]
      exact hs.agree q m p g he hg
  small := hs.small
  ends q g hg := (hs.ends q g hg).imp id fun ⟨p, hp⟩ => ⟨p, List.mem_cons_of_mem _ hp⟩

theorem write (hs : Stored pages brk files h) (hkeys : (h.map Prod.fst).Nodup)
    (hmem : ((path, (n : Int)), p) ∈ h) (hf : files path = some f)
    {page : Buf PAGESIZE} (hpage : f'.slice (n * 1023) 1023 = page)
    (hother : ∀ m, m ≠ n → f'.slice (m * 1023) 1023 = f.slice (m * 1023) 1023)
    (hsmall : SmallSize f'.size)
    (hend : f'.size % 1023 = 0 ∨ f'.size = f.size ∨ f'.size / 1023 = n) :
    Stored (update pages p page) brk (update files path (some f')) h where
  buffers := hs.buffers
  below := hs.below
  agree q m p' g he hg := by
    by_cases hp : p' = p
    -- no other entry has the buffer, and no other entry of the file has the number
    · have heq := List.inj_on_of_nodup_map hs.buffers he hmem hp
      obtain ⟨⟨rfl, hm⟩, rfl⟩ : (q = path ∧ (m : Int) = n) ∧ p' = p := by simpa using heq
      rw [update_same] at hg ⊢
      rw [← Option.some.inj hg, Int.ofNat_inj.mp hm, hpage]
    · rw [update_other _ _ hp]
      by_cases hq : q = path
      · rw [hq, update_same] at hg
        rw [hq] at he
        have hne : m ≠ n := by
          rintro rfl
          have heq := List.inj_on_of_nodup_map hkeys he hmem rfl
          exact hp (congrArg Prod.snd heq)
        rw [← Option.some.inj hg, hother m hne]
        exact hs.agree path m p' f he hf
      · rw [update_other _ _ hq] at hg
        exact hs.agree q m p' g he hg
  small q g hg := by
    by_cases hq : q = path
    · rw [hq, update_same] at hg
      exact Option.some.inj hg ▸ hsmall
    · rw [update_other _ _ hq] at hg
      exact hs.small q g hg
  ends q g hg := by
    by_cases hq : q = path
    · rw [hq, update_same] at hg
      rw [hq, ← Option.some.inj hg]
      rcases hend with hend | hend | hend
      · exact .inl hend
      · rw [hend]
        exact hs.ends path f hf
      · rw [hend]
        exact .inr ⟨p, hmem⟩
    · rw [update_other _ _ hq] at hg
      exact hs.ends q g hg

theorem setFile (hs : Stored pages brk files h) {g : Option File}
    (hg : ∀ f, g = some f → SmallSize f.size ∧
      (∀ (n : Nat) p, ((path, (n : Int)), p) ∈ h → pages p = f.slice (n * 1023) 1023) ∧
      (f.size % 1023 = 0 ∨ ∃ p, ((path, ((f.size / 1023 : Nat) : Int)), p) ∈ h)) :
    Stored pages brk (update files path g) h where
  buffers := hs.buffers
  below := hs.below
  agree q m p f he hf := by
    by_cases hq : q = path
    · rw [hq, update_same] at hf
      exact (hg f hf).2.1 m p (hq ▸ he)
    · rw [update_other _ _ hq] at hf
      exact hs.agree q m p f he hf
  small q f hf := by
    by_cases hq : q = path
    · rw [hq, update_same] at hf
      exact (hg f hf).1
    · rw [update_other _ _ hq] at hf
      exact hs.small q f hf
  ends q f hf := by
    by_cases hq : q = path
    · rw [hq, update_same] at hf
      exact hq ▸ (hg f hf).2.2
    · rw [update_other _ _ hq] at hf
      exact hs.ends q f hf

end Stored

/-- The list of cached pages `l`, and what is cached there. -/
structure Agreeing (c : LogSysCon) (files : String → Option File) (tail : Ptr) (l : List Ptr) :
    Prop extends Listed c tail l where
  stored : Stored c.pages c.brk files (l.map (content c))

section
variable {c : LogSysCon} {files : String → Option File} {tail p : Ptr} {l : List Ptr}
  {path : String} {f : File} {n fuel : Nat} {m : Int}

theorem mem_keys_iff {k : PageKey} : k ∈ l.map (fun p => (c.nodes p).key) ↔
    ∃ p, (k, p) ∈ l.map (content c) := by
  constructor
  · intro hk
    obtain ⟨a, ha, rfl⟩ := List.mem_map.mp hk
    exact ⟨_, List.mem_map.mpr ⟨a, ha, rfl⟩⟩
  · rintro ⟨p, hp⟩
    obtain ⟨a, ha, heq⟩ := List.mem_map.mp hp
    exact List.mem_map.mpr ⟨a, ha, congrArg Prod.fst heq⟩

theorem Listed.cached_iff (h : Listed c tail l) :
    Cached c path n p ↔ ((path, (n : Int)), p) ∈ l.map (content c) := by
  constructor
  · rintro ⟨l', hw, hmem⟩
    rwa [Chain.unique h.links.walk hw]
  · exact fun hmem => ⟨l, h.links.walk, hmem⟩

theorem Listed.endCached_iff (h : Listed c tail l) {size : Nat} : EndCached c path size ↔
    size % 1023 = 0 ∨ ∃ p, ((path, ((size / 1023 : Nat) : Int)), p) ∈ l.map (content c) := by
  unfold EndCached
  simp only [h.cached_iff]

theorem sizeInPages_eq (h : SmallSize f.size) :
    sizeInPages f = ((f.size + 1022) / 1023 : Nat) := by
  unfold SmallSize at h
  have hsize : cint f.size = f.size := cint_eq ⟨by omega, by omega⟩
  have hend : cint ((f.size : Int) + 1023) = f.size + 1023 := cint_eq ⟨by omega, by omega⟩
  unfold sizeInPages PAGESIZE
  dsimp only
  rw [hsize, Nat.cast_ofNat, hend, cint_eq ⟨by omega, by omega⟩]
  have hnat : (f.size : Int) + 1023 - 1 = (f.size + 1022 : Nat) := by omega
  rw [hnat]
  exact (Int.ofNat_tdiv _ _).symm

/-- A buffer fresh from `malloc` gets the page, unless that is a last page that is
    not full. -/
theorem fillBuffer_eq (hsmall : SmallSize f.size) (hout : m ≤ n → f.size ≤ n * 1023)
    (hin : n < m → n * 1023 < f.size) (hfull : f.size % 1023 = 0 ∨ n ≠ f.size / 1023)
    (buffer : Buf PAGESIZE) : fillBuffer buffer f n m = f.slice (n * 1023) 1023 := by
  unfold SmallSize at hsmall
  unfold fillBuffer
  show _ = f.slice (n * 1023) PAGESIZE
  by_cases hm : m ≤ n
  · rw [if_pos hm]
    refine Buf.ext_lt fun i hi => ?_
    rw [Buf.byte_zero, File.byte_slice _ _ hi, f.zero_past _ (Nat.le_add_right_of_le (hout hm))]
  · have hlt := hin (by omega)
    have hpos : cint ((n : Int) * PAGESIZE) = (n * 1023 : Nat) := by
      unfold PAGESIZE
      rw [cint_eq ⟨by omega, by omega⟩]
      rfl
    have havail : f.avail (n * 1023) 1023 = 1023 := File.avail_full f (by omega)
    rw [if_neg hm, if_neg (by omega), hpos, File.pread_nat]
    refine Buf.ext_lt fun i hi => ?_
    have hi' : i < 0 + f.avail (n * 1023) PAGESIZE := by
      rw [Nat.zero_add]
      exact havail.symm ▸ hi
    rw [Buf.byte_blit_in _ _ (Nat.zero_le _) hi' hi, File.byte_slice _ _ hi, Nat.sub_zero]

namespace Agreeing

theorem keys_nodup (h : Agreeing c files tail l) : ((l.map (content c)).map Prod.fst).Nodup := by
  rw [List.map_map]
  exact h.keys

theorem full (h : Agreeing c files tail l) (hf : files path = some f)
    (hkey : (path, (n : Int)) ∉ l.map fun p => (c.nodes p).key) :
    f.size % 1023 = 0 ∨ n ≠ f.size / 1023 := by
  refine (h.stored.ends path f hf).imp id fun hmem => ?_
  rintro rfl
  exact hkey (mem_keys_iff.mpr hmem)

theorem gives (h : Agreeing c files tail l) (hf : files path = some f)
    (hout : m ≤ n → f.size ≤ n * 1023) (hin : n < m → n * 1023 < f.size) (hfuel : l.length < fuel) :
    ∃ c' p, cacheLoop c path f n m fuel = .ok (c', p) ∧
      c'.pages p = f.slice (n * 1023) 1023 := by
  by_cases hkey : (path, (n : Int)) ∈ l.map fun p => (c.nodes p).key
  · obtain ⟨a, ha, hka⟩ := List.mem_map.mp hkey
    refine ⟨_, _, cacheLoop_found h.toListed ha hka hfuel, ?_⟩
    rw [(sameContents_moveToHead c a).pages]
    refine h.stored.agree path n _ f (List.mem_map.mpr ⟨a, ha, ?_⟩) hf
    exact congrArg (·, (c.nodes a).page) hka
  · obtain ⟨⟨c', p⟩, hread⟩ : ∃ x, readPage c path f n m = x := ⟨_, rfl⟩
    obtain ⟨hp, -, -, hpages, -⟩ := readPage_spec hread
    refine ⟨c', p, (cacheLoop_missing h.toListed hkey hfuel).trans (congrArg _ hread), ?_⟩
    rw [hpages, hp, update_same]
    exact fillBuffer_eq (h.stored.small path f hf) hout hin (h.full hf hkey) _

theorem call (h : Agreeing c files tail l) (hf : files path = some f)
    (hfront : ¬ AtFront c path n) (hout : m ≤ n → f.size ≤ n * 1023)
    (hin : n < m → n * 1023 < f.size) (hfuel : l.length < fuel) :
    ∃ c' p tail' a l', cacheLoop c path f n m fuel = .ok (c', p) ∧
      Agreeing c' files tail' (a :: l') ∧ content c' a = ((path, (n : Int)), p) ∧
      l'.length ≤ l.length := by
  by_cases hkey : (path, (n : Int)) ∈ l.map fun p => (c.nodes p).key
  · obtain ⟨a, ha, hka⟩ := List.mem_map.mp hkey
    have hcall := cacheLoop_found (f := f) (m := m) h.toListed ha hka hfuel
    -- the head itself may not be moved: it would be linked to itself
    obtain ⟨l₁, l₂, rfl⟩ := List.append_of_mem ha
    have hl₁ : l₁ ≠ [] := by
      rintro rfl
      refine hfront ⟨?_, ?_⟩
      · rw [h.links.head_eq]
        exact h.links.ne_null ha
      · rw [h.links.head_eq]
        exact hka
    obtain ⟨tail', hl'⟩ := h.toListed.moveToHead hl₁
    have hs := sameContents_moveToHead c a
    have hmap : (l₁ ++ a :: l₂).map (content c) = (l₁ ++ a :: l₂).map (content (moveToHead c a)) :=
      List.map_congr_left fun q _ => (hs.content q).symm
    refine ⟨_, _, tail', a, l₁ ++ l₂, hcall, ⟨hl', ?_⟩, ?_, ?_⟩
    · rw [hs.pages, hs.brk]
      have hstored := h.stored
      rw [hmap] at hstored
      exact hstored.perm (List.perm_middle.map _)
    · rw [hs.content]
      exact congrArg (·, (c.nodes a).page) hka
    · simp
  · obtain ⟨⟨c', p⟩, hread⟩ : ∃ x, readPage c path f n m = x := ⟨_, rfl⟩
    obtain ⟨tail', hl'⟩ := h.toListed.readPage hkey hread
    obtain ⟨hp, -, hbrk, hpages, hcontent, -⟩ := readPage_spec hread
    have hnew : content c' (c.brk + 2) = ((path, (n : Int)), c.brk + 1) := by
      rw [hcontent, if_pos rfl]
    have hold : ∀ q ∈ l, content c' q = content c q := fun q hq => by
      rw [hcontent, if_neg]
      exact Nat.ne_of_lt (Nat.lt_succ_of_le (Nat.le_succ_of_le (h.fresh q hq)))
    refine ⟨c', p, tail', c.brk + 2, l,
      (cacheLoop_missing h.toListed hkey hfuel).trans (congrArg _ hread), ⟨hl', ?_⟩, ?_, le_refl _⟩
    · rw [List.map_cons, hnew, List.map_congr_left hold, hpages, hbrk]
      refine h.stored.add fun g hg => ?_
      rw [← Option.some.inj (hf.symm.trans hg)]
      exact fillBuffer_eq (h.stored.small path f hf) hout hin (h.full hf hkey) _
    · rw [hnew, hp]

theorem coherent {con : LogSysCon} (h : Agreeing con files tail l) :
    Coherent { con := con, files := files } := by
  intro path f hf n fresh
  have hfresh : Agreeing (con.withFresh fresh) files tail l :=
    ⟨⟨h.links, h.keys, h.fresh⟩, h.stored.congr fun p hp => if_pos hp⟩
  have hsize := sizeInPages_eq (h.stored.small path f hf)
  obtain ⟨c', p, hcall, hpage⟩ := hfresh.gives (n := n) (m := sizeInPages f) hf
    (by rw [hsize]; omega) (by rw [hsize]; omega) (Nat.lt_succ_self l.length)
  exact ⟨_, c', p, hcall, hpage⟩

/-- A cached page that is not the page of the file is returned all the same. -/
theorem not_coherent {con : LogSysCon} {files' : String → Option File}
    (h : Agreeing con files tail l) (hf : files' path = some f) (hp : Cached con path n p)
    (hne : con.pages p ≠ f.slice (n * 1023) 1023) : ¬ Coherent { con := con, files := files' } := by
  intro hc
  obtain ⟨fuel, c', q, hcall, hpage⟩ := hc path f hf n con.pages
  have hfresh : Listed (con.withFresh con.pages) tail l := ⟨h.links, h.keys, h.fresh⟩
  have hmem := h.toListed.cached_iff.mp hp
  obtain ⟨a, ha, hka⟩ := List.mem_map.mp hmem
  have hfound := cacheLoop_found (f := f) (m := sizeInPages f) hfresh ha
    (show ((con.withFresh con.pages).nodes a).key = (path, (n : Int)) from congrArg Prod.fst hka)
    (Nat.lt_succ_self _)
  obtain ⟨rfl, rfl⟩ := Prod.mk.inj (cacheLoop_unique hcall hfound)
  have hq : ((con.withFresh con.pages).nodes a).page = p := congrArg Prod.snd hka
  rw [hq, (sameContents_moveToHead _ a).pages] at hpage
  exact hne ((if_pos (h.stored.below _ hmem)).symm.trans hpage)

theorem setFile (h : Agreeing c files tail l) {g : Option File}
    (hg : ∀ f, g = some f → SmallSize f.size ∧
      (∀ n p, Cached c path n p → c.pages p = f.slice (n * 1023) 1023) ∧
      EndCached c path f.size) : Agreeing c (update files path g) tail l where
  toListed := h.toListed
  stored := h.stored.setFile fun f hf => by
    obtain ⟨hsmall, hpages, hend⟩ := hg f hf
    refine ⟨hsmall, fun n p hmem => ?_, h.toListed.endCached_iff.mp hend⟩
    exact hpages n p (h.toListed.cached_iff.mpr hmem)

theorem front_ne {a : Ptr} (h : Agreeing c files tail (a :: l))
    (ha : content c a = ((path, (n : Int)), p)) {k : Nat} (hne : k ≠ n) : ¬ AtFront c path k := by
  rintro ⟨-, hkey⟩
  rw [h.links.head_eq] at hkey
  have hkeys : (c.nodes a).key = (path, (n : Int)) := congrArg Prod.fst ha
  rw [hkey, Prod.mk.injEq] at hkeys
  exact hne (Int.ofNat_inj.mp hkeys.2)

end Agreeing

end

/-! ## Reading -/

/-- After `k` turns of `xmp_read`. -/
structure Reading (r : ReadCall) (f : File) (files : String → Option File) (k : Nat)
    (s : ReadState) (tail : Ptr) (l : List Ptr) : Prop where
  copied : Copied r f k s
  agreeing : Agreeing s.con files tail l
  front : k < r.pages f → ¬ AtFront s.con r.path (r.offset / 1023 + k)

section
variable {c : LogSysCon} {files : String → Option File} {tail : Ptr} {l : List Ptr}
  {f : File} {k n fuel : Nat}

theorem Reading.turn {r : ReadCall} {s : ReadState} (hin : r.InFile f)
    (hf : files r.path = some f) (hk : k < r.pages f) (h : Reading r f files k s tail l)
    (hfuel : l.length < fuel) :
    ∃ s' tail' l', readTurn r f (r.span f) fuel s k = .ok s' ∧
      Reading r f files (k + 1) s' tail' l' ∧ l'.length ≤ l.length + 1 := by
  have hsize := sizeInPages_eq (h.agreeing.stored.small r.path f hf)
  obtain ⟨c, p, tail', a, l', hcall, hl', ha, hlen⟩ :=
    h.agreeing.call (m := sizeInPages f) hf (h.front hk) (by rw [hsize]; omega)
      (by rw [hsize]; omega) hfuel
  have hpage : c.pages p = f.slice ((r.offset / 1023 + k) * 1023) 1023 :=
    hl'.stored.agree r.path _ p f (List.mem_cons.mpr (.inl ha.symm)) hf
  obtain ⟨s', hturn, rfl, hcopied⟩ := h.copied.turn hin hk hcall hpage
  refine ⟨s', tail', _, hturn, ⟨hcopied, hl', fun _ => ?_⟩, Nat.succ_le_succ hlen⟩
  exact hl'.front_ne ha (by omega)

theorem reading_run {r : ReadCall} (hin : r.InFile f) (hf : files r.path = some f)
    (h : Agreeing c files tail l) (hfront : 0 < r.pages f → ¬ AtFront c r.path (r.offset / 1023))
    (hfuel : l.length + r.pages f ≤ fuel) (hn : n ≤ r.pages f) :
    ∃ s tail' l', outcome (readTurn r f (r.span f) fuel) (r.begin c) (List.range n) = .ok s ∧
      Reading r f files n s tail' l' ∧ l'.length ≤ l.length + n := by
  induction n with
  | zero => exact ⟨_, tail, l, rfl, ⟨Copied.zero r f c, h, hfront⟩, le_refl _⟩
  | succ n ih =>
    obtain ⟨s, tail', l', hrun, hs, hlen⟩ := ih (Nat.le_of_lt hn)
    have hfuel' : l'.length < fuel := by omega
    obtain ⟨s', tail'', l'', hturn, hs', hlen'⟩ := hs.turn hin hf hn hfuel'
    refine ⟨s', tail'', l'', ?_, hs', by omega⟩
    rw [List.range_succ, outcome_append, hrun, ok_bind]
    exact outcome_cons_eq_ok.mpr ⟨s', hturn, rfl⟩

theorem Agreeing.read {r : ReadCall} (h : Agreeing c files tail l) (hf : files r.path = some f)
    (hok : r.offset ≤ f.size → r.offset + r.size < 18446744073709551616 ∧
      (0 < r.pages f → ¬ AtFront c r.path (r.offset / 1023)))
    (hfuel : l.length + r.pages f ≤ fuel) :
    ReadsRight c f r fuel ∧ ∃ c' buf res tail' l', xmpRead c f r fuel = .ok (c', buf, res) ∧
      Agreeing c' files tail' l' ∧ l'.length ≤ l.length + r.pages f := by
  have hsmall := h.stored.small r.path f hf
  unfold SmallSize at hsmall
  by_cases hstart : r.offset ≤ f.size
  · obtain ⟨hword, hfront⟩ := hok hstart
    have hin : r.InFile f := ⟨by omega, hword, hstart⟩
    obtain ⟨s, tail', l', hrun, hs, hlen⟩ := reading_run hin hf h hfront hfuel (le_refl _)
    obtain ⟨buf, hread, hbuf⟩ := readsRight_of_copied hin hrun hs.copied
    exact ⟨⟨s.con, buf, hread, hbuf⟩, s.con, buf, _, tail', l', hread, hs.agreeing, hlen⟩
  · obtain ⟨hread, hspan⟩ : xmpRead c f r fuel = .ok (c, r.buf, r.span f) ∧ r.span f = 0 :=
      xmpRead_behind (by omega) (Nat.lt_of_not_le hstart)
    refine ⟨⟨c, r.buf, hread, fun j => ?_⟩, c, r.buf, _, tail, l, hread, h, by omega⟩
    rw [hspan, if_neg (Nat.not_lt_zero _)]

/-! ## Writing -/

/-- After `k` turns of `xmp_write` on the file `f`. -/
structure Writing (w : WriteCall) (f : File) (files : String → Option File) (k : Nat)
    (s : WriteState) (tail : Ptr) (l : List Ptr) : Prop where
  agreeing : Agreeing s.con (update files w.path (some s.file)) tail l
  start : s.startWithinPage = w.first k
  returned : s.returned = none
  front : k < w.pages → ¬ AtFront s.con w.path (w.offset / 1023 + k)
  size : f.size ≤ s.file.size ∧ s.file.size ≤ max f.size (w.pageStart k)

/-- The size after turn `k`, if it was `size` before. A new end of the file is the end of
    a page or lies in the page of the turn. -/
theorem WriteCall.size_turn {w : WriteCall} (hk : k < w.pages)
    (hend : w.pageStart k + 1023 < 2147483648) {size : Nat} (hle : f.size ≤ size)
    (hge : size ≤ max f.size (w.pageStart k)) :
    let size' := max size (w.pageStart k + w.toWrite f k)
    f.size ≤ size' ∧ size' ≤ max f.size (w.pageStart (k + 1)) ∧
      size' ≤ max f.size (w.offset + w.size) ∧
      (size' % 1023 = 0 ∨ size' = size ∨ size' / 1023 = w.offset / 1023 + k) := by
  have hlt := WriteCall.pageStart_lt hk
  have hmin := WriteCall.toWrite_eq_min (f := f) hend
  have hnext : w.pageStart (k + 1) = w.pageStart k + 1023 := by
    unfold WriteCall.pageStart
    omega
  have hstart : w.pageStart k = (w.offset / 1023 + k) * 1023 := rfl
  clear hend
  intro size'
  refine ⟨?_, ?_, ?_, ?_⟩
  · omega
  · omega
  · omega
  · omega

theorem Writing.turn {w : WriteCall} {s : WriteState} (hf : SmallSize f.size)
    (hw : SmallSize (w.offset + w.size)) (hk : k < w.pages) (h : Writing w f files k s tail l)
    (hfuel : l.length < fuel) :
    writePage w f fuel s k = .error .memory ∨
      ∃ s' tail' l', writePage w f fuel s k = .ok s' ∧
        Writing w f files (k + 1) s' tail' l' ∧ l'.length ≤ l.length + 1 := by
  have hsize := sizeInPages_eq hf
  unfold SmallSize at hf hw
  have hfits : Fits w f := ⟨by omega, by omega⟩
  have hend := WriteCall.pageEnd_lt hfits hk fun _ => by omega
  have hlt := WriteCall.pageStart_lt hk
  have hlast := WriteCall.last_le_toWrite (f := f) hk hend
  have hmin := WriteCall.toWrite_eq_min (f := f) hend
  have hstart : (w.offset / 1023 + k) * 1023 = w.pageStart k := rfl
  obtain ⟨hle, hge⟩ := h.size
  obtain ⟨hgrow, hnext, hfinal, hlastPage⟩ := WriteCall.size_turn hk hend hle hge
  have hfile : update files w.path (some s.file) w.path = some s.file := update_same ..
  obtain ⟨c, p, tail', a, l', hcall, hl', ha, hlen⟩ :=
    h.agreeing.call (m := sizeInPages f) hfile (h.front hk) (by rw [hsize]; omega)
      (by rw [hsize]; omega) hfuel
  have hmem : ((w.path, ((w.offset / 1023 + k : Nat) : Int)), p) ∈ (a :: l').map (content c) :=
    List.mem_cons.mpr (.inl ha.symm)
  have hpage : c.pages p = s.file.slice (w.pageStart k) 1023 :=
    hl'.stored.agree w.path _ p s.file hmem hfile
  rw [← WriteCall.pageNum_eq hfits hk] at hcall
  rw [writePage_eq hfits hk h.returned h.start hcall]
  by_cases hcrash : w.last k < w.first k
  · exact .inl (if_pos hcrash)
  right
  rw [if_neg hcrash]
  set page := filled w k s.moved (c.pages p)
  set file := s.file.pwrite (w.pageStart k) (w.toWrite f k) page.byte
  have hsize' : file.size = max s.file.size (w.pageStart k + w.toWrite f k) :=
    File.size_pwrite _ _ _ (by omega)
  have hbehind : ∀ i, w.toWrite f k ≤ i → i < 1023 →
      page.byte i = s.file.byte (w.pageStart k + i) := fun i hi hi' => by
    have hout : page.byte i = (c.pages p).byte i :=
      Buf.byte_blit_out _ _ (.inr (by omega))
    rw [hout, ← File.byte_slice s.file (w.pageStart k) hi']
    exact congrArg (fun b => Buf.byte b i) hpage
  refine ⟨_, tail', a :: l', rfl, ⟨⟨⟨hl'.links, hl'.keys, hl'.fresh⟩, ?_⟩, ?_, rfl, fun _ => ?_, ?_⟩,
    Nat.succ_le_succ hlen⟩
  -- the buffer is written from its start, so all of the page is now the buffer
  · have hslice : file.slice ((w.offset / 1023 + k) * 1023) 1023 = page :=
      File.slice_pwrite_start _ _ page hbehind
    have hstored := hl'.stored.write hl'.keys_nodup hmem hfile hslice (fun m hm => ?_) ?_ ?_
    · rwa [update_update] at hstored
    · exact File.slice_pwrite_other _ _ (by omega)
    · refine lt_of_le_of_lt (Nat.add_le_add_right (hsize'.trans_le hfinal) 1023) ?_
      rcases max_choice f.size (w.offset + w.size) with hmax | hmax
      · exact hmax.symm ▸ hf
      · exact hmax.symm ▸ hw
    · rw [hsize']
      exact hlastPage
  · -- only the first page starts within a page
    show (0 : Int) = _
    unfold WriteCall.first
    omega
  · exact hl'.front_ne ha (by omega)
  · show f.size ≤ file.size ∧ file.size ≤ max f.size (w.pageStart (k + 1))
    rw [hsize']
    exact ⟨hgrow, hnext⟩

theorem writing_run {w : WriteCall} (hf : files w.path = some f) (hw : SmallSize (w.offset + w.size))
    (h : Agreeing c files tail l) (hfront : ¬ AtFront c w.path (w.offset / 1023))
    (hfuel : l.length + w.pages ≤ fuel) (hn : n ≤ w.pages) :
    outcome (writePage w f fuel) (w.start c f) (List.range n) = .error .memory ∨
      ∃ s tail' l', outcome (writePage w f fuel) (w.start c f) (List.range n) = .ok s ∧
        Writing w f files n s tail' l' ∧ l'.length ≤ l.length + n := by
  induction n with
  | zero =>
    refine .inr ⟨_, tail, l, rfl, ⟨?_, ?_, rfl, fun _ => hfront, le_refl _, le_max_left _ _⟩,
      le_refl _⟩
    · have hself := update_self files w.path
      rw [hf] at hself
      exact hself.symm ▸ h
    · unfold WriteCall.start WriteCall.first PAGESIZE
      rw [Nat.zero_mul, Nat.sub_zero]
  | succ n ih =>
    rw [List.range_succ, outcome_append]
    -- a turn adds at most one page to the list, so the fuel is enough for the next
    rcases ih (Nat.le_of_lt hn) with hcrash | ⟨s, tail', l', hrun, hs, hlen⟩
    · rw [hcrash]
      exact .inl rfl
    have hfuel' : l'.length < fuel := by omega
    rw [hrun, ok_bind]
    rcases hs.turn (h.stored.small w.path f hf) hw hn hfuel' with
      hcrash | ⟨s', tail'', l'', hturn, hs', hlen'⟩
    · rw [outcome, hcrash]
      exact .inl rfl
    · exact .inr ⟨s', tail'', l'', outcome_cons_eq_ok.mpr ⟨s', hturn, rfl⟩, hs', by omega⟩

theorem WriteCall.numPages_zero {w : WriteCall} (hw : w.pages = 0) : w.numPages = 0 := by
  unfold WriteCall.pages at hw
  have hword : word (w.offset % PAGESIZE + w.size + PAGESIZE - 1) = 1022 := by
    unfold word PAGESIZE
    omega
  unfold WriteCall.numPages
  rw [hword]
  rfl

/-- A write that does not crash keeps the pages as they should be. -/
theorem Agreeing.write {w : WriteCall} (h : Agreeing c files tail l) (hf : files w.path = some f)
    (hok : 0 < w.pages → SmallSize (w.offset + w.size) ∧ ¬ AtFront c w.path (w.offset / 1023))
    (hfuel : l.length + w.pages ≤ fuel) :
    xmpWrite c f w fuel = .error .memory ∨
      ∃ c' f' res tail' l', xmpWrite c f w fuel = .ok (c', f', res) ∧
        Agreeing c' (update files w.path (some f')) tail' l' ∧ l'.length ≤ l.length + w.pages := by
  have hself := update_self files w.path
  rw [hf] at hself
  unfold xmpWrite
  rcases Nat.eq_zero_or_pos w.pages with hw | hw
  · rw [WriteCall.numPages_zero hw, hw]
    exact .inr ⟨c, f, 0, tail, l, rfl, hself.symm ▸ h, le_refl _⟩
  · obtain ⟨hsmall, hfront⟩ := hok hw
    have hfile := h.stored.small w.path f hf
    have hfits : Fits w f := by
      unfold SmallSize at hsmall hfile
      exact ⟨by omega, by omega⟩
    rw [WriteCall.numPages_eq hfits, Int.toNat_natCast]
    rcases writing_run hf hsmall h hfront hfuel (le_refl _) with
      hcrash | ⟨s, tail', l', hrun, hs, hlen⟩
    · rw [hcrash]
      exact .inl rfl
    · rw [hrun]
      exact .inr ⟨s.con, s.file, _, tail', l', rfl, hs.agreeing, hlen⟩

/-! ## The other calls -/

theorem Agreeing.truncate {path : String} {size : Nat} (h : Agreeing c files tail l)
    (hf : files path = some f) (hsmall : SmallSize size) (hzero : ZeroBehind c path size)
    (hend : EndCached c path size) :
    Agreeing c (update files path (some (f.truncate size))) tail l := by
  refine h.setFile fun g hg => ?_
  obtain rfl := Option.some.inj hg
  refine ⟨hsmall, fun n p hp => ?_, hend⟩
  have hpage := h.stored.agree path n p f (h.toListed.cached_iff.mp hp) hf
  refine Buf.ext_lt fun i hi => ?_
  have hbyte : ((f.truncate size).slice (n * 1023) 1023).byte i =
      if n * 1023 + i < size then f.byte (n * 1023 + i) else 0 := File.byte_slice _ _ hi
  refine Eq.trans ?_ hbyte.symm
  -- the bytes before the cut are those of the file, the others are zero in both
  by_cases hin : n * 1023 + i < size
  · rw [if_pos hin]
    exact (congrArg (fun b => Buf.byte b i) hpage).trans (File.byte_slice _ _ hi)
  · rw [if_neg hin]
    exact hzero n p hp i (by omega)

theorem Agreeing.blank {path : String} (h : Agreeing c files tail l) (hsize : f.size = 0)
    (hzero : ZeroBehind c path 0) : Agreeing c (update files path (some f)) tail l := by
  refine h.setFile fun g hg => ?_
  obtain rfl := Option.some.inj hg
  refine ⟨?_, fun n p hp => ?_, .inl ?_⟩
  · unfold SmallSize
    omega
  · refine Buf.ext_lt fun i hi => ?_
    have hbyte : (f.slice (n * 1023) 1023).byte i = f.byte (n * 1023 + i) :=
      File.byte_slice _ _ hi
    have hpast : f.byte (n * 1023 + i) = 0 := f.zero_past _ (by omega)
    exact (hzero n p hp i (Nat.zero_le _)).trans (hbyte.trans hpast).symm
  · rw [hsize]

/-- What a call may lead to. -/
def Keeps (n : Nat) (l : List Ptr) : Except Fault Fs → Prop
  | .error e => e = .memory
  | .ok s => ∃ tail l', Agreeing s.con s.files tail l' ∧ l'.length ≤ l.length + n

section
variable {s : Fs}

theorem Agreeing.execRead {r : ReadCall} (h : Agreeing s.con s.files tail l)
    (hok : Harmless s (.read r)) (hfuel : l.length + (FsOp.read r).pages ≤ fuel) :
    ReadsFile fuel s (.read r) ∧ Keeps (FsOp.read r).pages l (exec fuel s (.read r)) := by
  rw [exec, xmpReadAt]
  cases hf : s.files r.path with
  | none =>
    refine ⟨fun r' f heq hf' => ?_, tail, l, h, Nat.le_add_right _ _⟩
    obtain rfl := FsOp.read.inj heq
    cases hf.symm.trans hf'
  | some f =>
    have hpages : r.pages f ≤ (FsOp.read r).pages := by
      have hspan : r.span f ≤ r.size := min_le_left _ _
      exact Nat.div_le_div_right (by omega)
    obtain ⟨hright, c', buf, res, tail', l', hread, hl', hlen⟩ :=
      h.read hf (hok f hf) ((Nat.add_le_add_left hpages _).trans hfuel)
    constructor
    · intro r' f' heq hf'
      obtain rfl := FsOp.read.inj heq
      obtain rfl := Option.some.inj (hf.symm.trans hf')
      exact hright
    · dsimp only
      rw [hread]
      exact ⟨tail', l', hl', hlen.trans (Nat.add_le_add_left hpages _)⟩

theorem Agreeing.execWrite {w : WriteCall} (h : Agreeing s.con s.files tail l)
    (hok : Harmless s (.write w)) (hfuel : l.length + w.pages ≤ fuel) :
    Keeps w.pages l (exec fuel s (.write w)) := by
  rw [exec, xmpWriteAt]
  cases hf : s.files w.path with
  | none => exact ⟨tail, l, h, Nat.le_add_right _ _⟩
  | some f =>
    dsimp only
    rcases h.write hf (hok (hf ▸ rfl)) hfuel with
      hcrash | ⟨c', f', res, tail', l', hwrite, hl', hlen⟩
    · rw [hcrash]
      exact rfl
    · rw [hwrite]
      exact ⟨tail', l', hl', hlen⟩

/-- What `xmp_truncate` and `xmp_ftruncate` both do; `e` is the error for no file. -/
theorem Agreeing.cut {path : String} {size : Int} (e : Int) (h : Agreeing s.con s.files tail l)
    (hok : Harmless s (.truncate path size)) :
    let s' : Fs :=
      (if size < 0 then (s, -EINVAL)
      else
        match s.files path with
        | some f => (s.setFile path (some (f.truncate size.toNat)), 0)
        | none => (s, e)).1
    Agreeing s'.con s'.files tail l := by
  by_cases hsize : size < 0
  · rw [if_pos hsize]
    exact h
  rw [if_neg hsize]
  cases hf : s.files path with
  | none => exact h
  | some f =>
    obtain ⟨hsmall, hzero, hend⟩ := hok (hf ▸ rfl) (by omega)
    exact h.truncate hf hsmall hzero hend

theorem Agreeing.rename {source target : String} {flags : Nat} (h : Agreeing s.con s.files tail l)
    (hok : Harmless s (.rename source target flags)) :
    Agreeing (xmpRename s source target flags).1.con (xmpRename s source target flags).1.files
      tail l := by
  unfold xmpRename
  by_cases hflags : flags = 0
  · rw [if_neg (not_not.mpr hflags)]
    cases hf : s.files source with
    | none => exact h
    | some f =>
      obtain ⟨hpages, hend⟩ := hok f hf hflags
      -- pages cached under the old name have no file to agree with
      have hgone : Agreeing s.con (update s.files source none) tail l :=
        h.setFile fun _ hg => by cases hg
      refine hgone.setFile fun g hg => ?_
      obtain rfl := Option.some.inj hg
      exact ⟨h.stored.small source f hf, hpages, hend⟩
  · rw [if_pos hflags]
    exact h

theorem Agreeing.create {path : String} {flags : OpenFlags} (h : Agreeing s.con s.files tail l)
    (hok : Harmless s (.create path flags)) :
    Agreeing (xmpCreate s path flags).1.con (xmpCreate s path flags).1.files tail l := by
  rw [Harmless] at hok
  unfold xmpCreate
  cases hf : s.files path with
  | none =>
    rw [hf] at hok
    dsimp only
    by_cases hnew : flags.creat = true
    · rw [if_pos hnew]
      exact h.blank rfl (hok hnew)
    · rw [if_neg hnew]
      exact h
  | some f =>
    rw [hf] at hok
    dsimp only
    by_cases hexcl : flags.creat = true ∧ flags.excl = true
    · rw [if_pos hexcl]
      exact h
    rw [if_neg hexcl]
    by_cases htrunc : flags.trunc = true
    · rw [if_pos htrunc]
      exact h.blank rfl (hok ⟨hexcl, htrunc⟩)
    · rw [if_neg htrunc]
      exact h

theorem Agreeing.step {op : FsOp} (h : Agreeing s.con s.files tail l) (hok : Harmless s op)
    (hfuel : l.length + op.pages ≤ fuel) :
    ReadsFile fuel s op ∧ Keeps op.pages l (exec fuel s op) := by
  have hsame : ∀ {n : Nat} {s' : Fs}, Agreeing s'.con s'.files tail l → Keeps n l (.ok s') :=
    fun hs' => ⟨tail, l, hs', Nat.le_add_right _ _⟩
  cases op with
  | read r => exact h.execRead hok hfuel
  | write w => exact ⟨nofun, h.execWrite hok hfuel⟩
  | truncate path size => exact ⟨nofun, hsame (h.cut (-ENOENT) hok)⟩
  | ftruncate path size => exact ⟨nofun, hsame (h.cut (-EBADF) hok)⟩
  | rename source target flags => exact ⟨nofun, hsame (h.rename hok)⟩
  | unlink path =>
    refine ⟨nofun, hsame ?_⟩
    unfold xmpUnlink
    cases s.files path with
    | none => exact h
    | some f => exact h.setFile fun _ hg => by cases hg
  | create path flags => exact ⟨nofun, hsame (h.create hok)⟩

end

end

/-! ## The calls together -/

theorem Mounted.agreeing {s : Fs} (h : Mounted s) : Agreeing s.con s.files 0 [] where
  links := ⟨h.empty, rfl⟩
  keys := List.nodup_nil
  fresh _ hp := absurd hp List.not_mem_nil
  stored :=
    { buffers := List.nodup_nil
      below := fun _ he => absurd he List.not_mem_nil
      agree := fun _ _ _ _ he => absurd he List.not_mem_nil
      small := h.small
      ends := fun path f hf => .inl (h.whole path f hf) }

theorem coherent_run {s : Fs} {tail : Ptr} {l : List Ptr} {ops : List FsOp} {fuel : Nat}
    (h : Agreeing s.con s.files tail l) (hops : EveryStep (exec fuel) Harmless s ops)
    (hfuel : l.length + (ops.map FsOp.pages).sum ≤ fuel) :
    EveryState (exec fuel) Coherent s ops ∧ EveryStep (exec fuel) (ReadsFile fuel) s ops ∧
      outcome (exec fuel) s ops ≠ .error .fuel := by
  induction ops generalizing s tail l with
  | nil => exact ⟨h.coherent, trivial, fun he => by cases he⟩
  | cons op ops ih =>
    rw [List.map_cons, List.sum_cons] at hfuel
    have hfuel' : l.length + op.pages ≤ fuel := by omega
    obtain ⟨hread, hkeep⟩ := h.step hops.1 hfuel'
    -- a crash ends the run; otherwise the list has grown by the pages of the call
    cases hrun : exec fuel s op with
    | error e =>
      rw [hrun] at hkeep
      refine ⟨⟨h.coherent, ?_⟩, (EveryStep.cons_error hrun).mpr hread, ?_⟩
      · intro s' hs'
        cases hrun.symm.trans hs'
      · rw [outcome, hrun, show e = .memory from hkeep]
        intro he
        cases he
    | ok s' =>
      rw [hrun] at hkeep
      obtain ⟨tail', l', hl', hlen⟩ := hkeep
      obtain ⟨hstates, hreads, hend⟩ := ih hl' (hops.2 s' hrun) (by omega)
      refine ⟨⟨h.coherent, ?_⟩, (EveryStep.cons_ok hrun).mpr ⟨hread, hreads⟩, ?_⟩
      · intro t ht
        rwa [← Except.ok.inj (hrun.symm.trans ht)]
      · rw [outcome, hrun]
        exact hend

/-- A mount of an empty directory. -/
def emptyDir : Fs where
  con := default
  files _ := none

theorem mounted_emptyDir : Mounted emptyDir where
  empty := rfl
  whole _ _ hf := by cases hf
  small _ _ hf := by cases hf

/-- A new file, two pages written to it, and read back. -/
def readBack : List FsOp :=
  [.create "/a" ⟨true, false, false⟩, .write (writeStart 1500),
    .read { path := "/a", buf := fun _ => 0, size := 1500, offset := 0 }]

theorem harmless_readBack : EveryStep (exec 4) Harmless emptyDir readBack := by
  refine (EveryStep.cons_ok rfl).mpr ⟨fun _ n p hp => ?_, (EveryStep.cons_ok rfl).mpr
    ⟨fun _ _ => ⟨by decide, fun hfront => hfront.1 rfl⟩, ?_⟩⟩
  · obtain ⟨l, hw, hmem⟩ := hp
    cases l with
    | nil => cases hmem
    | cons a l => exact absurd (Walk.cons_iff.mp hw).1.symm (Walk.cons_iff.mp hw).2.1
  · refine ⟨fun f hf _ => ⟨by decide, fun _ hfront => ?_⟩, fun _ _ => trivial⟩
    -- the page written last is at the front
    have hkey := hfront.2
    revert hkey
    decide

/-- A new file, and five bytes written to it. -/
def newFile : List FsOp := [.create "/a" ⟨true, false, false⟩, .write (writeStart 5)]

end Cycology.PagedFs
