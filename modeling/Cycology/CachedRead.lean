import Cycology.Lib.Loops
import Cycology.GetPage

/- The page loop of the `xmp_read` rewritten for the page cache.

   As it stands the function does not compile: `relativeOffset` goes out of scope
   before the loop and two operands of `memcpy` lack their `&`. It is modelled as it is
   meant. The check of the flag and what is printed are left out.

   The first page is copied to its end whatever is asked for, the size is clipped to the
   size of the file and not to what is left behind the offset, and the sizes and offsets
   are kept in `int`s. So the loop reads what it should exactly if the rest of the first
   page is asked for, and all that is asked for is in the file and within reach of an
   `int` (`readsRight_iff`). -/
namespace Cycology.PageCache
open ByteMem Loops Runs.Fallible

/-! ## The C code -/

/-- The arguments of `xmp_read`, with the size of the file and what `buf` holds. -/
structure CachedRead where
  file : Ptr
  iSize : Nat
  size : Nat
  offset : Nat
  buf : Nat → UInt8

/-- `size`, after it was cut to the size of the file. -/
def CachedRead.clipped (r : CachedRead) : Nat := if r.iSize < r.size then r.iSize else r.size

/-- The locals of the loop, with the memory. `entries` are those that `getPage`
    returned. -/
structure Reading where
  mem : Mem
  key : Ptr
  bytesLeft : Int
  bytesRead : Int
  relativeOffset : Int
  bytesInPage : Int
  buf : Nat → UInt8
  entries : List Ptr

/-- What is at `dest` after `memcpy(&dest[at], &src[start], n)`. -/
def memcpyAt (dest : Nat → UInt8) (at' : Int) (src : Nat → UInt8) (start n : Int) :
    Nat → UInt8 :=
  fun j => if at' ≤ j ∧ j < at' + n then src (start + (j - at')).toNat else dest j

/-- `xmp_read` before its loop. -/
def CachedRead.start (r : CachedRead) (s : Mem) : Reading :=
  let pageStartOffset := cint ((r.offset : Int).tdiv PAGESIZE * PAGESIZE)
  let relativeOffset := cint (r.offset - pageStartOffset)
  let (s, key) := s.newKey { file := r.file, dataOffset := pageStartOffset, levelsAbove := 0 }
  { mem := s
    key := key
    bytesLeft := cint r.clipped
    bytesRead := 0
    relativeOffset := relativeOffset
    bytesInPage := PAGESIZE - relativeOffset
    buf := r.buf
    entries := [] }

/-- The condition of the loop. -/
def Reading.GoesOn (v : Reading) : Prop := 0 < v.bytesLeft

instance : DecidablePred Reading.GoesOn := fun v => inferInstanceAs (Decidable (0 < v.bytesLeft))

/-- The body of the loop. -/
def readPageTurn (getPage : Mem → Ptr → Except WalkFault (Mem × Ptr)) (v : Reading) :
    Except WalkFault Reading := do
  let (s, entry) ← getPage v.mem v.key
  let s ← lifted (s.access entry)
  let s ← lifted (s.access (s.entries entry).wp)
  let contents := (s.pages (s.entries entry).wp).nandPage.byte
  let buf := memcpyAt v.buf v.bytesRead contents v.relativeOffset v.bytesInPage
  let key := s.keys v.key
  let s := { s with
    keys := update s.keys v.key { key with dataOffset := cint (key.dataOffset + PAGESIZE) } }
  let bytesLeft := cint (v.bytesLeft - v.bytesInPage)
  let bytesRead := cint (v.bytesRead + v.bytesInPage)
  .ok
    { mem := s
      key := v.key
      bytesLeft := bytesLeft
      bytesRead := bytesRead
      relativeOffset := 0
      bytesInPage := if PAGESIZE ≤ bytesLeft then PAGESIZE else bytesLeft
      buf := buf
      entries := v.entries ++ [entry] }

/-- `xmp_read` up to the end of its loop, which is given `fuel` turns. -/
def CachedRead.run (r : CachedRead) (getPage : Mem → Ptr → Except WalkFault (Mem × Ptr)) (s : Mem)
    (fuel : Nat) : Except WalkFault Reading :=
  loop Reading.GoesOn (readPageTurn getPage) .fuel fuel (r.start s)

/-! ## What the loop should do -/

/-- The number of bytes of the request that the file has. -/
def CachedRead.count (r : CachedRead) : Nat := min r.size (r.iSize - r.offset)

/-- `getPage` returns the page at the offset of the key, for the data pages of a file with
    the bytes `content`. -/
def GivesPages (r : CachedRead) (content : Nat → UInt8)
    (getPage : Mem → Ptr → Except WalkFault (Mem × Ptr)) : Prop :=
  ∀ s key, ∀ k : Nat, key ≤ s.brk → 1024 * k < r.iSize → IsInt (1024 * k) →
    s.keys key = ⟨r.file, 1024 * k, 0⟩ →
    ∃ s' e, getPage s key = .ok (s', e) ∧ e ≠ 0 ∧ (s'.entries e).wp ≠ 0 ∧
      s.brk ≤ s'.brk ∧ s'.keys key = s.keys key ∧
      ∀ i < 1024, 1024 * k + i < r.iSize →
        (s'.pages (s'.entries e).wp).nandPage.byte i = content (1024 * k + i)

/-- The loop returns with the bytes of the request in `buf`, and no turn copies more than
    is left or past the end of a page. -/
structure ReadsRight (r : CachedRead) (content : Nat → UInt8)
    (getPage : Mem → Ptr → Except WalkFault (Mem × Ptr)) (s : Mem) : Prop where
  result : ∃ fuel v, r.run getPage s fuel = .ok v ∧ v.bytesRead = r.count ∧
    ∀ j, v.buf j = if j < r.count then content (r.offset + j) else r.buf j
  bounds : ∀ v, Reaches Reading.GoesOn (readPageTurn getPage) (r.start s) v → 0 ≤ v.bytesLeft ∧
    (v.GoesOn → 0 ≤ v.bytesInPage ∧ v.bytesInPage ≤ v.bytesLeft ∧ 0 ≤ v.relativeOffset ∧
      v.relativeOffset + v.bytesInPage ≤ PAGESIZE)

/-! ## The turns -/

/-- The bytes read after `k` turns, where `b` are asked for. -/
def CachedRead.done (r : CachedRead) (b k : Nat) : Nat := min b (1024 * k - r.offset % 1024)

/-- The number of turns. -/
def CachedRead.turns (r : CachedRead) (b : Nat) : Nat := (r.offset % 1024 + b + 1023) / 1024

/-- The key of the page of turn `k`. -/
def CachedRead.pageKey (r : CachedRead) (k : Nat) : PageKey :=
  ⟨r.file, cint (1024 * (r.offset / 1024 + k : Nat)), 0⟩

/-- `getPage` gives the page `pages k` in turn `k`, as far as `b` bytes are read. -/
def Supplies (r : CachedRead) (b : Nat) (pages : Nat → Nat → UInt8)
    (getPage : Mem → Ptr → Except WalkFault (Mem × Ptr)) : Prop :=
  ∀ s key k, key ≤ s.brk → 1024 * k < r.offset % 1024 + b → s.keys key = r.pageKey k →
    ∃ s' e, getPage s key = .ok (s', e) ∧ e ≠ 0 ∧ (s'.entries e).wp ≠ 0 ∧
      s.brk ≤ s'.brk ∧ s'.keys key = s.keys key ∧
      ∀ i < 1024, 1024 * k + i < r.offset % 1024 + b →
        (s'.pages (s'.entries e).wp).nandPage.byte i = pages k i

/-- The loop after `k` turns. -/
structure ReadAt (r : CachedRead) (b : Nat) (pages : Nat → Nat → UInt8) (k : Nat) (v : Reading) :
    Prop where
  key : v.mem.keys v.key = r.pageKey k
  brk : v.key ≤ v.mem.brk
  left : v.bytesLeft = (b - r.done b k : Nat)
  bytes : v.bytesRead = r.done b k
  start : v.relativeOffset = (if k = 0 then r.offset % 1024 else 0 : Nat)
  inPage : v.bytesInPage = (r.done b (k + 1) - r.done b k : Nat)
  buf : ∀ j, v.buf j = if j < r.done b k then
    pages ((r.offset % 1024 + j) / 1024) ((r.offset % 1024 + j) % 1024) else r.buf j

/-- The loop after a turn in which `getPage` returned `entry` and left the memory `s`. -/
def Reading.after (v : Reading) (s : Mem) (entry : Ptr) : Reading :=
  let key := s.keys v.key
  let bytesLeft := cint (v.bytesLeft - v.bytesInPage)
  { mem := { s with
      keys := update s.keys v.key { key with dataOffset := cint (key.dataOffset + PAGESIZE) } }
    key := v.key
    bytesLeft := bytesLeft
    bytesRead := cint (v.bytesRead + v.bytesInPage)
    relativeOffset := 0
    bytesInPage := if PAGESIZE ≤ bytesLeft then PAGESIZE else bytesLeft
    buf := memcpyAt v.buf v.bytesRead (s.pages (s.entries entry).wp).nandPage.byte
      v.relativeOffset v.bytesInPage
    entries := v.entries ++ [entry] }

section
variable {r : CachedRead} {b k n : Nat} {pages : Nat → Nat → UInt8} {v w : Reading}
  {getPage : Mem → Ptr → Except WalkFault (Mem × Ptr)} {s : Mem}

theorem done_bounds (r : CachedRead) (b k : Nat) : r.done b k ≤ b ∧ r.done b k ≤ r.done b (k + 1) ∧
    (if k = 0 then r.offset % 1024 else 0) + (r.done b (k + 1) - r.done b k) ≤ 1024 := by
  unfold CachedRead.done
  refine ⟨by omega, by omega, ?_⟩
  split <;> omega

theorem done_lt_iff (hb : 0 < b) : r.done b k < b ↔ k < r.turns b := by
  unfold CachedRead.done CachedRead.turns
  omega

theorem start_offset (r : CachedRead) :
    (r.offset : Int).tdiv PAGESIZE * PAGESIZE = (1024 * (r.offset / 1024) : Nat) := by
  rw [Int.tdiv_eq_ediv_of_nonneg (by omega), PAGESIZE]
  omega

theorem start_relativeOffset (r : CachedRead) (s : Mem) :
    (r.start s).relativeOffset = (r.offset % 1024 : Nat) := by
  change cint (r.offset - cint ((r.offset : Int).tdiv PAGESIZE * PAGESIZE)) = _
  rw [start_offset]
  have hmod := cint_emod (1024 * (r.offset / 1024) : Nat)
  rw [cint_eq_emod]
  omega

theorem start_bytesInPage (r : CachedRead) (s : Mem) :
    (r.start s).bytesInPage = 1024 - (r.offset % 1024 : Nat) := by
  rw [← start_relativeOffset r s]
  rfl

theorem start_readAt (hclip : cint r.clipped = b) (hfirst : 1024 ≤ r.offset % 1024 + b) :
    ReadAt r b pages 0 (r.start s) := by
  refine ⟨?_, le_refl _, ?_, ?_, start_relativeOffset r s, ?_, fun j => ?_⟩
  · simp only [CachedRead.start, start_offset, keys_newKey, CachedRead.pageKey]
    rfl
  · simp [CachedRead.start, hclip, CachedRead.done]
  · simp [CachedRead.start, CachedRead.done]
  · rw [start_bytesInPage]
    unfold CachedRead.done
    omega
  · simp [CachedRead.start, CachedRead.done]

theorem readPageTurn_eq_ok : readPageTurn getPage v = .ok w ↔ ∃ s' e,
    getPage v.mem v.key = .ok (s', e) ∧ e ≠ 0 ∧ (s'.entries e).wp ≠ 0 ∧ w = v.after s' e := by
  constructor
  · intro h
    obtain ⟨⟨s', e⟩, hget, hentry⟩ := bind_eq_ok.mp h
    obtain ⟨s₁, hs₁, hpage⟩ := bind_eq_ok.mp hentry
    obtain ⟨he, rfl⟩ := Mem.access_eq_ok.mp (lifted_eq_ok.mp hs₁)
    obtain ⟨s₂, hs₂, hrest⟩ := bind_eq_ok.mp hpage
    obtain ⟨hwp, rfl⟩ := Mem.access_eq_ok.mp (lifted_eq_ok.mp hs₂)
    exact ⟨s₂, e, hget, he, hwp, (Except.ok.inj hrest).symm⟩
  · rintro ⟨s', e, hget, he, hwp, rfl⟩
    rw [readPageTurn, hget, ok_bind]
    dsimp only
    rw [lifted_eq_ok.mpr (Mem.access_ne s' he), ok_bind, lifted_eq_ok.mpr (Mem.access_ne s' hwp),
      ok_bind]
    rfl

theorem keys_after {s' : Mem} {e : Ptr} (hkey : s'.keys v.key = r.pageKey k) :
    (v.after s' e).mem.keys v.key = r.pageKey (k + 1) := by
  simp only [Reading.after, update_same, hkey, CachedRead.pageKey, PAGESIZE, PageKey.mk.injEq,
    and_true, true_and]
  rw [cint_eq_cint_iff, Int.add_emod, cint_emod, ← Int.add_emod]
  rfl

/-- A turn reads the rest of the page, or what is left. -/
theorem ReadAt.turn (h : ReadAt r b pages k v) (hb : 0 < b) (hint : b < 2147483648)
    (hpages : Supplies r b pages getPage) (hk : k < r.turns b) :
    ∃ w, Turn Reading.GoesOn (readPageTurn getPage) v w ∧ ReadAt r b pages (k + 1) w := by
  have hlt := (done_lt_iff hb).mpr hk
  obtain ⟨-, hmono, hpage⟩ := done_bounds r b k
  obtain ⟨hle', hmono', -⟩ := done_bounds r b (k + 1)
  have hin : 1024 * k < r.offset % 1024 + b := by
    unfold CachedRead.done at hlt
    omega
  obtain ⟨s', e, hget, he, hwp, hbrk, hkeys, hbytes⟩ := hpages v.mem v.key k h.brk hin h.key
  have hgo : v.GoesOn := by
    rw [Reading.GoesOn, h.left]
    omega
  have hleft : cint (v.bytesLeft - v.bytesInPage) = (b - r.done b (k + 1) : Nat) := by
    rw [h.left, h.inPage, cint_eq (by unfold IsInt; omega)]
    omega
  refine ⟨v.after s' e, ⟨hgo, readPageTurn_eq_ok.mpr ⟨s', e, hget, he, hwp, rfl⟩⟩,
    keys_after (hkeys.trans h.key), le_trans h.brk hbrk, hleft, ?_, rfl, ?_, fun j => ?_⟩
  · simp only [Reading.after, h.bytes, h.inPage]
    rw [cint_eq (by unfold IsInt; omega)]
    omega
  · -- a whole page if that much is left
    simp only [Reading.after, hleft, PAGESIZE]
    unfold CachedRead.done at hleft hlt ⊢
    split <;> omega
  · -- before, in and behind what the turn copies
    have hturn : r.done b (k + 1) ≤ 1024 * (k + 1) - r.offset % 1024 := by
      unfold CachedRead.done
      omega
    have hbefore : r.done b k < b → r.done b k = 1024 * k - r.offset % 1024 := by
      unfold CachedRead.done
      omega
    have hdone := hbefore hlt
    simp only [Reading.after, memcpyAt, h.bytes, h.inPage, h.start]
    by_cases hj : r.done b k ≤ j ∧ j < r.done b (k + 1)
    · have hmod : r.offset % 1024 < 1024 := Nat.mod_lt _ (by decide)
      have hplace : r.offset % 1024 + j = 1024 * k +
          ((if k = 0 then r.offset % 1024 else 0) + (j - r.done b k)) := by
        split <;> omega
      have hsmall : (if k = 0 then r.offset % 1024 else 0) + (j - r.done b k) < 1024 := by
        omega
      rw [if_pos (by omega), if_pos hj.2, hplace, Nat.mul_add_mod, Nat.mod_eq_of_lt hsmall,
        Nat.mul_add_div (by decide), Nat.div_eq_of_lt hsmall, Nat.add_zero,
        ← hbytes _ hsmall (by omega)]
      congr 1
      omega
    · rw [if_neg (by omega), h.buf j]
      by_cases hlow : j < r.done b k
      · rw [if_pos hlow, if_pos (by omega)]
      · rw [if_neg hlow, if_neg (by omega)]

/-- **The loop**, with the pages supplied, reads `b` bytes in its turns and comes to no
    other states than after each of these. -/
theorem readAt_run (hb : 0 < b) (hclip : cint r.clipped = b)
    (hfirst : 1024 ≤ r.offset % 1024 + b) (hpages : Supplies r b pages getPage) (s : Mem) :
    (∃ v, r.run getPage s (r.turns b) = .ok v ∧ ReadAt r b pages (r.turns b) v) ∧
    ∀ v, Reaches Reading.GoesOn (readPageTurn getPage) (r.start s) v →
      ∃ k, ReadAt r b pages k v := by
  have hint : b < 2147483648 := by
    have hcut := isInt_cint r.clipped
    rw [hclip] at hcut
    unfold IsInt at hcut
    omega
  have hstart : ReadAt r b pages 0 (r.start s) := start_readAt hclip hfirst
  have hturn : ∀ k < r.turns b, ∀ v, ReadAt r b pages k v →
      ∃ w, Turn Reading.GoesOn (readPageTurn getPage) v w ∧ ReadAt r b pages (k + 1) w :=
    fun k hk v h => h.turn hb hint hpages hk
  have hend : ∀ v, ReadAt r b pages (r.turns b) v → ¬ v.GoesOn := by
    intro v h
    have hdone := (done_lt_iff (r := r) (k := r.turns b) hb).not.mpr (lt_irrefl _)
    rw [Reading.GoesOn, h.left]
    omega
  have hstep : ∀ k < r.turns b, ∀ v w, ReadAt r b pages k v →
      Turn Reading.GoesOn (readPageTurn getPage) v w → ReadAt r b pages (k + 1) w := by
    intro k hk v w h hvw
    obtain ⟨w', hvw', hw'⟩ := hturn k hk v h
    rw [Except.ok.inj (hvw.2.symm.trans hvw'.2)]
    exact hw'
  refine ⟨loop_counted hstart hturn hend, fun v hv => ?_⟩
  obtain ⟨k, -, hk⟩ := hv.counted hstart hstep hend
  exact ⟨k, hk⟩

theorem ReadAt.last (h : ReadAt r b pages (r.turns b) v) (hb : 0 < b) : v.bytesRead = b ∧
    ∀ j, v.buf j = if j < b then
      pages ((r.offset % 1024 + j) / 1024) ((r.offset % 1024 + j) % 1024) else r.buf j := by
  have hdone : r.done b (r.turns b) = b := by
    have hge := (done_lt_iff (r := r) (k := r.turns b) hb).not.mpr (lt_irrefl _)
    have hle := (done_bounds r b (r.turns b)).1
    omega
  rw [h.bytes, hdone]
  refine ⟨rfl, fun j => ?_⟩
  rw [h.buf j, hdone]

theorem ReadAt.bounds (h : ReadAt r b pages k v) : 0 ≤ v.bytesLeft ∧
    (v.GoesOn → 0 ≤ v.bytesInPage ∧ v.bytesInPage ≤ v.bytesLeft ∧ 0 ≤ v.relativeOffset ∧
      v.relativeOffset + v.bytesInPage ≤ PAGESIZE) := by
  obtain ⟨-, -, hpage⟩ := done_bounds r b k
  have hle := (done_bounds r b (k + 1)).1
  rw [Reading.GoesOn, h.left, h.inPage, h.start, PAGESIZE]
  omega

end

/-! ## When it does what it should -/

/-- Nothing is asked for of the file, and what is left of the size is 0 as an `int`; or the
    rest of the first page is asked for, and all that is asked for is in the file and
    within reach of an `int`. -/
def ReadFits (r : CachedRead) : Prop :=
  r.clipped % 4294967296 = 0 ∧ (r.size = 0 ∨ r.iSize ≤ r.offset) ∨
  0 < r.clipped ∧ r.clipped < 2147483648 ∧ 1024 ≤ r.offset % 1024 + r.clipped ∧
    r.offset + r.clipped ≤ r.iSize ∧ r.offset + r.clipped ≤ 2147483648

/-- Pages with the bytes `content`, each put in a new place. -/
def pageStore (content : Nat → UInt8) (s : Mem) (key : Ptr) : Except WalkFault (Mem × Ptr) :=
  let offset := (s.keys key).dataOffset
  let contents := Buf.ofFn 1024 fun i => if 0 ≤ offset then content (offset.toNat + i) else 0
  .ok ({ s with
    brk := s.brk + 2
    pages := update s.pages (s.brk + 1) ⟨FullPage.setContents (Buf.zero 1048) contents, 0⟩
    entries := update s.entries (s.brk + 2) (freshEntry key (s.brk + 1)) }, s.brk + 2)

section
variable {r : CachedRead} {content : Nat → UInt8} {s : Mem}
  {getPage : Mem → Ptr → Except WalkFault (Mem × Ptr)}

theorem pageStore_spec (content : Nat → UInt8) (s : Mem) (key : Ptr) : ∃ s' e,
    pageStore content s key = .ok (s', e) ∧ e ≠ 0 ∧ (s'.entries e).wp ≠ 0 ∧ s.brk ≤ s'.brk ∧
    s'.keys key = s.keys key ∧ ∀ i < 1024, (s'.pages (s'.entries e).wp).nandPage.byte i =
      if 0 ≤ (s.keys key).dataOffset then content ((s.keys key).dataOffset.toNat + i) else 0 := by
  refine ⟨_, _, rfl, by simp, ?_, by simp, rfl, fun i hi => ?_⟩
  · simp [update_same, freshEntry]
  · simp only [update_same, freshEntry, FullPage.setContents]
    rw [Buf.byte_blit_in _ _ (by omega) (by omega) (by omega), Nat.sub_zero,
      Buf.byte_ofFn_lt _ hi]

theorem givesPages_pageStore (r : CachedRead) (content : Nat → UInt8) :
    GivesPages r content (pageStore content) := by
  intro s key k _ _ _ hkey
  obtain ⟨s', e, hget, he, hwp, hbrk, hkeys, hbytes⟩ := pageStore_spec content s key
  refine ⟨s', e, hget, he, hwp, hbrk, hkeys, fun i hi _ => ?_⟩
  rw [hbytes i hi, hkey, if_pos (by positivity)]
  congr 1

theorem clipped_eq (r : CachedRead) : r.clipped = min r.size r.iSize := by
  unfold CachedRead.clipped
  split <;> omega

theorem readsRight_nothing (hclip : r.clipped % 4294967296 = 0)
    (hcount : r.size = 0 ∨ r.iSize ≤ r.offset) : ReadsRight r content getPage s := by
  have hleft : (r.start s).bytesLeft = 0 := by
    have hmod := cint_eq_emod r.clipped
    change cint r.clipped = 0
    omega
  have hend : ¬ (r.start s).GoesOn := by
    rw [Reading.GoesOn, hleft]
    exact lt_irrefl 0
  have hzero : r.count = 0 := by
    unfold CachedRead.count
    omega
  refine ⟨⟨0, r.start s, loop_of_not hend, ?_, fun j => ?_⟩, fun v hv => ?_⟩
  · rw [hzero]
    rfl
  · rw [hzero, if_neg (by omega)]
    rfl
  · obtain rfl | ⟨w, hw, -⟩ := Relation.ReflTransGen.cases_head hv
    · exact ⟨le_of_eq hleft.symm, fun hgo => absurd hgo hend⟩
    · exact absurd hw.1 hend

theorem readsRight_whole (hpages : GivesPages r content getPage) (hpos : 0 < r.clipped)
    (hint : r.clipped < 2147483648) (hfirst : 1024 ≤ r.offset % 1024 + r.clipped)
    (hfile : r.offset + r.clipped ≤ r.iSize) (hreach : r.offset + r.clipped ≤ 2147483648) :
    ReadsRight r content getPage s := by
  have hsupplies : Supplies r r.clipped
      (fun k i => content (1024 * (r.offset / 1024 + k) + i)) getPage := by
    intro s key k hle hk hkey
    have hplace : IsInt (1024 * (r.offset / 1024 + k : Nat)) := by
      unfold IsInt
      omega
    rw [CachedRead.pageKey, cint_eq hplace] at hkey
    obtain ⟨s', e, hget, he, hwp, hbrk, hkeys, hbytes⟩ :=
      hpages s key _ hle (by omega) hplace hkey
    exact ⟨s', e, hget, he, hwp, hbrk, hkeys, fun i hi hki => hbytes i hi (by omega)⟩
  have hclip : cint r.clipped = r.clipped := cint_eq (by unfold IsInt; omega)
  have hcount : r.count = r.clipped := by
    rw [clipped_eq] at hfile ⊢
    unfold CachedRead.count
    omega
  obtain ⟨⟨v, hv, hlast⟩, hreaches⟩ := readAt_run hpos hclip hfirst hsupplies s
  obtain ⟨hread, hbuf⟩ := hlast.last hpos
  refine ⟨⟨_, v, hv, hcount ▸ hread, fun j => ?_⟩, fun v hv => ?_⟩
  · rw [hbuf j, hcount]
    congr 2
    omega
  · obtain ⟨k, hk⟩ := hreaches v hv
    exact hk.bounds

/-- What a read of pages whose first 2^31 bytes are 0, and no others, tells. -/
theorem readFits_of_readsRight
    (h : ReadsRight r (fun i => if i < 2147483648 then 0 else 1)
      (pageStore fun i => if i < 2147483648 then 0 else 1) s) : ReadFits r := by
  obtain ⟨⟨fuel, v, hv, hread, hbuf⟩, hbounds⟩ := h
  obtain ⟨hleft, hturn⟩ := hbounds _ .refl
  have hmod := cint_eq_emod r.clipped
  change 0 ≤ cint r.clipped at hleft
  obtain ⟨b, hb⟩ := Int.eq_ofNat_of_zero_le hleft
  rcases Nat.eq_zero_or_pos b with rfl | hpos
  · -- the loop is over at once
    have hend : ¬ (r.start s).GoesOn := by
      change ¬ 0 < cint r.clipped
      omega
    rw [CachedRead.run, loop_of_not hend] at hv
    rw [← Except.ok.inj hv] at hread
    have hzero : (0 : Int) = r.count := hread
    left
    unfold CachedRead.count at hzero
    omega
  · right
    have hgo : (r.start s).GoesOn := by
      change 0 < cint r.clipped
      omega
    have hfirst : 1024 ≤ r.offset % 1024 + b := by
      obtain ⟨-, hpage, -, -⟩ := hturn hgo
      rw [start_bytesInPage, show (r.start s).bytesLeft = b from hb] at hpage
      omega
    -- all pages within reach of an `int` hold zeros
    have hsupplies : Supplies r b (fun _ _ => 0)
        (pageStore fun i => if i < 2147483648 then 0 else 1) := by
      intro s key k hle hk hkey
      obtain ⟨s', e, hget, he, hwp, hbrk, hkeys, hbytes⟩ := pageStore_spec _ s key
      refine ⟨s', e, hget, he, hwp, hbrk, hkeys, fun i hi _ => ?_⟩
      have hplace := cint_eq_emod (1024 * (r.offset / 1024 + k : Nat))
      rw [hbytes i hi, hkey,
        show (r.pageKey k).dataOffset = cint (1024 * (r.offset / 1024 + k : Nat)) from rfl]
      by_cases hneg : 0 ≤ cint (1024 * (r.offset / 1024 + k : Nat))
      · rw [if_pos hneg]
        exact if_pos (by omega)
      · exact if_neg hneg
    obtain ⟨⟨v', hv', hlast⟩, -⟩ := readAt_run hpos hb hfirst hsupplies s
    have hsame : v = v' := by
      have hmono := loop_mono hv (Nat.le_max_left fuel (r.turns b))
      have hmono' := loop_mono hv' (Nat.le_max_right fuel (r.turns b))
      exact Except.ok.inj (hmono.symm.trans hmono')
    subst hsame
    obtain ⟨hread', hbuf'⟩ := hlast.last hpos
    have hcount : r.count = b := by
      rw [hread'] at hread
      exact_mod_cast hread.symm
    -- so the last byte read is one of them
    have hzero : r.offset + (b - 1) < 2147483648 := by
      have hlast := hbuf (b - 1)
      rw [hbuf' (b - 1), if_pos (by omega), hcount, if_pos (by omega)] at hlast
      by_contra hbeyond
      rw [if_neg hbeyond] at hlast
      exact absurd hlast (by decide)
    rw [clipped_eq] at hmod hb ⊢
    unfold CachedRead.count at hcount
    omega

end

/-- **The page loop of `xmp_read`**, for every file size, offset and size, reads what it
    should of every file and from every `getPage` that returns the pages of it, if and
    only if the request fits. -/
theorem readsRight_iff (r : CachedRead) :
    (∀ content getPage s, GivesPages r content getPage → ReadsRight r content getPage s) ↔
      ReadFits r := by
  constructor
  · intro h
    exact readFits_of_readsRight (h _ _ default (givesPages_pageStore r _))
  · rintro (⟨hclip, hcount⟩ | ⟨hpos, hint, hfirst, hfile, hreach⟩) content getPage s hpages
    · exact readsRight_nothing hclip hcount
    · exact readsRight_whole hpages hpos hint hfirst hfile hreach

/-- Ten bytes of a file of 5000, from its start. -/
def tenBytes : CachedRead :=
  { file := 1, iSize := 5000, size := 10, offset := 0, buf := fun _ => 0 }

/-- The first turn copies the whole page. -/
theorem tenBytes_overrun :
    GivesPages tenBytes (fun _ => 0) (pageStore fun _ => 0) ∧
    ¬ ReadsRight tenBytes (fun _ => 0) (pageStore fun _ => 0) default := by
  refine ⟨givesPages_pageStore tenBytes fun _ => 0, fun hread => ?_⟩
  obtain ⟨-, hbounds⟩ := hread
  obtain ⟨-, hpage, -, -⟩ := (hbounds _ .refl).2 (show (0 : Int) < cint 10 by decide)
  exact absurd hpage (by decide)

end Cycology.PageCache
