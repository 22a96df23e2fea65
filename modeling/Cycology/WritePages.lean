import Cycology.PageOrder
import Cycology.PagedFs

/- What `xmp_write` leaves in the file.

   The call should do what one `pwrite` would. It goes through the pages it
   touches, and in turn `k` it copies the bytes that belong to page `k` into the
   cached page and writes that back; so after `k` turns the file is what a `pwrite`
   of the bytes copied so far makes of it (`Written`).

   Two cases are left out. When the bytes end where a page ends, the last page
   counts as one of 0 bytes, and its bytes are not copied. When they end at byte
   2147483647, the end of the last page is no `int`, and the page is written past
   the end of the file. Given the right pages from the cache, `xmp_write` does what
   it should in all other cases, and only in those (`writes_right_iff`). -/
namespace Cycology.PagedFs
open ByteMem Runs.Fallible

/-- `xmp_write` returns `size`, and the file is what one `pwrite` makes of it. -/
def WritesRight (c : LogSysCon) (f : File) (w : WriteCall) (fuel : Nat) : Prop :=
  ∃ c' f', xmpWrite c f w fuel = .ok (c', f', w.size) ∧
    f'.size = max f.size (w.offset + w.size) ∧
    ∀ i, f'.byte i =
      if w.offset ≤ i ∧ i < w.offset + w.size then w.buf (i - w.offset) else f.byte i

/-- The buffer that `cacheLoop` returns in the turn equals the page of the file. -/
def GivesPage (w : WriteCall) (f : File) (fuel : Nat) (s : WriteState) (k : Nat) : Prop :=
  s.returned = none → ∃ c p,
    cacheLoop s.con w.path s.file (cint (k + w.startPage)) (sizeInPages f) fuel = .ok (c, p) ∧
    c.pages p = s.file.slice ((cint (k + w.startPage)).toNat * PAGESIZE) PAGESIZE

/-- Every buffer that `cacheLoop` returns to the call equals the page of the file. -/
def GivesPages (c : LogSysCon) (f : File) (w : WriteCall) (fuel : Nat) : Prop :=
  EveryStep (writePage w f fuel) (GivesPage w f fuel) (w.start c f) (List.range w.numPages.toNat)

/-- Neither the file nor the bytes reach 2^31. -/
structure Fits (w : WriteCall) (f : File) : Prop where
  file : f.size < 2147483648
  fits : w.offset + w.size < 2147483648

/-- Something is written as well. -/
structure InRange (w : WriteCall) (f : File) : Prop extends Fits w f where
  nonempty : 0 < w.size

/-! ## The numbers of a turn -/

namespace WriteCall
variable (w : WriteCall) (f : File) (k : Nat)

/-- How many pages the bytes lie in. -/
def pages : Nat := (w.offset % 1023 + w.size + 1022) / 1023

/-- Where the page of turn `k` starts in the file. -/
def pageStart : Nat := (w.offset / 1023 + k) * 1023

/-- The bytes of turn `k` start and end here within the page. -/
def first : Nat := w.offset % 1023 - k * 1023

def last : Nat := if k + 1 = w.pages then (w.offset + w.size) % 1023 else 1023

/-- How much of the page is written back. -/
def toWrite : Nat :=
  if (max f.size (w.offset + w.size) : Nat) < cint (w.pageStart k + 1023 : Nat) then
    max f.size (w.offset + w.size) - w.pageStart k
  else 1023

variable {w f k}

theorem pages_pos (h : InRange w f) : 0 < w.pages := by
  have := h.nonempty
  unfold pages
  omega

theorem pageStart_lt (hk : k < w.pages) :
    w.pageStart k < w.offset + w.size := by
  unfold pages at hk
  unfold pageStart
  omega

/-- Of the pages the bytes lie in, only the one with byte 2147483646 ends at 2^31 or
    behind it. -/
theorem pageEnd_lt (h : Fits w f) (hk : k < w.pages)
    (hend : k + 1 = w.pages → w.offset + w.size ≠ 2147483647) :
    w.pageStart k + 1023 < 2147483648 := by
  have hfits := h.fits
  by_cases hk' : k + 1 = w.pages
  · have hlt := pageStart_lt hk
    have hle : w.offset + w.size < 2147483647 :=
      lt_of_le_of_ne (Nat.le_of_lt_succ hfits) (hend hk')
    unfold pageStart at hlt ⊢
    -- page 2099202 is the one that starts at byte 2147483646
    have hpage : w.offset / 1023 + k < 2099202 := by omega
    linarith
  · have hlt := pageStart_lt (show k + 1 < w.pages by omega)
    unfold pageStart at hlt ⊢
    linarith

theorem startPage_eq (h : Fits w f) : w.startPage = (w.offset / 1023 : Nat) := by
  have := h.fits
  unfold startPage PAGESIZE
  exact cint_eq ⟨by omega, by omega⟩

theorem numPages_eq (h : Fits w f) : w.numPages = w.pages := by
  have := h.fits
  have hword : word (w.offset % PAGESIZE + w.size + PAGESIZE - 1) =
      w.offset % 1023 + w.size + 1022 := by
    unfold word PAGESIZE
    omega
  unfold numPages
  rw [hword]
  unfold pages PAGESIZE
  exact cint_eq ⟨by omega, by omega⟩

theorem finalFileSize_eq (h : Fits w f) :
    w.finalFileSize f = (max f.size (w.offset + w.size) : Nat) := by
  have hfits := h.fits
  have hfile := h.file
  have hsize : cint f.size = f.size := cint_eq ⟨by omega, by omega⟩
  have hword : word (cint f.size) = f.size := by
    rw [hsize]
    unfold word
    omega
  have hend : word (w.offset + w.size) = w.offset + w.size := by
    unfold word
    omega
  unfold finalFileSize
  dsimp only
  rw [hword, hend, hsize]
  split
  · rw [max_eq_right (by omega), cint_eq ⟨by omega, by omega⟩]
  · rw [max_eq_left (by omega)]

theorem pageNum_eq (h : Fits w f) (hk : k < w.pages) :
    cint (k + w.startPage) = (w.offset / 1023 + k : Nat) := by
  have hlt := pageStart_lt hk
  have := h.fits
  unfold pageStart at hlt
  rw [startPage_eq h, cint_eq ⟨by omega, by omega⟩]
  omega

theorem pagePos_eq (h : Fits w f) (hk : k < w.pages) :
    cint ((w.offset / 1023 + k : Nat) * PAGESIZE) = w.pageStart k := by
  have hlt := pageStart_lt hk
  have := h.fits
  unfold pageStart at hlt
  unfold pageStart PAGESIZE
  rw [cint_eq ⟨by omega, by omega⟩]
  omega

theorem endWithinPage_eq (h : Fits w f) :
    (if (k : Int) = w.numPages - 1 then ((word (w.offset + w.size) % PAGESIZE : Nat) : Int)
      else PAGESIZE) = w.last k := by
  have hword : word (w.offset + w.size) = w.offset + w.size := by
    have := h.fits
    unfold word
    omega
  rw [numPages_eq h, hword]
  unfold last PAGESIZE
  by_cases hk : k + 1 = w.pages
  · rw [if_pos hk, if_pos (by omega)]
  · rw [if_neg hk, if_neg (by omega)]

theorem toWrite_eq (h : Fits w f) (hk : k < w.pages) :
    (if w.finalFileSize f < cint (((w.offset / 1023 + k : Nat) + 1) * PAGESIZE) then
      cint (w.finalFileSize f - w.pageStart k) else PAGESIZE) = w.toWrite f k := by
  have hlt := pageStart_lt hk
  have hfile := h.file
  have hfits := h.fits
  have hend : ((w.offset / 1023 + k : Nat) + 1) * (PAGESIZE : Int) =
      (w.pageStart k + 1023 : Nat) := by
    unfold pageStart PAGESIZE
    omega
  rw [finalFileSize_eq h, hend]
  unfold toWrite PAGESIZE
  split
  · rw [cint_eq ⟨by omega, by omega⟩]
    omega
  · rfl

theorem toWrite_le (h : Fits w f) (hk : k < w.pages) : w.toWrite f k ≤ 1023 := by
  have hlt := pageStart_lt hk
  have hfile := h.file
  have hfits := h.fits
  unfold toWrite
  split
  · rename_i hlast
    by_cases hint : w.pageStart k + 1023 < 2147483648
    · rw [cint_eq ⟨by omega, by omega⟩] at hlast
      omega
    · -- the end of the page is no `int`, and wraps around to a negative one
      have hneg : cint (w.pageStart k + 1023 : Nat) < 0 := by
        unfold cint
        dsimp only
        split <;> omega
      omega
  · exact le_refl _

/-- When the page ends below 2^31, it is written as far as the file then goes. -/
theorem toWrite_eq_min (hend : w.pageStart k + 1023 < 2147483648) :
    w.toWrite f k = min 1023 (max f.size (w.offset + w.size) - w.pageStart k) := by
  unfold toWrite
  rw [cint_eq ⟨by omega, by omega⟩]
  split <;> omega

theorem last_le_toWrite (hk : k < w.pages) (hend : w.pageStart k + 1023 < 2147483648) :
    w.last k ≤ w.toWrite f k := by
  rw [toWrite_eq_min hend]
  clear hend
  unfold last pageStart
  unfold pages at hk ⊢
  split <;> omega

end WriteCall

section
variable {w : WriteCall} {f : File} {k fuel : Nat} {s : WriteState} {c : LogSysCon} {p : Ptr}

/-- The cached page with the bytes of turn `k` in it. -/
def filled (w : WriteCall) (k moved : Nat) (page : Buf PAGESIZE) : Buf PAGESIZE :=
  page.blit (w.first k) (w.last k - w.first k) fun i => w.buf (moved + i)

theorem writePage_eq (h : Fits w f) (hk : k < w.pages) (hret : s.returned = none)
    (hstart : s.startWithinPage = w.first k)
    (hcall : cacheLoop s.con w.path s.file (cint (k + w.startPage)) (sizeInPages f) fuel =
      .ok (c, p)) :
    writePage w f fuel s k =
      if w.last k < w.first k then .error .memory
      else .ok
        { con := { c with pages := update c.pages p (filled w k s.moved (c.pages p)) }
          file := s.file.pwrite (w.pageStart k) (w.toWrite f k)
            (filled w k s.moved (c.pages p)).byte
          startWithinPage := 0
          moved := s.moved + (w.last k - w.first k)
          res := cint (s.res + (w.last k - w.first k : Nat))
          returned := none } := by
  have hpos := WriteCall.pagePos_eq h hk
  have htw := WriteCall.toWrite_eq h hk
  rw [WriteCall.pageNum_eq h hk] at hcall
  unfold writePage
  rw [hret, if_neg (by simp)]
  dsimp only
  rw [WriteCall.endWithinPage_eq h, WriteCall.pageNum_eq h hk, hcall, hpos, htw, hstart]
  simp only [ok_bind, memcpyIn]
  by_cases hlt : w.last k < w.first k
  · rw [if_pos hlt, if_pos (by omega)]
    rfl
  · rw [if_neg hlt, if_neg (by omega)]
    have hmove : (w.last k : Int) - w.first k = (w.last k - w.first k : Nat) := by omega
    simp only [ok_bind, Int.toNat_natCast, hmove, update_same, pwritePage_nat, ne_eq,
      not_true_eq_false, if_false]
    rfl

/-! ## The turns together -/

/-- After `k` turns. -/
structure Written (w : WriteCall) (f : File) (k : Nat) (s : WriteState) : Prop where
  file : s.file = f.pwrite w.offset s.moved w.buf
  start : s.startWithinPage = w.first k
  moved : s.moved = min w.size (k * 1023 - w.offset % 1023)
  res : s.res = s.moved
  returned : s.returned = none

/-- The bytes end within a page, and that page ends below 2^31. -/
def EndsInside (w : WriteCall) : Prop :=
  (w.offset + w.size) % 1023 ≠ 0 ∧ w.offset + w.size ≠ 2147483647

instance (w : WriteCall) : Decidable (EndsInside w) := inferInstanceAs (Decidable (_ ∧ _))

theorem Written.zero (w : WriteCall) (f : File) (c : LogSysCon) : Written w f 0 (w.start c f) where
  file := (File.pwrite_zero _ _ _).symm
  start := by
    unfold WriteCall.start WriteCall.first PAGESIZE
    rw [Nat.zero_mul, Nat.sub_zero]
  moved := by
    rw [Nat.zero_mul, Nat.zero_sub, Nat.min_zero]
    rfl
  res := rfl
  returned := rfl

theorem Written.bytes (h : InRange w f) (hk : k < w.pages) (hs : Written w f k s)
    (hend : k + 1 = w.pages → EndsInside w) :
    w.pageStart k + w.first k = w.offset + s.moved ∧ w.first k < w.last k ∧ w.last k ≤ 1023 ∧
      s.moved + (w.last k - w.first k) = min w.size ((k + 1) * 1023 - w.offset % 1023) ∧
      w.pageStart k + w.toWrite f k ≤ max s.file.size (w.pageStart k + w.last k) := by
  have hne := h.nonempty
  have hfits := h.fits
  have hfile := h.file
  have hmoved := hs.moved
  have hsize : s.file.size = if s.moved = 0 then f.size else max f.size (w.offset + s.moved) := by
    rw [hs.file]
    rfl
  have hlast := WriteCall.pageEnd_lt h.toFits hk fun hk' => (hend hk').2
  have hwrite := WriteCall.toWrite_eq_min (f := f) hlast
  rw [hwrite, hsize]
  by_cases hk' : k + 1 = w.pages
  · have hin := (hend hk').1
    unfold WriteCall.last
    rw [if_pos hk']
    unfold WriteCall.pageStart WriteCall.first
    unfold WriteCall.pages at hk'
    clear hsize hwrite hlast hk hend
    refine ⟨?_, ?_, ?_, ?_, ?_⟩
    · omega
    · omega
    · omega
    · omega
    · split <;> omega
  · unfold WriteCall.last
    rw [if_neg hk']
    unfold WriteCall.pageStart WriteCall.first
    unfold WriteCall.pages at hk hk'
    clear hsize hwrite hlast hend
    refine ⟨?_, ?_, ?_, ?_, ?_⟩
    · omega
    · omega
    · omega
    · omega
    · split <;> omega

theorem Written.turn (h : InRange w f) (hk : k < w.pages) (hs : Written w f k s)
    (hgives : GivesPage w f fuel s k) (hend : k + 1 = w.pages → EndsInside w) :
    ∃ s', writePage w f fuel s k = .ok s' ∧ Written w f (k + 1) s' := by
  obtain ⟨c, p, hcall, hpage⟩ := hgives hs.returned
  rw [WriteCall.pageNum_eq h.toFits hk, Int.toNat_natCast] at hpage
  obtain ⟨hpos, hlt, hlast, hmoved, hback⟩ := hs.bytes h hk hend
  have hin := WriteCall.last_le_toWrite (f := f) hk
    (WriteCall.pageEnd_lt h.toFits hk fun hk' => (hend hk').2)
  have hfits := h.fits
  have hle := WriteCall.toWrite_le h.toFits hk
  rw [writePage_eq h.toFits hk hs.returned hs.start hcall, if_neg (by omega)]
  refine ⟨_, rfl, ?_, ?_, hmoved, ?_, rfl⟩
  · dsimp only
    have hfilled : filled w k s.moved (c.pages p) =
        (s.file.slice (w.pageStart k) 1023).blit (w.first k) (w.last k - w.first k)
          fun i => w.buf (s.moved + i) := congrArg (filled w k s.moved) hpage
    rw [hfilled, File.pwrite_back s.file _ (by omega) hle (by omega), hpos, hs.file,
      File.pwrite_pwrite]
    rw [show w.pageStart k + w.first k + (w.last k - w.first k) = w.pageStart k + w.last k by omega]
    exact hback
  · -- only the first page starts within a page
    show (0 : Int) = _
    unfold WriteCall.first
    omega
  · dsimp only
    have hmin := min_le_left w.size ((k + 1) * 1023 - w.offset % 1023)
    rw [hs.res, cint_eq ⟨by omega, by omega⟩]
    omega

theorem written_run (h : InRange w f) {n : Nat} (hn : n ≤ w.pages)
    (hgives : EveryStep (writePage w f fuel) (GivesPage w f fuel) (w.start c f) (List.range n))
    (hend : n = w.pages → EndsInside w) :
    ∃ s, outcome (writePage w f fuel) (w.start c f) (List.range n) = .ok s ∧ Written w f n s := by
  induction n with
  | zero => exact ⟨_, rfl, Written.zero w f c⟩
  | succ n ih =>
    rw [List.range_succ] at hgives ⊢
    obtain ⟨hfirst, hlast⟩ := hgives.append
    obtain ⟨s, hrun, hs⟩ := ih (Nat.le_of_succ_le hn) hfirst fun heq => absurd heq (by omega)
    obtain ⟨s', hturn, hs'⟩ := hs.turn h hn (hlast s hrun).1 hend
    refine ⟨s', ?_, hs'⟩
    rw [outcome_append, hrun, ok_bind]
    exact outcome_cons_eq_ok.mpr ⟨s', hturn, rfl⟩

theorem writesRight_of_endsInside (h : InRange w f) (hgives : GivesPages c f w fuel)
    (hend : EndsInside w) : WritesRight c f w fuel := by
  unfold GivesPages at hgives
  rw [WriteCall.numPages_eq h.toFits, Int.toNat_natCast] at hgives
  obtain ⟨s, hrun, hs⟩ := written_run h (le_refl _) hgives fun _ => hend
  have hall : s.moved = w.size := by
    rw [hs.moved]
    unfold WriteCall.pages
    omega
  have hfile := hs.file
  rw [hall] at hfile
  refine ⟨s.con, s.file, ?_, ?_, fun i => ?_⟩
  · unfold xmpWrite
    rw [WriteCall.numPages_eq h.toFits, Int.toNat_natCast, hrun, ok_bind, hs.returned, hs.res, hall]
    rfl
  · rw [hfile, File.size_pwrite _ _ _ h.nonempty]
  · rw [hfile, File.byte_pwrite]

/-- The last turn, in the two cases that go wrong. -/
theorem not_writesRight (h : InRange w f) (hgives : GivesPages c f w fuel)
    (hend : ¬ EndsInside w) : ¬ WritesRight c f w fuel := by
  rintro ⟨c', f', hcall, hsize, -⟩
  have hfits := h.fits
  have hnonempty := h.nonempty
  obtain ⟨n, hn⟩ := Nat.exists_eq_succ_of_ne_zero (Nat.ne_of_gt (WriteCall.pages_pos h))
  have hk : n < w.pages := by omega
  unfold GivesPages at hgives
  rw [WriteCall.numPages_eq h.toFits, Int.toNat_natCast, hn, List.range_succ] at hgives
  obtain ⟨hbefore, hlast⟩ := hgives.append
  obtain ⟨s, hrun, hs⟩ := written_run h (Nat.le_of_lt hk) hbefore fun heq => absurd heq (by omega)
  obtain ⟨d, p, hpage, -⟩ := (hlast s hrun).1 hs.returned
  have hturn := writePage_eq h.toFits hk hs.returned hs.start hpage
  unfold xmpWrite at hcall
  rw [WriteCall.numPages_eq h.toFits, Int.toNat_natCast, hn, List.range_succ, outcome_append, hrun,
    ok_bind, outcome, hturn] at hcall
  by_cases hlt : w.last n < w.first n
  · rw [if_pos hlt] at hcall
    cases hcall
  · rw [if_neg hlt] at hcall
    simp only [ok_bind, outcome, Option.getD_none, Except.ok.injEq, Prod.mk.injEq] at hcall
    obtain ⟨-, hfile, hres⟩ := hcall
    have hmoved := hs.moved
    by_cases halign : (w.offset + w.size) % 1023 = 0
    · -- the bytes of the last page are not counted
      have hzero : w.last n = 0 := by
        unfold WriteCall.last
        rw [if_pos hn.symm, halign]
      rw [hzero, Nat.zero_sub, hs.res, cint_eq ⟨by omega, by omega⟩] at hres
      unfold WriteCall.pages at hn
      omega
    · -- the last page is written whole
      have hmax : w.offset + w.size = 2147483647 := by
        by_contra hne
        exact hend ⟨halign, hne⟩
      have hlast' : w.pageStart n = 2147483646 := by
        unfold WriteCall.pages at hn
        unfold WriteCall.pageStart
        omega
      have hwrite : w.toWrite f n = 1023 := by
        have hneg : cint ((2147483646 + 1023 : Nat) : Int) = -2147482627 := by decide
        unfold WriteCall.toWrite
        rw [hlast', hneg, if_neg (by omega)]
      have hle := File.size_pwrite s.file (w.pageStart n)
        (filled w n s.moved (d.pages p)).byte (show 0 < w.toWrite f n by omega)
      have hfile' := h.file
      rw [hfile, hsize, hmax, hlast', hwrite] at hle
      omega

end

/-- Given the right pages from the cache, `xmp_write` returns `size` and leaves in
    the file what one `pwrite` would, exactly if the bytes end within a page and not
    at byte 2147483647. -/
theorem writes_right_iff {w : WriteCall} {f : File} {c : LogSysCon} {fuel : Nat}
    (h : InRange w f) (hgives : GivesPages c f w fuel) :
    WritesRight c f w fuel ↔ EndsInside w := by
  constructor
  · intro hright
    by_contra hend
    exact not_writesRight h hgives hend hright
  · exact writesRight_of_endsInside h hgives

/-- A write of `n` bytes at the start of a file. -/
def writeStart (n : Nat) : WriteCall :=
  { path := "/a", buf := fun i => UInt8.ofNat i, size := n, offset := 0 }

theorem inRange_writeStart {n : Nat} (h0 : 0 < n) (hn : n < 2147483648) :
    InRange (writeStart n) File.empty where
  file := Nat.zero_lt_succ _
  nonempty := h0
  fits := by
    show 0 + n < 2147483648
    omega

/-- After `k` turns of a write to an empty file with an empty cache, the pages before
    page `k` are cached. -/
def CachedBefore (k : Nat) (c : LogSysCon) : Prop :=
  ∃ tail l, Listed c tail l ∧ l.length = k ∧ ∀ p ∈ l, (c.nodes p).key.2 < k

section
variable {n k m fuel : Nat} {s : WriteState}

theorem CachedBefore.givesPage (hin : InRange (writeStart n) File.empty)
    (hk : k < (writeStart n).pages) (hw : Written (writeStart n) File.empty k s)
    (hc : CachedBefore k s.con) (hfuel : k < fuel) :
    ∃ c p, cacheLoop s.con (writeStart n).path s.file (cint (k + (writeStart n).startPage))
        (sizeInPages File.empty) fuel = .ok (c, p) ∧ CachedBefore (k + 1) c ∧
      c.pages p = s.file.slice ((cint (k + (writeStart n).startPage)).toNat * PAGESIZE) PAGESIZE := by
  obtain ⟨tail, l, hl, hlen, hbelow⟩ := hc
  have hnum : (writeStart n).offset / 1023 + k = k := by
    show 0 / 1023 + k = k
    omega
  rw [WriteCall.pageNum_eq hin.toFits hk, hnum, Int.toNat_natCast,
    show sizeInPages File.empty = 0 by decide]
  have hmiss : ("/a", (k : Int)) ∉ l.map fun p => (s.con.nodes p).key := by
    intro hmem
    obtain ⟨p, hp, hkey⟩ := List.mem_map.mp hmem
    have hlt := hbelow p hp
    rw [hkey] at hlt
    exact absurd hlt (lt_irrefl _)
  obtain ⟨⟨c, p⟩, hread⟩ : ∃ x, readPage s.con "/a" s.file (k : Int) 0 = x := ⟨_, rfl⟩
  have hcall := cacheLoop_missing (f := s.file) (m := 0) hl hmiss (hlen ▸ hfuel)
  obtain ⟨hp, -, -, hfill, hcontent, -⟩ := readPage_spec hread
  obtain ⟨tail', hl'⟩ := hl.readPage hmiss hread
  refine ⟨c, p, hcall.trans (congrArg Except.ok hread), ⟨tail', _, hl', ?_, fun q hq => ?_⟩, ?_⟩
  · rw [List.length_cons, hlen]
  · have hkey := congrArg (fun x => x.1.2) (hcontent q)
    rcases List.mem_cons.mp hq with rfl | hq
    · rw [if_pos rfl] at hkey
      exact lt_of_eq_of_lt hkey (Int.lt_succ k)
    · have hne : q ≠ s.con.brk + 2 := Nat.ne_of_lt (Nat.lt_of_le_of_lt (hl.fresh q hq) (by omega))
      rw [if_neg hne] at hkey
      exact lt_of_eq_of_lt hkey (lt_trans (hbelow q hq) (by omega))
  · -- the file ends before the page, so that both are zero
    rw [hfill, hp, update_same]
    refine Buf.ext_lt fun i hi => ?_
    have hmoved := hw.moved
    have hstart : (writeStart n).offset = 0 := rfl
    have hpast : ¬ ((writeStart n).offset ≤ k * PAGESIZE + i ∧
        k * PAGESIZE + i < (writeStart n).offset + s.moved) := by
      unfold PAGESIZE
      omega
    rw [File.byte_slice _ _ hi, hw.file, File.byte_pwrite, if_neg hpast, fillBuffer,
      if_pos (Int.natCast_nonneg k)]
    exact Buf.byte_zero i

theorem givesPages_from (hin : InRange (writeStart n) File.empty)
    (hm : k + m ≤ (writeStart n).pages) (hw : Written (writeStart n) File.empty k s)
    (hc : CachedBefore k s.con) (hfuel : k + m ≤ fuel) :
    EveryStep (writePage (writeStart n) File.empty fuel) (GivesPage (writeStart n) File.empty fuel)
      s (List.range' k m) := by
  induction m generalizing k s with
  | zero => exact trivial
  | succ m ih =>
    obtain ⟨c, p, hcall, hc', hpage⟩ := hc.givesPage hin (by omega) hw (show k < fuel by omega)
    refine ⟨fun _ => ⟨c, p, hcall, hpage⟩, fun s' hs' => ?_⟩
    cases m with
    | zero => exact trivial
    | succ m =>
      obtain ⟨s'', hturn, hw'⟩ := hw.turn hin (show k < (writeStart n).pages by omega)
        (fun _ => ⟨c, p, hcall, hpage⟩) fun hlast => absurd hlast (by omega)
      obtain rfl := Except.ok.inj (hturn.symm.trans hs')
      refine ih (by omega) hw' ?_ (by omega)
      rw [writePage_eq hin.toFits (by omega) hw.returned hw.start hcall] at hs'
      split at hs'
      · cases hs'
      · cases hs'
        obtain ⟨tail, l, hl, hrest⟩ := hc'
        exact ⟨tail, l, ⟨hl.links, hl.keys, hl.fresh⟩, hrest⟩

theorem givesPages_writeStart (hin : InRange (writeStart n) File.empty)
    (hfuel : (writeStart n).pages ≤ fuel) :
    GivesPages default File.empty (writeStart n) fuel := by
  unfold GivesPages
  rw [WriteCall.numPages_eq hin.toFits, Int.toNat_natCast, List.range_eq_range']
  refine givesPages_from hin (by omega) (Written.zero _ _ _) ⟨0, [], ?_, rfl, ?_⟩ (by omega)
  · exact ⟨⟨rfl, rfl⟩, List.nodup_nil, fun _ hp => by cases hp⟩
  · exact fun _ hp => by cases hp

end

/-- A write over two pages. -/
theorem writes_right_two_pages : WritesRight default File.empty (writeStart 1500) 2 :=
  (writes_right_iff (inRange_writeStart (by omega) (by omega))
    (givesPages_writeStart (inRange_writeStart (by omega) (by omega)) (by decide))).mpr (by decide)

/-- A whole page, written to an empty file. -/
theorem writes_wrong_page :
    InRange (writeStart 1023) File.empty ∧ GivesPages default File.empty (writeStart 1023) 2 ∧
      ¬ WritesRight default File.empty (writeStart 1023) 2 := by
  have hin := inRange_writeStart (show 0 < 1023 by omega) (by omega)
  have hgives : GivesPages default File.empty (writeStart 1023) 2 :=
    givesPages_writeStart hin (by decide)
  exact ⟨hin, hgives, not_writesRight hin hgives (by decide)⟩

end Cycology.PagedFs
