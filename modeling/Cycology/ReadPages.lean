import Cycology.PagedFs

/- What `xmp_read` copies.

   The call goes through the pages that hold the bytes, and in turn `k` it copies
   those of page `k` out of the cached page; so after `k` turns the caller has the
   first bytes of what is asked for, as far as page `k` (`Copied`). Given the right
   pages from the cache, all the bytes there are have been copied at the end. -/
namespace Cycology.PagedFs
open ByteMem Runs.Fallible

namespace ReadCall

/-- How many of the bytes the file has. -/
def span (r : ReadCall) (f : File) : Nat := min r.size (f.size - r.offset)

/-- How many pages they lie in. -/
def pages (r : ReadCall) (f : File) : Nat := (r.offset % 1023 + r.span f + 1022) / 1023

/-- The bytes of turn `k` start here within the page, and there are so many. -/
def first (r : ReadCall) (k : Nat) : Nat := r.offset % 1023 - k * 1023

def count (r : ReadCall) (f : File) (k : Nat) : Nat :=
  min 1023 (r.offset % 1023 + r.span f - k * 1023) - r.first k

end ReadCall

/-- `xmp_read` returns how many of the bytes the file has, and copies these. -/
def ReadsRight (c : LogSysCon) (f : File) (r : ReadCall) (fuel : Nat) : Prop :=
  ∃ c' buf, xmpRead c f r fuel = .ok (c', buf, r.span f) ∧
    ∀ j, buf j = if j < r.span f then f.byte (r.offset + j) else r.buf j

/-- The bytes start within the file, whose size is an `int`, and where they end is a
    `size_t`. -/
structure ReadCall.InFile (r : ReadCall) (f : File) : Prop where
  file : f.size < 2147483648
  word : r.offset + r.size < 18446744073709551616
  start : r.offset ≤ f.size

section
variable {r : ReadCall} {f : File} {k fuel : Nat} {s : ReadState} {c : LogSysCon} {p : Ptr}

/-! ## The numbers of a turn -/

theorem ReadCall.size_eq (h : r.InFile f) :
    (if word (cint f.size) < word (r.offset + r.size) then (cint f.size).toNat - r.offset
      else r.size) = r.span f := by
  have hfile := h.file
  have hword := h.word
  have hstart := h.start
  have hsize : cint f.size = f.size := cint_eq ⟨by omega, by omega⟩
  have hw : word (f.size : Int) = f.size := by
    unfold PagedFs.word
    omega
  have hw' : word ((r.offset : Int) + r.size) = r.offset + r.size := by
    unfold PagedFs.word
    omega
  rw [hsize, hw, hw', Int.toNat_natCast]
  unfold ReadCall.span
  split <;> omega

theorem ReadCall.numPages_eq (h : r.InFile f) :
    cint (word (r.offset % PAGESIZE + PAGESIZE + r.span f - 1) / PAGESIZE : Nat) = r.pages f := by
  have hfile := h.file
  have hspan : r.span f ≤ f.size - r.offset := min_le_right _ _
  have hw : word (r.offset % PAGESIZE + PAGESIZE + r.span f - 1) =
      r.offset % 1023 + r.span f + 1022 := by
    unfold PagedFs.word PAGESIZE
    omega
  rw [hw]
  unfold ReadCall.pages PAGESIZE
  exact cint_eq ⟨by omega, by omega⟩

theorem ReadCall.pageNum_eq (h : r.InFile f) (hk : k < r.pages f) :
    cint (cint (r.offset / PAGESIZE : Nat) + k) = (r.offset / 1023 + k : Nat) := by
  have hfile := h.file
  have hstart := h.start
  have hspan : r.span f ≤ f.size - r.offset := min_le_right _ _
  unfold ReadCall.pages at hk
  unfold PAGESIZE
  have hpage : cint (r.offset / 1023 : Nat) = (r.offset / 1023 : Nat) := cint_eq ⟨by omega, by omega⟩
  rw [hpage, cint_eq ⟨by omega, by omega⟩]
  omega

theorem ReadCall.bounds_eq (h : r.InFile f) (hk : k < r.pages f) :
    (if (r.pages f : Int) = 1 then (((r.offset % PAGESIZE : Nat) : Int), cint (r.span f))
      else if k = 0 then
        (((r.offset % PAGESIZE : Nat) : Int), PAGESIZE - ((r.offset % PAGESIZE : Nat) : Int))
      else if (k : Int) = r.pages f - 1 ∧ ((word (r.span f + r.offset) % PAGESIZE : Nat) : Int) ≠ 0
        then (0, ((word (r.span f + r.offset) % PAGESIZE : Nat) : Int))
      else (0, (PAGESIZE : Int))) = ((r.first k : Int), (r.count f k : Int)) := by
  have hfile := h.file
  have hstart := h.start
  have hspan : r.span f ≤ f.size - r.offset := min_le_right _ _
  have hw : word (r.span f + r.offset) = r.span f + r.offset := by
    unfold PagedFs.word
    omega
  rw [hw]
  unfold ReadCall.count ReadCall.first PAGESIZE
  unfold ReadCall.pages at hk ⊢
  split
  · rw [cint_eq ⟨by omega, by omega⟩, Prod.mk.injEq]
    omega
  · split
    · rw [Prod.mk.injEq]
      omega
    · split
      · rw [Prod.mk.injEq]
        omega
      · rw [Prod.mk.injEq]
        omega

theorem readTurn_eq (h : r.InFile f) (hk : k < r.pages f)
    (hcall : cacheLoop s.con r.path f (r.offset / 1023 + k : Nat) (sizeInPages f) fuel =
      .ok (c, p)) :
    readTurn r f (r.span f) fuel s k = .ok
      { con := c
        buf := fun j =>
          if s.copied ≤ j ∧ j < s.copied + r.count f k then
            (c.pages p).byte (r.first k + (j - s.copied))
          else s.buf j
        copied := s.copied + r.count f k
        res := cint (s.res + r.count f k) } := by
  unfold readTurn
  dsimp only
  rw [ReadCall.numPages_eq h, ReadCall.bounds_eq h hk, ReadCall.pageNum_eq h hk, hcall]
  simp only [ok_bind, Int.toNat_natCast]
  rw [if_neg (by omega)]

/-! ## The turns together -/

/-- After `k` turns. -/
structure Copied (r : ReadCall) (f : File) (k : Nat) (s : ReadState) : Prop where
  copied : s.copied = min (r.span f) (k * 1023 - r.offset % 1023)
  res : s.res = s.copied
  buf : ∀ j, s.buf j = if j < s.copied then f.byte (r.offset + j) else r.buf j

/-- The variables before the loop. -/
def ReadCall.begin (r : ReadCall) (c : LogSysCon) : ReadState where
  con := c
  buf := r.buf
  copied := 0
  res := 0

theorem Copied.zero (r : ReadCall) (f : File) (c : LogSysCon) : Copied r f 0 (r.begin c) where
  copied := by
    rw [Nat.zero_mul, Nat.zero_sub, Nat.min_zero]
    rfl
  res := rfl
  buf _ := (if_neg (Nat.not_lt_zero _)).symm

theorem Copied.bytes (hk : k < r.pages f) (hs : Copied r f k s) :
    (r.offset / 1023 + k) * 1023 + r.first k = r.offset + s.copied ∧
      r.first k + r.count f k ≤ 1023 ∧
      s.copied + r.count f k = min (r.span f) ((k + 1) * 1023 - r.offset % 1023) := by
  have hcopied := hs.copied
  unfold ReadCall.pages at hk
  unfold ReadCall.count ReadCall.first
  refine ⟨?_, ?_, ?_⟩
  · omega
  · omega
  · omega

theorem Copied.turn_of_bytes (h : r.InFile f) (hk : k < r.pages f) (hs : Copied r f k s)
    (hcall : cacheLoop s.con r.path f (r.offset / 1023 + k : Nat) (sizeInPages f) fuel = .ok (c, p))
    (hbytes : ∀ i, i < 1023 → (r.offset / 1023 + k) * 1023 + i < f.size →
      (c.pages p).byte i = f.byte ((r.offset / 1023 + k) * 1023 + i)) :
    ∃ s', readTurn r f (r.span f) fuel s k = .ok s' ∧ s'.con = c ∧ Copied r f (k + 1) s' := by
  obtain ⟨hpos, hin, hcopied⟩ := hs.bytes hk
  have hfile := h.file
  have hstart := h.start
  have hspan : r.span f ≤ f.size - r.offset := min_le_right _ _
  have hmin := min_le_left (r.span f) ((k + 1) * 1023 - r.offset % 1023)
  refine ⟨_, readTurn_eq h hk hcall, rfl, hcopied, ?_, fun j => ?_⟩
  · dsimp only
    rw [hs.res, cint_eq ⟨by omega, by omega⟩, Nat.cast_add]
  · dsimp only
    -- a byte of this turn, one copied before, or one not reached yet
    by_cases hj : s.copied ≤ j ∧ j < s.copied + r.count f k
    · have heq : (r.offset / 1023 + k) * 1023 + (r.first k + (j - s.copied)) = r.offset + j := by
        omega
      have hbyte := hbytes (r.first k + (j - s.copied)) (by omega) (by omega)
      rw [heq] at hbyte
      rw [if_pos hj, if_pos hj.2, hbyte]
    · rw [if_neg hj, hs.buf]
      by_cases hj' : j < s.copied
      · rw [if_pos hj', if_pos (by omega)]
      · rw [if_neg hj', if_neg (by omega)]

theorem Copied.turn (h : r.InFile f) (hk : k < r.pages f) (hs : Copied r f k s)
    (hcall : cacheLoop s.con r.path f (r.offset / 1023 + k : Nat) (sizeInPages f) fuel = .ok (c, p))
    (hpage : c.pages p = f.slice ((r.offset / 1023 + k) * 1023) 1023) :
    ∃ s', readTurn r f (r.span f) fuel s k = .ok s' ∧ s'.con = c ∧ Copied r f (k + 1) s' := by
  refine hs.turn_of_bytes h hk hcall fun i hi _ => ?_
  have hbyte := File.byte_slice f ((r.offset / 1023 + k) * 1023) hi
  rw [← hbyte]
  exact congrArg (fun b => Buf.byte b i) hpage

theorem readsRight_of_copied (h : r.InFile f)
    (hrun : outcome (readTurn r f (r.span f) fuel) (r.begin c) (List.range (r.pages f)) = .ok s)
    (hs : Copied r f (r.pages f) s) :
    ∃ buf, xmpRead c f r fuel = .ok (s.con, buf, r.span f) ∧
      ∀ j, buf j = if j < r.span f then f.byte (r.offset + j) else r.buf j := by
  -- the last page ends behind the last byte
  have hall : s.copied = r.span f := by
    rw [hs.copied]
    unfold ReadCall.pages
    omega
  have hstart : ¬ cint f.size < r.offset := by
    have hfile := h.file
    have hstart := h.start
    rw [cint_eq ⟨by omega, by omega⟩]
    omega
  refine ⟨s.buf, ?_, fun j => ?_⟩
  · unfold xmpRead
    rw [if_neg hstart]
    dsimp only
    rw [ReadCall.size_eq h, ReadCall.numPages_eq h, Int.toNat_natCast]
    rw [show (⟨c, r.buf, 0, 0⟩ : ReadState) = r.begin c from rfl, hrun, ok_bind, hs.res, hall]
  · rw [hs.buf, hall]

theorem xmpRead_behind (hfile : f.size < 2147483648) (hstart : f.size < r.offset) :
    xmpRead c f r fuel = .ok (c, r.buf, r.span f) ∧ r.span f = 0 := by
  have hspan : r.span f = 0 := by
    unfold ReadCall.span
    omega
  refine ⟨?_, hspan⟩
  unfold xmpRead
  rw [if_pos, hspan]
  · rfl
  · rw [cint_eq ⟨by omega, by omega⟩]
    omega

end

end Cycology.PagedFs
