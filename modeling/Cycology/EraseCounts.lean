import Cycology.AddressChecks

/- The erase counts of the virtual NAND over runs of calls.

   A run carries with it how often each block has been erased. `eraseNAND(b)`
   is to answer with one more than the count in the block's trailer and to leave
   that number there, so that the trailers always hold the numbers of erasures.
   It looks for the count `4 * b` bytes too early, so a run keeps its counts
   exactly as long as each erasure happens to find the count in that place:
   always for block 0, and for block 1 only where the write pointer it finds
   instead is as large as the count. -/
namespace Cycology
open ByteMem Nand Runs

/-- A device and the number of times each of its blocks has been erased. -/
structure ErasedNand where
  nand : Nand
  erased : Nat → Nat

/-- The call erases block `b`. -/
def NandCall.Erases (b : Nat) : NandCall → Prop
  | .read _ _ => False
  | .write _ _ _ => False
  | .erase k => k = b

instance (b : Nat) (c : NandCall) : Decidable (c.Erases b) :=
  match c with
  | .read _ _ => isFalse id
  | .write _ _ _ => isFalse id
  | .erase k => inferInstanceAs (Decidable (k = b))

/-- One call, counted. -/
def ErasedNand.call (s : ErasedNand) (c : NandCall) : ErasedNand where
  nand := c.run s.nand
  erased b := if c.Erases b then s.erased b + 1 else s.erased b

/-- The address of the call. -/
def NandCall.addr : NandCall → Int
  | .read _ k => k
  | .write _ k _ => k
  | .erase k => k

/-- The address is from 0 on, or the call leaves the file alone: a read does, and so
    does what the device refuses. -/
def AddressKept (s : ErasedNand) (c : NandCall) : Prop :=
  0 ≤ c.addr ∨ (c.run s.nand).file = s.nand.file

/-- An erasure of a block of the device answers with one more than the stored
    count and stores that. -/
def Counted (n : Nat) (s : ErasedNand) (c : NandCall) : Prop :=
  ∀ b < n, c.Erases b →
    (eraseNAND s.nand b).2 = s.nand.eraseCount b + 1 ∧
    (c.run s.nand).eraseCount b = s.nand.eraseCount b + 1

/-- The trailers hold the numbers of erasures. -/
def CountsHeld (n : Nat) (s : ErasedNand) : Prop :=
  ∀ b < n, s.nand.eraseCount b = s.erased b

/-- Where the erasure looks for the count, the count is found, and one more fits
    an `int`. -/
def CountFound (n : Nat) (s : ErasedNand) (c : NandCall) : Prop :=
  ∀ b < n, c.Erases b →
    s.nand.eraseWord b = s.nand.eraseCount b ∧ s.nand.eraseCount b < 2147483647

/-! ## Where the count is looked for -/

/-- The word that is read lies `4 * b` bytes before the count. -/
theorem eraseWord_eq (d : Nand) (b : Nat) :
    d.eraseWord b = d.file.int (blockOff b + 16772 - 4 * b) := by
  unfold Nand.eraseWord blockOff
  congr 1
  omega

theorem eraseWord_zero (d : Nand) : d.eraseWord 0 = d.eraseCount 0 := rfl

/-- For block 1 it is the write pointer. -/
theorem eraseWord_one (d : Nand) : d.eraseWord 1 = d.nextPage 1 := rfl

section
variable {n : Nat} {d : Nand}

theorem eraseNAND_counts_iff (hs : d.Sound n) {b : Nat} (hb : b < n) :
    ((eraseNAND d b).2 = d.eraseCount b + 1 ∧ (eraseNAND d b).1.eraseCount b = d.eraseCount b + 1) ↔
      d.eraseWord b = d.eraseCount b ∧ d.eraseCount b < 2147483647 := by
  rw [eraseCount_eraseNAND hs hb, if_pos rfl, (eraseNAND_file hs hb).1, and_self]
  have hword : IsInt (d.eraseWord b) := isInt_getInt _ _
  have hcount := isInt_eraseCount d b
  unfold IsInt at hword hcount
  rw [cint_eq_emod]
  omega

/-! ## The other calls -/

theorem eraseCount_pwrite_past (d : Nand) {pos len : Nat} (src : Nat → UInt8)
    (hpos : 8 + 16776 * n ≤ pos) {b : Nat} (hb : b < n) :
    (d.file.pwrite pos len src).int (blockOff b + 16772) = d.eraseCount b := by
  have hle := blockOff_le hb
  rw [File.int_pwrite_other _ _ (by omega)]
  rfl

theorem writeNAND_file (d : Nand) (buf : FullPage) (k : Nat) (r : Int) :
    (writeNAND d buf k r).1.file = d.file ∨ ∃ block : Block,
      (writeNAND d buf k r).1.file = d.file.pwrite (blockOff (k / 16)) 16776 block.byte := by
  have hblk : blockOffset k = (blockOff (k / 16) : Nat) := by
    have hdiv : (k : Int).tdiv 16 = (k / 16 : Nat) := (Int.ofNat_tdiv k 16).symm
    unfold blockOffset blockOff
    rw [hdiv]
    omega
  simp only [writeNAND, blockOffset_eq, hblk]
  split
  · exact .inl rfl
  · split
    · exact .inl (by simp only [Nand.file, Fd.read_file, Fd.lseek_file])
    · right
      constructor
      rw [Nand.file, Fd.write_file, Fd.lseek_file, Fd.read_file, Fd.lseek_file, Fd.lseek_nat]
      rfl

theorem Nand.Sound.run (hs : d.Sound n) (c : NandCall) : (c.run d).Sound n := by
  refine hs.of_size (features_run d c) ?_
  cases c with
  | read buf k => exact le_of_eq (by rw [NandCall.run, (sameStore_readNAND d buf k).1])
  | write buf k r =>
    simp only [NandCall.run, writeNAND]
    split
    · exact le_refl _
    · split
      · exact le_of_eq (by simp only [Nand.file, Fd.read_file, Fd.lseek_file])
      · simp only [Nand.file, Fd.write_file, Fd.lseek_file, Fd.read_file]
        exact File.size_le_pwrite _ _ _ _
  | erase k =>
    simp only [NandCall.run, eraseNAND]
    split
    · exact le_refl _
    · simp only [Nand.file, Fd.write_file, Fd.lseek_file, Fd.read_file]
      exact File.size_le_pwrite _ _ _ _

/-- A call from address 0 on changes no erase count but that of the block it erases. -/
theorem eraseCount_run (hs : d.Sound n) {c : NandCall} (ha : 0 ≤ c.addr) {b : Nat} (hb : b < n)
    (hc : ¬ c.Erases b) : (c.run d).eraseCount b = d.eraseCount b := by
  cases c with
  | read buf k => exact (sameStore_readNAND d buf k).eraseCount b
  | write buf k r =>
    lift k to Nat using ha
    by_cases hk : k < 16 * n
    · by_cases hacc : d.Accepts k r
      · exact eraseCount_writeNAND hs buf hk hacc b
      · exact (writeNAND_refused hs buf hk hacc).2.eraseCount b
    · rw [NandCall.run, Nand.eraseCount]
      rcases writeNAND_file d buf k r with hsame | ⟨block, hfile⟩
      · rw [hsame]; rfl
      · rw [hfile, eraseCount_pwrite_past d _ (by unfold blockOff; omega) hb]
  | erase k =>
    lift k to Nat using ha
    have hne : b ≠ k := by
      rintro rfl
      exact hc rfl
    by_cases hk : k < n
    · rw [NandCall.run, eraseCount_eraseNAND hs hk, if_neg hne]
    · have hmem : d.features.memSize = cint (8 + 16776 * n) := by
        have := hs.fits
        rw [hs.memSize, cint_eq (by unfold IsInt; omega)]
      rw [NandCall.run]
      by_cases hbelow : Below n (counterOffset k)
      · obtain ⟨pos, hpos, -, hfile⟩ := eraseNAND_below hmem hbelow
        rw [Nand.eraseCount, hfile, hpos (Int.natCast_nonneg k), Int.toNat_natCast,
          eraseCount_pwrite_past d _ (by unfold blockOff; omega) hb]
      · rw [eraseNAND_above hmem hbelow]

end

/-! ## Runs -/

section
variable {n : Nat} {s : ErasedNand} {c : NandCall}

theorem counted_iff (hs : s.nand.Sound n) : Counted n s c ↔ CountFound n s c := by
  unfold Counted CountFound
  refine forall_congr' fun b => forall_congr' fun hb => forall_congr' fun hc => ?_
  cases c with
  | read buf k => exact absurd hc id
  | write buf k r => exact absurd hc id
  | erase k =>
    obtain rfl : k = b := hc
    exact eraseNAND_counts_iff hs hb

theorem CountsHeld.call (hs : s.nand.Sound n) (hh : CountsHeld n s) (ha : AddressKept s c)
    (hc : Counted n s c) : CountsHeld n (s.call c) := by
  intro b hb
  simp only [ErasedNand.call]
  by_cases he : c.Erases b
  · rw [if_pos he, (hc b hb he).2, hh b hb, Nat.cast_succ]
  · have hsame : (c.run s.nand).eraseCount b = s.nand.eraseCount b := by
      rcases ha with ha | ha
      · exact eraseCount_run hs ha hb he
      · rw [Nand.eraseCount, ha]
        rfl
    rw [if_neg he, hsame, hh b hb]

end

/-- A device just created. -/
def freshNAND (n : Nat) (frame : Block) : ErasedNand := ⟨blankNAND n frame, fun _ => 0⟩

/-- **The trailers count the erasures that find their count.** On a device of any
    number of blocks, and whatever is written in between, every erasure answers
    with one more than the stored count and the stored counts are the numbers of
    erasures at every point, exactly if each erasure finds the stored count
    where it looks for it. A call with a negative address is to be one that leaves
    the file alone. -/
theorem erase_counts_iff_found (n : Nat) (frame : Block) (hn : 8 + 16776 * n < 2147483648)
    (calls : List NandCall)
    (haddr : EveryStep ErasedNand.call AddressKept (freshNAND n frame) calls) :
    (EveryStep ErasedNand.call (Counted n) (freshNAND n frame) calls ∧
      EveryState ErasedNand.call (CountsHeld n) (freshNAND n frame) calls) ↔
    EveryStep ErasedNand.call (CountFound n) (freshNAND n frame) calls := by
  have hsound : (freshNAND n frame).nand.Sound n := sound_blankNAND frame hn
  have hkeep : ∀ (s : ErasedNand) (c : NandCall), s.nand.Sound n → (s.call c).nand.Sound n :=
    fun s c hs => hs.run c
  constructor
  · rintro ⟨hcounted, -⟩
    exact hcounted.mono (fun s c hs h => ⟨(counted_iff hs).mp h, hkeep s c hs⟩) hsound
  · intro hfound
    have hcounted : EveryStep ErasedNand.call (Counted n) (freshNAND n frame) calls :=
      hfound.mono (fun s c hs h => ⟨(counted_iff hs).mpr h, hkeep s c hs⟩) hsound
    refine ⟨hcounted, ?_⟩
    have hzero : CountsHeld n (freshNAND n frame) := fun b _ => eraseCount_blankNAND frame n b
    exact (hcounted.and haddr).everyState
      (I := fun s => s.nand.Sound n ∧ CountsHeld n s)
      (fun s c hs h => ⟨hkeep s c hs.1, hs.2.call hs.1 h.2 h.1⟩) (fun s hs => hs.2)
      ⟨hsound, hzero⟩

/-- Block 0 is erased twice. In between a page is written, and an erasure is refused
    whose counter would lie behind the end of the device. -/
def blockZeroTwice : List NandCall :=
  [.erase 0, .write samplePage 0 0, .erase (-200000), .erase 0]

/-- Its erasures of block 0 count right. -/
theorem erase_counts_iff_found_sample :
    EveryState ErasedNand.call (CountsHeld 2) (freshNAND 2 (Buf.zero 16776)) blockZeroTwice := by
  have hs : (blankNAND 2 (Buf.zero 16776)).Sound 2 := sound_blankNAND _ (by decide)
  have hs₁ := hs.run (.erase (0 : Nat))
  have hs₂ := hs₁.run (.write samplePage (0 : Nat) 0)
  have hrefused : ∀ d : Nand, d.Sound 2 → eraseNAND d (-200000) = (d, -1) := fun d hd =>
    eraseNAND_above (n := 2) (hd.memSize.trans (by decide)) (by decide)
  have haddr : EveryStep ErasedNand.call AddressKept (freshNAND 2 (Buf.zero 16776))
      blockZeroTwice := by
    refine ⟨.inl (le_refl 0), .inl (le_refl 0), .inr ?_, .inl (le_refl 0), trivial⟩
    exact congrArg (fun r => r.1.file) (hrefused _ hs₂)
  refine ((erase_counts_iff_found 2 (Buf.zero 16776) (by decide) blockZeroTwice haddr).mpr ?_).2
  have hblank := eraseCount_blankNAND (Buf.zero 16776) 2 0
  have hone := eraseCount_eraseNAND hs (show 0 < 2 by decide) 0
  rw [if_pos rfl, eraseWord_zero, hblank] at hone
  have hwrite := eraseCount_run hs₁ (c := .write samplePage 0 0) (by decide)
    (show 0 < 2 by decide) id
  have hzero : ∀ {b : Nat} {d : Nand}, NandCall.Erases b (.erase 0) → d.eraseCount 0 < 2147483647 →
      d.eraseWord b = d.eraseCount b ∧ d.eraseCount b < 2147483647 := by
    intro b d hb hlt
    obtain rfl : b = 0 := Int.ofNat_inj.mp (Eq.symm hb)
    exact ⟨eraseWord_zero d, hlt⟩
  refine ⟨fun b _ hb => hzero hb ?_, fun b _ hb => absurd hb id, fun b _ hb => ?_,
    fun b _ hb => hzero hb ?_, trivial⟩
  · exact hblank ▸ by decide
  · exact absurd (show (-200000 : Int) = b from hb) (by omega)
  · have hkeep := congrArg (fun r => r.1.eraseCount 0) (hrefused _ hs₂)
    exact lt_of_eq_of_lt (hkeep.trans (hwrite.trans hone)) (by decide)

/-- Erased twice, block 1 answers 1 both times. -/
theorem second_erasure_forgets_first :
    ¬ (EveryStep ErasedNand.call (Counted 2) (freshNAND 2 (Buf.zero 16776)) [.erase 1, .erase 1] ∧
      EveryState ErasedNand.call (CountsHeld 2) (freshNAND 2 (Buf.zero 16776))
        [.erase 1, .erase 1]) := by
  rintro ⟨⟨-, hsecond, -⟩, -⟩
  have hs : (blankNAND 2 (Buf.zero 16776)).Sound 2 := sound_blankNAND _ (by decide)
  have hs' : (eraseNAND (blankNAND 2 (Buf.zero 16776)) (1 : Nat)).1.Sound 2 := sound_eraseNAND hs _
  have hfound := ((counted_iff hs').mp hsecond 1 (by decide) rfl).1
  have hword : (blankNAND 2 (Buf.zero 16776)).eraseWord 1 = 0 := by
    rw [eraseWord_one, nextPage_blankNAND]
  have hcount := eraseCount_eraseNAND hs (show 1 < 2 by decide) 1
  rw [if_pos rfl, hword] at hcount
  have hnext := nextPage_eraseNAND hs (show 1 < 2 by decide) 1
  rw [if_pos rfl] at hnext
  change (eraseNAND (blankNAND 2 (Buf.zero 16776)) (1 : Nat)).1.eraseWord 1 =
    (eraseNAND (blankNAND 2 (Buf.zero 16776)) (1 : Nat)).1.eraseCount 1 at hfound
  rw [eraseWord_one, hnext, hcount] at hfound
  exact absurd hfound (by decide)

end Cycology
