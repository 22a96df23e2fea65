import Cycology.VNandHistory
import Cycology.Lib.Runs

/- The range checks of the virtual NAND, for addresses that may be any `int`.

   Each call turns its address into a byte offset, cuts the offset to an `int`
   and compares that with the size of the file, which `makeVirtualNAND` has cut
   to an `int` too. The comparison is between the offset and the size, never
   between the address and the number of blocks, and there is no test for a
   negative address. So a call is checked as its address asks for exactly when
   the two cuts happen to order the offset and the size the right way. -/
namespace Cycology
open ByteMem Nand

/-- One call to the library, with any address. -/
inductive NandCall where
  | read (buf : FullPage) (k : Int)
  | write (buf : FullPage) (k randomAccess : Int)
  | erase (k : Int)

/-- The device after one call. -/
def NandCall.run (d : Nand) : NandCall → Nand
  | .read buf k => (readNAND d buf k).1
  | .write buf k r => (writeNAND d buf k r).1
  | .erase k => (eraseNAND d k).1

/-- A device `makeVirtualNAND` created with `n` blocks, after any calls. -/
def Reached (n : Nat) (d : Nand) : Prop :=
  ∃ frame calls, d = Runs.after NandCall.run (blankNAND n frame) calls

/-! ## What a checked call does -/

/-- The block a write of page `k` reads in. -/
def blockOfPage (d : Nand) (k : Int) : Block :=
  ((d.fd.lseek (cint (nandFeaturesBytes + k.tdiv blockSize * blockBytes))).read d.frame).2.1

/-- `readNAND` answers for the pages of the device and for no others. -/
def ReadChecked (n : Nat) (d : Nand) (k : Int) : Prop :=
  (0 ≤ k ∧ k < 16 * n → ∀ buf, (readNAND d buf k).2.2 ≠ -1) ∧
  (¬ (0 ≤ k ∧ k < 16 * n) → ∀ buf,
    (readNAND d buf k).2 = (buf, -1) ∧ (readNAND d buf k).1.file = d.file)

/-- `writeNAND` refuses a page of the device only for its place in the block,
    and any other page always. -/
def WriteChecked (n : Nat) (d : Nand) (k : Int) : Prop :=
  (0 ≤ k ∧ k < 16 * n → ∀ buf r, (writeNAND d buf k r).2 = -1 →
    r = 0 ∧ k.tmod 16 ≠ (blockOfPage d k).nextPage) ∧
  (¬ (0 ≤ k ∧ k < 16 * n) → ∀ buf r,
    (writeNAND d buf k r).2 = -1 ∧ (writeNAND d buf k r).1.file = d.file)

/-- `eraseNAND` leaves in a block of the device the count it answers with, and
    refuses any other block. -/
def EraseChecked (n : Nat) (d : Nand) (k : Int) : Prop :=
  (0 ≤ k ∧ k < n → (eraseNAND d k).1.eraseCount k.toNat = (eraseNAND d k).2) ∧
  (¬ (0 ≤ k ∧ k < n) → (eraseNAND d k).2 = -1 ∧ (eraseNAND d k).1.file = d.file)

/-! ## When the comparison passes -/

/-- As `int`s, the offset lies below the size of a file of `n` blocks. -/
def Below (n : Nat) (offset : Int) : Prop :=
  (offset + 2147483648) % 4294967296 < (8 + 16776 * (n : Int) + 2147483648) % 4294967296

instance (n : Nat) (offset : Int) : Decidable (Below n offset) := inferInstanceAs (Decidable (_ < _))

/-- Where page `k` would start, were `k` any integer. -/
def pageOffset (k : Int) : Int := 8 + 16776 * k.tdiv 16 + 1048 * k.tmod 16

/-- Where the block of page `k` would start. -/
def blockOffset (k : Int) : Int := 8 + 16776 * k.tdiv 16

/-- Where `eraseNAND(k)` looks for the block's erase count. -/
def counterOffset (k : Int) : Int := 8 + 16772 * cint (k + 1)

/-- The comparison in the C code is `Below`. -/
theorem memSize_le_iff {d : Nand} {n : Nat}
    (hf : d.features.memSize = cint (8 + 16776 * n)) (offset : Int) :
    d.features.memSize ≤ cint offset ↔ ¬ Below n offset := by
  rw [hf, cint_eq_emod, cint_eq_emod]
  unfold Below
  omega

section
variable {n : Nat} {d : Nand}

theorem features_run (d : Nand) (c : NandCall) : (c.run d).features = d.features := by
  cases c with
  | read buf k => exact (sameStore_readNAND d buf k).2
  | write buf k r =>
    simp only [NandCall.run, writeNAND]
    split
    · rfl
    · split <;> rfl
  | erase k =>
    simp only [NandCall.run, eraseNAND]
    split <;> rfl

theorem Reached.memSize (h : Reached n d) : d.features.memSize = cint (8 + 16776 * n) := by
  obtain ⟨frame, calls, rfl⟩ := h
  have hkeep : ∀ (calls : List NandCall) (d : Nand),
      (Runs.after NandCall.run d calls).features = d.features := by
    intro calls
    induction calls with
    | nil => exact fun d => rfl
    | cons c calls ih => exact fun d => (ih _).trans (features_run d c)
  rw [hkeep, blankNAND_eq]

theorem Reached.blank (n : Nat) (frame : Block) : Reached n (blankNAND n frame) :=
  ⟨frame, [], rfl⟩

/-! ## The calls on either side of the comparison -/

theorem pageOffset_eq (k : Int) :
    (nandFeaturesBytes : Int) + k.tdiv blockSize * blockBytes + k.tmod blockSize * fullPageBytes =
      pageOffset k := by
  simp only [nandFeaturesBytes, blockSize, blockBytes, fullPageBytes, pageOffset]
  push_cast
  ring

theorem blockOffset_eq (k : Int) :
    (nandFeaturesBytes : Int) + k.tdiv blockSize * blockBytes = blockOffset k := by
  simp only [nandFeaturesBytes, blockSize, blockBytes, blockOffset]
  push_cast
  ring

theorem counterOffset_eq (k : Int) :
    (nandFeaturesBytes : Int) + cint (k + 1) * (blockBytes - 4) = counterOffset k := by
  simp only [nandFeaturesBytes, blockBytes, counterOffset]
  push_cast
  ring

theorem readNAND_above (hf : d.features.memSize = cint (8 + 16776 * n)) (buf : FullPage) {k : Int}
    (h : ¬ Below n (pageOffset k)) : readNAND d buf k = (d, buf, -1) := by
  simp only [readNAND, pageOffset_eq]
  rw [if_pos ((memSize_le_iff hf _).mpr h)]

theorem readNAND_below (hf : d.features.memSize = cint (8 + 16776 * n)) (buf : FullPage) {k : Int}
    (h : Below n (pageOffset k)) : 0 ≤ (readNAND d buf k).2.2 := by
  simp only [readNAND, pageOffset_eq]
  rw [if_neg (fun hle => (memSize_le_iff hf _).mp hle h)]
  exact Int.natCast_nonneg _

theorem writeNAND_above (hf : d.features.memSize = cint (8 + 16776 * n)) (buf : FullPage) {k : Int}
    (r : Int) (h : ¬ Below n (blockOffset k)) : writeNAND d buf k r = (d, -1) := by
  simp only [writeNAND, blockOffset_eq]
  rw [if_pos ((memSize_le_iff hf _).mpr h)]

/-- Past the comparison, a write is refused by the page test alone. -/
theorem writeNAND_below (hf : d.features.memSize = cint (8 + 16776 * n)) (buf : FullPage) {k : Int}
    (r : Int) (h : Below n (blockOffset k)) : (writeNAND d buf k r).2 =
      if r = 0 ∧ k.tmod 16 ≠ (blockOfPage d k).nextPage then -1 else 16776 := by
  simp only [writeNAND, blockOfPage, blockOffset_eq]
  rw [if_neg (fun hle => (memSize_le_iff hf _).mp hle h)]
  have hsize : (blockSize : Int) = 16 := rfl
  rw [hsize]
  split <;> rfl

theorem eraseNAND_above (hf : d.features.memSize = cint (8 + 16776 * n)) {k : Int}
    (h : ¬ Below n (counterOffset k)) : eraseNAND d k = (d, -1) := by
  simp only [eraseNAND, counterOffset_eq]
  rw [if_pos ((memSize_le_iff hf _).mpr h)]

/-- Past the comparison, an erasure writes its block somewhere, and where block
    `k` is if there is such a block. -/
theorem eraseNAND_below (hf : d.features.memSize = cint (8 + 16776 * n)) {k : Int}
    (h : Below n (counterOffset k)) : ∃ pos, (0 ≤ k → pos = blockOff k.toNat) ∧
      IsInt (eraseNAND d k).2 ∧
      (eraseNAND d k).1.file =
        d.file.pwrite pos 16776 (erasedBlock d.frame (eraseNAND d k).2).byte := by
  simp only [eraseNAND, counterOffset_eq]
  rw [if_neg (fun hle => (memSize_le_iff hf _).mp hle h)]
  generalize hread : (d.fd.lseek (cint (counterOffset k))).read (d.frame.slice 0 4) = res
  have hfile : res.1.file = d.file := by rw [← hread, Fd.read_file, Fd.lseek_file, Nand.file]
  refine ⟨(res.1.lseek (nandFeaturesBytes + k * blockBytes)).pos, ?_, isInt_cint _, ?_⟩
  · intro hk
    have hblk : (nandFeaturesBytes : Int) + k * blockBytes = (blockOff k.toNat : Nat) := by
      simp only [nandFeaturesBytes, blockBytes, blockOff]
      push_cast
      omega
    rw [hblk, Fd.lseek_nat]
  · rw [← hfile, Nand.file, Fd.write_file, Fd.lseek_file]
    rfl

theorem int_erasedBlock (frame : Block) {v : Int} (hv : IsInt v) :
    (erasedBlock frame v).int 16772 = v := by
  rw [erasedBlock, Block.setEraseCount, Buf.int_setInt_same _ _ (by omega), cint_eq hv]

/-! ## Checked calls -/

theorem readChecked_iff (n : Nat) (k : Int) :
    (∀ d, Reached n d → ReadChecked n d k) ↔
      ((0 ≤ k ∧ k < 16 * n) ↔ Below n (pageOffset k)) := by
  constructor
  · intro h
    have hb := Reached.blank n (Buf.zero 16776)
    obtain ⟨hin, hout⟩ := h _ hb
    constructor
    · intro hk
      by_contra hnot
      exact hin hk (Buf.zero 1048) (by rw [readNAND_above hb.memSize _ hnot])
    · intro hbelow
      by_contra hnot
      have hres := readNAND_below hb.memSize (Buf.zero 1048) hbelow
      rw [(hout hnot (Buf.zero 1048)).1] at hres
      omega
  · intro h d hd
    constructor
    · intro hk buf hres
      have := readNAND_below hd.memSize buf (h.mp hk)
      omega
    · intro hk buf
      rw [readNAND_above hd.memSize buf (fun hbelow => hk (h.mpr hbelow))]
      exact ⟨rfl, rfl⟩

theorem writeChecked_iff (n : Nat) (k : Int) :
    (∀ d, Reached n d → WriteChecked n d k) ↔
      ((0 ≤ k ∧ k < 16 * n) ↔ Below n (blockOffset k)) := by
  constructor
  · intro h
    have hb := Reached.blank n (Buf.zero 16776)
    obtain ⟨hin, hout⟩ := h _ hb
    constructor
    · intro hk
      by_contra hnot
      have hres := hin hk (Buf.zero 1048) 1 (by rw [writeNAND_above hb.memSize _ _ hnot])
      exact absurd hres.1 (by decide)
    · intro hbelow
      by_contra hnot
      have hres := writeNAND_below hb.memSize (Buf.zero 1048) 1 hbelow
      rw [(hout hnot (Buf.zero 1048) 1).1, if_neg (fun h => absurd h.1 (by decide))] at hres
      omega
  · intro h d hd
    constructor
    · intro hk buf r hres
      rw [writeNAND_below hd.memSize buf r (h.mp hk)] at hres
      by_contra hpage
      rw [if_neg hpage] at hres
      omega
    · intro hk buf r
      rw [writeNAND_above hd.memSize buf r (fun hbelow => hk (h.mpr hbelow))]
      exact ⟨rfl, rfl⟩

theorem eraseChecked_iff (n : Nat) (k : Int) :
    (∀ d, Reached n d → EraseChecked n d k) ↔
      ((0 ≤ k ∧ k < n) ↔ Below n (counterOffset k)) := by
  constructor
  · intro h
    have hb := Reached.blank n (Buf.zero 16776)
    obtain ⟨hin, hout⟩ := h _ hb
    constructor
    · intro hk
      by_contra hnot
      have hres := hin hk
      rw [eraseNAND_above hb.memSize hnot, eraseCount_blankNAND] at hres
      omega
    · intro hbelow
      by_contra hnot
      -- the erasure would have left -1 in a file that holds zeros there
      obtain ⟨pos, -, hint, hfile⟩ := eraseNAND_below hb.memSize hbelow
      obtain ⟨hres, hsame⟩ := hout hnot
      have hnew : (eraseNAND (blankNAND n (Buf.zero 16776)) k).1.file.int (pos + 16772) = -1 := by
        rw [hfile, File.int_pwrite_in _ _ (by omega) (by omega), Nat.add_sub_cancel_left,
          int_erasedBlock _ hint, hres]
      rw [hsame, file_blankNAND, int_makeVirtualNAND n (by omega)] at hnew
      omega
  · intro h d hd
    constructor
    · intro hk
      obtain ⟨pos, hpos, hint, hfile⟩ := eraseNAND_below hd.memSize (h.mp hk)
      rw [Nand.eraseCount, hfile, hpos hk.1, File.int_pwrite_in _ _ (by omega) (by omega),
        Nat.add_sub_cancel_left, int_erasedBlock _ hint]
    · intro hk
      rw [eraseNAND_above hd.memSize (fun hbelow => hk (h.mpr hbelow))]
      exact ⟨rfl, rfl⟩

end

/-- **An address is checked by its offset.** Whatever calls came before, a call
    answers for the addresses of the device and refuses the others exactly if
    its offset, cut to an `int`, is below the size, cut to an `int`, for the
    addresses of the device and for no others. -/
theorem address_checks_iff_offsets_ordered (n : Nat) (k : Int) :
    ((∀ d, Reached n d → ReadChecked n d k) ↔
      ((0 ≤ k ∧ k < 16 * n) ↔ Below n (pageOffset k))) ∧
    ((∀ d, Reached n d → WriteChecked n d k) ↔
      ((0 ≤ k ∧ k < 16 * n) ↔ Below n (blockOffset k))) ∧
    ((∀ d, Reached n d → EraseChecked n d k) ↔
      ((0 ≤ k ∧ k < n) ↔ Below n (counterOffset k))) :=
  ⟨readChecked_iff n k, writeChecked_iff n k, eraseChecked_iff n k⟩

/-- Where neither cut changes anything, pages are checked from 0 on and blocks are
    too, but for those just past the end of a device of more than 4193 blocks. -/
theorem offsets_ordered_of_fits {n : Nat} (h1 : 1 ≤ n) (hn : 8 + 16776 * n < 2147483648) {k : Int}
    (hp : IsInt (pageOffset k)) (hb : IsInt (blockOffset k)) (hk : IsInt (k + 1))
    (hc : IsInt (counterOffset k)) :
    (((0 ≤ k ∧ k < 16 * n) ↔ Below n (pageOffset k)) ↔ 0 ≤ k) ∧
    (((0 ≤ k ∧ k < 16 * n) ↔ Below n (blockOffset k)) ↔ 0 ≤ k) ∧
    (((0 ≤ k ∧ k < n) ↔ Below n (counterOffset k)) ↔
      0 ≤ k ∧ (k < n ∨ 16776 * (n : Int) ≤ 16772 * (k + 1))) := by
  have hbelow : ∀ {o : Int}, IsInt o → (Below n o ↔ o < 8 + 16776 * n) := by
    intro o ho
    unfold IsInt at ho
    unfold Below
    rw [Int.emod_eq_of_lt (by omega) (by omega), Int.emod_eq_of_lt (by omega) (by omega)]
    omega
  rw [hbelow hp, hbelow hb, hbelow hc]
  have hdiv := Int.tdiv_mul_add_tmod k 16
  have hlo := Int.lt_tmod_of_pos k (show (0 : Int) < 16 by omega)
  have hhi := Int.tmod_lt_of_pos k (show (0 : Int) < 16 by omega)
  have hpos : 0 ≤ k → 0 ≤ k.tmod 16 := Int.tmod_nonneg 16
  have hneg : k < 0 → k.tmod 16 ≤ 0 := by
    intro h
    have := Int.tmod_nonneg 16 (show 0 ≤ -k by omega)
    rw [Int.neg_tmod] at this
    omega
  refine ⟨?_, ?_, ?_⟩
  · unfold pageOffset
    omega
  · unfold blockOffset
    omega
  · unfold counterOffset
    rw [cint_eq hk]
    omega

/-- On four blocks, page -1 is read, page -16 is written and block -1 erased. -/
theorem negative_addresses_pass :
    ¬ (∀ d, Reached 4 d → ReadChecked 4 d (-1)) ∧
    ¬ (∀ d, Reached 4 d → WriteChecked 4 d (-16)) ∧
    ¬ (∀ d, Reached 4 d → EraseChecked 4 d (-1)) := by
  refine ⟨?_, ?_, ?_⟩
  · rw [readChecked_iff]; decide
  · rw [writeChecked_iff]; decide
  · rw [eraseChecked_iff]; decide

end Cycology
