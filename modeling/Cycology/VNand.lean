import Cycology.DiskFormats

/- The virtual NAND of `vNANDlib.c`: one big file holding `nandFeatures`, then
   the blocks. A page write reads the whole block in, replaces the page, and
   writes the whole block back; without `random_access` it is refused unless
   the page is the block's `nextPage`. An erasure reads a counter from the
   file, adds one, and writes a zero block carrying the sum.

   The first half is the C code. The second half says what each call does, for
   in-range arguments on a device whose file is as long as its features say
   (`Sound`), in terms of three views of the file: `page`, `nextPage` and
   `eraseCount`. Later files use these views and never the bytes. The end is
   about the device as `makeVirtualNAND` creates it and `initNAND` opens it. -/
namespace Cycology
open ByteMem

/-- `struct nandFeatures`. -/
structure NandFeatures where
  numBlocks : Int
  memSize : Int
  deriving Inhabited

/-- What the library holds between calls: `fd` and `features`. `frame` is what
    the stack holds where a call puts its local `struct block`, which a short
    `read` leaves there. -/
structure Nand where
  fd : Fd
  features : NandFeatures
  frame : Block
  deriving Inhabited

/-- The contents of the big file. -/
def Nand.file (d : Nand) : File := d.fd.file

/-! ## The C code -/

/-- `main` of `makeVirtualNAND.c`: the file it leaves when there was none. -/
def makeVirtualNAND (numBlocks : Int) : File :=
  let memSize := cint (nandFeaturesBytes + blockBytes * numBlocks)
  let features : Buf 8 := ((Buf.zero 8).setInt 0 numBlocks).setInt 4 memSize
  let fd : Fd := ⟨File.empty, 0⟩
  let (fd, _) := fd.write features
  let fd := fd.lseek (nandFeaturesBytes + blockBytes * numBlocks)
  let (fd, _) := fd.write (Buf.zero 1)
  fd.file

def initNAND (f : File) (frame : Block) : Nand :=
  let (fd, features, _) := (Fd.mk f 0).read (Buf.zero 8)
  { fd := fd, features := ⟨features.int 0, features.int 4⟩, frame := frame }

/-- The device, the buffer and the number of bytes read. -/
def readNAND (d : Nand) (buf : FullPage) (k : Int) : Nand × FullPage × Int :=
  let offset := cint (nandFeaturesBytes + k.tdiv blockSize * blockBytes
    + k.tmod blockSize * fullPageBytes)
  if d.features.memSize ≤ offset then (d, buf, -1)
  else
    let (fd, buf, res) := (d.fd.lseek offset).read buf
    ({ d with fd := fd }, buf, res)

/-- The device and the number of bytes written. The offset is cut to an `int`
    for the check and the first `lseek`, not for the second. -/
def writeNAND (d : Nand) (buf : FullPage) (k randomAccess : Int) : Nand × Int :=
  let offset := nandFeaturesBytes + k.tdiv blockSize * blockBytes
  if d.features.memSize ≤ cint offset then (d, -1)
  else
    let (fd, curBlock, _) := (d.fd.lseek (cint offset)).read d.frame
    let kInBlock := k.tmod blockSize
    if randomAccess = 0 ∧ kInBlock ≠ Block.nextPage curBlock then ({ d with fd := fd }, -1)
    else
      let curBlock := Block.setPage curBlock kInBlock.toNat buf
      let curBlock :=
        if randomAccess = 0 then curBlock.setNextPage (curBlock.nextPage + 1) else curBlock
      let (fd, res) := (fd.lseek offset).write curBlock
      ({ d with fd := fd }, res)

/-- The device and the block's new erase count. -/
def eraseNAND (d : Nand) (k : Int) : Nand × Int :=
  let offset := cint (nandFeaturesBytes + cint (k + 1) * (blockBytes - 4))
  if d.features.memSize ≤ offset then (d, -1)
  else
    let (fd, count, _) := (d.fd.lseek offset).read (d.frame.slice 0 4)
    let eraseCount := cint (count.int 0 + 1)
    let curBlock : Block := d.frame.blit 0 (fullPageBytes * blockSize) (fun _ => 0)
    let curBlock := (Block.setNextPage curBlock 0).setEraseCount eraseCount
    let (fd, _) := (fd.lseek (nandFeaturesBytes + k * blockBytes)).write curBlock
    ({ d with fd := fd }, eraseCount)

/-! ## Views of the device -/

/-- Where page `k` starts in the file. -/
def pageOff (k : Nat) : Nat := 8 + 16776 * (k / 16) + k % 16 * 1048

/-- Where block `b` starts in the file. -/
def blockOff (b : Nat) : Nat := 8 + 16776 * b

namespace Nand

/-- The page stored at address `k`. -/
def page (d : Nand) (k : Nat) : FullPage := d.file.slice (pageOff k) 1048

/-- Block `b`'s write pointer. -/
def nextPage (d : Nand) (b : Nat) : Int := d.file.int (blockOff b + 16768)

/-- The erase count stored with block `b`. -/
def eraseCount (d : Nand) (b : Nat) : Int := d.file.int (blockOff b + 16772)

/-- The `int` that `eraseNAND(b)` reads as the block's erase count. -/
def eraseWord (d : Nand) (b : Nat) : Int := d.file.int (8 + (b + 1) * 16772)

/-- A device of `n` blocks: the features say so, offsets fit an `int`, and the
    file holds every block. -/
structure Sound (d : Nand) (n : Nat) : Prop where
  numBlocks : d.features.numBlocks = n
  memSize : d.features.memSize = 8 + 16776 * n
  fits : 8 + 16776 * n < 2147483648
  backed : 8 + 16776 * n ≤ d.file.size

/-- The features as the file holds them. -/
def header (d : Nand) : Buf 8 := d.file.slice 0 8

/-- The file holds the features the library was initialised with, so that the
    next `initNAND` of it finds the same device. -/
def Labelled (d : Nand) : Prop :=
  d.header.int 0 = d.features.numBlocks ∧ d.header.int 4 = d.features.memSize

/-- Whether the device takes a write of page `k`. -/
def Accepts (d : Nand) (k : Nat) (randomAccess : Int) : Prop :=
  randomAccess ≠ 0 ∨ d.nextPage (k / 16) = (k % 16 : Nat)

/-- Only the file offset and the stack differ. -/
def SameStore (d d' : Nand) : Prop := d'.file = d.file ∧ d'.features = d.features

end Nand

open Nand

theorem pageOff_in_block (k : Nat) : pageOff k = blockOff (k / 16) + k % 16 * 1048 := rfl

theorem blockOff_apart {b c : Nat} (h : b ≠ c) :
    blockOff b + 16776 ≤ blockOff c ∨ blockOff c + 16776 ≤ blockOff b := by
  unfold blockOff
  omega

theorem blockOff_le {b n : Nat} (h : b < n) : blockOff b + 16776 ≤ 8 + 16776 * n := by
  unfold blockOff
  omega

namespace Nand
variable {d d' d'' : Nand} {n : Nat}

theorem SameStore.refl (d : Nand) : SameStore d d := ⟨rfl, rfl⟩

theorem SameStore.trans (h : SameStore d d') (h' : SameStore d' d'') : SameStore d d'' :=
  ⟨h'.1.trans h.1, h'.2.trans h.2⟩

theorem Sound.of_size (hs : d.Sound n) (hf : d'.features = d.features)
    (hsize : d.file.size ≤ d'.file.size) : d'.Sound n where
  numBlocks := by rw [hf, hs.numBlocks]
  memSize := by rw [hf, hs.memSize]
  fits := hs.fits
  backed := le_trans hs.backed hsize

theorem SameStore.sound (h : SameStore d d') (hs : d.Sound n) : d'.Sound n :=
  hs.of_size h.2 (le_of_eq (by rw [h.1]))

theorem SameStore.page (h : SameStore d d') (k : Nat) : d'.page k = d.page k := by
  rw [Nand.page, h.1, Nand.page]

theorem SameStore.nextPage (h : SameStore d d') (b : Nat) : d'.nextPage b = d.nextPage b := by
  rw [Nand.nextPage, h.1, Nand.nextPage]

theorem SameStore.eraseCount (h : SameStore d d') (b : Nat) :
    d'.eraseCount b = d.eraseCount b := by
  rw [Nand.eraseCount, h.1, Nand.eraseCount]

theorem Labelled.of_header (h : d.Labelled) (hf : d'.features = d.features)
    (hh : d'.header = d.header) : d'.Labelled := by
  unfold Labelled at *
  rw [hf, hh]
  exact h

theorem SameStore.labelled (h : SameStore d d') (hl : d.Labelled) : d'.Labelled :=
  hl.of_header h.2 (by rw [header, h.1, header])

theorem isInt_eraseCount (d : Nand) (b : Nat) : IsInt (d.eraseCount b) := isInt_getInt _ _

instance (d : Nand) (k : Nat) (r : Int) : Decidable (d.Accepts k r) :=
  inferInstanceAs (Decidable (_ ∨ _))

end Nand

/-! ## Reading -/

section
variable {d : Nand} {n : Nat}

theorem readNAND_eq (hs : d.Sound n) (buf : FullPage) {k : Nat} (hk : k < 16 * n) :
    readNAND d buf k =
      ({ d with fd := { d.fd with pos := pageOff k + 1048 } }, d.page k, 1048) := by
  have hoff : cint ((nandFeaturesBytes : Int) + (k : Int).tdiv blockSize * blockBytes
      + (k : Int).tmod blockSize * fullPageBytes) = (pageOff k : Nat) := by
    have hf := hs.fits
    rw [← Int.ofNat_tdiv, ← Int.ofNat_tmod]
    simp only [nandFeaturesBytes, blockSize, blockBytes, fullPageBytes, pageOff]
    rw [cint_eq (by unfold IsInt; omega)]
    push_cast
    omega
  have hend : pageOff k + 1048 ≤ 8 + 16776 * n := by unfold pageOff; omega
  have hlt : ¬ d.features.memSize ≤ (pageOff k : Nat) := by rw [hs.memSize]; omega
  have hb := hs.backed
  simp only [readNAND, hoff, if_neg hlt, Fd.lseek_nat]
  rw [Fd.read_full _ _ (by simpa [Nand.file] using le_trans hend hb)]
  rfl

theorem sameStore_readNAND (d : Nand) (buf : FullPage) (k : Int) :
    SameStore d (readNAND d buf k).1 := by
  simp only [readNAND]
  split
  · exact SameStore.refl d
  · exact ⟨by simp [Nand.file], rfl⟩

theorem readNAND_ok (hs : d.Sound n) (buf : FullPage) {k : Nat} (hk : k < 16 * n) :
    ∃ d', readNAND d buf k = (d', d.page k, 1048) ∧ SameStore d d' :=
  ⟨_, readNAND_eq hs buf hk, rfl, rfl⟩

/-! ## Writing -/

/-- The block `writeNAND` writes back. -/
def newBlock (d : Nand) (buf : FullPage) (k : Nat) (randomAccess : Int) : Block :=
  let b := Block.setPage (d.file.slice (blockOff (k / 16)) 16776) (k % 16) buf
  if randomAccess = 0 then b.setNextPage (b.nextPage + 1) else b

theorem int_setPage (b : Block) {i : Nat} (hi : i < 16) (p : FullPage) {o : Nat}
    (ho : 16768 ≤ o) : (Block.setPage b i p).int o = b.int o :=
  Buf.int_blit_other b _ (by omega)

theorem block_nextPage_slice (d : Nand) (b : Nat) :
    Block.nextPage (d.file.slice (blockOff b) 16776) = d.nextPage b :=
  File.int_slice _ _ (by omega)

theorem writeNAND_cases (hs : d.Sound n) (buf : FullPage) {k : Nat} (hk : k < 16 * n)
    (r : Int) : ∃ pos, writeNAND d buf k r =
      if d.Accepts k r then
        ({ d with fd := ⟨d.file.pwrite (blockOff (k / 16)) 16776 (newBlock d buf k r).byte, pos⟩ },
          16776)
      else ({ d with fd := ⟨d.file, pos⟩ }, -1) := by
  have hf := hs.fits
  have hle := blockOff_le (show k / 16 < n by omega)
  have hoff : (nandFeaturesBytes : Int) + (k : Int).tdiv blockSize * blockBytes
      = (blockOff (k / 16) : Nat) := by
    rw [← Int.ofNat_tdiv]
    simp only [nandFeaturesBytes, blockSize, blockBytes, blockOff]
    push_cast
    omega
  have hmod : (k : Int).tmod blockSize = ((k % 16 : Nat) : Int) := by
    rw [← Int.ofNat_tmod]; rfl
  have hlt : ¬ d.features.memSize ≤ (blockOff (k / 16) : Nat) := by rw [hs.memSize]; omega
  have hread : ({ d.fd with pos := blockOff (k / 16) } : Fd).read d.frame =
      (⟨d.file, blockOff (k / 16) + 16776⟩, d.file.slice (blockOff (k / 16)) 16776, (16776 : Int)) :=
    Fd.read_full _ _ (le_trans hle hs.backed)
  simp only [writeNAND, hoff]
  rw [cint_eq (by unfold IsInt; omega), if_neg hlt, Fd.lseek_nat, hread, hmod]
  simp only [block_nextPage_slice, Int.toNat_natCast]
  by_cases ha : d.Accepts k r
  · refine ⟨blockOff (k / 16) + 16776, ?_⟩
    have hna : ¬ (r = 0 ∧ ((k % 16 : Nat) : Int) ≠ d.nextPage (k / 16)) := by
      rintro ⟨h0, hne⟩
      rcases ha with h | h
      · exact h h0
      · exact hne h.symm
    rw [if_neg hna, if_pos ha, Fd.lseek_nat]
    rfl
  · refine ⟨blockOff (k / 16) + 16776, ?_⟩
    have hna : r = 0 ∧ ((k % 16 : Nat) : Int) ≠ d.nextPage (k / 16) := by
      unfold Accepts at ha
      exact ⟨by by_contra h; exact ha (.inl h), fun h => ha (.inr h.symm)⟩
    rw [if_pos hna, if_neg ha]

/-- An accepted write answers with the bytes of a block and leaves the block
    with the page in it. -/
theorem writeNAND_accepted (hs : d.Sound n) (buf : FullPage) {k : Nat} (hk : k < 16 * n)
    {r : Int} (ha : d.Accepts k r) :
    (writeNAND d buf k r).2 = 16776 ∧ (writeNAND d buf k r).1.features = d.features ∧
    (writeNAND d buf k r).1.file =
      d.file.pwrite (blockOff (k / 16)) 16776 (newBlock d buf k r).byte := by
  obtain ⟨pos, h⟩ := writeNAND_cases hs buf hk r
  rw [h, if_pos ha]
  exact ⟨rfl, rfl, rfl⟩

theorem writeNAND_refused (hs : d.Sound n) (buf : FullPage) {k : Nat} (hk : k < 16 * n)
    {r : Int} (ha : ¬ d.Accepts k r) :
    (writeNAND d buf k r).2 = -1 ∧ SameStore d (writeNAND d buf k r).1 := by
  obtain ⟨pos, h⟩ := writeNAND_cases hs buf hk r
  rw [h, if_neg ha]
  exact ⟨rfl, rfl, rfl⟩

theorem writeNAND_ret (hs : d.Sound n) (buf : FullPage) {k : Nat} (hk : k < 16 * n) (r : Int) :
    (writeNAND d buf k r).2 ≠ -1 ↔ d.Accepts k r := by
  by_cases ha : d.Accepts k r
  · rw [(writeNAND_accepted hs buf hk ha).1]; simp [ha]
  · rw [(writeNAND_refused hs buf hk ha).1]; simp [ha]

theorem sound_writeNAND (hs : d.Sound n) (buf : FullPage) (k r : Int) :
    (writeNAND d buf k r).1.Sound n := by
  have hseek : ∀ off : Int, ((d.fd.lseek off).read d.frame).1.file = d.file := fun off =>
    (Fd.read_file _ _).trans (Fd.lseek_file _ _)
  unfold writeNAND
  dsimp only
  split_ifs
  · exact hs
  · exact hs.of_size rfl (congrArg File.size (hseek _)).ge
  all_goals
    refine hs.of_size rfl (le_trans ?_ (File.size_le_pwrite _ _ _ _))
    rw [Fd.lseek_file, hseek]

theorem page_writeNAND (hs : d.Sound n) (buf : FullPage) {k : Nat} (hk : k < 16 * n)
    {r : Int} (ha : d.Accepts k r) (j : Nat) :
    (writeNAND d buf k r).1.page j = if j = k then buf else d.page j := by
  rw [Nand.page, (writeNAND_accepted hs buf hk ha).2.2]
  have hnew : ∀ o, o + 1048 ≤ 16768 → (newBlock d buf k r).slice o 1048 =
      (Block.setPage (d.file.slice (blockOff (k / 16)) 16776) (k % 16) buf).slice o 1048 := by
    intro o ho
    unfold newBlock
    split
    · exact Buf.slice_setInt_other _ _ (by omega)
    · rfl
  have hk16 : k % 16 < 16 := Nat.mod_lt _ (by omega)
  have hj16 : j % 16 < 16 := Nat.mod_lt _ (by omega)
  by_cases hb : j / 16 = k / 16
  · -- same block: the page is read back from the block that was written
    rw [pageOff_in_block, hb, File.slice_pwrite_sub _ _ (by omega) (by omega),
      Nat.add_sub_cancel_left, hnew _ (by omega)]
    by_cases hjk : j = k
    · rw [if_pos hjk, hjk]
      exact Buf.slice_blit_same _ _ (by omega)
    · rw [if_neg hjk, Block.setPage, Buf.slice_blit_other _ _ (by omega),
        File.slice_slice _ _ (by omega), ← hb]
      rfl
  · rw [if_neg (by rintro rfl; exact hb rfl), File.slice_pwrite_other]
    · rfl
    · have := blockOff_apart hb
      rw [pageOff_in_block]
      omega

theorem nextPage_writeNAND (hs : d.Sound n) (buf : FullPage) {k : Nat} (hk : k < 16 * n)
    {r : Int} (ha : d.Accepts k r) (c : Nat) : (writeNAND d buf k r).1.nextPage c =
      if c = k / 16 ∧ r = 0 then d.nextPage c + 1 else d.nextPage c := by
  rw [Nand.nextPage, (writeNAND_accepted hs buf hk ha).2.2]
  have hk16 : k % 16 < 16 := Nat.mod_lt _ (by omega)
  by_cases hc : c = k / 16
  · subst hc
    rw [File.int_pwrite_in _ _ (by omega) (by omega), Nat.add_sub_cancel_left]
    have hset := int_setPage (d.file.slice (blockOff (k / 16)) 16776) hk16 buf (le_refl 16768)
    unfold newBlock
    by_cases hr : r = 0
    · have hnp : d.nextPage (k / 16) = (k % 16 : Nat) := ha.resolve_left (not_not.mpr hr)
      rw [if_pos hr, if_pos ⟨rfl, hr⟩, Block.setNextPage, Buf.int_setInt_same _ _ (by omega),
        Block.nextPage, hset, ← Block.nextPage, block_nextPage_slice, hnp, cint_eq]
      unfold IsInt
      omega
    · rw [if_neg hr, if_neg (fun h => hr h.2), hset]
      exact block_nextPage_slice d _
  · rw [if_neg (fun h => hc h.1), File.int_pwrite_other]
    · rfl
    · have := blockOff_apart hc
      omega

theorem eraseCount_writeNAND (hs : d.Sound n) (buf : FullPage) {k : Nat} (hk : k < 16 * n)
    {r : Int} (ha : d.Accepts k r) (c : Nat) :
    (writeNAND d buf k r).1.eraseCount c = d.eraseCount c := by
  rw [Nand.eraseCount, (writeNAND_accepted hs buf hk ha).2.2]
  have hk16 : k % 16 < 16 := Nat.mod_lt _ (by omega)
  by_cases hc : c = k / 16
  · subst hc
    rw [File.int_pwrite_in _ _ (by omega) (by omega), Nat.add_sub_cancel_left]
    have hset := int_setPage (d.file.slice (blockOff (k / 16)) 16776) hk16 buf
      (show 16768 ≤ 16772 by omega)
    have hnew : (newBlock d buf k r).int 16772 =
        (d.file.slice (blockOff (k / 16)) 16776).int 16772 := by
      unfold newBlock
      split
      · rw [Block.setNextPage, Buf.int_setInt_other _ _ (by omega), hset]
      · exact hset
    rw [hnew, File.int_slice _ _ (by omega)]
    rfl
  · rw [File.int_pwrite_other]
    · rfl
    · have := blockOff_apart hc
      omega

theorem labelled_writeNAND (hs : d.Sound n) (hl : d.Labelled) (buf : FullPage) {k : Nat}
    (hk : k < 16 * n) (r : Int) : (writeNAND d buf k r).1.Labelled := by
  by_cases ha : d.Accepts k r
  · obtain ⟨-, hfeat, hfile⟩ := writeNAND_accepted hs buf hk ha
    refine hl.of_header hfeat ?_
    rw [header, hfile, File.slice_pwrite_other _ _ (by unfold blockOff; omega), header]
  · exact (writeNAND_refused hs buf hk ha).2.labelled hl

/-! ## Erasing -/

/-- The block `eraseNAND` writes: sixteen zero pages, a zero write pointer and
    the new erase count. -/
def erasedBlock (frame : Block) (eraseCount : Int) : Block :=
  (Block.setNextPage (frame.blit 0 16768 (fun _ => 0)) 0).setEraseCount eraseCount

theorem eraseNAND_eq (hs : d.Sound n) {b : Nat} (hb : b < n) :
    ∃ pos, eraseNAND d b =
      ({ d with fd := ⟨d.file.pwrite (blockOff b) 16776
          (erasedBlock d.frame (cint (d.eraseWord b + 1))).byte, pos⟩ },
        cint (d.eraseWord b + 1)) := by
  have hf := hs.fits
  have hbk := hs.backed
  have hle := blockOff_le hb
  have hoff : cint ((nandFeaturesBytes : Int) + cint ((b : Int) + 1) * (blockBytes - 4)) =
      ((8 + (b + 1) * 16772 : Nat) : Int) := by
    rw [cint_eq (show IsInt ((b : Int) + 1) by unfold IsInt; omega)]
    simp only [nandFeaturesBytes, blockBytes]
    rw [cint_eq (by unfold IsInt; omega)]
    push_cast
    omega
  have hlt : ¬ d.features.memSize ≤ ((8 + (b + 1) * 16772 : Nat) : Int) := by
    rw [hs.memSize]; omega
  have hread := Fd.read_full ({ d.fd with pos := 8 + (b + 1) * 16772 } : Fd) (d.frame.slice 0 4)
    (show 8 + (b + 1) * 16772 + 4 ≤ d.file.size by omega)
  have hword : (d.file.slice (8 + (b + 1) * 16772) 4).int 0 = d.eraseWord b :=
    File.int_slice _ _ (by omega)
  have hblk : (nandFeaturesBytes : Int) + (b : Int) * blockBytes = (blockOff b : Nat) := by
    simp only [nandFeaturesBytes, blockBytes, blockOff]
    push_cast
    omega
  refine ⟨blockOff b + 16776, ?_⟩
  simp only [eraseNAND, hoff, if_neg hlt]
  rw [Fd.lseek_nat, hread]
  simp only [hblk, Fd.lseek_nat]
  rw [show (d.fd.file.slice (8 + (b + 1) * 16772) 4).int 0 = d.eraseWord b from hword]
  rfl

theorem eraseNAND_file (hs : d.Sound n) {b : Nat} (hb : b < n) :
    (eraseNAND d b).2 = cint (d.eraseWord b + 1) ∧ (eraseNAND d b).1.features = d.features ∧
    (eraseNAND d b).1.file = d.file.pwrite (blockOff b) 16776
      (erasedBlock d.frame (cint (d.eraseWord b + 1))).byte := by
  obtain ⟨pos, h⟩ := eraseNAND_eq hs hb
  rw [h]
  exact ⟨rfl, rfl, rfl⟩

theorem sound_eraseNAND (hs : d.Sound n) (k : Int) : (eraseNAND d k).1.Sound n := by
  simp only [eraseNAND]
  split
  · exact hs
  · refine hs.of_size rfl ?_
    simp only [Nand.file, Fd.write_file, Fd.lseek_file, Fd.read_file]
    exact File.size_le_pwrite _ _ _ _

theorem page_eraseNAND (hs : d.Sound n) {b : Nat} (hb : b < n) (j : Nat) :
    (eraseNAND d b).1.page j = if j / 16 = b then Buf.zero 1048 else d.page j := by
  rw [Nand.page, (eraseNAND_file hs hb).2.2]
  have hj16 : j % 16 < 16 := Nat.mod_lt _ (by omega)
  by_cases hj : j / 16 = b
  · rw [if_pos hj, pageOff_in_block, hj, File.slice_pwrite_sub _ _ (by omega) (by omega),
      Nat.add_sub_cancel_left, erasedBlock, Block.setEraseCount, Block.setNextPage,
      Buf.slice_setInt_other _ _ (by omega), Buf.slice_setInt_other _ _ (by omega)]
    apply Buf.ext_lt
    intro i hi
    rw [Buf.byte_slice _ _ hi, Buf.byte_blit_in _ _ (by omega) (by omega) (by omega),
      Buf.byte_zero]
  · rw [if_neg hj, File.slice_pwrite_other]
    · rfl
    · have := blockOff_apart hj
      rw [pageOff_in_block]
      omega

theorem nextPage_eraseNAND (hs : d.Sound n) {b : Nat} (hb : b < n) (c : Nat) :
    (eraseNAND d b).1.nextPage c = if c = b then 0 else d.nextPage c := by
  rw [Nand.nextPage, (eraseNAND_file hs hb).2.2]
  by_cases hc : c = b
  · rw [if_pos hc, hc, File.int_pwrite_in _ _ (by omega) (by omega), Nat.add_sub_cancel_left,
      erasedBlock, Block.setEraseCount, Block.setNextPage, Buf.int_setInt_other _ _ (by omega),
      Buf.int_setInt_same _ _ (by omega)]
    rfl
  · rw [if_neg hc, File.int_pwrite_other]
    · rfl
    · have := blockOff_apart hc
      omega

theorem eraseCount_eraseNAND (hs : d.Sound n) {b : Nat} (hb : b < n) (c : Nat) :
    (eraseNAND d b).1.eraseCount c =
      if c = b then cint (d.eraseWord b + 1) else d.eraseCount c := by
  rw [Nand.eraseCount, (eraseNAND_file hs hb).2.2]
  by_cases hc : c = b
  · rw [if_pos hc, hc, File.int_pwrite_in _ _ (by omega) (by omega), Nat.add_sub_cancel_left,
      erasedBlock, Block.setEraseCount, Buf.int_setInt_same _ _ (by omega), cint_cint]
  · rw [if_neg hc, File.int_pwrite_other]
    · rfl
    · have := blockOff_apart hc
      omega

end

/-! ## Opening the file -/

/-- Opening a labelled device's file again gives the same device. -/
theorem sameStore_initNAND {d : Nand} {n : Nat} (hs : d.Sound n) (hl : d.Labelled)
    (frame : Block) : SameStore d (initNAND d.file frame) := by
  have hread := Fd.read_full (⟨d.file, 0⟩ : Fd) (Buf.zero 8)
    (show 0 + 8 ≤ d.file.size by have := hs.backed; omega)
  simp only [initNAND, hread]
  refine ⟨rfl, ?_⟩
  have h0 : (d.file.slice 0 8).int 0 = d.features.numBlocks := hl.1
  have h4 : (d.file.slice 0 8).int 4 = d.features.memSize := hl.2
  simp only [h0, h4]

/-! ## The device as it is created -/

/-- The device of `n` blocks that `makeVirtualNAND` creates, opened. -/
def blankNAND (n : Nat) (frame : Block) : Nand := initNAND (makeVirtualNAND n) frame

section
variable {n : Nat} (frame : Block)

theorem makeVirtualNAND_eq (n : Nat) : makeVirtualNAND n =
    (File.pwrite File.empty 0 8
      (((Buf.zero 8).setInt 0 n).setInt 4 (cint (8 + 16776 * n))).byte).pwrite
      (8 + 16776 * n) 1 (Buf.zero 1).byte := by
  have hoff : (nandFeaturesBytes : Int) + blockBytes * (n : Int) = ((8 + 16776 * n : Nat) : Int) := by
    simp only [nandFeaturesBytes, blockBytes]
    push_cast
    rfl
  simp only [makeVirtualNAND, Fd.write, hoff, Fd.lseek_nat]
  rfl

theorem size_makeVirtualNAND (n : Nat) : (makeVirtualNAND n).size = 8 + 16776 * n + 1 := by
  rw [makeVirtualNAND_eq, File.size_pwrite _ _ _ (by omega), File.size_pwrite _ _ _ (by omega),
    File.size_empty]
  omega

theorem byte_makeVirtualNAND (n : Nat) {i : Nat} (hi : 8 ≤ i) :
    (makeVirtualNAND n).byte i = 0 := by
  rw [makeVirtualNAND_eq, File.byte_pwrite]
  split
  · exact Buf.byte_zero _
  · rw [File.byte_pwrite_out _ _ (by omega), File.byte_empty]

theorem blankNAND_eq (n : Nat) : blankNAND n frame =
    ⟨⟨makeVirtualNAND n, 8⟩, ⟨cint n, cint (8 + 16776 * n)⟩, frame⟩ := by
  have hsize := size_makeVirtualNAND n
  have hread := Fd.read_full (⟨makeVirtualNAND n, 0⟩ : Fd) (Buf.zero 8) (by simp only [hsize]; omega)
  have hfeat : (makeVirtualNAND n).slice 0 8 =
      ((Buf.zero 8).setInt 0 n).setInt 4 (cint (8 + 16776 * n)) := by
    rw [makeVirtualNAND_eq, File.slice_pwrite_other _ _ (by omega), File.slice_pwrite_same]
  simp only [blankNAND, initNAND, hread, hfeat]
  rw [Buf.int_setInt_other _ _ (by omega), Buf.int_setInt_same _ _ (by omega),
    Buf.int_setInt_same _ _ (by omega), cint_cint]

theorem sound_blankNAND (hn : 8 + 16776 * n < 2147483648) : (blankNAND n frame).Sound n := by
  rw [blankNAND_eq]
  refine ⟨cint_eq ?_, cint_eq ?_, hn, ?_⟩
  · unfold IsInt; omega
  · unfold IsInt; omega
  · simp [Nand.file, size_makeVirtualNAND]

theorem file_blankNAND (n : Nat) : (blankNAND n frame).file = makeVirtualNAND n := by
  rw [blankNAND_eq]; rfl

theorem page_blankNAND (n k : Nat) : (blankNAND n frame).page k = Buf.zero 1048 := by
  apply Buf.ext_lt
  intro i hi
  rw [Nand.page, file_blankNAND, File.byte_slice _ _ hi,
    byte_makeVirtualNAND _ (by unfold pageOff; omega), Buf.byte_zero]

theorem int_makeVirtualNAND (n : Nat) {o : Nat} (ho : 8 ≤ o) : (makeVirtualNAND n).int o = 0 := by
  rw [← Buf.int_zero (n := 4) 0]
  apply getInt_congr
  intro i hi
  rw [byte_makeVirtualNAND _ (by omega), Buf.byte_zero]

theorem nextPage_blankNAND (n b : Nat) : (blankNAND n frame).nextPage b = 0 := by
  rw [Nand.nextPage, file_blankNAND]
  exact int_makeVirtualNAND n (by unfold blockOff; omega)

theorem eraseCount_blankNAND (n b : Nat) : (blankNAND n frame).eraseCount b = 0 := by
  rw [Nand.eraseCount, file_blankNAND]
  exact int_makeVirtualNAND n (by unfold blockOff; omega)

theorem header_blankNAND (n : Nat) : (blankNAND n frame).Labelled := by
  have hfeat : (makeVirtualNAND n).slice 0 8 =
      ((Buf.zero 8).setInt 0 n).setInt 4 (cint (8 + 16776 * n)) := by
    rw [makeVirtualNAND_eq, File.slice_pwrite_other _ _ (by omega), File.slice_pwrite_same]
  unfold Nand.Labelled Nand.header
  rw [file_blankNAND, hfeat, blankNAND_eq, Buf.int_setInt_other _ _ (by omega),
    Buf.int_setInt_same _ _ (by omega), Buf.int_setInt_same _ _ (by omega), cint_cint]
  exact ⟨rfl, rfl⟩

end

end Cycology
