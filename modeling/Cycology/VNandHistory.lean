import Cycology.VNand

/- The virtual NAND over whole histories of calls.

   A history is the list of calls made so far, latest first. Two functions of
   the history say what a NAND is for: `seqWrites h b` counts the sequential
   writes block `b` has taken since its last erasure, and `lastPage h k` is the
   page last stored at `k` since then. `holds_history` says that the file, with
   its offsets, its whole-block rewrites and its trailers, holds just that. -/
namespace Cycology
open ByteMem Nand

/-- One call to the library. -/
inductive NandOp where
  | read (buf : FullPage) (k : Nat)
  | write (buf : FullPage) (k : Nat) (randomAccess : Int)
  | erase (b : Nat)

/-- The call's address is on a device of `n` blocks. -/
def NandOp.InRange (n : Nat) : NandOp → Prop
  | .read _ k => k < 16 * n
  | .write _ k _ => k < 16 * n
  | .erase b => b < n

/-- The device after one call. -/
def Nand.call (d : Nand) : NandOp → Nand
  | .read buf k => (readNAND d buf k).1
  | .write buf k r => (writeNAND d buf k r).1
  | .erase b => (eraseNAND d b).1

/-- The device after a history of calls. -/
def Nand.after (d : Nand) : List NandOp → Nand
  | [] => d
  | op :: h => (d.after h).call op

/-- The sequential writes block `b` has taken since it was last erased. -/
def seqWrites : List NandOp → Nat → Nat
  | [], _ => 0
  | .read _ _ :: h, b => seqWrites h b
  | .write _ k r :: h, b =>
    if k / 16 = b ∧ r = 0 ∧ k % 16 = seqWrites h b then seqWrites h b + 1 else seqWrites h b
  | .erase c :: h, b => if c = b then 0 else seqWrites h b

/-- The page last stored at `k` since its block was last erased. -/
def lastPage : List NandOp → Nat → FullPage
  | [], _ => Buf.zero 1048
  | .read _ _ :: h, k => lastPage h k
  | .write buf j r :: h, k =>
    if j = k ∧ (r ≠ 0 ∨ k % 16 = seqWrites h (k / 16)) then buf else lastPage h k
  | .erase b :: h, k => if k / 16 = b then Buf.zero 1048 else lastPage h k

/-! ## The file holds the history -/

/-- The device's pages and write pointers are those of the history. -/
structure HoldsHistory (n : Nat) (d : Nand) (h : List NandOp) : Prop where
  sound : d.Sound n
  page : ∀ k, d.page k = lastPage h k
  nextPage : ∀ b, d.nextPage b = seqWrites h b

section
variable {n : Nat} {d : Nand} {h : List NandOp}

theorem HoldsHistory.accepts_iff (hh : HoldsHistory n d h) (k : Nat) (r : Int) :
    d.Accepts k r ↔ r ≠ 0 ∨ k % 16 = seqWrites h (k / 16) := by
  unfold Accepts
  rw [hh.nextPage]
  omega

theorem HoldsHistory.call (hh : HoldsHistory n d h) {op : NandOp} (ho : op.InRange n) :
    HoldsHistory n (d.call op) (op :: h) := by
  cases op with
  | read buf k =>
    have hsame := sameStore_readNAND d buf k
    simp only [Nand.call]
    refine ⟨hsame.sound hh.sound, fun j => ?_, fun b => ?_⟩
    · rw [hsame.page, hh.page, lastPage]
    · rw [hsame.nextPage, hh.nextPage, seqWrites]
  | write buf k r =>
    have hk : k < 16 * n := ho
    have hacc := hh.accepts_iff k r
    simp only [Nand.call]
    refine ⟨sound_writeNAND hh.sound buf _ r, fun j => ?_, fun b => ?_⟩
    · rw [lastPage]
      by_cases ha : d.Accepts k r
      · rw [page_writeNAND hh.sound buf hk ha, hh.page]
        by_cases hj : j = k
        · subst hj; rw [if_pos rfl, if_pos ⟨rfl, hacc.mp ha⟩]
        · rw [if_neg hj, if_neg (fun h => hj h.1.symm)]
      · rw [(writeNAND_refused hh.sound buf hk ha).2.page, hh.page, if_neg]
        rintro ⟨rfl, h⟩
        exact ha (hacc.mpr h)
    · rw [seqWrites]
      by_cases ha : d.Accepts k r
      · rw [nextPage_writeNAND hh.sound buf hk ha, hh.nextPage]
        by_cases hb : b = k / 16 ∧ r = 0
        · obtain ⟨rfl, hr⟩ := hb
          have hseq := (hacc.mp ha).resolve_left (not_not.mpr hr)
          rw [if_pos ⟨rfl, hr⟩, if_pos ⟨rfl, hr, hseq⟩, Nat.cast_succ]
        · rw [if_neg hb, if_neg (fun h => hb ⟨h.1.symm, h.2.1⟩)]
      · rw [(writeNAND_refused hh.sound buf hk ha).2.nextPage, hh.nextPage, if_neg]
        rintro ⟨rfl, -, h⟩
        exact ha (hacc.mpr (.inr h))
  | erase c =>
    have hc : c < n := ho
    simp only [Nand.call]
    refine ⟨sound_eraseNAND hh.sound _, fun j => ?_, fun b => ?_⟩
    · rw [page_eraseNAND hh.sound hc, hh.page, lastPage]
    · rw [nextPage_eraseNAND hh.sound hc, hh.nextPage, seqWrites]
      by_cases hb : b = c
      · rw [if_pos hb, if_pos hb.symm, Nat.cast_zero]
      · rw [if_neg hb, if_neg (fun h => hb h.symm)]

end

/-- Any history of in-range calls on the created device is held by its file. -/
theorem holds_history {n : Nat} (hn : 8 + 16776 * n < 2147483648) (frame : Block)
    (h : List NandOp) (hr : ∀ op ∈ h, op.InRange n) :
    HoldsHistory n ((blankNAND n frame).after h) h := by
  induction h with
  | nil =>
    exact ⟨sound_blankNAND frame hn, page_blankNAND frame n, fun b => by
      rw [Nand.after, nextPage_blankNAND]; rfl⟩
  | cons op h ih =>
    exact (ih (fun o ho => hr o (List.mem_cons_of_mem _ ho))).call (hr op List.mem_cons_self)

/-- The pages outside `keep` and the write pointers and erase counts outside
    `blocks` are those of `d`. -/
structure Untouched (n : Nat) (d d' : Nand) (pages blocks : Nat → Prop) : Prop where
  page : ∀ j < 16 * n, ¬ pages j → d'.page j = d.page j
  nextPage : ∀ c < n, ¬ blocks c → d'.nextPage c = d.nextPage c
  eraseCount : ∀ c < n, ¬ blocks c → d'.eraseCount c = d.eraseCount c

/-- **The virtual NAND is an array of pages with a write pointer per block.**
    After every history of in-range calls on the device `makeVirtualNAND`
    creates, each further call answers from the history alone and touches only
    what it names. -/
theorem virtual_nand_refines_page_array (n : Nat) (frame : Block) (h : List NandOp)
    (hfit : 8 + 16776 * n < 2147483648) (hr : ∀ op ∈ h, op.InRange n) :
    let d := (blankNAND n frame).after h
    (∀ k < 16 * n, ∀ buf, (readNAND d buf k).2 = (lastPage h k, 1048) ∧
      (readNAND d buf k).1.file = d.file) ∧
    (∀ k < 16 * n, ∀ buf, let w := writeNAND d buf k 0
      (w.2 ≠ -1 ↔ k % 16 = seqWrites h (k / 16)) ∧
      (w.2 = -1 → w.1.file = d.file) ∧
      (w.2 ≠ -1 → w.1.page k = buf ∧ w.1.nextPage (k / 16) = seqWrites h (k / 16) + 1 ∧
        Untouched n d w.1 (· = k) (· = k / 16))) ∧
    (∀ k < 16 * n, ∀ buf, let w := writeNAND d buf k 1
      w.2 ≠ -1 ∧ w.1.page k = buf ∧ w.1.nextPage (k / 16) = seqWrites h (k / 16) ∧
      Untouched n d w.1 (· = k) (fun _ => False)) ∧
    (∀ b < n, let e := (eraseNAND d b).1
      (∀ k, k / 16 = b → e.page k = Buf.zero 1048) ∧ e.nextPage b = 0 ∧
      Untouched n d e (· / 16 = b) (· = b)) := by
  intro d
  have hh : HoldsHistory n d h := holds_history hfit frame h hr
  refine ⟨fun k hk buf => ?_, fun k hk buf => ?_, fun k hk buf => ?_, fun b hb => ?_⟩
  · rw [readNAND_eq hh.sound buf hk, hh.page]
    exact ⟨rfl, rfl⟩
  · have hret := writeNAND_ret hh.sound buf hk 0
    have hacc := hh.accepts_iff k 0
    refine ⟨by rw [hret, hacc]; simp, fun hw => ?_, fun hw => ?_⟩
    · exact (writeNAND_refused hh.sound buf hk (fun ha => hret.mpr ha hw)).2.1
    · have ha := hret.mp hw
      have hpage := page_writeNAND hh.sound buf hk ha
      have hnext := nextPage_writeNAND hh.sound buf hk ha
      refine ⟨by rw [hpage, if_pos rfl], by rw [hnext, if_pos ⟨rfl, rfl⟩, hh.nextPage], ?_⟩
      exact ⟨fun j _ hj => by rw [hpage, if_neg hj], fun c _ hc => by rw [hnext, if_neg (hc ·.1)],
        fun c _ _ => eraseCount_writeNAND hh.sound buf hk ha c⟩
  · have ha : d.Accepts k 1 := .inl (by decide)
    have hpage := page_writeNAND hh.sound buf hk ha
    have hnext : ∀ c, (writeNAND d buf k 1).1.nextPage c = d.nextPage c := by
      intro c
      rw [nextPage_writeNAND hh.sound buf hk ha, if_neg (by simp)]
    refine ⟨(writeNAND_ret hh.sound buf hk 1).mpr ha, by rw [hpage, if_pos rfl],
      by rw [hnext, hh.nextPage], ?_⟩
    exact ⟨fun j _ hj => by rw [hpage, if_neg hj], fun c _ _ => hnext c,
      fun c _ _ => eraseCount_writeNAND hh.sound buf hk ha c⟩
  · have hpage := page_eraseNAND hh.sound hb
    have hnext := nextPage_eraseNAND hh.sound hb
    refine ⟨fun k hk => by rw [hpage, if_pos hk], by rw [hnext, if_pos rfl], ?_⟩
    exact ⟨fun j _ hj => by rw [hpage, if_neg hj], fun c _ hc => by rw [hnext, if_neg hc],
      fun c _ hc => by rw [eraseCount_eraseNAND hh.sound hb, if_neg hc]⟩

/-- A page that is not blank. -/
def samplePage : FullPage := FullPage.setNextLogBlock (Buf.zero 1048) 7

/-- A page written to each of two blocks, then block 1 erased. -/
def sampleHistory : List NandOp := [.erase 1, .write samplePage 16 0, .write samplePage 0 0]

/-- Page 0 is read back and page 16 is blank. -/
theorem virtual_nand_refines_page_array_sample :
    let d := (blankNAND 2 (Buf.zero 16776)).after sampleHistory
    (readNAND d (Buf.zero 1048) ((0 : Nat) : Int)).2 = (samplePage, 1048) ∧
    (readNAND d (Buf.zero 1048) ((16 : Nat) : Int)).2 = (Buf.zero 1048, 1048) := by
  have hr : ∀ op ∈ sampleHistory, op.InRange 2 := by simp [sampleHistory, NandOp.InRange]
  have hread := (virtual_nand_refines_page_array 2 (Buf.zero 16776) sampleHistory (by decide) hr).1
  have h0 : lastPage sampleHistory 0 = samplePage := by simp [sampleHistory, lastPage, seqWrites]
  have h16 : lastPage sampleHistory 16 = Buf.zero 1048 := by simp [sampleHistory, lastPage]
  exact ⟨by rw [(hread 0 (by decide) _).1, h0], by rw [(hread 16 (by decide) _).1, h16]⟩

end Cycology
