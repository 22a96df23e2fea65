import Cycology.BlockHandout
import Cycology.Lib.Runs

/- What `makefs` leaves, and the life of its address map.

   The image holds two linked structures: the partial list, through the pages of
   the free blocks, and the free chain of the address map, through the entries
   of the map itself, where a negated slot number is a link. `makefs_wellFormed`
   says what following each of them visits.

   The entries of the slots given out are in the same array. `SlotChain` keeps
   the two apart: a slot leaves the chain when `getFreePtr` returns it, and a
   store to a slot off the chain does not change where the chain goes. -/
namespace Cycology
open ByteMem LinkedChain Nand Runs

/-! ## The free chain of an address map -/

/-- Where the free chain goes on from slot `p`. -/
def slotNext (m : AddrMap) (p : Nat) : Option Nat := ofLink |m.map p|

/-- Following the free chain of a map of `s` slots visits the slots of `free`. -/
structure SlotChain (m : AddrMap) (s : Nat) (free : List Nat) : Prop where
  alloc : 8 + 4 * s ≤ m.alloc
  fits : s < 2147483648
  size : m.size = s
  chain : Chain (slotNext m) (ofLink m.freePtr) free
  inRange : ∀ p ∈ free, 1 ≤ p ∧ p < s

section
variable {m : AddrMap} {s f : Nat} {free : List Nat}

theorem FreeSlots.slotNext (h : FreeSlots m s f) {p : Nat} (hf : f ≤ p) (hp : p < s) :
    slotNext m p = if p + 1 < s then some (p + 1) else none := by
  rw [Cycology.slotNext]
  split
  · rw [h.chain p hf ‹_›, abs_neg, abs_of_nonneg (by omega)]
    exact ofLink_nat (k := p + 1) (by omega)
  · rw [show p = s - 1 by omega, h.last]
    rfl

theorem FreeSlots.chain_from (h : FreeSlots m s f) (count : Nat) : ∀ p, f ≤ p → p + count + 1 = s →
    Chain (Cycology.slotNext m) (some p) (List.range' p (count + 1)) := by
  induction count with
  | zero =>
    intro p hf hp
    refine ⟨rfl, ?_⟩
    rw [h.slotNext hf (by omega), if_neg (by omega)]
    rfl
  | succ count ih =>
    intro p hf hp
    refine ⟨rfl, ?_⟩
    rw [h.slotNext hf (by omega), if_pos (by omega)]
    exact ih (p + 1) (by omega) (by omega)

theorem FreeSlots.slotChain (h : FreeSlots m s f) (hf : 1 ≤ f) (hs : f < s) :
    SlotChain m s (List.range' f (s - f)) where
  alloc := h.alloc
  fits := h.fits
  size := h.size
  chain := by
    obtain ⟨count, hcount⟩ : ∃ count, s - f = count + 1 := ⟨s - f - 1, by omega⟩
    rw [h.freePtr, ofLink_nat (by omega), hcount]
    exact h.chain_from count f (le_refl f) (by omega)
  inRange p hp := by
    rw [List.mem_range'_1] at hp
    omega

theorem SlotChain.link_eq (h : SlotChain m s free) {v : Int} {rest : List Nat}
    (hc : Chain (Cycology.slotNext m) (ofLink v) rest) (hsub : ∀ p ∈ rest, p ∈ free) :
    cint v = v := by
  have hfit := h.fits
  cases rest with
  | nil =>
    have h0 : v = 0 := ofLink_eq_none.mp hc
    rw [h0, cint_zero]
  | cons q rest =>
    obtain ⟨hq, hqs⟩ := h.inRange q (hsub q (by simp))
    have heq : v = q := (ofLink_eq_some (by omega)).mp hc.1
    rw [heq, cint_eq (by unfold IsInt; omega)]

theorem SlotChain.pop {p : Nat} (h : SlotChain m s (p :: free)) :
    (getFreePtr m).1 = p ∧ SlotChain (getFreePtr m).2 s free := by
  obtain ⟨hp, hps⟩ := h.inRange p (by simp)
  have halloc := h.alloc
  have hptr : m.freePtr = p := (ofLink_eq_some (by omega)).mp h.chain.1
  have hlink : cint |m.map p| = |m.map p| :=
    h.link_eq h.chain.2 fun q hq => List.mem_cons_of_mem _ hq
  have hget : getFreePtr m = ((p : Int), m.setFreePtr |m.map p|) := by
    rw [getFreePtr, hptr, Int.toNat_natCast, hlink]
  rw [hget]
  refine ⟨rfl, h.alloc, h.fits, ?_, ?_, fun q hq => h.inRange q (List.mem_cons_of_mem _ hq)⟩
  · rw [AddrMap.size_setFreePtr, h.size]
  · rw [AddrMap.freePtr_setFreePtr _ (by omega), hlink]
    refine Chain.congr h.chain.2 fun q _ => ?_
    rw [Cycology.slotNext, AddrMap.map_setFreePtr, Cycology.slotNext]

theorem SlotChain.assign (h : SlotChain m s free) {p : Nat} (hp : p ∉ free) (a : Int) :
    SlotChain (m.setMap p a) s free where
  alloc := h.alloc
  fits := h.fits
  size := by rw [AddrMap.size_setMap, h.size]
  chain := by
    rw [AddrMap.freePtr_setMap]
    refine h.chain.congr fun q hq => ?_
    have hqp : q ≠ p := fun heq => hp (heq ▸ hq)
    rw [Cycology.slotNext, AddrMap.map_setMap_other _ hqp, Cycology.slotNext]
  inRange := h.inRange

end

/-! ## Pops and stores in any order -/

/-- What the code does to an address map: take a slot, or set the entry of one. -/
inductive SlotOp where
  | pop
  | assign (p a : Int)

/-- The map and the slots popped from it so far, the last one first. -/
abbrev SlotState := AddrMap × List Int

def SlotOp.run (st : SlotState) : SlotOp → SlotState
  | .pop => ((getFreePtr st.1).2, (getFreePtr st.1).1 :: st.2)
  | .assign p a => (st.1.setMap p.toNat a, st.2)

/-- A pop while fewer than `s - 1` slots were popped, or a store to a popped slot. -/
def SlotOp.Allowed (s : Nat) (st : SlotState) : SlotOp → Prop
  | .pop => st.2.length < s - 1
  | .assign p a => p ∈ st.2 ∧ 0 < a

/-- The chain holds the slots from 1 on that were never popped. -/
structure SlotsApart (s : Nat) (st : SlotState) (free : List Nat) : Prop
    extends SlotChain st.1 s free where
  mem_iff : ∀ p : Nat, p ∈ free ↔ 1 ≤ p ∧ p < s ∧ (p : Int) ∉ st.2
  popped : ∀ id ∈ st.2, 1 ≤ id ∧ id < s
  nodup : st.2.Nodup
  length : free.length + st.2.length = s - 1

namespace SlotsApart
variable {s : Nat} {st : SlotState} {free : List Nat}

theorem popped_off (h : SlotsApart s st free) {id : Int} (hid : id ∈ st.2) : id.toNat ∉ free := by
  intro hm
  have hpos := h.popped id hid
  obtain ⟨-, -, hnot⟩ := (h.mem_iff _).mp hm
  rw [Int.toNat_of_nonneg (by omega)] at hnot
  exact hnot hid

theorem run_pop (h : SlotsApart s st free) (ha : st.2.length < s - 1) :
    ∃ free', SlotsApart s (SlotOp.pop.run st) free' := by
  cases free with
  | nil =>
    have hlen := h.length
    simp at hlen
    omega
  | cons p free =>
    obtain ⟨hget, hchain⟩ := h.toSlotChain.pop
    obtain ⟨hp1, hps, hpst⟩ := (h.mem_iff p).mp List.mem_cons_self
    have hnd := h.chain.nodup
    refine ⟨free, ⟨hchain, fun q => ?_, fun id hid => ?_, ?_, ?_⟩⟩
    · simp only [SlotOp.run, hget, List.mem_cons, not_or, Nat.cast_inj]
      have hq := h.mem_iff q
      rw [List.mem_cons] at hq
      have hpq : q ∈ free → q ≠ p := fun hm heq => (List.nodup_cons.mp hnd).1 (heq ▸ hm)
      tauto
    · rw [SlotOp.run, hget] at hid
      rcases List.mem_cons.mp hid with rfl | hid
      · omega
      · exact h.popped id hid
    · rw [SlotOp.run, hget]
      exact List.nodup_cons.mpr ⟨hpst, h.nodup⟩
    · have hlen := h.length
      simp only [SlotOp.run, List.length_cons] at hlen ⊢
      omega

theorem run_assign (h : SlotsApart s st free) {p : Int} (hp : p ∈ st.2) (a : Int) :
    SlotsApart s ((SlotOp.assign p a).run st) free :=
  { h.toSlotChain.assign (h.popped_off hp) a with
    mem_iff := h.mem_iff
    popped := h.popped
    nodup := h.nodup
    length := h.length }

theorem run (st : SlotState) (op : SlotOp) (h : ∃ free, SlotsApart s st free)
    (hop : op.Allowed s st) : ∃ free, SlotsApart s (op.run st) free := by
  obtain ⟨free, h⟩ := h
  cases op with
  | pop => exact h.run_pop hop
  | assign p a => exact ⟨free, h.run_assign hop.1 a⟩

end SlotsApart

theorem slotsApart_initVaddrMap {m : AddrMap} {s : Nat} (hs : 2 ≤ s) (hfit : s < 2147483648)
    (halloc : 8 + 4 * s ≤ m.alloc) :
    SlotsApart s (initVaddrMap m s, []) (List.range' 1 (s - 1)) where
  toSlotChain := (freeSlots_initVaddrMap hs hfit halloc).slotChain (le_refl 1) (by omega)
  mem_iff p := by
    simp only [List.mem_range'_1, List.not_mem_nil, not_false_eq_true, and_true]
    omega
  popped id hid := by cases hid
  nodup := List.nodup_nil
  length := by simp

/-- Whatever is popped off a map as `writeOutVaddrMap` builds it and stored to
    the popped slots: the free chain ends, visits exactly the slots never popped,
    each once, and no store to a popped slot changes that; no slot is popped
    twice. -/
theorem slots_popped_once {m : AddrMap} {s : Nat} (hs : 2 ≤ s) (hfit : s < 2147483648)
    (halloc : 8 + 4 * s ≤ m.alloc) (ops : List SlotOp)
    (hall : EveryStep SlotOp.run (SlotOp.Allowed s) (initVaddrMap m s, []) ops) :
    let st := after SlotOp.run (initVaddrMap m s, []) ops
    ∃ free : List Nat,
      Chain (slotNext st.1) (ofLink st.1.freePtr) free ∧ free.Nodup ∧
      (∀ p : Nat, p ∈ free ↔ 1 ≤ p ∧ p < s ∧ (p : Int) ∉ st.2) ∧
      (∀ id ∈ st.2, 1 ≤ id ∧ id < s) ∧ st.2.Nodup ∧
      ∀ id ∈ st.2, ∀ a, Chain (slotNext (st.1.setMap id.toNat a))
        (ofLink (st.1.setMap id.toNat a).freePtr) free := by
  obtain ⟨free, h⟩ := hall.invariant SlotsApart.run ⟨_, slotsApart_initVaddrMap hs hfit halloc⟩
  exact ⟨free, h.chain, h.chain.nodup, h.mem_iff, h.popped, h.nodup,
    fun id hid a => (h.toSlotChain.assign (h.popped_off hid) a).chain⟩

/-- A create's two pops and two stores, on a map of four slots. -/
theorem slots_popped_once_create :
    ∃ free : List Nat, Chain (slotNext (after SlotOp.run (initVaddrMap ⟨24, Buf.zero 24⟩ 4, [])
      [.pop, .pop, .assign 2 33, .assign 1 33]).1)
      (ofLink (after SlotOp.run (initVaddrMap ⟨24, Buf.zero 24⟩ 4, [])
        [.pop, .pop, .assign 2 33, .assign 1 33]).1.freePtr) free := by
  have hm := slotsApart_initVaddrMap (m := ⟨24, Buf.zero 24⟩) (s := 4) (by omega) (by omega)
    (le_refl 24)
  obtain ⟨hid₁, hc₁⟩ := hm.toSlotChain.pop
  obtain ⟨hid₂, -⟩ := hc₁.pop
  obtain ⟨free, hchain, -⟩ := @slots_popped_once ⟨24, Buf.zero 24⟩ 4 (by omega) (by omega)
    (le_refl 24) [.pop, .pop, .assign 2 33, .assign 1 33]
    ⟨by simp [SlotOp.Allowed], by simp [SlotOp.Allowed, SlotOp.run],
      ⟨by simp [SlotOp.run] at *; simp [hid₂], by omega⟩,
      ⟨by simp [SlotOp.run] at *; simp [hid₁], by omega⟩, trivial⟩
  exact ⟨free, hchain⟩

/-! ## The image of `makefs` -/

/-- The superblock, and the map on the page it names. -/
def superBlockOf (d : Nand) : SuperPage := SuperPage.ofPage (d.page 0)

def vaddrMapOf (d : Nand) : AddrMap :=
  AddrMap.ofPage (d.page (superBlockOf d).latestVaddrMap.toNat)

/-- An empty file system on `n` blocks: the links of the partial list visit the
    first pages of blocks 2 to `n - 1`, those of the free chain the slots from 1
    on, and the complete list is empty. -/
structure EmptyFileSystem (d : Nand) (n : Nat) : Prop where
  partialChain : Chain (partialNext d) (ofLink (superBlockOf d).freeLists.partialHead)
    ((List.range' 2 (n - 2)).map (16 * ·))
  partialTail : (superBlockOf d).freeLists.partialTail = (16 * (n - 1) : Nat)
  complete : (superBlockOf d).freeLists.completeHead = 0 ∧
    (superBlockOf d).freeLists.completeTail = 0
  mapPage : ∃ k : Nat, (superBlockOf d).latestVaddrMap = k ∧ k < 16 * n ∧ d.page k = vaddrMapImage
  size : (vaddrMapOf d).size = pageDataSize / 4 - 2
  slots : Chain (slotNext (vaddrMapOf d)) (ofLink (vaddrMapOf d).freePtr)
    (List.range' 1 ((vaddrMapOf d).size.toNat - 1))

theorem Image.emptyFileSystem {d : Nand} {n : Nat} (h : Image d n) (hn : 3 ≤ n) :
    EmptyFileSystem d n := by
  have hfit := h.sound.fits
  have hsuper : superBlockOf d = newSuperBlock n := by
    rw [superBlockOf, h.super, ofPage_superImage]
  have hmap : vaddrMapOf d = AddrMap.ofPage vaddrMapImage := by
    rw [vaddrMapOf, hsuper, latestVaddrMap_newSuperBlock]
    exact congrArg AddrMap.ofPage h.vaddrMap
  obtain ⟨hph, hpt, hch, hct⟩ := freeLists_newSuperBlock (show 1 ≤ n by omega) (by omega)
  obtain ⟨count, hcount⟩ : ∃ count, n - 2 = count + 1 := ⟨n - 3, by omega⟩
  refine ⟨?_, ?_, ?_, ⟨16, ?_, by omega, h.vaddrMap⟩, ?_, ?_⟩
  · rw [hsuper, hph, hcount]
    exact h.partialChain count 2 (by omega) (by omega)
  · rw [hsuper, hpt]
  · rw [hsuper]
    exact ⟨hch, hct⟩
  · rw [hsuper, latestVaddrMap_newSuperBlock]
    rfl
  · rw [hmap, freeSlots_vaddrMapImage.size]
    rfl
  · rw [hmap, freeSlots_vaddrMapImage.size]
    exact (freeSlots_vaddrMapImage.slotChain (le_refl 1) (by omega)).chain

/-- `makefs` builds an empty file system on a zeroed device of three blocks or
    more, and the device takes every write. -/
theorem makefs_wellFormed {d : Nand} {n : Nat} (hz : Zeroed d n) (hn : 3 ≤ n) :
    (∀ r ∈ (makefs d).2, r ≠ -1) ∧ EmptyFileSystem (makefs d).1 n := by
  obtain ⟨himage, hres⟩ := makefs_image hz hn
  exact ⟨hres, himage.emptyFileSystem hn⟩

/-- Five blocks, of which two are linked to the next. -/
theorem makefs_wellFormed_five : (∀ r ∈ (makefs (blankNAND 5 default)).2, r ≠ -1) ∧
    EmptyFileSystem (makefs (blankNAND 5 default)).1 5 :=
  makefs_wellFormed (zeroed_blankNAND default (by omega)) (by omega)

end Cycology
