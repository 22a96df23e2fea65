import Cycology.Lib.Chain
import Cycology.ShowNand

/- The walk of `printFreePositions` over the free positions of an address map.

   It follows negated entries and marks nothing. So it lists what it comes by and ends
   if the positions form a chain (`printFreePositions_of_chain`), and for a finite map they
   do so exactly if none leads back to itself. A position that is its own link, as `makefs`
   of `src/vNAND` stores it for every position but the last, keeps it going. -/
namespace Cycology.ShowNand
open ByteMem Loops LinkedChain Relation

/-- The position a link leads to, if it is one. -/
def position (v : Int) : Option Nat := if 0 < v then some v.toNat else none

/-- The position after `p`, by its negated entry. -/
def nextPosition (map : AddrMap) (p : Nat) : Option Nat := position (cint (-map.map p))

/-- The walk comes by `p`. -/
def OnFreeList (map : AddrMap) (p : Nat) : Prop :=
  ∃ q, position map.freePtr = some q ∧ ReflTransGen (Link (nextPosition map)) q p

/-- A map with its first free position and the links of its entries in range. -/
structure MapInRange (map : AddrMap) : Prop where
  first : 0 ≤ map.freePtr ∧ map.freePtr < map.size
  links : ∀ p : Nat, (p : Int) < map.size → map.map p < 0 → -map.map p < map.size

/-- The positions among what was printed. -/
def positionsOf (out : List Printed) : List Int :=
  out.filterMap fun
    | .number p => some p
    | _ => none

section
variable {map : AddrMap} {w w' : FreePositions} {l : List Nat} {v : Int} {p : Nat}

theorem position_eq_some : position v = some p ↔ 0 < v ∧ v = p := by
  unfold position
  split
  · rw [Option.some.injEq]
    omega
  · simp only [reduceCtorEq, false_iff]
    omega

theorem position_eq_none : position v = none ↔ v ≤ 0 := by
  unfold position
  split
  · simp only [reduceCtorEq, false_iff]
    omega
  · simp only [true_iff]
    omega

theorem positionsOf_append (out more : List Printed) :
    positionsOf (out ++ more) = positionsOf out ++ positionsOf more := List.filterMap_append

theorem positionTurn_eq (map : AddrMap) (hp : position w.freePos = some p) : ∃ w',
    Turn (fun w : FreePositions => 0 < w.freePos) (positionTurn map) w w' ∧
    position w'.freePos = nextPosition map p ∧
    positionsOf w'.printed = positionsOf w.printed ++ [(p : Int)] := by
  obtain ⟨hpos, heq⟩ := position_eq_some.mp hp
  refine ⟨_, ⟨hpos, rfl⟩, ?_, ?_⟩
  · rw [heq, Int.toNat_natCast, nextPosition]
  · -- a newline is no position
    rw [positionsOf_append, positionsOf_append, heq]
    split <;> simp [positionsOf]

theorem loop_of_chain (h : Chain (nextPosition map) (position w.freePos) l) : ∃ w',
    loop (fun w : FreePositions => 0 < w.freePos) (positionTurn map) .fuel l.length w = .ok w' ∧
    positionsOf w'.printed = positionsOf w.printed ++ l.map Nat.cast := by
  induction l generalizing w with
  | nil =>
    have hend : ¬ 0 < w.freePos := not_lt.mpr (position_eq_none.mp h)
    exact ⟨w, loop_of_not hend, by simp⟩
  | cons p l ih =>
    obtain ⟨w₁, hturn, hnext, hlist⟩ := positionTurn_eq map h.1
    obtain ⟨w', hw', hrest⟩ := ih (hnext ▸ h.2)
    refine ⟨w', (loop_turn hturn).trans hw', ?_⟩
    rw [hrest, hlist, List.append_assoc]
    rfl

theorem chain_of_reaches
    (h : Reaches (fun w : FreePositions => 0 < w.freePos) (positionTurn map) w w')
    (hend : ¬ 0 < w'.freePos) : ∃ l, Chain (nextPosition map) (position w.freePos) l := by
  induction h using ReflTransGen.head_induction_on with
  | refl => exact ⟨[], position_eq_none.mpr (not_lt.mp hend)⟩
  | head hturn _ ih =>
    obtain ⟨l, hl⟩ := ih
    have hp := position_eq_some.mpr ⟨hturn.1, (Int.toNat_of_nonneg (le_of_lt hturn.1)).symm⟩
    obtain ⟨w₁, hturn₁, hnext, -⟩ := positionTurn_eq map hp
    have heq := hturn₁.2.symm.trans hturn.2
    cases heq
    exact ⟨_ :: l, hp, hnext ▸ hl⟩

theorem printFreePositions_of_chain (h : Chain (nextPosition map) (position map.freePtr) l) :
    ∃ out, printFreePositions map l.length = .ok out ∧ positionsOf out = l.map Nat.cast := by
  unfold printFreePositions
  split
  · obtain ⟨w', hw', hlist⟩ := loop_of_chain (w := ⟨map.freePtr, 0, [.freeEntries]⟩) h
    exact ⟨w'.printed, by rw [hw']; rfl, hlist⟩
  · rename_i h0
    rw [not_not.mp h0] at h
    rw [Chain.eq_nil h]
    exact ⟨_, rfl, rfl⟩

/-- `printFreePositions` returns on chains of positions only. -/
theorem chain_of_printFreePositions {fuel : Nat} {out : List Printed}
    (hok : printFreePositions map fuel = .ok out) :
    ∃ l, Chain (nextPosition map) (position map.freePtr) l := by
  unfold printFreePositions at hok
  split at hok
  · cases hloop : loop (fun w : FreePositions => 0 < w.freePos) (positionTurn map) .fuel fuel
      { freePos := map.freePtr, freeCount := 0, printed := [.freeEntries] } with
    | error e =>
      rw [hloop] at hok
      cases hok
    | ok w' =>
      obtain ⟨hreach, hend⟩ := reaches_of_loop hloop
      exact chain_of_reaches hreach hend
  · rename_i h0
    exact ⟨[], by rw [not_not.mp h0]; rfl⟩

theorem MapInRange.next (h : MapInRange map) {q : Nat} (hp : (p : Int) < map.size)
    (hq : nextPosition map p = some q) : (q : Int) < map.size := by
  obtain ⟨hpos, heq⟩ := position_eq_some.mp hq
  have hsize : IsInt map.size := Buf.isInt_int _ _
  have hentry : IsInt (map.map p) := Buf.isInt_int _ _
  unfold IsInt at hsize hentry
  by_cases hneg : map.map p < 0
  · have hlt := h.links p hp hneg
    rw [cint_eq (by unfold IsInt; omega)] at heq
    omega
  · rw [cint_eq (by unfold IsInt; omega)] at hpos
    omega

theorem MapInRange.onFreeList (h : MapInRange map) (hp : OnFreeList map p) :
    (p : Int) < map.size := by
  obtain ⟨q, hq, hqp⟩ := hp
  induction hqp with
  | refl => exact (position_eq_some.mp hq).2 ▸ h.first.2
  | tail _ hlast ih => exact h.next ih hlast

end

/-- **The walk over the free positions ends on acyclic maps only.** For every map with
    its first position and the links of its entries in range, `printFreePositions` returns,
    having listed no position twice, exactly if no position it comes by leads back to
    itself. -/
theorem printFreePositions_iff {map : AddrMap} (h : MapInRange map) :
    (∃ fuel out, printFreePositions map fuel = .ok out ∧ (positionsOf out).Nodup) ↔
    ∀ p, OnFreeList map p → ¬ TransGen (Link (nextPosition map)) p p := by
  constructor
  · rintro ⟨fuel, out, hok, -⟩ p ⟨q, hq, hqp⟩
    obtain ⟨l, hl⟩ := chain_of_printFreePositions hok
    rw [hq] at hl
    obtain ⟨t, rfl, -⟩ := hl.exists_cons
    exact hl.acyclic (hl.mem_of_leads List.mem_cons_self hqp)
  · intro hacyclic
    obtain ⟨l, hl⟩ := Chain.exists_of_acyclic (Finset.range map.size.toNat)
      (fun q hq p hqp => by
        have hlt := h.onFreeList ⟨q, hq, hqp⟩
        exact Finset.mem_range.mpr (by omega))
      (fun q hq p hqp => hacyclic p ⟨q, hq, hqp⟩)
    obtain ⟨out, hout, hlist⟩ := printFreePositions_of_chain hl
    refine ⟨_, out, hout, ?_⟩
    rw [hlist]
    exact hl.nodup.map Nat.cast_injective

/-- Positions 1, 2 and 3 of a map of four, linked in a row. -/
def linkedMap : AddrMap :=
  ((((AddrMap.mk 24 (Buf.zero 24)).setSize 4).setFreePtr 1).setMap 1 (-2)).setMap 2 (-3)

theorem printFreePositions_linkedMap :
    ∃ fuel out, printFreePositions linkedMap fuel = .ok out ∧ (positionsOf out).Nodup := by
  have hentry : ∀ p : Nat, p < 4 → linkedMap.map p < 0 → -linkedMap.map p < 4 := by decide
  have hsize : linkedMap.size = 4 := by decide
  have hrange : MapInRange linkedMap :=
    ⟨by decide, fun p hp => hsize ▸ hentry p (by omega)⟩
  have hchain : Chain (nextPosition linkedMap) (position linkedMap.freePtr) [1, 2, 3] := by decide
  refine (printFreePositions_iff hrange).mpr ?_
  rintro p ⟨q, hq, hqp⟩
  rw [hq] at hchain
  have hmem : q ∈ [1, 2, 3] := by
    obtain ⟨t, ht, -⟩ := hchain.exists_cons
    exact ht ▸ List.mem_cons_self
  exact hchain.acyclic (hchain.mem_of_leads hmem hqp)

/-- The first free position is its own link. -/
def selfLinked : AddrMap :=
  (((AddrMap.mk 24 (Buf.zero 24)).setSize 4).setFreePtr 1).setMap 1 (-1)

theorem selfLinked_not_printed :
    MapInRange selfLinked ∧ ∀ fuel out, printFreePositions selfLinked fuel ≠ .ok out := by
  have hentry : ∀ p : Nat, p < 4 → selfLinked.map p < 0 → -selfLinked.map p < 4 := by decide
  have hsize : selfLinked.size = 4 := by decide
  refine ⟨⟨by decide, fun p hp => hsize ▸ hentry p (by omega)⟩, fun fuel out hok => ?_⟩
  obtain ⟨l, hl⟩ := chain_of_printFreePositions hok
  have hfirst : position selfLinked.freePtr = some 1 := by decide
  have hself : nextPosition selfLinked 1 = some 1 := by decide
  rw [hfirst] at hl
  obtain ⟨t, rfl, -⟩ := hl.exists_cons
  exact hl.acyclic List.mem_cons_self (.single hself)

end Cycology.ShowNand
