import Cycology.Lib.Runs

/- Numbered records on a store where the first record written under a number stays.

   The number the next record gets is kept in memory; now and then it is saved. A
   crash goes back to the saved number, so numbers are given out again whose records
   are still in the store. A record put under such a number is lost, the old one is
   kept (`cells_after`): what is found under a number is always the first record that
   was ever put there. A record put under a new number and saved before the next crash
   is found after any run (`kept_after_save`). -/
namespace Journals
open Runs

/-- The number of the next record, the number last saved, and the records. -/
structure Journal (α : Type) where
  next : Nat
  saved : Nat
  cells : Nat → Option α

/-- `skip` passes a number over. -/
inductive Event (α : Type) where
  | put (a : α)
  | skip
  | save
  | crash

namespace Journal
variable {α : Type}

def empty (α : Type) : Journal α := ⟨0, 0, fun _ => none⟩

def step (j : Journal α) : Event α → Journal α
  | .put a =>
    { j with
      next := j.next + 1
      cells := Function.update j.cells j.next ((j.cells j.next).or (some a)) }
  | .skip => { j with next := j.next + 1 }
  | .save => { j with saved := j.next }
  | .crash => { j with next := j.saved }

/-- The record an event puts under number `k`. -/
def putAt (k : Nat) (j : Journal α) : Event α → Option α
  | .put a => if j.next = k then some a else none
  | _ => none

/-- Those a run puts there, in order. -/
def putsAt (k : Nat) (j : Journal α) (es : List (Event α)) : List α := trace step (putAt k) j es

/-- A crash never goes forward. -/
def Ordered (j : Journal α) : Prop := j.saved ≤ j.next

section
variable {j : Journal α} {k : Nat} {a : α} {e : Event α} {es es' : List (Event α)}

theorem cells_step (j : Journal α) (e : Event α) (k : Nat) :
    (j.step e).cells k = (j.cells k).or (putAt k j e) := by
  cases e with
  | put a =>
    by_cases hk : j.next = k
    · rw [putAt, if_pos hk, ← hk]
      exact Function.update_self ..
    · rw [putAt, if_neg hk, Option.or_none]
      exact Function.update_of_ne (Ne.symm hk) ..
  | skip => exact (Option.or_none ..).symm
  | save => exact (Option.or_none ..).symm
  | crash => exact (Option.or_none ..).symm

theorem crash_save (j : Journal α) : (j.step .save).step .crash = j.step .save := rfl

/-- What is found under a number is what was there, or the first record put there. -/
theorem cells_after (j : Journal α) (k : Nat) (es : List (Event α)) :
    (after step j es).cells k = (j.cells k).or (putsAt k j es).head? := by
  induction es generalizing j with
  | nil => exact (Option.or_none ..).symm
  | cons e es ih =>
    have hputs : putsAt k j (e :: es) = (putAt k j e).toList ++ putsAt k (j.step e) es := rfl
    rw [after, ih, cells_step, hputs, List.head?_append, Option.head?_toList, Option.or_assoc]

theorem cells_kept (h : j.cells k = some a) (es : List (Event α)) :
    (after step j es).cells k = some a := by
  rw [cells_after, h, Option.some_or]

theorem ordered_step (h : j.Ordered) (e : Event α) : (j.step e).Ordered := by
  unfold Ordered at *
  cases e with
  | put a => exact Nat.le_succ_of_le h
  | skip => exact Nat.le_succ_of_le h
  | save => exact le_refl _
  | crash => exact le_refl _

theorem saved_step (h : j.Ordered) (e : Event α) : j.saved ≤ (j.step e).saved := by
  cases e with
  | put a => exact le_refl _
  | skip => exact le_refl _
  | save => exact h
  | crash => exact le_refl _

theorem saved_after (h : j.Ordered) (es : List (Event α)) :
    j.saved ≤ (after step j es).saved ∧ (after step j es).Ordered := by
  induction es generalizing j with
  | nil => exact ⟨le_refl _, h⟩
  | cons e es ih =>
    obtain ⟨hle, hord⟩ := ih (ordered_step h e)
    exact ⟨le_trans (saved_step h e) hle, hord⟩

theorem next_after (hes : ∀ e ∈ es, e ≠ .crash) : j.next ≤ (after step j es).next := by
  induction es generalizing j with
  | nil => exact le_refl _
  | cons e es ih =>
    have hrest := ih (j := j.step e) fun e' he' => hes e' (List.mem_cons_of_mem _ he')
    refine le_trans ?_ hrest
    cases e with
    | put a => exact Nat.le_succ _
    | skip => exact Nat.le_succ _
    | save => exact le_refl _
    | crash => exact absurd rfl (hes .crash List.mem_cons_self)

/-- **Saved records stay.** A record put under a new number and saved before a crash is
    found, under a number that is given out, after any run. -/
theorem kept_after_save (h : j.Ordered) (hnew : j.cells j.next = none)
    (hes : ∀ e ∈ es, e ≠ .crash) (es' : List (Event α)) :
    j.next < (after step j (.put a :: es ++ .save :: es')).next ∧
    (after step j (.put a :: es ++ .save :: es')).cells j.next = some a := by
  have hput : (j.step (.put a)).cells j.next = some a := by
    rw [cells_step, hnew, putAt, if_pos rfl, Option.none_or]
  have hord := (saved_after (ordered_step h (.put a)) es).2
  have hnext : j.next + 1 ≤ (after step (j.step (.put a)) es).next :=
    next_after (j := j.step (.put a)) hes
  rw [List.cons_append, after, after_append, after]
  constructor
  · obtain ⟨hsaved, hord'⟩ := saved_after (ordered_step hord .save) es'
    exact lt_of_lt_of_le hnext (le_trans hsaved hord')
  · exact cells_kept (j := (after step (j.step (.put a)) es).step .save) (cells_kept hput es) es'

end

end Journal

end Journals
