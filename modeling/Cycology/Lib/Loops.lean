import Mathlib.Logic.Relation
import Cycology.Lib.Runs

/- While loops whose body may fail.

   `loop cond body e` takes turns as long as `cond` holds, and fails with `e` if
   that takes more of them than it was given. What a loop does apart from that bound is
   said of the states it comes to (`Reaches`): it returns exactly the one that ends it.
   Two rules cover the loops of a program: `loop_total` with a measure, and
   `loop_counted` with an invariant that knows the number of turns taken. -/
namespace Loops
open Runs.Fallible Relation

variable {σ ε : Type} {cond : σ → Prop} {body : σ → Except ε σ} {s s' w : σ} {n m : Nat}

/-- One turn, from `s` to `s'`. -/
def Turn (cond : σ → Prop) (body : σ → Except ε σ) (s s' : σ) : Prop :=
  cond s ∧ body s = .ok s'

/-- The loop comes from `s` to `s'`. -/
def Reaches (cond : σ → Prop) (body : σ → Except ε σ) : σ → σ → Prop :=
  ReflTransGen (Turn cond body)

theorem Reaches.invariant {I : σ → Prop} (h : Reaches cond body s s') (hI : I s)
    (hturn : ∀ s w, I s → Turn cond body s w → I w) : I s' := by
  induction h with
  | refl => exact hI
  | tail _ hlast ih => exact hturn _ _ ih hlast

/-- With an invariant that counts the turns, the loop comes to no other states than
    those of the first `m` counts. -/
theorem Reaches.counted {I : Nat → σ → Prop} (h : Reaches cond body s s') (hI : I 0 s)
    (hturn : ∀ k < m, ∀ s w, I k s → Turn cond body s w → I (k + 1) w)
    (hend : ∀ s, I m s → ¬ cond s) : ∃ k ≤ m, I k s' := by
  induction h with
  | refl => exact ⟨0, Nat.zero_le m, hI⟩
  | tail _ hlast ih =>
    obtain ⟨k, hk, hIk⟩ := ih
    have hlt : k < m := by
      apply lt_of_le_of_ne hk
      rintro rfl
      exact hend _ hIk hlast.1
    exact ⟨k + 1, hlt, hturn k hlt _ _ hIk hlast⟩

/-- `while (cond) body`, for so many turns at most. -/
def loop (cond : σ → Prop) [DecidablePred cond] (body : σ → Except ε σ) (e : ε) :
    Nat → σ → Except ε σ
  | 0, s => if cond s then .error e else .ok s
  | n + 1, s => if cond s then body s >>= loop cond body e n else .ok s

section
variable [DecidablePred cond] {e : ε}

theorem loop_of_not (h : ¬ cond s) : loop cond body e n s = .ok s := by
  cases n with
  | zero => exact if_neg h
  | succ n => exact if_neg h

theorem loop_zero (h : cond s) : loop cond body e 0 s = .error e := if_pos h

theorem loop_turn (h : Turn cond body s w) :
    loop cond body e (n + 1) s = loop cond body e n w := by
  rw [loop, if_pos h.1, h.2, ok_bind]

theorem exists_turn (h : cond s) (hok : loop cond body e n s = .ok s') :
    ∃ k w, n = k + 1 ∧ Turn cond body s w ∧ loop cond body e k w = .ok s' := by
  cases n with
  | zero =>
    rw [loop_zero h] at hok
    cases hok
  | succ k =>
    rw [loop, if_pos h] at hok
    obtain ⟨w, hw, hrest⟩ := bind_eq_ok.mp hok
    exact ⟨k, w, rfl, ⟨h, hw⟩, hrest⟩

/-- What a loop returns is a state it comes to, and ends it. -/
theorem reaches_of_loop (hok : loop cond body e n s = .ok s') :
    Reaches cond body s s' ∧ ¬ cond s' := by
  induction n generalizing s with
  | zero =>
    by_cases h : cond s
    · rw [loop_zero h] at hok
      cases hok
    · rw [loop_of_not h] at hok
      cases hok
      exact ⟨.refl, h⟩
  | succ n ih =>
    by_cases h : cond s
    · obtain ⟨k, w, hk, hturn, hrest⟩ := exists_turn h hok
      cases hk
      obtain ⟨hreach, hend⟩ := ih hrest
      exact ⟨.head hturn hreach, hend⟩
    · rw [loop_of_not h] at hok
      cases hok
      exact ⟨.refl, h⟩

theorem loop_mono (hok : loop cond body e n s = .ok s') (hle : n ≤ m) :
    loop cond body e m s = .ok s' := by
  induction n generalizing s m with
  | zero =>
    by_cases h : cond s
    · rw [loop_zero h] at hok
      cases hok
    · rw [loop_of_not h] at hok ⊢
      exact hok
  | succ n ih =>
    by_cases h : cond s
    · obtain ⟨k, w, hk, hturn, hrest⟩ := exists_turn h hok
      cases hk
      obtain ⟨m, rfl⟩ : ∃ m', m = m' + 1 := ⟨m - 1, by omega⟩
      rw [loop_turn hturn]
      exact ih hrest (by omega)
    · rw [loop_of_not h] at hok ⊢
      exact hok

/-- A loop every turn of which is taken and lowers a measure returns, in as many turns
    as the measure says. -/
theorem loop_total {I : σ → Prop} {μ : σ → Nat}
    (hturn : ∀ s, I s → cond s → ∃ w, body s = .ok w ∧ I w ∧ μ w < μ s)
    (hI : I s) (hμ : μ s ≤ n) : ∃ s', loop cond body e n s = .ok s' ∧ I s' ∧ ¬ cond s' := by
  induction n generalizing s with
  | zero =>
    by_cases h : cond s
    · obtain ⟨w, -, -, hlt⟩ := hturn s hI h
      omega
    · exact ⟨s, loop_of_not h, hI, h⟩
  | succ n ih =>
    by_cases h : cond s
    · obtain ⟨w, hw, hIw, hlt⟩ := hturn s hI h
      obtain ⟨s', hs', hend⟩ := ih hIw (by omega)
      exact ⟨s', by rw [loop_turn ⟨h, hw⟩, hs'], hend⟩
    · exact ⟨s, loop_of_not h, hI, h⟩

/-- With an invariant that counts the turns, a loop that can take them all returns after
    the last. -/
theorem loop_counted {I : Nat → σ → Prop} (hI : I 0 s)
    (hturn : ∀ k < m, ∀ s, I k s → ∃ w, Turn cond body s w ∧ I (k + 1) w)
    (hend : ∀ s, I m s → ¬ cond s) : ∃ s', loop cond body e m s = .ok s' ∧ I m s' := by
  induction m generalizing s I with
  | zero => exact ⟨s, loop_of_not (hend s hI), hI⟩
  | succ m ih =>
    obtain ⟨w, hw, hIw⟩ := hturn 0 (Nat.succ_pos m) s hI
    obtain ⟨s', hs', hI'⟩ := ih (I := fun k => I (k + 1)) hIw
      (fun k hk => hturn (k + 1) (by omega)) hend
    exact ⟨s', by rw [loop_turn hw, hs'], hI'⟩

end

end Loops
