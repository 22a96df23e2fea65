import Mathlib.Tactic

/- Runs of a state machine: a list of actions, taken one after another by a
   step function.

   `EveryStep` speaks about the steps of a run and `EveryState` about the states
   it passes through. An invariant that the steps of a run keep holds of every
   state of it, and what it implies of a step holds of every step.

   `Fallible` has the same for steps that may fail; a run ends with its first
   failure. -/
namespace Runs

variable {σ α : Type} {step : σ → α → σ} {s : σ} {as : List α}

/-- The state after a run. -/
def after (step : σ → α → σ) (s : σ) : List α → σ
  | [] => s
  | a :: as => after step (step s a) as

/-- `P` holds of each step of a run, in the state it is taken in. -/
def EveryStep (step : σ → α → σ) (P : σ → α → Prop) (s : σ) : List α → Prop
  | [] => True
  | a :: as => P s a ∧ EveryStep step P (step s a) as

/-- `P` holds of the first state of a run and of every state after it. -/
def EveryState (step : σ → α → σ) (P : σ → Prop) (s : σ) : List α → Prop
  | [] => P s
  | a :: as => P s ∧ EveryState step P (step s a) as

/-- What the steps of a run show, in order. -/
def trace {β : Type} (step : σ → α → σ) (f : σ → α → Option β) (s : σ) : List α → List β
  | [] => []
  | a :: as => (f s a).toList ++ trace step f (step s a) as

theorem after_append (bs : List α) : after step s (as ++ bs) = after step (after step s as) bs := by
  induction as generalizing s with
  | nil => rfl
  | cons a as ih => exact ih

section
variable {P Q : σ → α → Prop} {I R : σ → Prop}

theorem EveryStep.and (hP : EveryStep step P s as) (hQ : EveryStep step Q s as) :
    EveryStep step (fun s a => P s a ∧ Q s a) s as := by
  induction as generalizing s with
  | nil => trivial
  | cons a as ih => exact ⟨⟨hP.1, hQ.1⟩, ih hP.2 hQ.2⟩

theorem EveryStep.imp (h : ∀ s a, P s a → Q s a) (hP : EveryStep step P s as) :
    EveryStep step Q s as := by
  induction as generalizing s with
  | nil => trivial
  | cons a as ih => exact ⟨h s a hP.1, ih hP.2⟩

theorem EveryStep.append {bs : List α} (h : EveryStep step P s (as ++ bs)) :
    EveryStep step P s as ∧ EveryStep step P (after step s as) bs := by
  induction as generalizing s with
  | nil => exact ⟨trivial, h⟩
  | cons a as ih =>
    obtain ⟨hP, hrest⟩ := h
    exact ⟨⟨hP, (ih hrest).1⟩, (ih hrest).2⟩

theorem EveryStep.of_forall {A : α → Prop} (h : ∀ a ∈ as, A a) :
    EveryStep step (fun _ a => A a) s as := by
  induction as generalizing s with
  | nil => trivial
  | cons a as ih =>
    exact ⟨h a List.mem_cons_self, ih (fun b hb => h b (List.mem_cons_of_mem _ hb))⟩

theorem EveryStep.invariant (hkeep : ∀ s a, I s → P s a → I (step s a))
    (hP : EveryStep step P s as) (hI : I s) : I (after step s as) := by
  induction as generalizing s with
  | nil => exact hI
  | cons a as ih => exact ih hP.2 (hkeep s a hI hP.1)

theorem EveryStep.mono (hkeep : ∀ s a, I s → P s a → Q s a ∧ I (step s a))
    (hP : EveryStep step P s as) (hI : I s) : EveryStep step Q s as := by
  induction as generalizing s with
  | nil => trivial
  | cons a as ih =>
    obtain ⟨hQ, hI'⟩ := hkeep s a hI hP.1
    exact ⟨hQ, ih hP.2 hI'⟩

theorem EveryStep.everyState (hkeep : ∀ s a, I s → P s a → I (step s a)) (hR : ∀ s, I s → R s)
    (hP : EveryStep step P s as) (hI : I s) : EveryState step R s as := by
  induction as generalizing s with
  | nil => exact hR s hI
  | cons a as ih => exact ⟨hR s hI, ih hP.2 (hkeep s a hI hP.1)⟩

/-- A machine whose steps match steps of another, or none, follows it. -/
theorem EveryStep.simulation {τ β : Type} {tstep : τ → β → τ} {label : α → Option β}
    {B : σ → τ → Prop} {t : τ}
    (hsim : ∀ s t a, B s t → P s a → B (step s a) ((label a).elim t (tstep t)))
    (hP : EveryStep step P s as) (h : B s t) :
    B (after step s as) (after tstep t (as.filterMap label)) := by
  induction as generalizing s t with
  | nil => exact h
  | cons a as ih =>
    have hnext := hsim s t a h hP.1
    cases hl : label a with
    | none =>
      rw [hl] at hnext
      rw [List.filterMap_cons_none hl]
      exact ih hP.2 hnext
    | some b =>
      rw [hl] at hnext
      rw [List.filterMap_cons_some hl]
      exact ih hP.2 hnext

/-- And shows the same, if the steps that match do. -/
theorem EveryStep.trace_simulation {τ β γ : Type} {tstep : τ → β → τ} {label : α → Option β}
    {B : σ → τ → Prop} {t : τ} {f : σ → α → Option γ} {g : τ → β → Option γ}
    (hsim : ∀ s t a, B s t → P s a → B (step s a) ((label a).elim t (tstep t)))
    (hshow : ∀ s t a, B s t → P s a → f s a = (label a).bind (g t))
    (hP : EveryStep step P s as) (h : B s t) :
    trace step f s as = trace tstep g t (as.filterMap label) := by
  induction as generalizing s t with
  | nil => rfl
  | cons a as ih =>
    have hnext := hsim s t a h hP.1
    rw [trace, hshow s t a h hP.1]
    cases hl : label a with
    | none =>
      rw [hl] at hnext
      rw [List.filterMap_cons_none hl]
      exact ih hP.2 hnext
    | some b =>
      rw [hl] at hnext
      rw [List.filterMap_cons_some hl, trace, ih hP.2 hnext]
      rfl

end

/-! ## Steps that may fail -/

namespace Fallible

section
variable {α β ε : Type}

theorem bind_eq_ok {x : Except ε α} {f : α → Except ε β} {r : β} :
    (x >>= f) = .ok r ↔ ∃ a, x = .ok a ∧ f a = .ok r := by
  cases x with
  | error e => simp [bind, Except.bind]
  | ok a => simp [bind, Except.bind]

@[simp] theorem ok_bind (a : α) (f : α → Except ε β) : ((.ok a : Except ε α) >>= f) = f a := rfl

end

variable {σ α ε : Type} {step : σ → α → Except ε σ} {s : σ} {as : List α}

/-- The state after a run, or its failure. -/
def outcome (step : σ → α → Except ε σ) (s : σ) : List α → Except ε σ
  | [] => .ok s
  | a :: as => step s a >>= fun s' => outcome step s' as

/-- `P` holds of each step of a run, in the state it is taken in. -/
def EveryStep (step : σ → α → Except ε σ) (P : σ → α → Prop) (s : σ) : List α → Prop
  | [] => True
  | a :: as => P s a ∧ ∀ s', step s a = .ok s' → EveryStep step P s' as

/-- `P` holds of the first state of a run and of every state it reaches. -/
def EveryState (step : σ → α → Except ε σ) (P : σ → Prop) (s : σ) : List α → Prop
  | [] => P s
  | a :: as => P s ∧ ∀ s', step s a = .ok s' → EveryState step P s' as

theorem outcome_cons_eq_ok {a : α} {s'' : σ} :
    outcome step s (a :: as) = .ok s'' ↔
      ∃ s', step s a = .ok s' ∧ outcome step s' as = .ok s'' := by
  rw [outcome, bind_eq_ok]

theorem outcome_append (bs : List α) :
    outcome step s (as ++ bs) = outcome step s as >>= fun s' => outcome step s' bs := by
  induction as generalizing s with
  | nil => rfl
  | cons a as ih =>
    rw [List.cons_append, outcome, outcome]
    cases step s a with
    | error e => rfl
    | ok s' => exact ih

theorem outcome_map {β : Type} {step : σ → β → Except ε σ} (g : α → β) :
    outcome step s (as.map g) = outcome (fun s a => step s (g a)) s as := by
  induction as generalizing s with
  | nil => rfl
  | cons a as ih =>
    rw [List.map_cons, outcome, outcome]
    cases step s (g a) with
    | error e => rfl
    | ok s' => exact ih

section
variable {P Q R' : σ → α → Prop} {I R : σ → Prop}

theorem EveryStep.of_all (h : ∀ s a, P s a) : EveryStep step P s as := by
  induction as generalizing s with
  | nil => trivial
  | cons a as ih => exact ⟨h s a, fun _ _ => ih⟩

theorem EveryStep.append {bs : List α} (h : EveryStep step P s (as ++ bs)) :
    EveryStep step P s as ∧
      ∀ s', outcome step s as = .ok s' → EveryStep step P s' bs := by
  induction as generalizing s with
  | nil => exact ⟨trivial, fun s' hs' => Except.ok.inj hs' ▸ h⟩
  | cons a as ih =>
    refine ⟨⟨h.1, fun s' hs' => (ih (h.2 s' hs')).1⟩, fun s'' hs'' => ?_⟩
    obtain ⟨s', hs', hrun⟩ := outcome_cons_eq_ok.mp hs''
    exact (ih (h.2 s' hs')).2 s'' hrun

theorem EveryStep.cons_ok {a : α} {s' : σ} (h : step s a = .ok s') :
    EveryStep step P s (a :: as) ↔ P s a ∧ EveryStep step P s' as := by
  rw [EveryStep, h]
  constructor
  · exact fun hs => ⟨hs.1, hs.2 s' rfl⟩
  · rintro ⟨hP, hs⟩
    exact ⟨hP, fun s'' hs'' => Except.ok.inj hs'' ▸ hs⟩

theorem EveryStep.cons_error {a : α} {e : ε} (h : step s a = .error e) :
    EveryStep step P s (a :: as) ↔ P s a := by
  rw [EveryStep, h]
  exact ⟨fun hs => hs.1, fun hP => ⟨hP, fun s' hs' => by cases hs'⟩⟩

/-- A run can be checked by taking its steps. -/
instance EveryStep.decidable [∀ s a, Decidable (P s a)] :
    ∀ s as, Decidable (EveryStep step P s as)
  | _, [] => isTrue trivial
  | s, a :: as =>
    match h : step s a with
    | .error _ => decidable_of_iff _ (cons_error h).symm
    | .ok s' =>
      have := EveryStep.decidable s' as
      decidable_of_iff _ (cons_ok h).symm

theorem EveryStep.and (hP : EveryStep step P s as) (hQ : EveryStep step Q s as) :
    EveryStep step (fun s a => P s a ∧ Q s a) s as := by
  induction as generalizing s with
  | nil => trivial
  | cons a as ih => exact ⟨⟨hP.1, hQ.1⟩, fun s' hs' => ih (hP.2 s' hs') (hQ.2 s' hs')⟩

theorem EveryStep.invariant (hkeep : ∀ {s a s'}, I s → P s a → step s a = .ok s' → I s')
    (hP : EveryStep step P s as) (hI : I s) {s'' : σ} (hrun : outcome step s as = .ok s'') :
    I s'' := by
  induction as generalizing s with
  | nil => exact Except.ok.inj hrun ▸ hI
  | cons a as ih =>
    obtain ⟨s', hs', hrun⟩ := outcome_cons_eq_ok.mp hrun
    exact ih (hP.2 s' hs') (hkeep hI hP.1 hs') hrun

/-- What an invariant implies of a state holds of every state a run reaches whose
    steps keep the invariant. -/
theorem EveryStep.everyState
    (hkeep : ∀ {s a s'}, I s → P s a → step s a = .ok s' → I s') (hR : ∀ {s}, I s → R s)
    (hP : EveryStep step P s as) (hI : I s) : EveryState step R s as := by
  induction as generalizing s with
  | nil => exact hR hI
  | cons a as ih => exact ⟨hR hI, fun s' hs' => ih (hP.2 s' hs') (hkeep hI hP.1 hs')⟩

/-- When the steps that keep an invariant are those that meet `Q`, and the others
    lead to a state without `R`, a run keeps to `R` exactly if its steps meet `Q`. -/
theorem EveryStep.everyState_iff
    (hkeep : ∀ {s a s'}, I s → P s a → step s a = .ok s' → Q s a → I s')
    (hneed : ∀ {s a s'}, I s → P s a → step s a = .ok s' → R s' → Q s a)
    (hR : ∀ {s}, I s → R s) (hP : EveryStep step P s as) (hI : I s)
    {s'' : σ} (hrun : outcome step s as = .ok s'') :
    EveryState step R s as ↔ EveryStep step Q s as := by
  induction as generalizing s with
  | nil => exact ⟨fun _ => trivial, fun _ => hR hI⟩
  | cons a as ih =>
    obtain ⟨s', hs', hrun⟩ := outcome_cons_eq_ok.mp hrun
    have hfirst : EveryState step R s' as → R s' := by
      cases as with
      | nil => exact fun h => h
      | cons b as => exact fun h => h.1
    constructor
    · intro h
      have hQ := hneed hI hP.1 hs' (hfirst (h.2 s' hs'))
      exact (cons_ok hs').mpr
        ⟨hQ, (ih (hP.2 s' hs') (hkeep hI hP.1 hs' hQ) hrun).mp (h.2 s' hs')⟩
    · intro h
      refine ⟨hR hI, fun t ht => ?_⟩
      obtain rfl := Except.ok.inj (hs'.symm.trans ht)
      exact (ih (hP.2 s' hs') (hkeep hI hP.1 hs' h.1) hrun).mpr (h.2 s' hs')

/-- When the steps return, and lead to the invariant exactly if they meet `Q`, a run keeps
    the invariant exactly if its steps meet `Q`. -/
theorem EveryStep.everyState_iff_of_ok
    (hstep : ∀ {s a}, I s → P s a → ∃ s', step s a = .ok s' ∧ (I s' ↔ Q s a))
    (hP : EveryStep step P s as) (hI : I s) : EveryState step I s as ↔ EveryStep step Q s as := by
  induction as generalizing s with
  | nil => exact ⟨fun _ => trivial, fun _ => hI⟩
  | cons a as ih =>
    obtain ⟨s', hs', hiff⟩ := hstep hI hP.1
    have hrest := hP.2 s' hs'
    rw [cons_ok hs']
    constructor
    · intro h
      have hkept := h.2 s' hs'
      have hI' : I s' := by
        cases as with
        | nil => exact hkept
        | cons b as => exact hkept.1
      exact ⟨hiff.mp hI', (ih hrest hI').mp hkept⟩
    · intro h
      refine ⟨hI, fun t ht => ?_⟩
      obtain rfl := Except.ok.inj (hs'.symm.trans ht)
      exact (ih hrest (hiff.mpr h.1)).mpr h.2

/-- When the invariant makes `R` and `Q` the same of a step, and the steps that meet
    `Q` keep it, the steps of a run meet `R` exactly if they meet `Q`. -/
theorem EveryStep.iff_of_invariant
    (hkeep : ∀ {s a s'}, I s → P s a → Q s a → step s a = .ok s' → I s')
    (hiff : ∀ {s a}, I s → P s a → (R' s a ↔ Q s a)) (hP : EveryStep step P s as) (hI : I s) :
    EveryStep step R' s as ↔ EveryStep step Q s as := by
  induction as generalizing s with
  | nil => exact Iff.rfl
  | cons a as ih =>
    have hfirst := hiff hI hP.1
    constructor
    · intro h
      have hQ := hfirst.mp h.1
      exact ⟨hQ, fun s' hs' => (ih (hP.2 s' hs') (hkeep hI hP.1 hQ hs')).mp (h.2 s' hs')⟩
    · intro h
      refine ⟨hfirst.mpr h.1, fun s' hs' => ?_⟩
      exact (ih (hP.2 s' hs') (hkeep hI hP.1 h.1 hs')).mpr (h.2 s' hs')

/-- A run whose steps lead from the invariant to the invariant ends. -/
theorem EveryStep.outcome_ok
    (hstep : ∀ {s a}, I s → P s a → ∃ s', step s a = .ok s' ∧ I s')
    (hP : EveryStep step P s as) (hI : I s) : ∃ s', outcome step s as = .ok s' ∧ I s' := by
  induction as generalizing s with
  | nil => exact ⟨s, rfl, hI⟩
  | cons a as ih =>
    obtain ⟨s', hs', hI'⟩ := hstep hI hP.1
    obtain ⟨s'', hrun, hI''⟩ := ih (hP.2 s' hs') hI'
    exact ⟨s'', outcome_cons_eq_ok.mpr ⟨s', hs', hrun⟩, hI''⟩

end

/-! ### Steps that answer -/

section
variable {τ ρ : Type} {step : σ → α → Except ε (σ × ρ)} {P : σ → α → Prop}

/-- The state after a run, and what its steps answered. -/
def answers (step : σ → α → Except ε (σ × ρ)) (s : σ) : List α → Except ε (σ × List ρ)
  | [] => .ok (s, [])
  | a :: as => do
    let (s', r) ← step s a
    let (s'', rs) ← answers step s' as
    .ok (s'', r :: rs)

/-- The same for steps that never fail. -/
def replies (step : τ → α → τ × ρ) (t : τ) : List α → τ × List ρ
  | [] => (t, [])
  | a :: as => ((replies step (step t a).1 as).1, (step t a).2 :: (replies step (step t a).1 as).2)

theorem replies_eq {σ : Type} {step : σ → α → σ × ρ} {tstep : τ → α → τ × ρ} {B : σ → τ → Prop}
    {A : α → Prop}
    (hsim : ∀ s t a, B s t → A a →
      (step s a).2 = (tstep t a).2 ∧ B (step s a).1 (tstep t a).1)
    {s : σ} {t : τ} {as : List α} (hA : ∀ a ∈ as, A a) (h : B s t) :
    (replies step s as).2 = (replies tstep t as).2 := by
  induction as generalizing s t with
  | nil => rfl
  | cons a as ih =>
    obtain ⟨hreply, hnext⟩ := hsim s t a h (hA a List.mem_cons_self)
    rw [replies, replies, hreply, ih (fun x hx => hA x (List.mem_cons_of_mem _ hx)) hnext]

theorem replies_eq_map_iff {step : τ → α → τ × ρ} {f : α → ρ} {t : τ} {as : List α} :
    (replies step t as).2 = as.map f ↔ ∀ pre a rest, as = pre ++ a :: rest →
      (step (after (fun t a => (step t a).1) t pre) a).2 = f a := by
  induction as generalizing t with
  | nil =>
    refine ⟨fun _ pre a rest h => ?_, fun _ => rfl⟩
    cases pre <;> cases h
  | cons b bs ih =>
    rw [replies, List.map_cons, List.cons.injEq, ih]
    constructor
    · rintro ⟨hfirst, hrest⟩ pre a rest h
      cases pre with
      | nil =>
        obtain ⟨rfl, -⟩ := List.cons.inj h
        exact hfirst
      | cons c pre =>
        obtain ⟨rfl, hbs⟩ := List.cons.inj h
        exact hrest pre a rest hbs
    · intro h
      exact ⟨h [] b bs rfl, fun pre a rest hbs => h (b :: pre) a rest (by rw [hbs]; rfl)⟩

/-- A run whose steps answer as those of a machine that never fails; the relation may
    depend on what is still to come. -/
theorem EveryStep.answers_eq {tstep : τ → α → τ × ρ} {B : List α → σ → τ → Prop} {t : τ}
    (hsim : ∀ {a as s t}, B (a :: as) s t → P s a →
      ∃ s', step s a = .ok (s', (tstep t a).2) ∧ B as s' (tstep t a).1)
    (hP : EveryStep (fun s a => (step s a).map Prod.fst) P s as) (h : B as s t) :
    ∃ s', answers step s as = .ok (s', (replies tstep t as).2) ∧
      B [] s' (replies tstep t as).1 := by
  induction as generalizing s t with
  | nil => exact ⟨s, rfl, h⟩
  | cons a as ih =>
    obtain ⟨hfirst, hrest⟩ := hP
    obtain ⟨s', hs', hrel⟩ := hsim h hfirst
    have hok : (step s a).map Prod.fst = .ok s' := by
      rw [hs']
      rfl
    obtain ⟨s'', hrun, hend⟩ := ih (hrest s' hok) hrel
    refine ⟨s'', ?_, hend⟩
    rw [answers, hs', ok_bind]
    dsimp only
    rw [hrun]
    rfl

/-- A run returns whose steps return, and the same with every machine that takes these
    steps; the invariant may depend on what is still to come. -/
theorem EveryStep.answers_ok {ι : Type} {steps : ι → σ → α → Except ε (σ × ρ)} {i : ι}
    {I : List α → σ → Prop}
    (hstep : ∀ {a as s}, I (a :: as) s → P s a →
      ∃ s' r, (∀ j, steps j s a = .ok (s', r)) ∧ I as s')
    (hP : EveryStep (fun s a => (steps i s a).map Prod.fst) P s as) (hI : I as s) :
    ∃ s' rs, ∀ j, answers (steps j) s as = .ok (s', rs) := by
  induction as generalizing s with
  | nil => exact ⟨s, [], fun _ => rfl⟩
  | cons a as ih =>
    obtain ⟨hfirst, hrest⟩ := hP
    obtain ⟨s', r, hs', hI'⟩ := hstep hI hfirst
    have hok : (steps i s a).map Prod.fst = .ok s' := by
      rw [hs' i]
      rfl
    obtain ⟨s'', rs, hrun⟩ := ih (hrest s' hok) hI'
    refine ⟨s'', r :: rs, fun j => ?_⟩
    rw [answers, hs' j, ok_bind]
    dsimp only
    rw [hrun j]
    rfl

theorem answers_cons_eq_ok {a : α} {s'' : σ} {rs : List ρ} :
    answers step s (a :: as) = .ok (s'', rs) ↔
      ∃ s' r rs', step s a = .ok (s', r) ∧ answers step s' as = .ok (s'', rs') ∧ rs = r :: rs' := by
  rw [answers, bind_eq_ok]
  constructor
  · rintro ⟨⟨s', r⟩, hs', h⟩
    obtain ⟨⟨s₂, rs'⟩, hrun, h⟩ := bind_eq_ok.mp h
    obtain ⟨rfl, rfl⟩ := Prod.mk.inj (Except.ok.inj h)
    exact ⟨s', r, rs', hs', hrun, rfl⟩
  · rintro ⟨s', r, rs', hs', hrun, rfl⟩
    refine ⟨(s', r), hs', ?_⟩
    dsimp only
    rw [hrun]
    rfl

theorem answers_invariant {I : σ → Prop}
    (hkeep : ∀ {s a s' r}, I s → step s a = .ok (s', r) → I s') (hI : I s) {s'' : σ}
    {rs : List ρ} (hrun : answers step s as = .ok (s'', rs)) : I s'' := by
  induction as generalizing s rs with
  | nil =>
    obtain ⟨rfl, -⟩ := Prod.mk.inj (Except.ok.inj hrun)
    exact hI
  | cons a as ih =>
    obtain ⟨s', r, rs', hs', hrun, -⟩ := answers_cons_eq_ok.mp hrun
    exact ih (hkeep hI hs') hrun

/-- A run answers as a machine that never fails does from some state, when each step can
    be traced back from the state it leads to. -/
theorem answers_backward {tstep : τ → α → τ × ρ} {I : σ → Prop} {B : σ → τ → Prop}
    (hkeep : ∀ {s a s' r}, I s → step s a = .ok (s', r) → I s')
    (hback : ∀ {s a s' r t'}, I s → step s a = .ok (s', r) → B s' t' →
      ∃ t, B s t ∧ tstep t a = (t', r))
    (hI : I s) {s'' : σ} {rs : List ρ} (hrun : answers step s as = .ok (s'', rs)) {t'' : τ}
    (hend : B s'' t'') : ∃ t, B s t ∧ replies tstep t as = (t'', rs) := by
  induction as generalizing s rs with
  | nil =>
    obtain ⟨rfl, rfl⟩ := Prod.mk.inj (Except.ok.inj hrun)
    exact ⟨t'', hend, rfl⟩
  | cons a as ih =>
    obtain ⟨s', r, rs', hs', hrest, rfl⟩ := answers_cons_eq_ok.mp hrun
    obtain ⟨t', hrel, hreplies⟩ := ih (hkeep hI hs') hrest
    obtain ⟨t, hfirst, hstep⟩ := hback hI hs' hrel
    refine ⟨t, hfirst, ?_⟩
    rw [replies, hstep, hreplies]

end

end Fallible

end Runs
