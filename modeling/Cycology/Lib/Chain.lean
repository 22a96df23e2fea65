import Mathlib.Tactic
import Mathlib.Data.List.Nodup

/- Chains: singly linked structures seen as lists.

   `Chain next o l` says that following `next` from `o` visits exactly the
   nodes of `l`, in order, and then stops. A chain is determined by where it
   starts, never repeats a node, and only depends on `next` at its own nodes;
   these three facts carry every argument about linked lists in memory, on a
   device or in an array. -/
namespace LinkedChain

variable {α : Type} {next next' : α → Option α}

/-- Following `next` from `o` visits the nodes of `l` and stops. -/
def Chain (next : α → Option α) : Option α → List α → Prop
  | o, [] => o = none
  | o, a :: l => o = some a ∧ Chain next (next a) l

/-- Whether a list is the chain from `o` can be checked along it. -/
instance Chain.decidable [DecidableEq α] : ∀ o l, Decidable (Chain next o l)
  | o, [] => inferInstanceAs (Decidable (o = none))
  | o, a :: l =>
    have : Decidable (Chain next (next a) l) := Chain.decidable (next a) l
    inferInstanceAs (Decidable (o = some a ∧ Chain next (next a) l))

namespace Chain

@[simp] theorem nil_iff {o : Option α} : Chain next o [] ↔ o = none := Iff.rfl

@[simp] theorem cons_iff {o : Option α} {a : α} {l : List α} :
    Chain next o (a :: l) ↔ o = some a ∧ Chain next (next a) l := Iff.rfl

theorem head_eq {o : Option α} {l : List α} (h : Chain next o l) : o = l.head? := by
  cases l with
  | nil => exact h
  | cons a l => exact h.1

theorem exists_cons {a : α} {l : List α} (h : Chain next (some a) l) :
    ∃ t, l = a :: t ∧ Chain next (next a) t := by
  cases l with
  | nil => cases h
  | cons b t =>
    obtain ⟨hb, ht⟩ := h
    cases hb
    exact ⟨t, rfl, ht⟩

theorem eq_nil {l : List α} (h : Chain next none l) : l = [] := by
  cases l with
  | nil => rfl
  | cons a l => cases h.1

theorem unique {o : Option α} {l l' : List α} (h : Chain next o l) (h' : Chain next o l') :
    l = l' := by
  induction l generalizing o l' with
  | nil => subst h; exact h'.eq_nil.symm
  | cons a l ih =>
    obtain ⟨rfl, ht⟩ := h
    obtain ⟨t, rfl, ht'⟩ := h'.exists_cons
    rw [ih ht ht']

theorem suffix {o : Option α} {l₁ l₂ : List α} {a : α} (h : Chain next o (l₁ ++ a :: l₂)) :
    Chain next (some a) (a :: l₂) := by
  induction l₁ generalizing o with
  | nil => exact ⟨rfl, h.2⟩
  | cons b l₁ ih => exact ih h.2

theorem nodup {o : Option α} {l : List α} (h : Chain next o l) : l.Nodup := by
  induction l generalizing o with
  | nil => exact List.nodup_nil
  | cons a l ih =>
    obtain ⟨rfl, ht⟩ := h
    refine List.nodup_cons.mpr ⟨fun ha => ?_, ih ht⟩
    obtain ⟨l₁, l₂, rfl⟩ := List.append_of_mem ha
    -- the chain from the second `a` would be the chain from the first
    have heq := unique (show Chain next (some a) (a :: (l₁ ++ a :: l₂)) from ⟨rfl, ht⟩) ht.suffix
    have hlen := congrArg List.length heq
    simp at hlen; omega

theorem congr {o : Option α} {l : List α} (h : Chain next o l)
    (heq : ∀ a ∈ l, next' a = next a) : Chain next' o l := by
  induction l generalizing o with
  | nil => exact h
  | cons a l ih =>
    refine ⟨h.1, ?_⟩
    rw [heq a List.mem_cons_self]
    exact ih h.2 fun b hb => heq b (List.mem_cons_of_mem _ hb)

theorem next_mem {o : Option α} {l : List α} (h : Chain next o l) {a b : α} (ha : a ∈ l)
    (hb : next a = some b) : b ∈ l := by
  obtain ⟨l₁, l₂, rfl⟩ := List.append_of_mem ha
  have hs := h.suffix.2
  rw [hb] at hs
  obtain ⟨t, rfl, -⟩ := hs.exists_cons
  simp

theorem next_last {o : Option α} {l : List α} {a : α} (h : Chain next o (l ++ [a])) :
    next a = none := h.suffix.2

/-- Redirecting the last node's link to a fresh end extends the chain by it. -/
theorem append {o : Option α} {l : List α} {a b : α} (h : Chain next o (l ++ [a]))
    (heq : ∀ c ∈ l, next' c = next c) (ha : next' a = some b) (hb : next' b = none) :
    Chain next' o (l ++ [a, b]) := by
  induction l generalizing o with
  | nil => exact ⟨h.1, ha, hb⟩
  | cons c l ih =>
    refine ⟨h.1, ?_⟩
    rw [heq c List.mem_cons_self]
    exact ih h.2 fun d hd => heq d (List.mem_cons_of_mem _ hd)

theorem of_range' {next : Nat → Option Nat} {a b : Nat} (hab : a < b)
    (hlink : ∀ p, a ≤ p → p + 1 < b → next p = some (p + 1)) (hlast : next (b - 1) = none) :
    Chain next (some a) (List.range' a (b - a)) := by
  obtain ⟨count, rfl⟩ : ∃ count, b = a + count + 1 := ⟨b - a - 1, by omega⟩
  rw [show a + count + 1 - a = count + 1 by omega]
  induction count generalizing a with
  | zero => exact ⟨rfl, hlast⟩
  | succ count ih =>
    refine ⟨rfl, ?_⟩
    rw [hlink a (le_refl a) (by omega)]
    have heq : a + (count + 1) + 1 = a + 1 + count + 1 := by omega
    rw [heq] at hlink hlast
    exact ih (by omega) (fun p hp => hlink p (by omega)) hlast

end Chain

/-! ## Chains and cycles -/

section
open Relation

/-- The link of `a` leads to `b`. -/
def Link (next : α → Option α) (a b : α) : Prop := next a = some b

theorem Chain.mem_of_leads {o : Option α} {l : List α} (h : Chain next o l) {a b : α}
    (ha : a ∈ l) (hab : ReflTransGen (Link next) a b) : b ∈ l := by
  induction hab with
  | refl => exact ha
  | tail _ hlast ih => exact h.next_mem ih hlast

theorem Chain.acyclic {o : Option α} {l : List α} (h : Chain next o l) {a : α} (ha : a ∈ l) :
    ¬ TransGen (Link next) a a := by
  intro hcycle
  obtain ⟨l₁, l₂, rfl⟩ := List.append_of_mem ha
  have hsuffix := h.suffix
  obtain ⟨b, hab, hba⟩ := TransGen.head'_iff.mp hcycle
  have hb : b ∈ l₂ := by
    have hnext := hsuffix.2
    rw [show next a = some b from hab] at hnext
    obtain ⟨t, rfl, -⟩ := hnext.exists_cons
    exact List.mem_cons_self
  have hnd := hsuffix.nodup
  rw [List.nodup_cons] at hnd
  exact hnd.1 (hsuffix.2.mem_of_leads hb hba)

/-- Links among finitely many nodes make a chain, if no node leads back to itself. -/
theorem Chain.exists_of_acyclic [DecidableEq α] (S : Finset α) {o : Option α}
    (hS : ∀ a, o = some a → ∀ b, ReflTransGen (Link next) a b → b ∈ S)
    (hacyclic : ∀ a, o = some a → ∀ b, ReflTransGen (Link next) a b →
      ¬ TransGen (Link next) b b) : ∃ l, Chain next o l := by
  induction hcard : S.card generalizing S o with
  | zero =>
    cases o with
    | none => exact ⟨[], rfl⟩
    | some a =>
      rw [Finset.card_eq_zero] at hcard
      exact absurd (hS a rfl a .refl) (by simp [hcard])
  | succ n ih =>
    cases o with
    | none => exact ⟨[], rfl⟩
    | some a =>
      have ha : a ∈ S := hS a rfl a .refl
      -- the nodes after `a` do not lead back to it
      obtain ⟨l, hl⟩ := ih (S.erase a) (o := next a)
        (fun b hab c hbc => by
          rw [Finset.mem_erase]
          refine ⟨?_, hS a rfl c (.head hab hbc)⟩
          rintro rfl
          exact hacyclic c rfl c .refl (.head' hab hbc))
        (fun b hab c hbc => hacyclic a rfl c (.head hab hbc))
        (by rw [Finset.card_erase_of_mem ha, hcard]; rfl)
      exact ⟨a :: l, rfl, hl⟩

end

/-! ## Passes that stop at what they know -/

section
variable {κ : Type} {key : α → κ}

/-- Following `next` from `o` visits the nodes of `l`, whose keys are new, and comes to
    `q`: the end, or a node with a key that was `seen` or one of a node of `l`. -/
def Pass (next : α → Option α) (key : α → κ) :
    List κ → Option α → List α → Option α → Prop
  | seen, o, [], q => q = o ∧ ∀ a, o = some a → key a ∈ seen
  | seen, o, a :: l, q => o = some a ∧ key a ∉ seen ∧ Pass next key (key a :: seen) (next a) l q

namespace Pass
variable {seen : List κ} {o q q' : Option α} {l l' : List α}

theorem unique (h : Pass next key seen o l q) (h' : Pass next key seen o l' q') :
    l = l' ∧ q = q' := by
  induction l generalizing seen o l' with
  | nil =>
    obtain ⟨rfl, hseen⟩ := h
    cases l' with
    | nil => exact ⟨rfl, h'.1.symm⟩
    | cons a l' => exact absurd (hseen a h'.1) h'.2.1
  | cons a l ih =>
    obtain ⟨rfl, hnew, hrest⟩ := h
    cases l' with
    | nil => exact absurd (h'.2 a rfl) hnew
    | cons b l' =>
      obtain ⟨hab, -, hrest'⟩ := h'
      cases hab
      obtain ⟨rfl, rfl⟩ := ih hrest hrest'
      exact ⟨rfl, rfl⟩

theorem nodup (h : Pass next key seen o l q) :
    (l.map key).Nodup ∧ ∀ a ∈ l, key a ∉ seen := by
  induction l generalizing seen o with
  | nil => exact ⟨List.nodup_nil, by simp⟩
  | cons a l ih =>
    obtain ⟨rfl, hnew, hrest⟩ := h
    obtain ⟨hnd, hold⟩ := ih hrest
    refine ⟨List.nodup_cons.mpr ⟨fun hmem => ?_, hnd⟩, fun b hb => ?_⟩
    · obtain ⟨b, hb, hkey⟩ := List.mem_map.mp hmem
      exact hold b hb (hkey ▸ List.mem_cons_self)
    · rcases List.mem_cons.mp hb with rfl | hb
      · exact hnew
      · exact fun hseen => hold b hb (List.mem_cons_of_mem _ hseen)

theorem of_chain (h : Chain next o l) (hnd : (l.map key).Nodup)
    (hnew : ∀ a ∈ l, key a ∉ seen) : Pass next key seen o l none := by
  induction l generalizing seen o with
  | nil => exact ⟨h.symm, fun a ha => by rw [h] at ha; cases ha⟩
  | cons a l ih =>
    obtain ⟨hhead, hrest⟩ := h
    obtain ⟨ha, hnd⟩ := List.nodup_cons.mp hnd
    refine ⟨hhead, hnew a List.mem_cons_self, ih hrest hnd fun b hb hseen => ?_⟩
    rcases List.mem_cons.mp hseen with heq | hseen
    · exact ha (heq ▸ List.mem_map_of_mem hb)
    · exact hnew b (List.mem_cons_of_mem _ hb) hseen

theorem key_mem (h : Pass next key seen o l q) {a : α} (hq : q = some a) :
    key a ∈ l.map key ∨ key a ∈ seen := by
  induction l generalizing seen o with
  | nil => exact .inr (h.2 a (h.1 ▸ hq))
  | cons b l ih =>
    rcases ih h.2.2 with hmem | hmem
    · exact .inl (List.mem_cons_of_mem _ hmem)
    · rcases List.mem_cons.mp hmem with heq | hmem
      · exact .inl (heq ▸ List.mem_cons_self)
      · exact .inr hmem

theorem eq_none (h : Pass next key seen o l q) {a : α} (ha : a ∈ l) (hnext : next a = none) :
    q = none := by
  induction l generalizing seen o with
  | nil => cases ha
  | cons b l ih =>
    obtain ⟨-, -, hrest⟩ := h
    rcases List.mem_cons.mp ha with rfl | ha
    · rw [hnext] at hrest
      cases l with
      | nil => exact hrest.1
      | cons c l => cases hrest.1
    · exact ih hrest ha

open Relation in
theorem leads (h : Pass next key seen o l q) {a : α} (ha : a ∈ l) :
    ∃ b, o = some b ∧ ReflTransGen (Link next) b a := by
  induction l generalizing seen o with
  | nil => cases ha
  | cons b l ih =>
    obtain ⟨rfl, -, hrest⟩ := h
    refine ⟨b, rfl, ?_⟩
    rcases List.mem_cons.mp ha with rfl | ha
    · exact .refl
    · obtain ⟨c, hbc, hca⟩ := ih hrest ha
      exact .head hbc hca

open Relation in
/-- Among finitely many keys there is one from everywhere. -/
theorem exists_of_finite [DecidableEq κ] (S : Finset κ)
    (hS : ∀ a, o = some a → ∀ b, ReflTransGen (Link next) a b → key b ∈ S ∨ key b ∈ seen) :
    ∃ l q, Pass next key seen o l q := by
  induction hcard : S.card generalizing S seen o with
  | zero =>
    rw [Finset.card_eq_zero] at hcard
    refine ⟨[], o, rfl, fun a ha => ?_⟩
    rcases hS a ha a .refl with hmem | hmem
    · simp [hcard] at hmem
    · exact hmem
  | succ n ih =>
    cases o with
    | none => exact ⟨[], none, rfl, by simp⟩
    | some a =>
      by_cases hseen : key a ∈ seen
      · exact ⟨[], some a, rfl, fun b hb => Option.some.inj hb ▸ hseen⟩
      · have ha : key a ∈ S := (hS a rfl a .refl).resolve_right hseen
        -- the rest of the pass has a key fewer to choose from
        have hrest : ∀ b, next a = some b → ∀ c, ReflTransGen (Link next) b c →
            key c ∈ S.erase (key a) ∨ key c ∈ key a :: seen := by
          intro b hab c hbc
          by_cases hkey : key c = key a
          · exact .inr (hkey ▸ List.mem_cons_self)
          · exact (hS a rfl c (.head hab hbc)).imp (fun hmem => Finset.mem_erase.mpr ⟨hkey, hmem⟩)
              (List.mem_cons_of_mem _)
        obtain ⟨l, q, hpass⟩ := ih (S.erase (key a)) hrest
          (by rw [Finset.card_erase_of_mem ha, hcard]; rfl)
        exact ⟨a :: l, q, rfl, hseen, hpass⟩

end Pass

end

/-! ## Links stored as integers, zero for none -/

/-- The address a link holds. -/
def ofLink (v : Int) : Option Nat := if v = 0 then none else some v.toNat

@[simp] theorem ofLink_zero : ofLink 0 = none := rfl

theorem ofLink_eq_none {v : Int} : ofLink v = none ↔ v = 0 := by
  unfold ofLink; split <;> simp_all

theorem ofLink_nat {k : Nat} (hk : 0 < k) : ofLink k = some k := by
  rw [ofLink, if_neg (by omega), Int.toNat_natCast]

theorem ofLink_eq_some {v : Int} {k : Nat} (hk : 0 < k) : ofLink v = some k ↔ v = k := by
  constructor
  · intro h
    unfold ofLink at h
    split at h
    · cases h
    · have := Option.some.inj h
      omega
  · rintro rfl
    exact ofLink_nat hk

/-! ## Links as pointers, `null` for none -/

section
variable [DecidableEq α] {null : α}

/-- Where the pointer `p` leads. -/
def deref (null p : α) : Option α := if p = null then none else some p

@[simp] theorem deref_null : deref null null = none := if_pos rfl

theorem deref_eq_none {p : α} : deref null p = none ↔ p = null := by
  unfold deref
  split <;> simp_all

theorem deref_eq_some {p a : α} : deref null p = some a ↔ p = a ∧ a ≠ null := by
  unfold deref
  split
  · rename_i hp
    simp only [reduceCtorEq, false_iff, not_and, not_not]
    exact fun h => h ▸ hp
  · rename_i hp
    simp only [Option.some.injEq]
    exact ⟨fun h => ⟨h, h ▸ hp⟩, fun h => h.1⟩

/-- Following `link` from the pointer `p` visits the nodes of `l` and ends. -/
def Walk (link : α → α) (null p : α) (l : List α) : Prop :=
  Chain (fun a => deref null (link a)) (deref null p) l

instance {link : α → α} {p : α} {l : List α} : Decidable (Walk link null p l) :=
  inferInstanceAs (Decidable (Chain _ _ _))

theorem Walk.cons_iff {link : α → α} {p a : α} {l : List α} :
    Walk link null p (a :: l) ↔ p = a ∧ a ≠ null ∧ Walk link null (link a) l := by
  unfold Walk
  rw [Chain.cons_iff, deref_eq_some, and_assoc]

theorem Walk.nil_iff {link : α → α} {p : α} : Walk link null p [] ↔ p = null := deref_eq_none

theorem Walk.ne_null {link : α → α} {p a : α} {l : List α} (h : Walk link null p l)
    (ha : a ∈ l) : a ≠ null := by
  induction l generalizing p with
  | nil => cases ha
  | cons b l ih =>
    obtain ⟨-, hb, ht⟩ := Walk.cons_iff.mp h
    rcases List.mem_cons.mp ha with rfl | ha
    · exact hb
    · exact ih ht ha

theorem Walk.head_eq {link : α → α} {p : α} {l : List α} (h : Walk link null p l) :
    l.head?.getD null = p := by
  cases l with
  | nil => exact (Walk.nil_iff.mp h).symm
  | cons a l => exact (Walk.cons_iff.mp h).1.symm

theorem Walk.rest_ne {link : α → α} {p a : α} {l₁ l₂ : List α}
    (h : Walk link null p (a :: (l₁ ++ l₂))) : l₂.head?.getD null ≠ p := by
  obtain ⟨ha, ha0, -⟩ := Walk.cons_iff.mp h
  have hnd : (a :: (l₁ ++ l₂)).Nodup := Chain.nodup h
  rw [ha]
  cases l₂ with
  | nil => exact ha0.symm
  | cons b l₂ =>
    intro hb
    apply (List.nodup_cons.mp hnd).1
    rw [← show b = a from hb]
    simp

theorem Walk.last_next {link : α → α} {p : α} {l : List α} (h : Walk link null p l) {a : α}
    (ha : a ∈ l.getLast?) : link a = null := by
  obtain ⟨l, rfl⟩ := List.getLast?_eq_some_iff.mp ha
  have hchain : Chain (fun a => deref null (link a)) (deref null p) (l ++ [a]) := h
  exact deref_eq_none.mp hchain.next_last

theorem Walk.congr {link link' : α → α} {p : α} {l : List α} (h : Walk link null p l)
    (heq : ∀ a ∈ l, link' a = link a) : Walk link' null p l :=
  Chain.congr h fun a ha => by rw [heq a ha]

theorem Walk.mem_of_links {link link' : α → α} {p a : α} {l₁ l₂ l : List α}
    (h : Walk link null p (l₁ ++ a :: l₂)) (heq : ∀ x ∈ l₁, link' x = link x)
    (h' : Walk link' null p l) : a ∈ l := by
  induction l₁ generalizing p l with
  | nil =>
    obtain ⟨rfl, hp, -⟩ := Walk.cons_iff.mp h
    cases l with
    | nil => exact absurd (Walk.nil_iff.mp h') hp
    | cons b l => exact (Walk.cons_iff.mp h').1 ▸ List.mem_cons_self
  | cons c l₁ ih =>
    obtain ⟨rfl, hp, ht⟩ := Walk.cons_iff.mp h
    cases l with
    | nil => exact absurd (Walk.nil_iff.mp h') hp
    | cons b l =>
      obtain ⟨rfl, -, ht'⟩ := Walk.cons_iff.mp h'
      rw [heq p List.mem_cons_self] at ht'
      exact List.mem_cons_of_mem _ (ih ht (fun x hx => heq x (List.mem_cons_of_mem _ hx)) ht')

theorem Walk.not_mem_of_next {link : α → α} {p : α} {l : List α} (hp : p ≠ null)
    (h : Walk link null (link p) l) : p ∉ l := by
  have hw : Walk link null p (p :: l) := Walk.cons_iff.mpr ⟨rfl, hp, h⟩
  exact (List.nodup_cons.mp (Chain.nodup hw)).1

/-- A node put between the nodes of `l₁` and those of `l₂`: `p'` is where the
    walk starts then. -/
theorem Walk.insert {link link' : α → α} {p p' a q : α} {l₁ l₂ : List α}
    (h₁ : Walk link null p (l₁ ++ l₂)) (h₂ : Walk link null q l₂) (ha : a ≠ null)
    (hstart : p' = if l₁ = [] then a else p)
    (hlast : ∀ x ∈ l₁.getLast?, link' x = a) (hl₁ : ∀ x ∈ l₁.dropLast, link' x = link x)
    (hnew : link' a = q) (hl₂ : ∀ x ∈ l₂, link' x = link x) :
    Walk link' null p' (l₁ ++ a :: l₂) := by
  induction l₁ generalizing p p' with
  | nil =>
    rw [if_pos rfl] at hstart
    rw [List.nil_append, Walk.cons_iff, hnew]
    exact ⟨hstart, ha, h₂.congr hl₂⟩
  | cons b l₁ ih =>
    rw [if_neg (by simp)] at hstart
    obtain ⟨rfl, hb, ht⟩ := Walk.cons_iff.mp h₁
    rw [List.cons_append, Walk.cons_iff]
    refine ⟨hstart, hb, ?_⟩
    cases l₁ with
    | nil =>
      refine ih ht ?_ (by simp) (by simp)
      rw [if_pos rfl, hlast p (by simp)]
    | cons c l₁ =>
      refine ih ht ?_ (fun x hx => hlast x ?_) fun x hx => hl₁ x (by simp [hx])
      · rw [if_neg (by simp), hl₁ p (by simp)]
      · rw [List.getLast?_cons_cons]
        exact hx

end

end LinkedChain
