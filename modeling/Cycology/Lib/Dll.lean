import Cycology.Lib.Chain

/- Doubly linked lists in memory.

   Nodes are addresses, `null` ends a list, and `next` and `prev` give the links
   of a node. `Seg next prev null b h l t e` says that the nodes of `l` are
   linked both ways from first `h` to last `t`, coming from `b` and going on to
   `e`; an empty stretch has `h = e` and `t = b`. A whole list is a stretch from
   `null` to `null` (`Dll`), and these are exactly the lists whose forward walk
   and backward walk list the same nodes in opposite orders (`dll_iff_walks`).

   Lemmas about a change of links take the links after it as two further
   functions and ask where they differ from those before; how the memory is
   written does not matter. -/
namespace DoublyLinked
open LinkedChain

variable {α : Type} {next prev next' prev' : α → α} {null : α}

/-- The nodes of `l` in a row, from `h` to `t`, between `b` and `e`. -/
def Seg (next prev : α → α) (null : α) : α → α → List α → α → α → Prop
  | b, h, [], t, e => h = e ∧ t = b
  | b, h, a :: l, t, e => h = a ∧ a ≠ null ∧ prev a = b ∧ Seg next prev null a (next a) l t e

/-- A whole list. -/
def Dll (next prev : α → α) (null head tail : α) (l : List α) : Prop :=
  Seg next prev null null head l tail null

namespace Seg

@[simp] theorem nil_iff {b h t e : α} : Seg next prev null b h [] t e ↔ h = e ∧ t = b := Iff.rfl

@[simp] theorem cons_iff {a b h t e : α} {l : List α} : Seg next prev null b h (a :: l) t e ↔
    h = a ∧ a ≠ null ∧ prev a = b ∧ Seg next prev null a (next a) l t e := Iff.rfl

theorem append_iff {b h t e : α} {l₁ l₂ : List α} : Seg next prev null b h (l₁ ++ l₂) t e ↔
    ∃ x y, Seg next prev null b h l₁ x y ∧ Seg next prev null x y l₂ t e := by
  induction l₁ generalizing b h with
  | nil =>
    constructor
    · exact fun hs => ⟨b, h, ⟨rfl, rfl⟩, hs⟩
    · rintro ⟨x, y, ⟨rfl, rfl⟩, hs⟩
      exact hs
  | cons a l₁ ih =>
    rw [List.cons_append, cons_iff, ih]
    constructor
    · rintro ⟨rfl, ha, hb, x, y, h₁, h₂⟩
      exact ⟨x, y, ⟨rfl, ha, hb, h₁⟩, h₂⟩
    · rintro ⟨x, y, ⟨rfl, ha, hb, h₁⟩, h₂⟩
      exact ⟨rfl, ha, hb, x, y, h₁, h₂⟩

theorem concat_iff {a b h t e : α} {l : List α} : Seg next prev null b h (l ++ [a]) t e ↔
    t = a ∧ a ≠ null ∧ next a = e ∧ Seg next prev null b h l (prev a) a := by
  rw [append_iff]
  constructor
  · rintro ⟨x, y, h₁, rfl, ha, rfl, rfl, rfl⟩
    exact ⟨rfl, ha, rfl, h₁⟩
  · rintro ⟨rfl, ha, rfl, h₁⟩
    exact ⟨_, _, h₁, rfl, ha, rfl, rfl, rfl⟩

theorem congr {b h t e : α} {l : List α} (hs : Seg next prev null b h l t e)
    (hn : ∀ a ∈ l, next' a = next a) (hp : ∀ a ∈ l, prev' a = prev a) :
    Seg next' prev' null b h l t e := by
  induction l generalizing b h with
  | nil => exact hs
  | cons a l ih =>
    obtain ⟨rfl, ha, rfl, ht⟩ := hs
    refine ⟨rfl, ha, hp _ List.mem_cons_self, ?_⟩
    rw [hn _ List.mem_cons_self]
    exact ih ht (fun x hx => hn x (List.mem_cons_of_mem _ hx))
      fun x hx => hp x (List.mem_cons_of_mem _ hx)

theorem ne_null {b h t e : α} {l : List α} (hs : Seg next prev null b h l t e) {a : α}
    (ha : a ∈ l) : a ≠ null := by
  induction l generalizing b h with
  | nil => cases ha
  | cons c l ih =>
    obtain ⟨-, hc, -, ht⟩ := hs
    rcases List.mem_cons.mp ha with rfl | ha
    · exact hc
    · exact ih ht ha

/-- The last node's link may be redirected, to make the stretch go on elsewhere. -/
theorem relink_end {b h t e e' : α} {l : List α} (hs : Seg next prev null b h l t e)
    (hne : l ≠ []) (hn : ∀ a ∈ l, a ≠ t → next' a = next a) (ht : next' t = e')
    (hp : ∀ a ∈ l, prev' a = prev a) (hnd : l.Nodup) : Seg next' prev' null b h l t e' := by
  obtain ⟨l, a, rfl⟩ := (List.eq_nil_or_concat' l).resolve_left hne
  obtain ⟨rfl, ha, -, h₁⟩ := concat_iff.mp hs
  have hnin : t ∉ l := by
    intro hm
    rw [List.nodup_append] at hnd
    exact hnd.2.2 t hm t (by simp) rfl
  refine concat_iff.mpr ⟨rfl, ha, ht, ?_⟩
  rw [hp t (by simp)]
  refine h₁.congr (fun x hx => hn x (by simp [hx]) ?_) fun x hx => hp x (by simp [hx])
  rintro rfl
  exact hnin hx

theorem relink_start {b b' h t e : α} {l : List α} (hs : Seg next prev null b h l t e)
    (hne : l ≠ []) (hp : ∀ a ∈ l, a ≠ h → prev' a = prev a) (hh : prev' h = b')
    (hn : ∀ a ∈ l, next' a = next a) (hnd : l.Nodup) : Seg next' prev' null b' h l t e := by
  cases l with
  | nil => exact absurd rfl hne
  | cons a l =>
    obtain ⟨rfl, ha, -, h₁⟩ := hs
    refine ⟨rfl, ha, hh, ?_⟩
    rw [hn _ List.mem_cons_self]
    refine h₁.congr (fun x hx => hn x (List.mem_cons_of_mem _ hx)) fun x hx =>
      hp x (List.mem_cons_of_mem _ hx) ?_
    rintro rfl
    exact (List.nodup_cons.mp hnd).1 hx

theorem reverse {b h t e : α} {l : List α} (hs : Seg next prev null b h l t e) :
    Seg prev next null e t l.reverse h b := by
  induction l generalizing b h with
  | nil => exact ⟨hs.2, hs.1⟩
  | cons a l ih =>
    obtain ⟨rfl, ha, hb, ht⟩ := hs
    rw [List.reverse_cons, concat_iff]
    exact ⟨rfl, ha, hb, ih ht⟩

end Seg

/-! ## Walks -/

section
variable [DecidableEq α]

theorem Seg.walk {b h t : α} {l : List α} (hs : Seg next prev null b h l t null) :
    Walk next null h l := by
  induction l generalizing b h with
  | nil => exact Walk.nil_iff.mpr hs.1
  | cons a l ih =>
    obtain ⟨rfl, ha, -, ht⟩ := hs
    exact Walk.cons_iff.mpr ⟨rfl, ha, ih ht⟩

end

namespace Dll

theorem reverse {head tail : α} {l : List α} (hd : Dll next prev null head tail l) :
    Dll prev next null tail head l.reverse := Seg.reverse hd

theorem nodup {head tail : α} {l : List α} (hd : Dll next prev null head tail l) : l.Nodup := by
  classical
  exact Chain.nodup (Seg.walk hd)

@[simp] theorem nil_iff {head tail : α} :
    Dll next prev null head tail [] ↔ head = null ∧ tail = null := Iff.rfl

theorem head_eq {head tail a : α} {l : List α} (hd : Dll next prev null head tail (a :: l)) :
    head = a := hd.1

theorem ne_null {head tail a : α} {l : List α} (hd : Dll next prev null head tail l)
    (ha : a ∈ l) : a ≠ null := Seg.ne_null hd ha

theorem eq_nil_iff {head tail : α} {l : List α} (hd : Dll next prev null head tail l) :
    l = [] ↔ head = null := by
  cases l with
  | nil => simp [hd.1]
  | cons a l =>
    obtain ⟨rfl, ha, -⟩ := hd
    simp [ha]

theorem prev_head {head tail a : α} {l : List α} (hd : Dll next prev null head tail (a :: l)) :
    prev a = null := hd.2.2.1

theorem prev_second {head tail a b : α} {l : List α}
    (hd : Dll next prev null head tail (a :: b :: l)) : prev b = a := hd.2.2.2.2.2.1

theorem congr {head tail : α} {l : List α} (hd : Dll next prev null head tail l)
    (hn : ∀ a ∈ l, next' a = next a) (hp : ∀ a ∈ l, prev' a = prev a) :
    Dll next' prev' null head tail l := Seg.congr hd hn hp

theorem at_iff {head tail a : α} {l₁ l₂ : List α} :
    Dll next prev null head tail (l₁ ++ a :: l₂) ↔ a ≠ null ∧
      Seg next prev null null head l₁ (prev a) a ∧ Seg next prev null a (next a) l₂ tail null := by
  unfold Dll
  rw [Seg.append_iff]
  constructor
  · rintro ⟨x, y, h₁, rfl, ha, rfl, h₂⟩
    exact ⟨ha, h₁, h₂⟩
  · rintro ⟨ha, h₁, h₂⟩
    exact ⟨_, _, h₁, rfl, ha, rfl, h₂⟩

end Dll

theorem Seg.last_mem {b h t e : α} {l : List α} (hs : Seg next prev null b h l t e)
    (hne : l ≠ []) : t ∈ l := by
  obtain ⟨l, a, rfl⟩ := (List.eq_nil_or_concat' l).resolve_left hne
  rw [(Seg.concat_iff.mp hs).1]
  simp

theorem Seg.first_mem {b h t e : α} {l : List α} (hs : Seg next prev null b h l t e)
    (hne : l ≠ []) : h ∈ l := by
  cases l with
  | nil => exact absurd rfl hne
  | cons a l => simp [hs.1]

/-- A list is linked both ways exactly when the walks from its two ends list the
    same nodes in opposite orders. -/
theorem dll_iff_walks [DecidableEq α] {head tail : α} {l : List α} :
    Dll next prev null head tail l ↔
      Walk next null head l ∧ Walk prev null tail l.reverse := by
  constructor
  · exact fun hd => ⟨hd.walk, hd.reverse.walk⟩
  · rintro ⟨hf, hb⟩
    -- on the stretch `m` after the nodes of `k`, links back lead to the end of `k`
    have key : ∀ m k : List α, ∀ h, k ++ m = l → Walk next null h m →
        Seg next prev null ((k.getLast?).getD null) h m tail null := by
      intro m
      induction m with
      | nil =>
        intro k h hkm hw
        rw [List.append_nil] at hkm
        subst hkm
        refine ⟨Walk.nil_iff.mp hw, ?_⟩
        have hhead := Chain.head_eq hb
        rw [List.head?_reverse] at hhead
        cases hlast : k.getLast? with
        | none =>
          rw [hlast, deref_eq_none] at hhead
          rw [hhead, Option.getD_none]
        | some a =>
          rw [hlast, deref_eq_some] at hhead
          rw [hhead.1, Option.getD_some]
      | cons a m ih =>
        intro k h hkm hw
        obtain ⟨rfl, ha, hw⟩ := Walk.cons_iff.mp hw
        refine ⟨rfl, ha, ?_, ?_⟩
        · -- the backward walk comes through `a` and goes on with `k` reversed
          subst hkm
          unfold Walk at hb
          rw [List.reverse_append, List.reverse_cons, List.append_assoc,
            List.singleton_append] at hb
          have hhead : deref null (prev h) = _ := Chain.head_eq hb.suffix.2
          rw [List.head?_reverse] at hhead
          cases hlast : k.getLast? with
          | none =>
            rw [hlast, deref_eq_none] at hhead
            rw [hhead, Option.getD_none]
          | some c =>
            rw [hlast, deref_eq_some] at hhead
            rw [hhead.1, Option.getD_some]
        · have := ih (k ++ [h]) (next h) (by simp [hkm]) hw
          simpa using this
    exact key l [] head rfl hf

/-! ## A node and its links -/

namespace Dll
variable {head tail a : α} {l : List α}

theorem alone_iff (hd : Dll next prev null head tail l) (ha : a ∈ l) :
    next a = null ∧ prev a = null ↔ l = [a] := by
  obtain ⟨l₁, l₂, rfl⟩ := List.append_of_mem ha
  obtain ⟨-, h₁, h₂⟩ := at_iff.mp hd
  constructor
  · intro h
    have hl₁ : l₁ = [] := by
      by_contra hne
      exact h₁.ne_null (h₁.last_mem hne) h.2
    have hl₂ : l₂ = [] := by
      by_contra hne
      exact h₂.ne_null (h₂.first_mem hne) h.1
    rw [hl₁, hl₂]
    rfl
  · intro h
    obtain ⟨hl₁, hrest⟩ := List.append_eq_singleton_iff.mp h |>.resolve_right (by simp)
    obtain ⟨-, hl₂⟩ := List.cons.inj hrest
    subst hl₁ hl₂
    exact ⟨h₂.1, h₁.2⟩

theorem ends_eq_iff (hd : Dll next prev null head tail l) (ha : a ∈ l) :
    head = tail ↔ l = [a] := by
  have hnd := hd.nodup
  obtain ⟨b, l, rfl⟩ := List.exists_cons_of_ne_nil (List.ne_nil_of_mem ha)
  obtain ⟨rfl, -, -, h₂⟩ := hd
  constructor
  · intro h
    have hl : l = [] := by
      by_contra hne
      exact (List.nodup_cons.mp hnd).1 (h ▸ h₂.last_mem hne)
    subst hl
    rw [List.mem_singleton.mp ha]
  · intro h
    obtain ⟨-, hl⟩ := List.cons.inj h
    subst hl
    exact h₂.2.symm

theorem next_ne (hd : Dll next prev null head tail l) (ha : a ∈ l) : next a ≠ a := by
  have hnd := hd.nodup
  obtain ⟨l₁, l₂, rfl⟩ := List.append_of_mem ha
  obtain ⟨ha0, -, h₂⟩ := at_iff.mp hd
  intro heq
  rw [heq] at h₂
  cases l₂ with
  | nil => exact ha0 h₂.1
  | cons b l₂ =>
    rw [List.nodup_middle, List.nodup_cons] at hnd
    apply hnd.1
    rw [h₂.1]
    simp

end Dll

/-! ## Changing a list -/

namespace Dll
variable {head tail a : α} {l l₁ l₂ : List α}

theorem push_front (hd : Dll next prev null head tail l) (ha : a ≠ null)
    (hna : next' a = head) (hpa : prev' a = null) (hn : ∀ x ∈ l, next' x = next x)
    (hp : ∀ x ∈ l, x ≠ head → prev' x = prev x) (hh : head ≠ null → prev' head = a)
    {tail' : α} (ht : tail' = if l = [] then a else tail) :
    Dll next' prev' null a tail' (a :: l) := by
  refine ⟨rfl, ha, hpa, ?_⟩
  rw [hna, ht]
  by_cases hl : l = []
  · subst hl
    exact ⟨hd.1, if_pos rfl⟩
  · rw [if_neg hl]
    exact Seg.relink_start hd hl hp (hh (fun h => hl (hd.eq_nil_iff.mpr h))) hn hd.nodup

theorem push_back (hd : Dll next prev null head tail l) (ha : a ≠ null)
    (hpa : prev' a = tail) (hna : next' a = null) (hp : ∀ x ∈ l, prev' x = prev x)
    (hn : ∀ x ∈ l, x ≠ tail → next' x = next x) (ht : tail ≠ null → next' tail = a)
    {head' : α} (hh : head' = if l = [] then a else head) :
    Dll next' prev' null head' a (l ++ [a]) := by
  have hr := push_front hd.reverse ha hpa hna (fun x hx => hp x (List.mem_reverse.mp hx))
    (fun x hx => hn x (List.mem_reverse.mp hx)) ht
    (show head' = if l.reverse = [] then a else head by rw [hh]; simp)
  simpa using hr.reverse

/-- A node taken out: its neighbours, or the ends, are linked to one another. -/
theorem remove (hd : Dll next prev null head tail (l₁ ++ a :: l₂))
    (hn : ∀ x ∈ l₁ ++ l₂, x ≠ prev a → next' x = next x)
    (hnp : prev a ≠ null → next' (prev a) = next a)
    (hp : ∀ x ∈ l₁ ++ l₂, x ≠ next a → prev' x = prev x)
    (hpn : next a ≠ null → prev' (next a) = prev a)
    {head' tail' : α} (hh : head' = if l₁ = [] then next a else head)
    (ht : tail' = if l₂ = [] then prev a else tail) :
    Dll next' prev' null head' tail' (l₁ ++ l₂) := by
  have hnd := hd.nodup
  obtain ⟨ha, h₁, h₂⟩ := at_iff.mp hd
  rw [List.nodup_middle, List.nodup_cons, List.nodup_append] at hnd
  obtain ⟨hnin, hnd₁, hnd₂, hdisj⟩ := hnd
  refine Seg.append_iff.mpr ⟨prev a, next a, ?_, ?_⟩
  · -- the part before `a`, which now goes on to the node after it
    by_cases hl : l₁ = []
    · subst hl
      rw [if_pos rfl] at hh
      exact ⟨hh, h₁.2⟩
    · rw [if_neg hl] at hh
      rw [hh]
      have hmem := h₁.last_mem hl
      refine h₁.relink_end hl (fun x hx hne => hn x (by simp [hx]) hne)
        (hnp (h₁.ne_null hmem)) (fun x hx => hp x (by simp [hx]) ?_) hnd₁
      rintro rfl
      by_cases hl₂ : l₂ = []
      · subst hl₂
        exact h₁.ne_null hx h₂.1
      · exact hdisj _ hx _ (h₂.first_mem hl₂) rfl
  · by_cases hl : l₂ = []
    · subst hl
      rw [if_pos rfl] at ht
      exact ⟨h₂.1, ht⟩
    · rw [if_neg hl] at ht
      rw [ht]
      have hmem := h₂.first_mem hl
      refine h₂.relink_start hl (fun x hx hne => hp x (by simp [hx]) hne)
        (hpn (h₂.ne_null hmem)) (fun x hx => hn x (by simp [hx]) ?_) hnd₂
      rintro rfl
      by_cases hl₁ : l₁ = []
      · subst hl₁
        exact h₂.ne_null hx h₁.2
      · exact hdisj _ (h₁.last_mem hl₁) _ hx rfl

/-- A node moved to the front from behind `l₁`. -/
theorem move_to_front (hd : Dll next prev null head tail (l₁ ++ a :: l₂)) (hl₁ : l₁ ≠ [])
    (hn : ∀ x ∈ l₁ ++ l₂, x ≠ prev a → next' x = next x) (hnp : next' (prev a) = next a)
    (hp : ∀ x ∈ l₁ ++ l₂, x ≠ next a → x ≠ head → prev' x = prev x)
    (hpn : next a ≠ null → prev' (next a) = prev a)
    (hna : next' a = head) (hpa : prev' a = null) (hph : prev' head = a)
    {tail' : α} (ht : tail' = if l₂ = [] then prev a else tail) :
    Dll next' prev' null a tail' (a :: (l₁ ++ l₂)) := by
  classical
  have hnd := hd.nodup
  obtain ⟨ha, h₁, h₂⟩ := at_iff.mp hd
  rw [List.nodup_middle, List.nodup_cons, List.nodup_append] at hnd
  obtain ⟨hnin, hnd₁, hnd₂, hdisj⟩ := hnd
  have hhead := h₁.first_mem hl₁
  have hheadne : head ≠ next a := by
    intro h
    by_cases hl₂ : l₂ = []
    · subst hl₂
      exact h₁.ne_null hhead (h.trans h₂.1)
    · exact hdisj _ hhead _ (h₂.first_mem hl₂) h
  -- in between, `a` is out of the list and the head has no link back
  have hmid : Dll next' (fun x => if x = head then prev head else prev' x) null head tail'
      (l₁ ++ l₂) := by
    refine hd.remove hn (fun _ => hnp) (fun x hx hne => ?_) (fun hne => ?_)
      (by rw [if_neg hl₁]) ht
    · by_cases hxh : x = head
      · rw [if_pos hxh, hxh]
      · rw [if_neg hxh, hp x hx hne hxh]
    · rw [if_neg (Ne.symm hheadne), hpn hne]
  refine hmid.push_front ha hna hpa (fun _ _ => rfl) (fun x _ hne => ?_) (fun _ => hph) ?_
  · rw [if_neg hne]
  · rw [if_neg (by simp [hl₁])]

end Dll

/-! ## Half a move to the front -/

/-- `a` goes to the front, but it is the node before `a` that gets the link back. -/
structure HalfMoved [DecidableEq α] (next prev next' prev' : α → α) (null head a : α) :
    Prop where
  onward : ∀ x, next' x = if x = a then head else if x = prev a then next a else next x
  back : ∀ x, prev' x =
    if x = a then null
    else if next a ≠ null ∧ x = next a then prev a
    else if x = prev a then a
    else prev x

namespace HalfMoved
variable [DecidableEq α] {head tail tail' a : α} {l : List α}

/-- The second node is moved: the node before it is the old head. -/
theorem second {b : α} (hm : HalfMoved next prev next' prev' null head a)
    (hd : Dll next prev null head tail (b :: a :: l))
    (ht : tail' = if next a = null then prev a else tail) :
    Dll next' prev' null a tail' (a :: b :: l) := by
  have hprev : prev a = b := hd.prev_second
  have hhead : head = b := hd.head_eq
  have hb : b ≠ null := hd.ne_null (by simp)
  have hnd := hd.nodup
  simp only [List.nodup_cons, List.mem_cons, not_or] at hnd
  obtain ⟨⟨hba, hbl⟩, hal, -⟩ := hnd
  have ha : a ∉ [b] ++ l := by simp [Ne.symm hba, hal]
  have hsplit : Dll next prev null head tail ([b] ++ a :: l) := hd
  obtain ⟨-, -, h₂⟩ := Dll.at_iff.mp hsplit
  -- what comes behind `a` is neither `b` nor `a`
  have hbn : b ≠ next a := by
    intro hc
    by_cases hl : l = []
    · subst hl
      exact hb (hc.trans h₂.1)
    · exact hbl (hc ▸ h₂.first_mem hl)
  have hna : next a ≠ a := hd.next_ne (by simp)
  refine hsplit.move_to_front (List.cons_ne_nil b []) (fun x hx hne => ?_) ?_
    (fun x hx hne hxh => ?_) (fun hne => ?_) ?_ ?_ ?_ ?_
  · have hxa : x ≠ a := fun hc => ha (hc ▸ hx)
    rw [hm.onward, if_neg hxa, if_neg hne]
  · rw [hm.onward, hprev, if_neg hba, if_pos rfl]
  · have hxa : x ≠ a := fun hc => ha (hc ▸ hx)
    have hxb : x ≠ prev a := fun hc => hxh (hc.trans (hprev.trans hhead.symm))
    rw [hm.back, if_neg hxa, if_neg fun hc => hne hc.2, if_neg hxb]
  · rw [hm.back, if_neg hna, if_pos ⟨hne, rfl⟩]
  · rw [hm.onward, if_pos rfl]
  · rw [hm.back, if_pos rfl]
  · rw [hm.back, hhead, if_neg hba, if_neg fun hc => hbn hc.2, if_pos hprev.symm]
  · rw [ht]
    by_cases hl : l = []
    · subst hl
      rw [if_pos h₂.1, if_pos rfl]
    · rw [if_neg (h₂.ne_null (h₂.first_mem hl)), if_neg hl]

/-- Where the node was further down, the old head gets no link back. -/
theorem not_linked {b c : α} {l' : List α} (hm : HalfMoved next prev next' prev' null head a)
    (hd : Dll next prev null head tail (b :: c :: l)) (ha : a ∈ l) :
    ¬ Dll next' prev' null a tail' (a :: b :: l') := by
  obtain ⟨l₁, l₂, rfl⟩ := List.append_of_mem ha
  have hnd := (List.nodup_cons.mp hd.nodup).1
  obtain ⟨ha0, h₁, h₂⟩ :=
    Dll.at_iff.mp (show Dll next prev null head tail ((b :: c :: l₁) ++ a :: l₂) from hd)
  -- the neighbours of `a` are not the head
  have hbp : b ≠ prev a := by
    intro hc
    have hmem : prev a ∈ c :: l₁ := h₁.2.2.2.last_mem (by simp)
    apply hnd
    rw [hc]
    simp only [List.mem_cons, List.mem_append] at hmem ⊢
    tauto
  have hbn : ¬ (next a ≠ null ∧ b = next a) := by
    intro hc
    have hl₂ : l₂ ≠ [] := by
      intro hl
      rw [hl] at h₂
      exact hc.1 h₂.1
    apply hnd
    rw [hc.2]
    simp [h₂.first_mem hl₂]
  have hba : b ≠ a := by
    intro hc
    apply hnd
    rw [hc]
    simp
  intro hmoved
  have hback := hmoved.prev_second
  rw [hm.back, if_neg hba, if_neg hbn, if_neg hbp, hd.prev_head] at hback
  exact ha0 hback.symm

theorem linked_iff {b : α} (hm : HalfMoved next prev next' prev' null head a)
    (hd : Dll next prev null head tail (b :: l)) (ha : a ∈ l)
    (ht : tail' = if next a = null then prev a else tail) :
    Dll next' prev' null a tail' (a :: b :: l.erase a) ↔ l.head? = some a := by
  cases l with
  | nil => cases ha
  | cons c l =>
    rw [List.head?_cons, Option.some_inj]
    by_cases hca : c = a
    · subst hca
      rw [List.erase_cons_head]
      exact ⟨fun _ => rfl, fun _ => hm.second hd ht⟩
    · have hdeep : a ∈ l := (List.mem_cons.mp ha).resolve_left (Ne.symm hca)
      exact ⟨fun hl => absurd hl (hm.not_linked hd hdeep), fun hc => absurd hc hca⟩

end HalfMoved

end DoublyLinked
