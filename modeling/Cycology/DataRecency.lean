import Cycology.Cache
import Cycology.Lib.Dll
import Cycology.Lib.Runs

/- The list of data pages by last use, under its three functions.

   `cache_addDataPageToLru`, `cache_updateDataLruHead` and `cache_removeDataPageFromLru` are
   the whole interface to the list; the cache uses the first one only. A run calls them as
   their comments ask: pages are added that are not on the list, and moved to the front
   and removed while they are. What the list should hold is plain (`RecencyOp.apply`).

   The list holds it, and is linked both ways, after every call exactly if no page is
   moved to the front that is third or further down (`recency_listed_iff`): the link back
   of the old head is given to the entry before the one that is moved. -/
namespace Cycology.PageCache
open LinkedChain DoublyLinked Runs.Fallible

/-! ## Runs -/

/-- The memory, and the entries the list should hold, the last one used first. -/
structure Recency where
  mem : Mem
  order : List Ptr

inductive RecencyOp where
  | add (entry : Ptr)
  | touch (entry : Ptr)
  | remove (entry : Ptr)

def RecencyOp.apply (l : List Ptr) : RecencyOp → List Ptr
  | .add entry => entry :: l
  | .touch entry => entry :: l.erase entry
  | .remove entry => l.erase entry

def RecencyOp.call (s : Mem) : RecencyOp → Except Fault Mem
  | .add entry => cacheAddDataPageToLru s entry
  | .touch entry => .ok (cacheUpdateDataLruHead s entry)
  | .remove entry => cacheRemoveDataPageFromLru s entry

def RecencyOp.exec (c : Recency) (op : RecencyOp) : Except Fault Recency := do
  let s ← op.call c.mem
  .ok { mem := s, order := op.apply c.order }

/-- The calls as the comments ask for them. -/
def RecencyOp.Allowed (c : Recency) : RecencyOp → Prop
  | .add entry => entry ≠ 0 ∧ entry ∉ c.order
  | .touch entry => entry ∈ c.order
  | .remove entry => entry ∈ c.order

/-- An entry that is moved to the front is one of the first two. -/
def RecencyOp.Shallow (c : Recency) : RecencyOp → Prop
  | .touch entry => entry ∉ c.order.drop 2
  | _ => True

/-- The walks from the head and from the tail list the entries in opposite orders. -/
def RecencyListed (c : Recency) : Prop :=
  Walk (fun e => (c.mem.entries e).lruDataNext) 0 c.mem.cache.lruDataHead c.order ∧
  Walk (fun e => (c.mem.entries e).lruDataPrev) 0 c.mem.cache.lruDataTail c.order.reverse

/-! ## The links after a call -/

section
variable (s : Mem) (p v q : Ptr)

@[simp] theorem lruDataNext_setNext :
    ((s.setEntry p fun e => { e with lruDataNext := v }).entries q).lruDataNext =
      if q = p then v else (s.entries q).lruDataNext := by
  by_cases hq : q = p
  · rw [if_pos hq, hq, Mem.entries_setEntry_same]
  · rw [if_neg hq, Mem.entries_setEntry_other _ _ _ hq]

@[simp] theorem lruDataPrev_setPrev :
    ((s.setEntry p fun e => { e with lruDataPrev := v }).entries q).lruDataPrev =
      if q = p then v else (s.entries q).lruDataPrev := by
  by_cases hq : q = p
  · rw [if_pos hq, hq, Mem.entries_setEntry_same]
  · rw [if_neg hq, Mem.entries_setEntry_other _ _ _ hq]

@[simp] theorem lruDataPrev_setNext :
    ((s.setEntry p fun e => { e with lruDataNext := v }).entries q).lruDataPrev =
      (s.entries q).lruDataPrev :=
  Mem.field_setEntry s p (fun e => { e with lruDataNext := v }) (·.lruDataPrev) (fun _ => rfl) q

@[simp] theorem lruDataNext_setPrev :
    ((s.setEntry p fun e => { e with lruDataPrev := v }).entries q).lruDataNext =
      (s.entries q).lruDataNext :=
  Mem.field_setEntry s p (fun e => { e with lruDataPrev := v }) (·.lruDataNext) (fun _ => rfl) q

end

section
variable {s s' : Mem} {entry : Ptr} {l : List Ptr}

/-- The list, linked both ways. -/
def RecencyLinked (s : Mem) (l : List Ptr) : Prop :=
  Dll (fun e => (s.entries e).lruDataNext) (fun e => (s.entries e).lruDataPrev) 0
    s.cache.lruDataHead s.cache.lruDataTail l

theorem recencyListed_iff {c : Recency} : RecencyListed c ↔ RecencyLinked c.mem c.order :=
  dll_iff_walks.symm

/-- `entry` comes behind another one: it is moved, and its predecessor is linked back to it. -/
theorem halfMoved_updateDataLruHead (hp : (s.entries entry).lruDataPrev ≠ 0) :
    (cacheUpdateDataLruHead s entry).cache.lruDataHead = entry ∧
    (cacheUpdateDataLruHead s entry).cache.lruDataTail =
      (if (s.entries entry).lruDataNext = 0 then (s.entries entry).lruDataPrev
        else s.cache.lruDataTail) ∧
    HalfMoved (fun e => (s.entries e).lruDataNext) (fun e => (s.entries e).lruDataPrev)
      (fun e => ((cacheUpdateDataLruHead s entry).entries e).lruDataNext)
      (fun e => ((cacheUpdateDataLruHead s entry).entries e).lruDataPrev) 0
      s.cache.lruDataHead entry := by
  by_cases hn : (s.entries entry).lruDataNext = 0
  · exact ⟨by simp [cacheUpdateDataLruHead, hp, hn], by simp [cacheUpdateDataLruHead, hp, hn],
      ⟨by simp [cacheUpdateDataLruHead, hp, hn], by simp [cacheUpdateDataLruHead, hp, hn]⟩⟩
  · exact ⟨by simp [cacheUpdateDataLruHead, hp, hn], by simp [cacheUpdateDataLruHead, hp, hn],
      ⟨by simp [cacheUpdateDataLruHead, hp, hn], by simp [cacheUpdateDataLruHead, hp, hn]⟩⟩

/-- A move leaves the list as it should be exactly if the entry was one of the first two. -/
theorem recencyLinked_touch_iff (h : RecencyLinked s l) (he : entry ∈ l) :
    RecencyLinked (cacheUpdateDataLruHead s entry) (entry :: l.erase entry) ↔
      entry ∉ l.drop 2 := by
  have hnd := h.nodup
  cases l with
  | nil => cases he
  | cons a l =>
    obtain ⟨hal, hnd⟩ := List.nodup_cons.mp hnd
    by_cases hea : entry = a
    · -- already in front: nothing changes
      subst hea
      have hprev : (s.entries entry).lruDataPrev = 0 := h.prev_head
      rw [List.erase_cons_head, cacheUpdateDataLruHead, if_pos hprev]
      exact ⟨fun _ hm => hal (List.mem_of_mem_drop hm), fun _ => h⟩
    · have hel : entry ∈ l := (List.mem_cons.mp he).resolve_left hea
      obtain ⟨l₁, l₂, rfl⟩ := List.append_of_mem hel
      have hprev : (s.entries entry).lruDataPrev ≠ 0 := by
        obtain ⟨-, h₁, -⟩ := Dll.at_iff.mp (show Dll _ _ _ _ _ ((a :: l₁) ++ entry :: l₂) from h)
        exact h₁.ne_null (h₁.last_mem (List.cons_ne_nil a l₁))
      obtain ⟨hhead, htail, hmoved⟩ := halfMoved_updateDataLruHead hprev
      rw [List.erase_cons_tail (by simpa using Ne.symm hea), RecencyLinked, hhead,
        hmoved.linked_iff h hel htail]
      cases l₁ with
      | nil =>
        refine iff_of_true rfl ?_
        exact (List.nodup_cons.mp hnd).1
      | cons b l₁ =>
        have hbe : b ≠ entry := by
          intro hc
          exact (List.nodup_cons.mp hnd).1 (by simp [hc])
        refine iff_of_false (fun hc => hbe (Option.some.inj hc)) ?_
        simp

theorem recencyLinked_add (h : RecencyLinked s l) (h0 : entry ≠ 0) (hnew : entry ∉ l) :
    ∃ s', cacheAddDataPageToLru s entry = .ok s' ∧ RecencyLinked s' (entry :: l) := by
  have hmem : ∀ x ∈ l, x ≠ entry := fun x hx hc => hnew (hc ▸ hx)
  have hempty : s.cache.lruDataHead = 0 ↔ l = [] := h.eq_nil_iff.symm
  rw [cacheAddDataPageToLru, Mem.access_ne _ h0]
  refine ⟨_, rfl, ?_⟩
  by_cases hh : s.cache.lruDataHead = 0
  · rw [if_pos hh]
    refine Dll.push_front h h0 ?_ ?_ (fun x hx => ?_) (fun x hx _ => ?_) (fun hc => absurd hh hc) ?_
    · simp
    · simp
    · simp [hmem x hx]
    · simp [hmem x hx]
    · rw [if_pos (hempty.mp hh)]
      rfl
  · rw [if_neg hh]
    have hhe : entry ≠ s.cache.lruDataHead := by
      intro hc
      obtain ⟨a, l, rfl⟩ := List.exists_cons_of_ne_nil (fun hl => hh (hempty.mpr hl))
      exact hmem a List.mem_cons_self (h.head_eq.symm.trans hc.symm)
    refine Dll.push_front h h0 ?_ ?_ (fun x hx => ?_) (fun x hx hxh => ?_) (fun _ => ?_) ?_
    · simp
    · simp [hhe]
    · simp [hmem x hx]
    · simp [hmem x hx, hxh]
    · simp
    · rw [if_neg fun hl => hh (hempty.mpr hl)]
      rfl

theorem cacheRemoveDataPageFromLru_ok (h0 : entry ≠ 0)
    (hp : entry ≠ s.cache.lruDataHead → (s.entries entry).lruDataPrev ≠ 0)
    (hn : entry ≠ s.cache.lruDataTail → (s.entries entry).lruDataNext ≠ 0)
    (hne : (s.entries entry).lruDataPrev ≠ entry) :
    ∃ s', cacheRemoveDataPageFromLru s entry = .ok s' ∧
      s'.cache.lruDataHead = (if entry = s.cache.lruDataHead then (s.entries entry).lruDataNext
        else s.cache.lruDataHead) ∧
      s'.cache.lruDataTail = (if entry = s.cache.lruDataTail then (s.entries entry).lruDataPrev
        else s.cache.lruDataTail) ∧
      (∀ x, (s'.entries x).lruDataNext =
        if entry ≠ s.cache.lruDataHead ∧ x = (s.entries entry).lruDataPrev then
          (s.entries entry).lruDataNext
        else (s.entries x).lruDataNext) ∧
      ∀ x, (s'.entries x).lruDataPrev =
        if entry ≠ s.cache.lruDataTail ∧ x = (s.entries entry).lruDataNext then
          (s.entries entry).lruDataPrev
        else (s.entries x).lruDataPrev := by
  rw [cacheRemoveDataPageFromLru, Mem.access_ne _ h0, ok_bind]
  by_cases hhead : entry = s.cache.lruDataHead
  · rw [if_pos hhead, ok_bind]
    by_cases htail : entry = s.cache.lruDataTail
    · refine ⟨_, if_pos htail, ?_⟩
      rw [if_pos hhead, if_pos htail]
      simp [← hhead, ← htail]
    · refine ⟨_, (if_neg htail).trans (bind_eq_ok.mpr ⟨_, Mem.access_ne _ (hn htail), rfl⟩), ?_⟩
      rw [if_pos hhead, if_neg htail]
      simp [← hhead, htail]
  · rw [if_neg hhead, Mem.access_ne _ (hp hhead), ok_bind, ok_bind]
    by_cases htail : entry = s.cache.lruDataTail
    · refine ⟨_, if_pos htail, ?_⟩
      rw [if_neg hhead, if_pos htail]
      simp [hhead, ← htail]
    · have hnext : ((s.setEntry (s.entries entry).lruDataPrev fun e =>
          { e with lruDataNext := (s.entries entry).lruDataNext }).entries entry).lruDataNext =
            (s.entries entry).lruDataNext := by
        rw [lruDataNext_setNext, if_neg hne.symm]
      refine ⟨_, (if_neg htail).trans (bind_eq_ok.mpr
        ⟨_, Mem.access_ne _ (hnext.symm ▸ hn htail), rfl⟩), ?_⟩
      rw [if_neg hhead, if_neg htail]
      simp [hhead, htail, Ne.symm hne]

theorem recencyLinked_remove (h : RecencyLinked s l) (he : entry ∈ l) :
    ∃ s', cacheRemoveDataPageFromLru s entry = .ok s' ∧ RecencyLinked s' (l.erase entry) := by
  have hnd := h.nodup
  obtain ⟨l₁, l₂, rfl⟩ := List.append_of_mem he
  rw [List.nodup_middle, List.nodup_cons, List.mem_append, not_or] at hnd
  obtain ⟨⟨hl₁, hl₂⟩, -⟩ := hnd
  obtain ⟨h0, h₁, h₂⟩ := Dll.at_iff.mp h
  have hhead : entry = s.cache.lruDataHead ↔ l₁ = [] := by
    constructor
    · intro hc
      by_contra hne
      exact hl₁ (hc ▸ h₁.first_mem hne)
    · intro hl
      subst hl
      exact h₁.1.symm
  have htail : entry = s.cache.lruDataTail ↔ l₂ = [] := by
    constructor
    · intro hc
      by_contra hne
      exact hl₂ (hc ▸ h₂.last_mem hne)
    · intro hl
      subst hl
      exact h₂.2.symm
  obtain ⟨s', hs', hhead', htail', hnext', hprev'⟩ := cacheRemoveDataPageFromLru_ok h0
    (fun hne => h₁.ne_null (h₁.last_mem (mt hhead.mpr hne)))
    (fun hne => h₂.ne_null (h₂.first_mem (mt htail.mpr hne))) (h.reverse.next_ne (by simp))
  refine ⟨s', hs', ?_⟩
  rw [List.erase_append_right _ hl₁, List.erase_cons_head]
  refine Dll.remove h (fun x _ hx => ?_) (fun hne => ?_) (fun x _ hx => ?_) (fun hne => ?_) ?_ ?_
  · rw [hnext', if_neg fun hc => hx hc.2]
  · have hnot : entry ≠ s.cache.lruDataHead := fun hc => hne (by
      have hl := hhead.mp hc
      subst hl
      exact h₁.2)
    rw [hnext', if_pos ⟨hnot, rfl⟩]
  · rw [hprev', if_neg fun hc => hx hc.2]
  · have hnot : entry ≠ s.cache.lruDataTail := fun hc => hne (by
      have hl := htail.mp hc
      subst hl
      exact h₂.1)
    rw [hprev', if_pos ⟨hnot, rfl⟩]
  · rw [hhead']
    exact if_congr hhead rfl rfl
  · rw [htail']
    exact if_congr htail rfl rfl

/-- **One call** returns, and leaves the list as it should be exactly if it is shallow. -/
theorem recencyLinked_exec {c : Recency} {op : RecencyOp} (h : RecencyLinked c.mem c.order)
    (ha : op.Allowed c) :
    ∃ c', op.exec c = .ok c' ∧ (RecencyLinked c'.mem c'.order ↔ op.Shallow c) := by
  cases op with
  | add entry =>
    obtain ⟨s', hs', h'⟩ := recencyLinked_add h ha.1 ha.2
    exact ⟨⟨s', _⟩, bind_eq_ok.mpr ⟨s', hs', rfl⟩, iff_of_true h' trivial⟩
  | touch entry => exact ⟨⟨_, _⟩, rfl, recencyLinked_touch_iff h ha⟩
  | remove entry =>
    obtain ⟨s', hs', h'⟩ := recencyLinked_remove h ha
    exact ⟨⟨s', _⟩, bind_eq_ok.mpr ⟨s', hs', rfl⟩, iff_of_true h' trivial⟩

end

/-- **The data pages by last use.** In a run of calls as the comments ask for them, from a
    list that is as it should be, the list holds what it should after every call exactly if
    no entry is moved to the front that is third or further down. -/
theorem recency_listed_iff {c : Recency} {ops : List RecencyOp} (hlisted : RecencyListed c)
    (hall : EveryStep RecencyOp.exec (fun c op => op.Allowed c) c ops) :
    EveryState RecencyOp.exec RecencyListed c ops ↔
      EveryStep RecencyOp.exec (fun c op => op.Shallow c) c ops := by
  refine hall.everyState_iff_of_ok (fun hI ha => ?_) hlisted
  simp only [recencyListed_iff] at hI ⊢
  exact recencyLinked_exec hI ha

/-- An empty list. -/
def noRecency : Recency := { mem := default, order := [] }

/-- Two entries, the first one used again and the other removed. -/
theorem recency_listed_iff_two : EveryState RecencyOp.exec RecencyListed noRecency
    [.add 1, .add 2, .touch 1, .remove 2] := by
  have hempty : RecencyListed noRecency := recencyListed_iff.mpr ⟨rfl, rfl⟩
  have hall : EveryStep RecencyOp.exec (fun c op => op.Allowed c) noRecency
      [.add 1, .add 2, .touch 1, .remove 2] := by
    refine (EveryStep.cons_ok rfl).mpr ⟨⟨by decide, by decide⟩, ?_⟩
    refine (EveryStep.cons_ok rfl).mpr ⟨⟨by decide, by decide⟩, ?_⟩
    refine (EveryStep.cons_ok rfl).mpr ⟨show 1 ∈ [2, 1] by decide, ?_⟩
    exact (EveryStep.cons_ok rfl).mpr ⟨show 2 ∈ [1, 2] by decide, trivial⟩
  refine (recency_listed_iff hempty hall).mpr ?_
  refine (EveryStep.cons_ok rfl).mpr ⟨trivial, (EveryStep.cons_ok rfl).mpr ⟨trivial, ?_⟩⟩
  refine (EveryStep.cons_ok rfl).mpr ⟨show 1 ∉ [2, 1].drop 2 by decide, ?_⟩
  exact (EveryStep.cons_ok rfl).mpr ⟨trivial, trivial⟩

end Cycology.PageCache
