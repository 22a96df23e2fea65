import Cycology.CacheSearch

/- `cache_remove`.

   It takes the entry out of its bin if it is the first one there. For any other
   entry it starts a search with `prev` at `NULL`, which the loop's own condition
   ends at once; the entry stays where it is, is freed, and `size` counts one
   entry less. So in a run of `cache_set` and `cache_remove` calls on a new cache
   the removals are right exactly if each is of the first entry of its bin
   (`removes_right_iff_first`). -/
namespace Cycology.PageCache
open ByteMem LinkedChain Runs.Fallible

/-! ## Runs -/

inductive CacheOp where
  | set (key wp : Ptr)
  | remove (entry : Ptr)
  deriving DecidableEq, Repr

def CacheOp.exec (fuel : Nat) (s : Mem) : CacheOp → Except Fault Mem
  | .set key wp => setStep fuel s (key, wp)
  | .remove entry => cacheRemove s entry

/-- Pages are set under keys, a new one only if the cache is not full, and entries
    are removed that are in the table. Key numbers are from 1 on, and no page is
    handed over twice. -/
def CacheOp.Allowed (s : Mem) : CacheOp → Prop
  | .set key _ => key ≠ 0 ∧ RoomFor s key
  | .remove entry => InTable s entry

/-- From the memory `s` to `s'` the entry `e` was taken out of the table, and nothing
    else. -/
structure RemovedOne (s s' : Mem) (e : Ptr) (fuel : Nat) : Prop where
  unlinked : ¬ InTable s' e
  gone : cacheGet s' (s.entries e).key fuel = .ok 0
  others : ∀ x, InTable s x → x ≠ e →
    cacheGet s' (s.entries x).key fuel = .ok x ∧ (s'.entries x).wp = (s.entries x).wp
  sorted : ∃ bins, SortedTable s' bins

/-- A removal does what it should. -/
def CacheOp.RemovesRight (fuel : Nat) (s : Mem) : CacheOp → Prop
  | .set _ _ => True
  | .remove entry => ∃ s', cacheRemove s entry = .ok s' ∧ RemovedOne s s' entry fuel

/-- A removal is of the first entry of its bin. -/
def CacheOp.RemovesFirst (s : Mem) : CacheOp → Prop
  | .set _ _ => True
  | .remove entry => s.cache.table (cacheHash s (s.entries entry).key) = entry

/-! ## The call -/

section
variable {s s' : Mem} {bins : Nat → List Ptr} {m : Int → Option Ptr} {e x : Ptr} {l : List Ptr}
  {b fuel : Nat}

theorem cacheRemove_first (he : e ≠ 0)
    (hfirst : s.cache.table (cacheHash s (s.entries e).key) = e) :
    cacheRemove s e = .ok ((s.setCache fun c => { c with
      table := update c.table (cacheHash s (s.entries e).key) (s.entries e).next }).setCache
        fun c => { c with size := cint (c.size - 1) }) := by
  have hcmp : keyCmp s (s.entries e).key (s.entries e).key = 0 := keyCmp_eq_zero.mpr rfl
  rw [cacheRemove, Mem.access_ne s he, ok_bind]
  dsimp only
  rw [hfirst, Mem.access_ne s he, ok_bind, if_pos hcmp]
  rfl

theorem cacheRemove_other {c : Ptr} (he : e ≠ 0) (hc : c ≠ 0)
    (hfirst : s.cache.table (cacheHash s (s.entries e).key) = c)
    (hnum : entryNum s c ≠ entryNum s e) :
    cacheRemove s e = .ok (s.setCache fun c => { c with size := cint (c.size - 1) }) := by
  have hcmp : ¬ keyCmp s (s.entries c).key (s.entries e).key = 0 := by
    intro h0
    exact hnum (keyCmp_eq_zero.mp h0)
  have hcmp' : ¬ keyCmp s (s.entries e).key (s.entries c).key = 0 := by
    intro h0
    exact hnum (keyCmp_eq_zero.mp h0).symm
  rw [cacheRemove, Mem.access_ne s he, ok_bind]
  dsimp only
  rw [hfirst, Mem.access_ne s hc, ok_bind, if_neg hcmp, if_neg hcmp']
  rfl

theorem Table.bin_cases (ht : Table s bins) (he : InTable s e) :
    e ∈ bins (cacheHash s (s.entries e).key) := by
  obtain ⟨b, hb⟩ := ht.inTable_iff.mp he
  rw [(ht.hashed b e hb).2]
  exact hb

theorem cacheRemove_cases (ht : Table s bins) (he : InTable s e) (h : cacheRemove s e = .ok s') :
    ((∃ l, bins (cacheHash s (s.entries e).key) = e :: l) ∧
      s' = (s.setCache fun c => { c with
        table := update c.table (cacheHash s (s.entries e).key) (s.entries e).next }).setCache
          fun c => { c with size := cint (c.size - 1) }) ∨
    (s.cache.table (cacheHash s (s.entries e).key) ≠ e ∧
      s' = s.setCache fun c => { c with size := cint (c.size - 1) }) := by
  have hin := ht.bin_cases he
  obtain ⟨c, l, hbin⟩ := List.exists_cons_of_ne_nil (List.ne_nil_of_mem hin)
  have hw := ht.walk (cacheHash s (s.entries e).key)
  rw [hbin] at hw
  obtain ⟨hc, hc0, -⟩ := Walk.cons_iff.mp hw
  by_cases hce : c = e
  · rw [hce] at hc hbin
    rw [cacheRemove_first (ht.ne_zero hin) hc] at h
    exact .inl ⟨⟨l, hbin⟩, (Except.ok.inj h).symm⟩
  · have hnum : entryNum s c ≠ entryNum s e := by
      intro hn
      exact hce (ht.unique (hbin ▸ List.mem_cons_self) hin hn)
    rw [cacheRemove_other (ht.ne_zero hin) hc0 hc hnum] at h
    exact .inr ⟨fun hfirst => hce (hc.symm.trans hfirst), (Except.ok.inj h).symm⟩

/-! ## The first entry of a bin -/

theorem Table.drop_first (ht : Table s bins) (hbin : bins b = e :: l)
    (hk : s'.keys = s.keys) (hf : s'.files = s.files)
    (hm : s'.cache.maxSize = s.cache.maxSize) (hb : s'.brk = s.brk)
    (he : s'.entries = s.entries)
    (htab : s'.cache.table = update s.cache.table b (s.entries e).next) :
    Table s' (update bins b l) := by
  have hsub : ∀ c, (update bins b l c).Sublist (bins c) := by
    intro c
    by_cases hc : c = b
    · rw [hc, update_same, hbin]
      exact List.sublist_cons_self e l
    · rw [update_other _ _ hc]
  have haddr : ∀ p, (s'.files p).address = (s.files p).address := fun p => by rw [hf]
  have hstr : ∀ x, entryStr s' x = entryStr s x := by
    intro x
    rw [entryStr, entryNum_congr hk haddr (by rw [he]), entryStr]
  refine ⟨fun c => ?_, fun c => ?_, fun c x hx => ?_, fun c x hx => ?_⟩
  · rw [he, htab]
    by_cases hc : c = b
    · have hw := ht.walk b
      rw [hbin] at hw
      rw [hc, update_same, update_same]
      exact (Walk.cons_iff.mp hw).2.2
    · rw [update_other _ _ hc, update_other _ _ hc]
      exact ht.walk c
  · refine ((ht.sorted c).sublist (hsub c)).imp fun {x y} h => ?_
    rw [hstr, hstr]
    exact h
  · rw [cacheHash_frame hk haddr hm, he]
    exact ht.hashed c x ((hsub c).subset hx)
  · rw [hb]
    exact ht.fresh c x ((hsub c).subset hx)

theorem entryCount_drop (hmax : s'.cache.maxSize = s.cache.maxSize)
    (hlt : b < s.cache.maxSize.toNat) (hbin : bins b = e :: l) :
    entryCount s bins = entryCount s' (update bins b l) + 1 := by
  have hlen : ∀ c, (bins c).length = (update bins b l c).length + if c = b then 1 else 0 := by
    intro c
    by_cases hc : c = b
    · rw [hc, hbin, update_same, if_pos rfl, List.length_cons]
    · rw [update_other _ _ hc, if_neg hc, Nat.add_zero]
  unfold entryCount
  rw [hmax, Finset.sum_congr rfl fun c _ => hlen c, Finset.sum_add_distrib, Finset.sum_ite_eq',
    if_pos (Finset.mem_range.mpr hlt)]

theorem Table.mem_drop (ht : Table s bins) (hbin : bins b = e :: l) {c : Nat} :
    x ∈ update bins b l c ↔ x ∈ bins c ∧ x ≠ e := by
  have hnd : (e :: l).Nodup := hbin ▸ Chain.nodup (ht.walk b)
  have hin : e ∈ bins b := hbin ▸ List.mem_cons_self
  by_cases hc : c = b
  · rw [hc, update_same, hbin, List.mem_cons]
    constructor
    · intro hx
      exact ⟨.inr hx, fun hxe => (List.nodup_cons.mp hnd).1 (hxe ▸ hx)⟩
    · intro hx
      exact hx.1.resolve_left hx.2
  · rw [update_other _ _ hc]
    constructor
    · intro hx
      refine ⟨hx, fun hxe => hc ?_⟩
      rw [← (ht.hashed c x hx).2, hxe, (ht.hashed b e hin).2]
    · intro hx
      exact hx.1

theorem CountedTable.drop_first (h : CountedTable s bins m) (hlt : b < s.cache.maxSize.toNat)
    (hbin : bins b = e :: l) :
    CountedTable ((s.setCache fun c => { c with
      table := update c.table b (s.entries e).next }).setCache
        fun c => { c with size := cint (c.size - 1) })
      (update bins b l) (update m (entryNum s e) none) := by
  set s' := (s.setCache fun c => { c with
      table := update c.table b (s.entries e).next }).setCache
        fun c => { c with size := cint (c.size - 1) }
  have hin : e ∈ bins b := hbin ▸ List.mem_cons_self
  have hcount : entryCount s bins = entryCount s' (update bins b l) + 1 :=
    entryCount_drop rfl hlt hbin
  have hold := h.size
  have hroom := h.room
  have hsize : s'.cache.size = entryCount s' (update bins b l) := by
    have hmax := h.maxSize.2
    change cint (s.cache.size - 1) = _
    rw [cint_eq (by unfold IsInt at hmax ⊢; omega)]
    omega
  refine ⟨⟨h.table.drop_first hbin rfl rfl rfl rfl rfl rfl, fun c x hx => ?_, fun n hn => ?_⟩,
    hsize, ?_, h.maxSize⟩
  · obtain ⟨hx, hne⟩ := (h.table.mem_drop hbin).mp hx
    have hnum : entryNum s x ≠ entryNum s e := fun hn => hne (h.table.unique hx hin hn)
    change update m (entryNum s e) none (entryNum s x) = _
    rw [update_other _ _ hnum]
    exact h.page c x hx
  · have hne : n ≠ entryNum s e := by
      intro heq
      rw [heq, update_same] at hn
      exact hn rfl
    rw [update_other _ _ hne] at hn
    obtain ⟨c, x, hx, hxn⟩ := h.entry n hn
    refine ⟨c, x, (h.table.mem_drop hbin).mpr ⟨hx, fun hxe => hne ?_⟩, hxn⟩
    rw [← hxn, hxe]
  · change s'.cache.size ≤ s.cache.maxSize
    omega

theorem CountedTable.remove (h : CountedTable s bins m) (he : InTable s e)
    (hfirst : s.cache.table (cacheHash s (s.entries e).key) = e)
    (hfuel : s.cache.maxSize.toNat < fuel) :
    ∃ s' bins', cacheRemove s e = .ok s' ∧
      CountedTable s' bins' (update m (entryNum s e) none) ∧
      s'.cache.maxSize = s.cache.maxSize ∧ RemovedOne s s' e fuel := by
  have hin := h.table.bin_cases he
  have hcall := cacheRemove_first (h.table.ne_zero hin) hfirst
  obtain ⟨⟨l, hbin⟩, -⟩ := (cacheRemove_cases h.table he hcall).resolve_right
    fun hother => hother.1 hfirst
  have hnew := h.drop_first (cacheHash_lt h.maxSize.1 (s.entries e).key) hbin
  refine ⟨_, _, hcall, hnew, rfl, ?_, ?_, fun x hx hne => ?_, _, hnew.sortedTable⟩
  · intro hin'
    obtain ⟨c, hc⟩ := hnew.table.inTable_iff.mp hin'
    exact ((h.table.mem_drop hbin).mp hc).2 rfl
  · obtain ⟨r, hget⟩ := hnew.get_ok hfuel (s.entries e).key
    rw [hget, (cacheGet_holds hnew.toHolds hget).1.mpr (update_same _ _ _)]
  · obtain ⟨r, hget⟩ := hnew.get_ok hfuel (s.entries x).key
    obtain ⟨c, hc⟩ := h.table.inTable_iff.mp hx
    have hleft := (h.table.mem_drop hbin).mpr ⟨hc, hne⟩
    rw [hget, (cacheGet_spec hnew.table hget).2 c x hleft rfl]
    exact ⟨rfl, rfl⟩

/-- A removal is right exactly if it is of the first entry of its bin. -/
theorem CountedTable.removesRight_iff (h : CountedTable s bins m)
    (hfuel : s.cache.maxSize.toNat < fuel) {op : CacheOp} (hop : op.Allowed s) :
    op.RemovesRight fuel s ↔ op.RemovesFirst s := by
  cases op with
  | set key wp => exact Iff.rfl
  | remove e =>
    constructor
    · intro hright
      obtain ⟨s', hcall, hremoved⟩ := hright
      by_contra hfirst
      have hin := h.table.bin_cases hop
      obtain ⟨⟨l, hbin⟩, -⟩ | ⟨-, rfl⟩ := cacheRemove_cases h.table hop hcall
      · have hw := h.table.walk (cacheHash s (s.entries e).key)
        rw [hbin] at hw
        exact hfirst (Walk.cons_iff.mp hw).1
      -- the entry is still in its bin
      have hsame : Table (s.setCache fun c => { c with size := cint (c.size - 1) }) bins :=
        h.table.congr rfl (fun _ => rfl) rfl (le_refl _) (fun _ => rfl) (fun _ _ _ => rfl)
          fun _ _ _ => rfl
      exact hremoved.unlinked (hsame.inTable_iff.mpr ⟨_, hin⟩)
    · intro hfirst
      obtain ⟨s', -, hcall, -, -, hremoved⟩ := h.remove hop hfirst hfuel
      exact ⟨s', hcall, hremoved⟩

/-- A call that removes no other than a first entry leaves a counted table. -/
theorem CountedTable.exec (h : CountedTable s bins m) (hfuel : s.cache.maxSize.toNat < fuel)
    {op : CacheOp} (hop : op.Allowed s) (hfirst : op.RemovesFirst s) :
    ∃ s' bins' m', op.exec fuel s = .ok s' ∧ CountedTable s' bins' m' ∧
      s'.cache.maxSize = s.cache.maxSize := by
  cases op with
  | set key wp =>
    obtain ⟨s', bins', hcall, h', -, -, hmax⟩ := h.set wp hop.1 hop.2 hfuel
    exact ⟨s', bins', _, hcall, h', hmax⟩
  | remove e =>
    obtain ⟨s', bins', hcall, h', hmax, -⟩ := h.remove hop hfirst hfuel
    exact ⟨s', bins', _, hcall, h', hmax⟩

end

/-- **A removal is right for the first entry of a bin.** In a run of `cache_set` and
    `cache_remove` calls on a new cache, every removal takes out the entry it is given
    and no other, exactly if every removal is of the first entry of its bin; and then
    every call returns. -/
theorem removes_right_iff_first {s s₀ : Mem} {size : Int} (hcreate : cacheCreate s size = some s₀)
    (hsize : IsInt size) {fuel : Nat} (hfuel : size.toNat < fuel) {ops : List CacheOp}
    (hall : EveryStep (CacheOp.exec fuel) CacheOp.Allowed s₀ ops) :
    (EveryStep (CacheOp.exec fuel) (CacheOp.RemovesRight fuel) s₀ ops ↔
      EveryStep (CacheOp.exec fuel) CacheOp.RemovesFirst s₀ ops) ∧
    (EveryStep (CacheOp.exec fuel) CacheOp.RemovesFirst s₀ ops →
      ∃ s', outcome (CacheOp.exec fuel) s₀ ops = .ok s') := by
  -- what the run keeps, as long as it removes first entries
  let I : Mem → Prop := fun s => (∃ bins m, CountedTable s bins m) ∧ s.cache.maxSize.toNat < fuel
  have hI : I s₀ := by
    refine ⟨⟨_, _, CountedTable.create hcreate hsize⟩, ?_⟩
    rw [(cacheCreate_eq hcreate).1.2.2]
    exact hfuel
  have hstep : ∀ {s : Mem} {op : CacheOp}, I s → op.Allowed s → op.RemovesFirst s →
      ∃ s', op.exec fuel s = .ok s' ∧ I s' := by
    intro s op hs hop hfirst
    obtain ⟨⟨bins, m, h⟩, hfuel⟩ := hs
    obtain ⟨s', bins', m', hcall, h', hmax⟩ := h.exec hfuel hop hfirst
    exact ⟨s', hcall, ⟨bins', m', h'⟩, by rw [hmax]; exact hfuel⟩
  constructor
  · refine EveryStep.iff_of_invariant (I := I) (fun hs hop hfirst hcall => ?_)
      (fun hs hop => ?_) hall hI
    · obtain ⟨s', hcall', hs'⟩ := hstep hs hop hfirst
      exact Except.ok.inj (hcall'.symm.trans hcall) ▸ hs'
    · obtain ⟨⟨bins, m, h⟩, hfuel⟩ := hs
      exact h.removesRight_iff hfuel hop
  · intro hfirst
    obtain ⟨s', hrun, -⟩ := (hall.and hfirst).outcome_ok (I := I)
      (fun hs hop => hstep hs hop.1 hop.2) hI
    exact ⟨s', hrun⟩

/-- Two pages in one bin, removed from its start. -/
theorem removes_right_two_first :
    EveryStep (CacheOp.exec 9) (CacheOp.RemovesRight 9) oneFile
      [.set 2 5, .set 6 7, .remove 10, .remove 11] ∧
    ∃ s', outcome (CacheOp.exec 9) oneFile [.set 2 5, .set 6 7, .remove 10, .remove 11] = .ok s' := by
  have hall : EveryStep (CacheOp.exec 9) CacheOp.Allowed oneFile
      [.set 2 5, .set 6 7, .remove 10, .remove 11] :=
    (EveryStep.cons_ok rfl).mpr ⟨⟨by decide, fun _ => by decide⟩,
      (EveryStep.cons_ok rfl).mpr ⟨⟨by decide, fun _ => by decide⟩,
      (EveryStep.cons_ok rfl).mpr ⟨⟨3, [10, 11], by decide, by decide⟩,
      (EveryStep.cons_ok rfl).mpr ⟨⟨3, [11], by decide, by decide⟩, trivial⟩⟩⟩⟩
  have hfirst : EveryStep (CacheOp.exec 9) CacheOp.RemovesFirst oneFile
      [.set 2 5, .set 6 7, .remove 10, .remove 11] := by
    refine (EveryStep.cons_ok rfl).mpr ⟨trivial, (EveryStep.cons_ok rfl).mpr ⟨trivial,
      (EveryStep.cons_ok rfl).mpr ⟨?_, (EveryStep.cons_ok rfl).mpr ⟨?_, trivial⟩⟩⟩⟩
    · rfl
    · rfl
  obtain ⟨hright, hreturns⟩ := removes_right_iff_first oneFile_create (by decide) (by decide) hall
  exact ⟨hright.mpr hfirst, hreturns hfirst⟩

/-- Two pages in one bin, of which the second is removed: it stays there. -/
theorem second_of_bin_not_removed :
    cacheCreate oneFile 4 = some oneFile ∧
    EveryStep (CacheOp.exec 9) CacheOp.Allowed oneFile [.set 2 5, .set 6 7, .remove 11] ∧
    ¬ EveryStep (CacheOp.exec 9) (CacheOp.RemovesRight 9) oneFile
      [.set 2 5, .set 6 7, .remove 11] := by
  refine ⟨rfl, ?_, fun h => ?_⟩
  · exact (EveryStep.cons_ok rfl).mpr ⟨⟨by decide, fun _ => by decide⟩,
      (EveryStep.cons_ok rfl).mpr ⟨⟨by decide, fun _ => by decide⟩,
      (EveryStep.cons_ok rfl).mpr ⟨⟨3, [10, 11], by decide, by decide⟩, trivial⟩⟩⟩
  · obtain ⟨-, h⟩ := h
    obtain ⟨-, h⟩ := h _ rfl
    obtain ⟨⟨s', hcall, hremoved⟩, -⟩ := h _ rfl
    obtain rfl := Except.ok.inj hcall
    exact hremoved.unlinked ⟨3, [10, 11], by decide, by decide⟩

end Cycology.PageCache
