import Cycology.CacheKeys
import Cycology.DataLru

/- The early-stopping search of `cache_get`, over runs of `cache_set`.

   A run starts from a new cache, sets pages under keys with a number from 1 on,
   no page twice, and inserts no new key into a full cache. `cache_set` frees the
   page it replaces, so a page that is set twice could be freed twice; with distinct
   pages a freed page is in no entry any more. `CountedTable` is what such a run
   keeps: the table of `CacheTable.lean`, with its entries counted by `size`, and
   the pages it should hold. From it `search_finds_the_entry` reads off that the
   bins are in the order of `keyCmp` and that `cache_get`, which stops at the first
   key that is not smaller, finds what a search of the whole table would. -/
namespace Cycology.PageCache
open ByteMem LinkedChain Runs.Fallible

/-- A key that is new to the table finds the cache not full. -/
def RoomFor (s : Mem) (key : Ptr) : Prop :=
  (∀ e, InTable s e → keyCmp s key (s.entries e).key ≠ 0) → s.cache.size < s.cache.maxSize

/-- The call sets a page under a key with a number from 1 on, and a new key only if
    the cache is not full. -/
def SetAllowed (s : Mem) (kp : Ptr × Ptr) : Prop :=
  kp.1 ≠ 0 ∧ 1 ≤ numKey s kp.1 ∧ RoomFor s kp.1

/-- The number of entries in the bins. -/
def entryCount (s : Mem) (bins : Nat → List Ptr) : Nat :=
  (Finset.range s.cache.maxSize.toNat).sum fun b => (bins b).length

/-- The bins of the table are `bins`, each strictly increasing, with every entry in
    the bin of its key, and `size` counts them. -/
structure SortedTable (s : Mem) (bins : Nat → List Ptr) : Prop where
  walk : ∀ b, Walk (fun e => (s.entries e).next) 0 (s.cache.table b) (bins b)
  increasing : ∀ b, (bins b).Pairwise fun e e' =>
    keyCmp s (s.entries e).key (s.entries e').key < 0
  hashed : ∀ b, ∀ e ∈ bins b, cacheHash s (s.entries e).key = b
  size : s.cache.size = entryCount s bins

/-- The page last set under a key that compares equal to `key`. -/
def lastSet (s : Mem) (sets : List (Ptr × Ptr)) (key : Ptr) : Option Ptr :=
  (sets.reverse.find? fun kp => keyCmp s key kp.1 = 0).map Prod.snd

/-- `cache_get` ends and finds an entry exactly if it is the entry of the table whose
    key compares equal, that entry holds the page last set under such a key, and
    there is one if a page was set. -/
structure SearchFinds (s : Mem) (sets : List (Ptr × Ptr)) (key : Ptr) (fuel : Nat) : Prop where
  get : ∃ r, cacheGet s key fuel = .ok r ∧
    ∀ e, e ≠ 0 → (r = e ↔ InTable s e ∧ keyCmp s key (s.entries e).key = 0)
  page : ∀ e, InTable s e → keyCmp s key (s.entries e).key = 0 →
    lastSet s sets key = some (s.entries e).wp
  found : ∀ wp, lastSet s sets key = some wp →
    ∃ e, InTable s e ∧ keyCmp s key (s.entries e).key = 0 ∧ (s.entries e).wp = wp

/-- No page is in two entries of the table. -/
def PagesApart (s : Mem) : Prop :=
  ∀ e e', InTable s e → InTable s e' → (s.entries e).wp = (s.entries e').wp → e = e'

/-! ## Comparing keys -/

theorem keyCmp_eq_zero {s : Mem} {k k' : Ptr} : keyCmp s k k' = 0 ↔ numKey s k = numKey s k' := by
  rw [keyCmp, strcmp_eq_zero]
  constructor
  · intro h
    exact decimal_inj h
  · intro h
    rw [h]

theorem strcmp_neg {a b : List Char} : strcmp a b < 0 ↔ a < b := by
  unfold strcmp
  rcases lt_trichotomy a b with h | rfl | h
  · simp [h]
  · simp
  · simp [not_lt_of_gt h, ne_of_gt h]

theorem keyCmp_neg {s : Mem} {e e' : Ptr} :
    keyCmp s (s.entries e).key (s.entries e').key < 0 ↔ entryStr s e < entryStr s e' := strcmp_neg

/-- The last page of a number is the one that is found first from the end. -/
theorem lastPages_numKey (s : Mem) (sets : List (Ptr × Ptr)) (key : Ptr) :
    lastPages (numKey s) (fun _ => none) sets (numKey s key) = lastSet s sets key := by
  induction sets using List.reverseRecOn with
  | nil => rfl
  | append_singleton sets kp ih =>
    unfold lastSet at ih ⊢
    rw [lastPages, List.foldl_append, List.foldl_cons, List.foldl_nil, List.reverse_append,
      List.reverse_singleton, List.singleton_append, List.find?_cons]
    by_cases h : numKey s key = numKey s kp.1
    · rw [h, update_same]
      simp [keyCmp_eq_zero.mpr h]
    · have hne : ¬ keyCmp s key kp.1 = 0 := fun h0 => h (keyCmp_eq_zero.mp h0)
      rw [update_other _ _ h]
      simp only [hne, decide_false]
      exact ih

theorem mem_of_lastSet {s : Mem} {sets : List (Ptr × Ptr)} {key wp : Ptr}
    (h : lastSet s sets key = some wp) : ∃ kp ∈ sets, keyCmp s key kp.1 = 0 ∧ kp.2 = wp := by
  obtain ⟨kp, hfind, hwp⟩ := Option.map_eq_some_iff.mp h
  have hcmp : decide (keyCmp s key kp.1 = 0) = true := by simpa using List.find?_some hfind
  exact ⟨kp, List.mem_reverse.mp (List.mem_of_find?_eq_some hfind), of_decide_eq_true hcmp, hwp⟩

/-! ## The invariant -/

/-- The table holds the pages of `m`, and `size` counts its entries, at most
    `maxSize` of them. -/
structure CountedTable (s : Mem) (bins : Nat → List Ptr) (m : Int → Option Ptr) : Prop
    extends Holds s bins m where
  size : s.cache.size = entryCount s bins
  room : s.cache.size ≤ s.cache.maxSize
  maxSize : 0 < s.cache.maxSize ∧ IsInt s.cache.maxSize

section
variable {s s' : Mem} {bins bins' : Nat → List Ptr} {m : Int → Option Ptr} {key wp e : Ptr}
  {fuel : Nat}

theorem cacheHash_lt (hmax : 0 < s.cache.maxSize) (key : Ptr) :
    cacheHash s key < s.cache.maxSize.toNat := Nat.mod_lt _ (by omega)

theorem RoomFor.newKey (hroom : RoomFor s key) (ht : Table s bins) (hnew : NewKey s bins key) :
    s.cache.size < s.cache.maxSize := by
  apply hroom
  intro e he hcmp
  obtain ⟨b, hb⟩ := ht.inTable_iff.mp he
  exact hnew b e hb (keyCmp_eq_zero.mp hcmp).symm

theorem SetOutcome.length_new (ht : Table s bins) (h : SetOutcome s bins key wp s' e bins')
    (hnew : ∀ b, e ∉ bins b) (b : Nat) :
    (bins' b).length = (bins b).length + if b = cacheHash s key then 1 else 0 := by
  have hnd : (bins' b).Nodup := Chain.nodup (h.table.walk b)
  by_cases hb : b = cacheHash s key
  · have hcons : (e :: bins b).Nodup := List.nodup_cons.mpr ⟨hnew b, Chain.nodup (ht.walk b)⟩
    have hperm : (bins' b).Perm (e :: bins b) := by
      refine (List.perm_ext_iff_of_nodup hnd hcons).mpr fun x => ?_
      rw [h.members, List.mem_cons]
      simp [hb, or_comm]
    rw [hperm.length_eq, if_pos hb, List.length_cons]
  · have hperm : (bins' b).Perm (bins b) := by
      refine (List.perm_ext_iff_of_nodup hnd (Chain.nodup (ht.walk b))).mpr fun x => ?_
      rw [h.members]
      simp [hb]
    rw [hperm.length_eq, if_neg hb, Nat.add_zero]

theorem SetOutcome.length_old (ht : Table s bins) (h : SetOutcome s bins key wp s' e bins')
    {b : Nat} (hold : e ∈ bins b) (c : Nat) : (bins' c).length = (bins c).length := by
  have hb : b = cacheHash s key := ht.bin_eq hold (h.old_num hold)
  have hperm : (bins' c).Perm (bins c) := by
    refine (List.perm_ext_iff_of_nodup (Chain.nodup (h.table.walk c))
      (Chain.nodup (ht.walk c))).mpr fun x => ?_
    rw [h.members]
    constructor
    · intro hx
      rcases hx with hx | ⟨hc, hxe⟩
      · exact hx
      · rw [hxe, hc, ← hb]
        exact hold
    · intro hx
      exact .inl hx
  exact hperm.length_eq

theorem SetOutcome.entryCount_new (ht : Table s bins) (h : SetOutcome s bins key wp s' e bins')
    (hmax : 0 < s.cache.maxSize) (hnew : ∀ b, e ∉ bins b) :
    entryCount s' bins' = entryCount s bins + 1 := by
  unfold entryCount
  rw [h.cache.1, Finset.sum_congr rfl fun b _ => h.length_new ht hnew b, Finset.sum_add_distrib,
    Finset.sum_ite_eq', if_pos (Finset.mem_range.mpr (cacheHash_lt hmax key))]

theorem SetOutcome.entryCount_old (ht : Table s bins) (h : SetOutcome s bins key wp s' e bins')
    {b : Nat} (hold : e ∈ bins b) : entryCount s' bins' = entryCount s bins := by
  unfold entryCount
  rw [h.cache.1]
  exact Finset.sum_congr rfl fun c _ => h.length_old ht hold c

theorem CountedTable.size_set (h : CountedTable s bins m)
    (hout : SetOutcome s bins key wp s' e bins')
    (hroom : NewKey s bins key → s.cache.size < s.cache.maxSize) :
    s'.cache.size = entryCount s' bins' ∧ s'.cache.size ≤ s.cache.maxSize := by
  by_cases hold : ∃ b, e ∈ bins b
  · obtain ⟨b, hb⟩ := hold
    rw [(hout.old b hb).2, hout.entryCount_old h.table hb]
    exact ⟨h.size, h.room⟩
  · have hnew := not_exists.mp hold
    have hlt : s.cache.size < s.cache.maxSize := by
      apply hroom
      intro b x hx
      apply hout.num_ne hx
      intro hxe
      exact hnew b (hxe ▸ hx)
    have hint : IsInt (s.cache.size + 1) := by
      have hmax := h.maxSize.2
      have hsize := h.size
      unfold IsInt at hmax ⊢
      omega
    rw [(hout.new hnew).2.1, cint_eq hint, hout.entryCount_new h.table h.maxSize.1 hnew, h.size]
    have hsize := h.size
    constructor
    · rfl
    · omega

theorem CountedTable.length_le (h : CountedTable s bins m) (b : Nat) :
    (bins b).length ≤ s.cache.maxSize.toNat := by
  by_cases hb : b < s.cache.maxSize.toNat
  · have hone : (bins b).length ≤ entryCount s bins :=
      Finset.single_le_sum (f := fun b => (bins b).length) (fun _ _ => Nat.zero_le _)
        (Finset.mem_range.mpr hb)
    have hsize := h.size
    have hroom := h.room
    omega
  · have hnil : bins b = [] := by
      apply List.eq_nil_iff_forall_not_mem.mpr
      intro e he
      have hlt := cacheHash_lt h.maxSize.1 (s.entries e).key
      rw [(h.table.hashed b e he).2] at hlt
      exact hb hlt
    rw [hnil]
    exact Nat.zero_le _

theorem CountedTable.set (h : CountedTable s bins m) (wp : Ptr) (hkey : key ≠ 0)
    (hroom : RoomFor s key) (hfuel : s.cache.maxSize.toNat < fuel) :
    ∃ s' bins', setStep fuel s (key, wp) = .ok s' ∧
      CountedTable s' bins' (update m (numKey s key) (some wp)) ∧
      s'.keys = s.keys ∧ s'.files = s.files ∧ s'.cache.maxSize = s.cache.maxSize := by
  have hroom' : NewKey s bins key → s.cache.size < s.cache.maxSize := hroom.newKey h.table
  obtain ⟨⟨s', e⟩, hset⟩ : ∃ r, cacheSet s key wp fuel = .ok r :=
    cacheSet_ok h.table hroom' fun b => lt_of_le_of_lt (h.length_le b) hfuel
  obtain ⟨bins', hout⟩ := cacheSet_spec h.table hkey hroom' hset
  obtain ⟨hsize, hle⟩ := h.size_set hout hroom'
  refine ⟨s', bins', ?_, ⟨cacheSet_holds h.toHolds hout, hsize, ?_, ?_⟩, hout.keys, hout.files,
    hout.cache.1⟩
  · rw [setStep, hset]
    rfl
  · rw [hout.cache.1]
    exact hle
  · rw [hout.cache.1]
    exact h.maxSize

theorem CountedTable.run {sets : List (Ptr × Ptr)} : ∀ {s : Mem} {bins : Nat → List Ptr}
    {m : Int → Option Ptr}, CountedTable s bins m → s.cache.maxSize.toNat < fuel →
    EveryStep (setStep fuel) SetAllowed s sets →
    ∃ s' bins', outcome (setStep fuel) s sets = .ok s' ∧
      CountedTable s' bins' (lastPages (numKey s) m sets) ∧
      s'.keys = s.keys ∧ s'.files = s.files ∧ s'.cache.maxSize = s.cache.maxSize := by
  induction sets with
  | nil => exact fun h _ _ => ⟨_, _, rfl, h, rfl, rfl, rfl⟩
  | cons kp sets ih =>
    intro s bins m h hfuel hall
    obtain ⟨⟨hkey, -, hroom⟩, hrest⟩ := hall
    obtain ⟨s₁, bins₁, hstep, h₁, hkeys, hfiles, hmax⟩ := h.set kp.2 hkey hroom hfuel
    obtain ⟨s', bins', hrun, h', hkeys', hfiles', hmax'⟩ := ih h₁ (hmax ▸ hfuel) (hrest s₁ hstep)
    have hnum : numKey s₁ = numKey s := funext (numKey_congr hkeys fun p => by rw [hfiles])
    rw [hnum] at h'
    refine ⟨s', bins', ?_, h', hkeys'.trans hkeys, hfiles'.trans hfiles, hmax'.trans hmax⟩
    rw [outcome, hstep, ok_bind, hrun]

theorem CountedTable.create {s₀ : Mem} {size : Int} (hcreate : cacheCreate s size = some s₀)
    (hsize : IsInt size) : CountedTable s₀ (fun _ => []) (fun _ => none) := by
  obtain ⟨⟨hpos, hzero, hmax⟩, -⟩ := cacheCreate_eq hcreate
  refine ⟨⟨Table.create hcreate, fun _ _ he => absurd he List.not_mem_nil,
    fun _ hn => absurd rfl hn⟩, ?_, ?_, ?_⟩
  · rw [hzero]
    simp [entryCount]
  · rw [hzero, hmax]
    exact le_of_lt hpos
  · rw [hmax]
    exact ⟨hpos, hsize⟩

theorem CountedTable.sortedTable (h : CountedTable s bins m) : SortedTable s bins where
  walk := h.table.walk
  increasing b := (h.table.sorted b).imp fun hlt => keyCmp_neg.mpr hlt
  hashed b e he := (h.table.hashed b e he).2
  size := h.size

theorem CountedTable.get_ok (h : CountedTable s bins m) (hfuel : s.cache.maxSize.toNat < fuel)
    (key : Ptr) : ∃ r, cacheGet s key fuel = .ok r :=
  cacheGet_ok h.table key fun b => lt_of_le_of_lt (h.length_le b) hfuel

theorem CountedTable.searchFinds {sets : List (Ptr × Ptr)}
    (h : CountedTable s bins (lastPages (numKey s) (fun _ => none) sets))
    (hfuel : s.cache.maxSize.toNat < fuel) (key : Ptr) : SearchFinds s sets key fuel := by
  obtain ⟨r, hget⟩ := h.get_ok hfuel key
  obtain ⟨hfound, huniq⟩ := cacheGet_spec h.table hget
  have hpage : ∀ e, InTable s e → keyCmp s key (s.entries e).key = 0 →
      lastSet s sets key = some (s.entries e).wp := by
    intro e he hcmp
    obtain ⟨b, hb⟩ := h.table.inTable_iff.mp he
    rw [← lastPages_numKey, keyCmp_eq_zero.mp hcmp]
    exact h.page b e hb
  refine ⟨⟨r, hget, fun e he => ?_⟩, hpage, fun wp hwp => ?_⟩
  · rw [h.table.inTable_iff]
    constructor
    · intro hre
      obtain ⟨hmem, hnum⟩ := hfound (hre ▸ he)
      rw [hre] at hmem hnum
      exact ⟨⟨_, hmem⟩, keyCmp_eq_zero.mpr hnum.symm⟩
    · intro hin
      obtain ⟨⟨b, hb⟩, hcmp⟩ := hin
      exact huniq b e hb (keyCmp_eq_zero.mp hcmp).symm
  · obtain ⟨b, e, hb, hnum⟩ := h.entry (numKey s key) (by rw [lastPages_numKey, hwp]; simp)
    have he : InTable s e := h.table.inTable_iff.mpr ⟨b, hb⟩
    have hcmp : keyCmp s key (s.entries e).key = 0 := keyCmp_eq_zero.mpr hnum.symm
    exact ⟨e, he, hcmp, Option.some.inj ((hpage e he hcmp).symm.trans hwp)⟩

/-- Two entries with one page would have it from one call, so under one key. -/
theorem CountedTable.pagesApart {sets : List (Ptr × Ptr)}
    (h : CountedTable s bins (lastPages (numKey s) (fun _ => none) sets))
    (hpages : (sets.map Prod.snd).Nodup) : PagesApart s := by
  intro e e' he he' hwp
  obtain ⟨b, hb⟩ := h.table.inTable_iff.mp he
  obtain ⟨b', hb'⟩ := h.table.inTable_iff.mp he'
  have hset : ∀ {b e}, e ∈ bins b → ∃ kp ∈ sets, numKey s kp.1 = entryNum s e ∧
      kp.2 = (s.entries e).wp := by
    intro b e hb
    have hpage := h.page b e hb
    rw [entryNum, lastPages_numKey] at hpage
    obtain ⟨kp, hkp, hcmp, hkpwp⟩ := mem_of_lastSet hpage
    exact ⟨kp, hkp, (keyCmp_eq_zero.mp hcmp).symm, hkpwp⟩
  obtain ⟨kp, hkp, hnum, hkpwp⟩ := hset hb
  obtain ⟨kp', hkp', hnum', hkpwp'⟩ := hset hb'
  have hone : kp = kp' :=
    List.inj_on_of_nodup_map hpages hkp hkp' (hkpwp.trans (hwp.trans hkpwp'.symm))
  have hentry : entryNum s e = entryNum s e' := by rw [← hnum, ← hnum', hone]
  exact h.table.unique hb hb' hentry

end

/-- **The early-stopping search is a full search.** After any distinct pages set
    under keys with a number from 1 on, no new key at the maximum size, every call has
    ended and the bins are strictly increasing, with each entry in its bin and `size`
    the number of entries; for every key `cache_get` finds the one entry of the whole
    table whose key compares equal, with the page last set under such a key, and it
    finds one if there was such a page; and no page is in two entries. -/
theorem search_finds_the_entry {s s₀ : Mem} {size : Int} (hcreate : cacheCreate s size = some s₀)
    (hsize : IsInt size) {fuel : Nat} (hfuel : size.toNat < fuel) {sets : List (Ptr × Ptr)}
    (hpages : (sets.map Prod.snd).Nodup) (hall : EveryStep (setStep fuel) SetAllowed s₀ sets) :
    ∃ s', outcome (setStep fuel) s₀ sets = .ok s' ∧ (∃ bins, SortedTable s' bins) ∧
      (∀ key, SearchFinds s' sets key fuel) ∧ PagesApart s' := by
  have hmax₀ : s₀.cache.maxSize = size := (cacheCreate_eq hcreate).1.2.2
  obtain ⟨s', bins, hrun, h, hkeys, hfiles, hmax⟩ :=
    (CountedTable.create hcreate hsize).run (hmax₀ ▸ hfuel) hall
  have hnum : numKey s' = numKey s₀ := funext (numKey_congr hkeys fun p => by rw [hfiles])
  rw [← hnum] at h
  exact ⟨s', hrun, ⟨bins, h.sortedTable⟩, h.searchFinds (by rw [hmax, hmax₀]; exact hfuel),
    h.pagesApart hpages⟩

/-- Pages set under 9, under 14, which comes before it in the same bin, and under 9
    again. -/
theorem search_finds_nine_after_fourteen :
    ∃ s', outcome (setStep 9) oneFile [(9, 5), (14, 6), (9, 7)] = .ok s' ∧
      (∃ bins, SortedTable s' bins) ∧
      (∀ key, SearchFinds s' [(9, 5), (14, 6), (9, 7)] key 9) ∧ PagesApart s' := by
  have hroom : ∀ {s : Mem} {kp : Ptr × Ptr},
      (kp.1 ≠ 0 ∧ 1 ≤ numKey s kp.1) ∧ s.cache.size < s.cache.maxSize → SetAllowed s kp :=
    fun h => ⟨h.1.1, h.1.2, fun _ => h.2⟩
  refine search_finds_the_entry oneFile_create (by decide) (by decide) (by decide) ?_
  exact (EveryStep.cons_ok rfl).mpr ⟨hroom (by decide), (EveryStep.cons_ok rfl).mpr
    ⟨hroom (by decide), (EveryStep.cons_ok rfl).mpr ⟨hroom (by decide), trivial⟩⟩⟩

end Cycology.PageCache
