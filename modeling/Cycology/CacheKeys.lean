import Cycology.CacheTable
import Cycology.Lib.Runs

/- The cache as a map from keys to pages.

   A key is a file, an offset and a level. The table folds the three into one
   number, and as a map from numbers to pages it is right: `cache_set` puts the
   page under the key's number and `cache_get` finds the page under it
   (`cacheSet_holds`, `cacheGet_holds`).

   Keys are therefore told apart just as far as their numbers differ. For a set
   of keys the cache keeps their pages apart, over all runs, exactly if no two of
   them with a different file, offset or level have the same number
   (`keys_apart_iff`). The numbers are from 1 on, as those of every file's keys
   are, and a run hands over no page twice: `cache_set` frees the page it
   replaces. -/
namespace Cycology.PageCache
open ByteMem LinkedChain Runs.Fallible

/-- What a key stands for: the address of its file, its offset and its level. -/
structure KeyParts where
  address : Int
  dataOffset : Int
  levelsAbove : Int
  deriving DecidableEq, Repr

def keyParts (s : Mem) (key : Ptr) : KeyParts where
  address := (s.files (s.keys key).file).address
  dataOffset := (s.keys key).dataOffset
  levelsAbove := (s.keys key).levelsAbove

/-- The last page set under each name, after setting the pages of `sets` over
    those of `m`; `name` says what a key is known by. -/
def lastPages {κ : Type} [DecidableEq κ] (name : Ptr → κ) (m : κ → Option Ptr)
    (sets : List (Ptr × Ptr)) : κ → Option Ptr :=
  sets.foldl (fun m kp => update m (name kp.1) (some kp.2)) m

/-- A `cache_set` call with a key and a page. -/
def setStep (fuel : Nat) (s : Mem) (kp : Ptr × Ptr) : Except Fault Mem := do
  let (s, _) ← cacheSet s kp.1 kp.2 fuel
  .ok s

/-- After the calls `sets`, a page set under `k'` does not change what is found
    under `k`; and what is found there was set under the parts of `k`, and last. -/
def KeptApart (s : Mem) (sets : List (Ptr × Ptr)) (k k' : Ptr) (fuel : Nat) : Prop :=
  ∀ wp, ∃ r s' e, cacheGet s k fuel = .ok r ∧ cacheSet s k' wp fuel = .ok (s', e) ∧
    cacheGet s' k fuel = .ok r ∧ (r ≠ 0 → (s'.entries r).wp = (s.entries r).wp ∧
      keyParts s (s.entries r).key = keyParts s k ∧
      lastPages (keyParts s) (fun _ => none) sets (keyParts s k) = some (s.entries r).wp)

/-- Whatever is set under the keys of `K`, the cache keeps keys of `K` with
    different parts apart, as long as it is not full. -/
def KeysApart (s₀ : Mem) (K : Set Ptr) : Prop :=
  ∀ sets : List (Ptr × Ptr), (∀ kp ∈ sets, kp.1 ∈ K) → ∀ fuel s, sets.length + 1 < fuel →
    outcome (setStep fuel) s₀ sets = .ok s → s.cache.size < s.cache.maxSize →
    ∀ k ∈ K, ∀ k' ∈ K, keyParts s k ≠ keyParts s k' → KeptApart s sets k k' fuel

/-! ## The table as a map from numbers -/

/-- The table holds the pages of `m`, each under its number. -/
structure Holds (s : Mem) (bins : Nat → List Ptr) (m : Int → Option Ptr) : Prop where
  table : Table s bins
  page : ∀ b, ∀ e ∈ bins b, m (entryNum s e) = some (s.entries e).wp
  entry : ∀ n, m n ≠ none → ∃ b, ∃ e ∈ bins b, entryNum s e = n

section
variable {s s' : Mem} {bins bins' : Nat → List Ptr} {m : Int → Option Ptr} {key wp e r : Ptr}
  {fuel : Nat}

theorem cacheSet_holds (hs : Holds s bins m) (h : SetOutcome s bins key wp s' e bins') :
    Holds s' bins' (update m (numKey s key) (some wp)) := by
  refine ⟨h.table, fun b x hx => ?_, fun n hn => ?_⟩
  · by_cases hxe : x = e
    · rw [hxe, h.num, update_same, h.page]
    · have hxb := ((h.members b x).mp hx).resolve_right fun hr => hxe hr.2
      rw [(h.other hxe).1, (h.other hxe).2, update_other _ _ (h.num_ne hxb hxe)]
      exact hs.page b x hxb
  · by_cases hnum : n = numKey s key
    · exact ⟨_, e, h.mem, by rw [h.num, hnum]⟩
    · rw [update_other _ _ hnum] at hn
      obtain ⟨b, x, hx, hxn⟩ := hs.entry n hn
      have hxe : x ≠ e := by
        rintro rfl
        exact hnum (hxn.symm.trans (h.old_num hx))
      exact ⟨b, x, (h.members b x).mpr (.inl hx), by rw [(h.other hxe).1, hxn]⟩

theorem cacheGet_holds (hs : Holds s bins m) (h : cacheGet s key fuel = .ok r) :
    (r = 0 ↔ m (numKey s key) = none) ∧
    (r ≠ 0 → m (numKey s key) = some (s.entries r).wp) := by
  obtain ⟨hfound, huniq⟩ := cacheGet_spec hs.table h
  have hpage : r ≠ 0 → m (numKey s key) = some (s.entries r).wp := fun hr => by
    rw [← (hfound hr).2]
    exact hs.page _ r (hfound hr).1
  refine ⟨⟨fun hr => ?_, fun hnone => ?_⟩, hpage⟩
  · by_contra hne
    obtain ⟨b, e, he, hn⟩ := hs.entry _ hne
    exact hs.table.ne_zero he ((huniq b e he hn).symm.trans hr)
  · by_contra hr
    rw [hpage hr] at hnone
    cases hnone

theorem cacheGet_other {k r' : Ptr} (ht : Table s bins)
    (h : SetOutcome s bins key wp s' e bins') (hne : numKey s k ≠ numKey s key)
    (hget : cacheGet s k fuel = .ok r) (hget' : cacheGet s' k fuel = .ok r') :
    r' = r ∧ (r ≠ 0 → (s'.entries r).wp = (s.entries r).wp) := by
  obtain ⟨hfound, huniq⟩ := cacheGet_spec ht hget
  obtain ⟨hfound', huniq'⟩ := cacheGet_spec h.table hget'
  have hstay : r ≠ 0 → r ≠ e ∧ r' = r := by
    intro hr
    obtain ⟨hmem, hn⟩ := hfound hr
    have hre : r ≠ e := by
      rintro rfl
      exact hne (hn.symm.trans (h.old_num hmem))
    refine ⟨hre, huniq' _ r ((h.members _ r).mpr (.inl hmem)) ?_⟩
    rw [(h.other hre).1, hn, h.numKey_eq]
  refine ⟨?_, fun hr => (h.other (hstay hr).1).2⟩
  by_cases hr : r = 0
  · by_contra hrr
    have hr' : r' ≠ 0 := hr ▸ hrr
    obtain ⟨hmem, hn⟩ := hfound' hr'
    have hre : r' ≠ e := by
      rintro rfl
      rw [h.num, h.numKey_eq] at hn
      exact hne hn.symm
    have hin := ((h.members _ r').mp hmem).resolve_right fun hx => hre hx.2
    rw [(h.other hre).1, h.numKey_eq] at hn
    exact hrr (huniq _ r' hin hn).symm
  · exact (hstay hr).2

end

/-! ## Runs -/

section
variable {κ μ : Type} [DecidableEq κ] [DecidableEq μ]

theorem lastPages_congr {f : Ptr → κ} {g : Ptr → μ} {k : Ptr} {sets : List (Ptr × Ptr)}
    (hfg : ∀ kp ∈ sets, f k = f kp.1 ↔ g k = g kp.1) {m : κ → Option Ptr} {m' : μ → Option Ptr}
    (hm : m (f k) = m' (g k)) : lastPages f m sets (f k) = lastPages g m' sets (g k) := by
  induction sets generalizing m m' with
  | nil => exact hm
  | cons kp sets ih =>
    refine ih (fun kp' hkp' => hfg kp' (List.mem_cons_of_mem _ hkp')) ?_
    have hiff := hfg kp List.mem_cons_self
    dsimp only
    by_cases hf : f k = f kp.1
    · rw [hf, hiff.mp hf, update_same, update_same]
    · rw [update_other _ _ hf, update_other _ _ (fun hg => hf (hiff.mpr hg)), hm]

end

theorem stays_full {fuel : Nat} {sets : List (Ptr × Ptr)} {s s' : Mem}
    (hfull : s.cache.maxSize ≤ s.cache.size) (h : outcome (setStep fuel) s sets = .ok s') :
    s'.cache.maxSize ≤ s'.cache.size := by
  induction sets generalizing s with
  | nil =>
    cases h
    exact hfull
  | cons kp sets ih =>
    obtain ⟨s₁, hstep, h⟩ := outcome_cons_eq_ok.mp h
    obtain ⟨⟨s₂, e⟩, hset, hs₁⟩ := bind_eq_ok.mp hstep
    cases hs₁
    exact ih (cacheSet_full hfull hset) h

/-- The table holds the pages of `m` in entries with keys of `K`, at most `n` to
    a bin. -/
structure HoldsKeys (s : Mem) (bins : Nat → List Ptr) (K : Set Ptr) (m : Int → Option Ptr)
    (n : Nat) : Prop extends Holds s bins m where
  keys : ∀ b, ∀ e ∈ bins b, (s.entries e).key ∈ K
  length : ∀ b, (bins b).length ≤ n

namespace HoldsKeys
variable {s s' : Mem} {bins : Nat → List Ptr} {K : Set Ptr} {m : Int → Option Ptr} {n fuel : Nat}

theorem set (hs : HoldsKeys s bins K m n) {kp : Ptr × Ptr} (hK : kp.1 ∈ K) (h0 : kp.1 ≠ 0)
    (hroom : s.cache.size < s.cache.maxSize) (h : setStep fuel s kp = .ok s') :
    ∃ bins', HoldsKeys s' bins' K (update m (numKey s kp.1) (some kp.2)) (n + 1) ∧
      s'.keys = s.keys ∧ s'.files = s.files := by
  obtain ⟨⟨s₁, e⟩, hset, h⟩ := bind_eq_ok.mp h
  cases h
  obtain ⟨bins', hout⟩ := cacheSet_spec hs.table h0 (fun _ => hroom) hset
  refine ⟨bins', ⟨cacheSet_holds hs.toHolds hout, fun b x hx => ?_, fun b => ?_⟩, hout.keys,
    hout.files⟩
  · by_cases hxe : x = e
    · by_cases hold : ∃ b, e ∈ bins b
      · obtain ⟨b', hb'⟩ := hold
        rw [hxe, (hout.old b' hb').1]
        exact hs.keys b' e hb'
      · rw [hxe, (hout.new (not_exists.mp hold)).2.2]
        exact hK
    · rw [hout.others x hxe]
      exact hs.keys b x (((hout.members b x).mp hx).resolve_right fun hr => hxe hr.2)
  · exact le_trans (hout.length_le b) (Nat.succ_le_succ (hs.length b))

theorem run {sets : List (Ptr × Ptr)} (hs : HoldsKeys s bins K m n)
    (hK : ∀ kp ∈ sets, kp.1 ∈ K) (h0 : ∀ k ∈ K, k ≠ 0)
    (hroom : s'.cache.size < s'.cache.maxSize) (h : outcome (setStep fuel) s sets = .ok s') :
    ∃ bins', HoldsKeys s' bins' K (lastPages (numKey s) m sets) (n + sets.length) ∧
      s'.keys = s.keys ∧ s'.files = s.files := by
  induction sets generalizing s bins m n with
  | nil =>
    cases h
    exact ⟨bins, hs, rfl, rfl⟩
  | cons kp sets ih =>
    obtain ⟨s₁, hstep, hrest⟩ := outcome_cons_eq_ok.mp h
    have hkp := hK kp List.mem_cons_self
    have hroom₁ : s.cache.size < s.cache.maxSize := by
      by_contra hfull
      exact absurd hroom (not_lt.mpr (stays_full (not_lt.mp hfull) h))
    obtain ⟨bins₁, hs₁, hkeys, hfiles⟩ := hs.set hkp (h0 _ hkp) hroom₁ hstep
    obtain ⟨bins', hs', hkeys', hfiles'⟩ :=
      ih hs₁ (fun kp' hkp' => hK kp' (List.mem_cons_of_mem _ hkp')) hrest
    have hnum : numKey s₁ = numKey s := funext (numKey_congr hkeys fun p => by rw [hfiles])
    rw [hnum] at hs'
    refine ⟨bins', ?_, hkeys'.trans hkeys, hfiles'.trans hfiles⟩
    rw [List.length_cons, Nat.add_comm sets.length, ← Nat.add_assoc]
    exact hs'

end HoldsKeys

/-! ## Keys of different parts -/

theorem keyParts_congr {s s' : Mem} (hk : s'.keys = s.keys) (hf : s'.files = s.files) :
    keyParts s' = keyParts s := by
  funext key
  rw [keyParts, hk, hf, keyParts]

theorem numKey_of_parts {s : Mem} {k k' : Ptr} (h : keyParts s k = keyParts s k') :
    numKey s k = numKey s k' := by
  simp only [keyParts, KeyParts.mk.injEq] at h
  obtain ⟨ha, ho, hl⟩ := h
  simp only [numKey, ha, ho, hl]

/-- No two keys of `K` with different parts have the same number. -/
def NumbersApart (s : Mem) (K : Set Ptr) : Prop :=
  ∀ k ∈ K, ∀ k' ∈ K, numKey s k = numKey s k' → keyParts s k = keyParts s k'

section
variable {s s₀ : Mem} {K : Set Ptr} {size : Int}

theorem HoldsKeys.keptApart {bins : Nat → List Ptr} {sets : List (Ptr × Ptr)} {k k' : Ptr}
    {n fuel : Nat} (hs : HoldsKeys s bins K (lastPages (numKey s) (fun _ => none) sets) n)
    (hK : ∀ kp ∈ sets, kp.1 ∈ K) (hnum : NumbersApart s K) (hroom : s.cache.size < s.cache.maxSize)
    (hf : n + 1 < fuel) (hk : k ∈ K) (hk' : k' ∈ K) (hk0 : k' ≠ 0)
    (hne : keyParts s k ≠ keyParts s k') : KeptApart s sets k k' fuel := by
  intro wp
  have hlen : ∀ b, (bins b).length < fuel := fun b =>
    lt_of_le_of_lt (hs.length b) (Nat.lt_of_succ_lt hf)
  obtain ⟨r, hget⟩ := cacheGet_ok hs.table k hlen
  obtain ⟨⟨s', e⟩, hset⟩ : ∃ r, cacheSet s k' wp fuel = .ok r :=
    cacheSet_ok hs.table (fun _ => hroom) hlen
  obtain ⟨bins', hout⟩ := cacheSet_spec hs.table hk0 (fun _ => hroom) hset
  obtain ⟨r', hget'⟩ := cacheGet_ok hout.table k fun b =>
    lt_of_le_of_lt ((hout.length_le b).trans (Nat.succ_le_succ (hs.length b))) hf
  obtain ⟨hr', hpage⟩ := cacheGet_other hs.table hout
    (fun hn => hne (hnum k hk k' hk' hn)) hget hget'
  refine ⟨r, s', e, hget, hset, by rw [hget', hr'], fun hr => ⟨hpage hr, ?_, ?_⟩⟩
  · obtain ⟨hmem, hn⟩ := (cacheGet_spec hs.table hget).1 hr
    exact hnum _ (hs.keys _ r hmem) k hk hn
  · rw [← (cacheGet_holds hs.toHolds hget).2 hr]
    refine lastPages_congr (fun kp hkp => ⟨numKey_of_parts, fun hn => ?_⟩) rfl
    exact hnum k hk kp.1 (hK kp hkp) hn

/-- **Keys are kept apart exactly if their numbers differ.** Starting from a new
    cache, keys with different parts are kept apart in every run, exactly if they
    have different numbers. Key numbers are from 1 on, and no page is handed over
    twice. -/
theorem keys_apart_iff (hcreate : cacheCreate s size = some s₀) (h0 : ∀ k ∈ K, k ≠ 0) :
    KeysApart s₀ K ↔ NumbersApart s₀ K := by
  have hempty : HoldsKeys s₀ (fun _ => []) K (fun _ => none) 0 :=
    ⟨⟨Table.create hcreate, fun _ _ he => absurd he List.not_mem_nil, fun _ hn => absurd rfl hn⟩,
      fun _ _ he => absurd he List.not_mem_nil, fun _ => le_refl 0⟩
  constructor
  · intro h k hk k' hk' hn
    by_contra hne
    obtain ⟨hsize, -⟩ := cacheCreate_eq hcreate
    have hroom : s₀.cache.size < s₀.cache.maxSize := by rw [hsize.2.1, hsize.2.2]; exact hsize.1
    -- nothing is found under `k` before `k'` is set, and afterwards its entry is
    obtain ⟨r, s', e, hget, hset, hget', -⟩ :=
      h [] (fun _ hkp => absurd hkp List.not_mem_nil) 2 s₀ (by decide) rfl hroom k hk k' hk' hne 0
    obtain ⟨bins', hout⟩ := cacheSet_spec hempty.table (h0 k' hk') (fun _ => hroom) hset
    have hr : r = 0 := (cacheGet_holds hempty.toHolds hget).1.mpr rfl
    have hre := (cacheGet_spec hout.table hget').2 _ e hout.mem (by
      rw [hout.num, hout.numKey_eq, hn])
    exact hout.table.ne_zero hout.mem (hre.symm.trans hr)
  · intro hnum sets hK fuel s₁ hf hrun hroom k hk k' hk' hne
    obtain ⟨bins, hs, hkeys, hfiles⟩ := hempty.run hK h0 hroom hrun
    have hparts := keyParts_congr hkeys hfiles
    have hnums : numKey s₁ = numKey s₀ := funext (numKey_congr hkeys fun p => by rw [hfiles])
    rw [← hnums, Nat.zero_add] at hs
    refine hs.keptApart hK ?_ hroom hf hk hk' (h0 k' hk') hne
    intro k hk k' hk' hn
    rw [hparts]
    rw [hnums] at hn
    exact hnum k hk k' hk' hn

end

/-- A new cache, with keys of the first three pages of a file at address 7. -/
def threePages : Mem :=
  { (default : Mem) with
    keys := fun p => { file := 1, dataOffset := 1000 * p, levelsAbove := 0 }
    files := fun _ => { (default : OpenFile) with address := 7 }
    cache := { maxSize := 4, size := 0, table := fun _ => 0, lruDataHead := 0, lruDataTail := 0 } }

theorem keys_apart_three_pages : KeysApart threePages {k | 1 ≤ k ∧ k ≤ 3} := by
  refine (keys_apart_iff (show cacheCreate threePages 4 = some threePages from rfl)
    fun k hk => Nat.ne_of_gt hk.1).mpr ?_
  have hnum : ∀ k ∈ List.range 4, ∀ k' ∈ List.range 4,
      numKey threePages k = numKey threePages k' → keyParts threePages k = keyParts threePages k' := by
    decide
  exact fun k hk k' hk' => hnum k (List.mem_range.mpr (Nat.lt_succ_of_le hk.2)) k'
    (List.mem_range.mpr (Nat.lt_succ_of_le hk'.2))

/-- A new cache, with a key of the first indirect page of the file at address 1
    and one of the first data page of the file at address 2. -/
def twoFiles : Mem :=
  { (default : Mem) with
    keys := fun p => { file := p, dataOffset := 0, levelsAbove := 2 - p }
    files := fun p => { (default : OpenFile) with address := p }
    cache := { maxSize := 4, size := 0, table := fun _ => 0, lruDataHead := 0, lruDataTail := 0 } }

theorem keys_not_apart :
    cacheCreate twoFiles 4 = some twoFiles ∧ keyParts twoFiles 1 ≠ keyParts twoFiles 2 ∧
      ¬ KeysApart twoFiles {k | 1 ≤ k ∧ k ≤ 2} := by
  refine ⟨rfl, by decide, fun h => ?_⟩
  obtain ⟨r, s', e, hget, hset, hget', -⟩ :=
    h [] (fun _ hkp => absurd hkp List.not_mem_nil) 2 twoFiles (by decide) rfl (by decide)
      1 ⟨le_refl 1, by decide⟩ 2 ⟨by decide, le_refl 2⟩ (by decide) 0
  have hr : cacheGet twoFiles 1 2 = .ok 0 := by decide
  obtain rfl := Except.ok.inj (hget.symm.trans hr)
  obtain ⟨t, ht, hfound⟩ : ∃ t, cacheSet twoFiles 2 0 2 = .ok t ∧ cacheGet t.1 1 2 = .ok 1 :=
    ⟨_, rfl, by decide⟩
  obtain rfl := Except.ok.inj (hset.symm.trans ht)
  exact absurd (Except.ok.inj (hget'.symm.trans hfound)) (by decide)

end Cycology.PageCache
