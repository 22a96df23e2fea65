import Cycology.Cache
import Cycology.Lib.Chain

/- The hash table as a set of entries.

   `Table` is the invariant: every bin is a chain of entries in the order of
   `keyCmp`, each in the bin its key hashes to. Both depend on the key's number
   alone, so a number is in the table at most once, and the early-stopping walk
   of `cache_get` finds it (`cacheGet_spec`). `cache_set` puts the page under the
   number and changes nothing else (`cacheSet_spec`). -/
namespace Cycology.PageCache
open ByteMem LinkedChain Runs.Fallible

/-- The number that stands for an entry's key, and its digits. -/
def entryNum (s : Mem) (e : Ptr) : Int := numKey s (s.entries e).key

def entryStr (s : Mem) (e : Ptr) : List Char := decimal (entryNum s e)

/-- The entries of the bins. -/
structure Table (s : Mem) (bins : Nat → List Ptr) : Prop where
  walk : ∀ b, Walk (fun e => (s.entries e).next) 0 (s.cache.table b) (bins b)
  sorted : ∀ b, (bins b).Pairwise fun e e' => entryStr s e < entryStr s e'
  hashed : ∀ b, ∀ e ∈ bins b, (s.entries e).key ≠ 0 ∧ cacheHash s (s.entries e).key = b
  fresh : ∀ b, ∀ e ∈ bins b, e ≤ s.brk

theorem strcmp_pos {a b : List Char} : 0 < strcmp a b ↔ b < a := by
  unfold strcmp
  rcases lt_trichotomy a b with h | rfl | h
  · simp [h, not_lt_of_gt h]
  · simp
  · simp [h, not_lt_of_gt h, (ne_of_gt h)]

theorem strcmp_eq_zero {a b : List Char} : strcmp a b = 0 ↔ a = b := by
  unfold strcmp
  rcases lt_trichotomy a b with h | rfl | h
  · simp [h, ne_of_lt h]
  · simp
  · simp [not_lt_of_gt h, ne_of_gt h]

theorem Mem.setEntry_self {s : Mem} {p : Ptr} {f : CacheEntry → CacheEntry}
    (h : f (s.entries p) = s.entries p) : s.setEntry p f = s := by
  unfold Mem.setEntry
  rw [h, update_self]

section
variable {s s' : Mem} {key e e' : Ptr} {fuel : Nat} {l : List Ptr}

theorem cacheHash_congr {key' : Ptr} (h : numKey s key = numKey s key') :
    cacheHash s key = cacheHash s key' := by
  rw [cacheHash, h, cacheHash]

theorem numKey_congr (hk : s'.keys = s.keys)
    (hf : ∀ p, (s'.files p).address = (s.files p).address) (key : Ptr) :
    numKey s' key = numKey s key := by
  simp only [numKey, hk, hf]

theorem cacheHash_frame (hk : s'.keys = s.keys)
    (hf : ∀ p, (s'.files p).address = (s.files p).address)
    (hm : s'.cache.maxSize = s.cache.maxSize) (key : Ptr) : cacheHash s' key = cacheHash s key := by
  rw [cacheHash, numKey_congr hk hf, hm, cacheHash]

/-! ## Looking for a place -/

/-- Where the walk through a bin stops: behind the smaller keys. -/
theorem findPlace_spec {last next : Ptr} {r : Ptr × Ptr}
    (hw : Walk (fun e => (s.entries e).next) 0 next l)
    (hsort : l.Pairwise fun e e' => entryStr s e < entryStr s e')
    (hkey : ∀ e ∈ l, (s.entries e).key ≠ 0)
    (h : findPlace s key fuel last next = .ok r) :
    ∃ l₁ l₂, l = l₁ ++ l₂ ∧ r = (l₁.getLast?.getD last, l₂.head?.getD 0) ∧
      (∀ e ∈ l₁, entryStr s e < decimal (numKey s key)) ∧
      ∀ e ∈ l₂, decimal (numKey s key) ≤ entryStr s e := by
  induction fuel generalizing l last next with
  | zero => cases h
  | succ fuel ih =>
    rw [findPlace] at h
    cases l with
    | nil =>
      have hnext : next = 0 := Walk.nil_iff.mp hw
      rw [if_neg (fun hc => hc.1 hnext)] at h
      cases h
      exact ⟨[], [], rfl, by rw [hnext]; rfl, by simp, by simp⟩
    | cons a l =>
      obtain ⟨rfl, ha, hw⟩ := Walk.cons_iff.mp hw
      obtain ⟨hlt, hsort⟩ := List.pairwise_cons.mp hsort
      by_cases hgo : entryStr s next < decimal (numKey s key)
      · have hcond : next ≠ 0 ∧ (s.entries next).key ≠ 0 ∧
            0 < keyCmp s key (s.entries next).key :=
          ⟨ha, hkey _ (by simp), strcmp_pos.mpr hgo⟩
        rw [if_pos hcond] at h
        obtain ⟨l₁, l₂, rfl, hr, h₁, h₂⟩ :=
          ih hw hsort (fun e he => hkey e (List.mem_cons_of_mem _ he)) h
        refine ⟨next :: l₁, l₂, rfl, ?_, ?_, h₂⟩
        · rw [hr, List.getLast?_cons, Option.getD_some]
        · intro e he
          rcases List.mem_cons.mp he with rfl | he
          · exact hgo
          · exact h₁ e he
      · rw [if_neg (fun hc => hgo (strcmp_pos.mp hc.2.2))] at h
        cases h
        refine ⟨[], next :: l, rfl, rfl, by simp, fun e he => ?_⟩
        rcases List.mem_cons.mp he with rfl | he
        · exact not_lt.mp hgo
        · exact le_trans (not_lt.mp hgo) (le_of_lt (hlt e he))

/-- The walk ends when it may take more turns than the bin has entries. -/
theorem findPlace_ok {last next : Ptr} (hw : Walk (fun e => (s.entries e).next) 0 next l)
    (hf : l.length < fuel) : ∃ r, findPlace s key fuel last next = .ok r := by
  induction l generalizing last next fuel with
  | nil =>
    obtain ⟨fuel, rfl⟩ := Nat.exists_eq_succ_of_ne_zero (Nat.ne_of_gt hf)
    rw [findPlace, if_neg (fun hc => hc.1 (Walk.nil_iff.mp hw))]
    exact ⟨_, rfl⟩
  | cons a l ih =>
    obtain ⟨fuel, rfl⟩ := Nat.exists_eq_succ_of_ne_zero (Nat.ne_of_gt (Nat.zero_lt_of_lt hf))
    obtain ⟨rfl, -, hw⟩ := Walk.cons_iff.mp hw
    rw [findPlace]
    split
    · exact ih hw (by simpa using hf)
    · exact ⟨_, rfl⟩

end

namespace Table
variable {s : Mem} {bins : Nat → List Ptr} {key e e' : Ptr} {fuel b b' : Nat}

theorem keys_ne (ht : Table s bins) (b : Nat) : ∀ e ∈ bins b, (s.entries e).key ≠ 0 :=
  fun e he => (ht.hashed b e he).1

theorem ne_zero (ht : Table s bins) (he : e ∈ bins b) : e ≠ 0 := (ht.walk b).ne_null he

theorem bin_eq (ht : Table s bins) (he : e ∈ bins b) (hn : entryNum s e = numKey s key) :
    b = cacheHash s key := by
  rw [← (ht.hashed b e he).2]
  exact cacheHash_congr hn

theorem unique (ht : Table s bins) (he : e ∈ bins b) (he' : e' ∈ bins b')
    (hn : entryNum s e = entryNum s e') : e = e' := by
  have hb : b = b' := by
    rw [ht.bin_eq he hn, ← (ht.hashed b' e' he').2]
  subst hb
  by_contra hne
  have hpair : (bins b).Pairwise fun e e' => entryStr s e ≠ entryStr s e' :=
    (ht.sorted b).imp fun h => ne_of_lt h
  have : Std.Symm fun e e' => entryStr s e ≠ entryStr s e' := ⟨fun _ _ h => h.symm⟩
  exact hpair.forall he he' hne (by rw [entryStr, hn, entryStr])

theorem findPlace_bin (ht : Table s bins) {r : Ptr × Ptr}
    (h : findPlace s key fuel 0 (s.cache.table (cacheHash s key)) = .ok r) :
    ∃ l₁ l₂, bins (cacheHash s key) = l₁ ++ l₂ ∧ r = (l₁.getLast?.getD 0, l₂.head?.getD 0) ∧
      (∀ e ∈ l₁, entryStr s e < decimal (numKey s key)) ∧
      ∀ e ∈ l₂, decimal (numKey s key) ≤ entryStr s e :=
  findPlace_spec (ht.walk _) (ht.sorted _) (ht.keys_ne _) h

theorem hasKey_iff (ht : Table s bins) {l₁ l₂ : List Ptr}
    (hsplit : bins (cacheHash s key) = l₁ ++ l₂)
    (hlt : ∀ e ∈ l₁, entryStr s e < decimal (numKey s key))
    (hle : ∀ e ∈ l₂, decimal (numKey s key) ≤ entryStr s e) :
    (hasKey s key (l₂.head?.getD 0) ↔ ∃ b, ∃ e ∈ bins b, entryNum s e = numKey s key) ∧
    (hasKey s key (l₂.head?.getD 0) → l₂.head?.getD 0 ∈ bins (cacheHash s key) ∧
      entryNum s (l₂.head?.getD 0) = numKey s key) := by
  have hfound : hasKey s key (l₂.head?.getD 0) → l₂.head?.getD 0 ∈ bins (cacheHash s key) ∧
      entryNum s (l₂.head?.getD 0) = numKey s key := by
    rintro ⟨h0, -, hcmp⟩
    cases l₂ with
    | nil => exact absurd rfl h0
    | cons a l₂ =>
      exact ⟨by rw [hsplit]; simp, (decimal_inj (strcmp_eq_zero.mp hcmp)).symm⟩
  refine ⟨⟨fun h => ⟨_, _, (hfound h).1, (hfound h).2⟩, ?_⟩, hfound⟩
  rintro ⟨b, e, he, hn⟩
  have hb := ht.bin_eq he hn
  subst hb
  have hin := he
  rw [hsplit, List.mem_append] at hin
  have hstr : entryStr s e = decimal (numKey s key) := by rw [entryStr, hn]
  rcases hin with hin | hin
  · exact absurd hstr (ne_of_lt (hlt e hin))
  · cases l₂ with
    | nil => cases hin
    | cons a l₂ =>
      -- the bin is sorted, so an equal key cannot stand behind the first one
      have hsort := ht.sorted (cacheHash s key)
      rw [hsplit] at hsort
      have ha : a = e := by
        rcases List.mem_cons.mp hin with rfl | hin
        · rfl
        · have hae := (List.pairwise_cons.mp (List.pairwise_append.mp hsort).2.1).1 e hin
          rw [hstr] at hae
          exact absurd hae (not_lt_of_ge (hle a (by simp)))
      subst ha
      exact ⟨ht.ne_zero he, ht.keys_ne _ _ he, strcmp_eq_zero.mpr hstr.symm⟩

end Table

theorem cacheCreate_eq {s s₀ : Mem} {size : Int} (h : cacheCreate s size = some s₀) :
    (0 < size ∧ s₀.cache.size = 0 ∧ s₀.cache.maxSize = size) ∧ (∀ b, s₀.cache.table b = 0) ∧
      s₀.cache.lruDataHead = 0 ∧ s₀.cache.lruDataTail = 0 := by
  unfold cacheCreate at h
  split at h
  · cases h
  · rename_i hsize
    cases h
    exact ⟨⟨by omega, rfl, rfl⟩, fun _ => rfl, rfl, rfl⟩

theorem Table.create {s s₀ : Mem} {size : Int} (h : cacheCreate s size = some s₀) :
    Table s₀ fun _ => [] where
  walk b := Walk.nil_iff.mpr ((cacheCreate_eq h).2.1 b)
  sorted _ := List.Pairwise.nil
  hashed _ _ he := absurd he List.not_mem_nil
  fresh _ _ he := absurd he List.not_mem_nil

theorem cacheGet_spec {s : Mem} {bins : Nat → List Ptr} (ht : Table s bins) {key r : Ptr}
    {fuel : Nat} (h : cacheGet s key fuel = .ok r) :
    (r ≠ 0 → r ∈ bins (cacheHash s key) ∧ entryNum s r = numKey s key) ∧
    ∀ b, ∀ e ∈ bins b, entryNum s e = numKey s key → r = e := by
  simp only [cacheGet, bind_eq_ok] at h
  obtain ⟨⟨last, pair⟩, hplace, h⟩ := h
  obtain ⟨l₁, l₂, hsplit, hr, hlt, hle⟩ := ht.findPlace_bin hplace
  obtain ⟨hiff, hfound⟩ := ht.hasKey_iff hsplit hlt hle
  cases hr
  split at h
  · rename_i hk
    cases h
    refine ⟨fun _ => hfound hk, fun b e he hn => ?_⟩
    exact ht.unique (hfound hk).1 he ((hfound hk).2.trans hn.symm)
  · rename_i hk
    cases h
    exact ⟨fun h0 => absurd rfl h0, fun b e he hn => absurd (hiff.mpr ⟨b, e, he, hn⟩) hk⟩

theorem cacheGet_ok {s : Mem} {bins : Nat → List Ptr} (ht : Table s bins) (key : Ptr)
    {fuel : Nat} (hf : ∀ b, (bins b).length < fuel) : ∃ r, cacheGet s key fuel = .ok r := by
  obtain ⟨⟨last, pair⟩, hplace⟩ : ∃ r, findPlace s key fuel 0 (s.cache.table (cacheHash s key)) =
      .ok r := findPlace_ok (ht.walk _) (hf _)
  rw [cacheGet, hplace, ok_bind]
  dsimp only
  split
  · exact ⟨_, rfl⟩
  · exact ⟨_, rfl⟩

/-! ## Putting a page -/

/-- What `cache_set` leaves when it returns the entry `e`. -/
structure SetOutcome (s : Mem) (bins : Nat → List Ptr) (key wp : Ptr) (s' : Mem) (e : Ptr)
    (bins' : Nat → List Ptr) : Prop where
  table : Table s' bins'
  members : ∀ b x, x ∈ bins' b ↔ x ∈ bins b ∨ b = cacheHash s key ∧ x = e
  num : entryNum s' e = numKey s key
  page : (s'.entries e).wp = wp
  others : ∀ x, x ≠ e → s'.entries x = { s.entries x with next := (s'.entries x).next }
  old : ∀ b, e ∈ bins b →
    s'.entries e = { s.entries e with wp := wp } ∧ s'.cache.size = s.cache.size
  new : (∀ b, e ∉ bins b) → e = s.brk + 1 ∧ s'.cache.size = cint (s.cache.size + 1) ∧
    s'.entries e = { freshEntry key wp with next := (s'.entries e).next }
  keys : s'.keys = s.keys
  files : s'.files = s.files
  fileList : s'.lruFileHead = s.lruFileHead ∧ s'.lruFileTail = s.lruFileTail
  cache : s'.cache.maxSize = s.cache.maxSize ∧ s'.cache.lruDataHead = s.cache.lruDataHead ∧
    s'.cache.lruDataTail = s.cache.lruDataTail
  brk : s.brk ≤ s'.brk

section
variable {s s' : Mem} {bins : Nat → List Ptr} {key wp e last next newentry : Ptr} {fuel bin : Nat}
  {l₁ l₂ : List Ptr}

/-- Linking a new entry in between `l₁` and `l₂`, wherever these end. -/
theorem linkEntry_spec (hw : Walk (fun e => (s.entries e).next) 0 (s.cache.table bin) (l₁ ++ l₂))
    (hnew : newentry ≠ 0) (hnext : (s.entries newentry).next = 0) :
    ∃ s', linkEntry s bin (l₁.getLast?.getD 0) (l₂.head?.getD 0) newentry = .ok s' ∧
      (∀ x, x ≠ newentry → s'.entries x =
        if x ∈ l₁.getLast? then { s.entries x with next := newentry } else s.entries x) ∧
      (newentry ∉ l₁ →
        s'.entries newentry = { s.entries newentry with next := l₂.head?.getD 0 }) ∧
      (∀ b, s'.cache.table b = if l₁ = [] ∧ b = bin then newentry else s.cache.table b) ∧
      s'.keys = s.keys ∧ s'.files = s.files ∧ s'.brk = s.brk ∧
      (s'.lruFileHead = s.lruFileHead ∧ s'.lruFileTail = s.lruFileTail) ∧
      s'.cache.size = s.cache.size ∧ s'.cache.maxSize = s.cache.maxSize ∧
      s'.cache.lruDataHead = s.cache.lruDataHead ∧ s'.cache.lruDataTail = s.cache.lruDataTail := by
  cases l₁ with
  | nil =>
    -- the start of the bin
    have htable : l₂.head?.getD 0 = s.cache.table bin := Walk.head_eq hw
    rw [linkEntry, if_pos htable, Mem.access_ne _ hnew, ok_bind]
    refine ⟨_, rfl, fun x hx => ?_, fun _ => ?_, fun b => ?_, rfl, rfl, rfl, ⟨rfl, rfl⟩, rfl,
      rfl, rfl, rfl⟩
    · rw [if_neg (by simp), Mem.entries_setCache, Mem.entries_setEntry_other _ _ _ hx]
    · rw [Mem.entries_setCache, Mem.entries_setEntry_same]
    · simp only [Mem.cache_setCache, Mem.cache_setEntry, true_and]
      rfl
  | cons c l₁ =>
    have htable : l₂.head?.getD 0 ≠ s.cache.table bin := Walk.rest_ne hw
    have hlast : (c :: l₁).getLast?.getD 0 = (c :: l₁).getLast (by simp) := by
      rw [List.getLast?_eq_some_getLast (by simp), Option.getD_some]
    have hmem : ∀ x, x ∈ (c :: l₁).getLast? ↔ x = (c :: l₁).getLast?.getD 0 := by
      intro x
      rw [hlast, List.getLast?_eq_some_getLast (by simp)]
      simp [eq_comm]
    rw [linkEntry, if_neg htable]
    cases l₂ with
    | nil =>
      rw [if_pos (show ([] : List Ptr).head?.getD 0 = 0 from rfl)]
      refine ⟨_, rfl, fun x hx => ?_, fun hnin => ?_, fun b => ?_, rfl, rfl, rfl, ⟨rfl, rfl⟩, rfl,
        rfl, rfl, rfl⟩
      · by_cases hxl : x = (c :: l₁).getLast?.getD 0
        · rw [if_pos ((hmem x).mpr hxl), hxl]
          exact Mem.entries_setEntry_same _ _ _
        · rw [if_neg (fun h => hxl ((hmem x).mp h))]
          exact Mem.entries_setEntry_other _ _ _ hxl
      · rw [Mem.entries_setEntry_other]
        · rw [List.head?_nil, Option.getD_none, ← hnext]
        · rw [hlast]
          rintro rfl
          exact hnin (List.getLast_mem _)
      · rw [if_neg (by simp)]
        rfl
    | cons a l₂ =>
      have ha0 : a ≠ 0 := Walk.ne_null hw (by simp)
      rw [if_neg (show ¬ (a :: l₂).head?.getD 0 = 0 from ha0), Mem.access_ne _ hnew, ok_bind]
      refine ⟨_, rfl, fun x hx => ?_, fun hnin => ?_, fun b => ?_, rfl, rfl, rfl, ⟨rfl, rfl⟩, rfl,
        rfl, rfl, rfl⟩
      · by_cases hxl : x = (c :: l₁).getLast?.getD 0
        · rw [if_pos ((hmem x).mpr hxl), hxl, Mem.entries_setEntry_same,
            Mem.entries_setEntry_other _ _ _ (hxl ▸ hx)]
        · rw [if_neg (fun h => hxl ((hmem x).mp h)), Mem.entries_setEntry_other _ _ _ hxl,
            Mem.entries_setEntry_other _ _ _ hx]
      · rw [Mem.entries_setEntry_other, Mem.entries_setEntry_same]
        rw [hlast]
        rintro rfl
        exact hnin (List.getLast_mem _)
      · rw [if_neg (by simp)]
        rfl

/-- With no entry to link in, the end of `cache_set` only goes well behind the last
    entry of the bin, and then nothing changes. -/
theorem linkEntry_null
    (hw : Walk (fun e => (s.entries e).next) 0 (s.cache.table bin) (l₁ ++ l₂)) :
    linkEntry s bin (l₁.getLast?.getD 0) (l₂.head?.getD 0) 0 = .ok s' ↔
      l₁ ≠ [] ∧ l₂ = [] ∧ s' = s := by
  have hnull : s.access 0 = .error .null := if_pos rfl
  cases l₁ with
  | nil =>
    have htable : l₂.head?.getD 0 = s.cache.table bin := Walk.head_eq hw
    rw [linkEntry, if_pos htable, hnull]
    exact ⟨nofun, fun h => absurd rfl h.1⟩
  | cons c l₁ =>
    rw [linkEntry, if_neg (Walk.rest_ne hw)]
    cases l₂ with
    | nil =>
      rw [if_pos (show ([] : List Ptr).head?.getD 0 = 0 from rfl)]
      rw [List.append_nil] at hw
      have hlast : (c :: l₁).getLast?.getD 0 ∈ (c :: l₁).getLast? := by
        rw [List.getLast?_eq_some_getLast (by simp), Option.getD_some]
        rfl
      -- the last entry's link is `NULL` already
      have hend : (s.entries ((c :: l₁).getLast?.getD 0)).next = 0 := Walk.last_next hw hlast
      generalize (c :: l₁).getLast?.getD 0 = last at hend ⊢
      have hsame : s.setEntry last (fun e => { e with next := 0 }) = s := by
        apply Mem.setEntry_self
        rw [← hend]
      rw [hsame]
      constructor
      · intro h
        exact ⟨by simp, rfl, (Except.ok.inj h).symm⟩
      · intro h
        rw [h.2.2]
    | cons a l₂ =>
      have ha0 : ¬ (a :: l₂).head?.getD 0 = 0 := Walk.ne_null hw (by simp)
      rw [if_neg ha0, hnull]
      exact ⟨nofun, fun h => absurd h.2.1 (by simp)⟩

theorem entryNum_congr (hk : s'.keys = s.keys)
    (hf : ∀ p, (s'.files p).address = (s.files p).address)
    (he : (s'.entries e).key = (s.entries e).key) : entryNum s' e = entryNum s e := by
  rw [entryNum, numKey_congr hk hf, he, entryNum]

theorem Table.congr (ht : Table s bins) (hk : s'.keys = s.keys)
    (hf : ∀ p, (s'.files p).address = (s.files p).address)
    (hm : s'.cache.maxSize = s.cache.maxSize) (hb : s.brk ≤ s'.brk)
    (htab : ∀ b, s'.cache.table b = s.cache.table b)
    (hkey : ∀ b, ∀ e ∈ bins b, (s'.entries e).key = (s.entries e).key)
    (hnext : ∀ b, ∀ e ∈ bins b, (s'.entries e).next = (s.entries e).next) : Table s' bins where
  walk b := by
    rw [htab]
    exact (ht.walk b).congr (hnext b)
  sorted b := by
    refine (ht.sorted b).imp_of_mem fun {e e'} he he' h => ?_
    rw [entryStr, entryNum_congr hk hf (hkey b e he), entryStr,
      entryNum_congr hk hf (hkey b e' he')]
    exact h
  hashed b e he := by
    rw [hkey b e he, cacheHash_frame hk hf hm]
    exact ht.hashed b e he
  fresh b e he := le_trans (ht.fresh b e he) hb

/-- From `s` to `s'` the entry `e` was put into the bin `bin`, between `l₁` and `l₂`. -/
structure Inserted (s : Mem) (bins : Nat → List Ptr) (bin : Nat) (l₁ l₂ : List Ptr) (e key : Ptr)
    (s' : Mem) : Prop where
  split : bins bin = l₁ ++ l₂
  keys : s'.keys = s.keys
  address : ∀ p, (s'.files p).address = (s.files p).address
  maxSize : s'.cache.maxSize = s.cache.maxSize
  allocated : e ≤ s'.brk
  brk : s.brk ≤ s'.brk
  fresh : ∀ b, e ∉ bins b
  ne_zero : e ≠ 0
  start : ∀ b, s'.cache.table b = if l₁ = [] ∧ b = bin then e else s.cache.table b
  key_other : ∀ x, x ≠ e → (s'.entries x).key = (s.entries x).key
  next_other : ∀ x, x ≠ e → (s'.entries x).next =
    if x ∈ l₁.getLast? then e else (s.entries x).next
  key_new : (s'.entries e).key = key
  next_new : (s'.entries e).next = l₂.head?.getD 0
  key_ne_zero : key ≠ 0
  hash : cacheHash s key = bin
  before : ∀ x ∈ l₁, entryStr s x < decimal (numKey s key)
  behind : ∀ x ∈ l₂, decimal (numKey s key) < entryStr s x

namespace Inserted

theorem ne (h : Inserted s bins bin l₁ l₂ e key s') {b : Nat} {x : Ptr} (hx : x ∈ bins b) :
    x ≠ e := fun hxe => h.fresh b (hxe ▸ hx)

theorem mem_before (h : Inserted s bins bin l₁ l₂ e key s') {x : Ptr} (hx : x ∈ l₁) :
    x ∈ bins bin := by
  rw [h.split]
  exact List.mem_append_left l₂ hx

theorem mem_behind (h : Inserted s bins bin l₁ l₂ e key s') {x : Ptr} (hx : x ∈ l₂) :
    x ∈ bins bin := by
  rw [h.split]
  exact List.mem_append_right l₁ hx

theorem mem_iff (h : Inserted s bins bin l₁ l₂ e key s') {b : Nat} {x : Ptr} :
    x ∈ update bins bin (l₁ ++ e :: l₂) b ↔ x ∈ bins b ∨ b = bin ∧ x = e := by
  by_cases hb : b = bin
  · rw [hb, update_same, h.split]
    simp only [List.mem_append, List.mem_cons, true_and]
    tauto
  · rw [update_other _ _ hb]
    simp [hb]

theorem str_old (h : Inserted s bins bin l₁ l₂ e key s') {b : Nat} {x : Ptr} (hx : x ∈ bins b) :
    entryStr s' x = entryStr s x := by
  rw [entryStr, entryNum_congr h.keys h.address (h.key_other x (h.ne hx)), entryStr]

theorem str_new (h : Inserted s bins bin l₁ l₂ e key s') :
    entryStr s' e = decimal (numKey s key) := by
  rw [entryStr, entryNum, numKey_congr h.keys h.address, h.key_new]

theorem walk_bin (h : Inserted s bins bin l₁ l₂ e key s') (ht : Table s bins) :
    Walk (fun x => (s'.entries x).next) 0 (s'.cache.table bin) (l₁ ++ e :: l₂) := by
  have hw := ht.walk bin
  rw [h.split] at hw
  have hnd : (l₁ ++ l₂).Nodup := Chain.nodup hw
  have hw₂ : Walk (fun e => (s.entries e).next) 0 (l₂.head?.getD 0) l₂ := by
    cases l₂ with
    | nil => exact Walk.nil_iff.mpr rfl
    | cons a l₂ =>
      have hseg : Chain _ _ (a :: l₂) := Chain.suffix hw
      exact Walk.cons_iff.mpr ⟨rfl, Walk.ne_null hw (by simp), hseg.2⟩
  refine Walk.insert hw hw₂ h.ne_zero ?_ (fun x hx => ?_) (fun x hx => ?_) h.next_new
    fun x hx => ?_
  · rw [h.start]
    simp
  · rw [h.next_other x (h.ne (h.mem_before (List.mem_of_getLast? hx))), if_pos hx]
  · have hx₁ := List.mem_of_mem_dropLast hx
    rw [h.next_other x (h.ne (h.mem_before hx₁)), if_neg]
    intro hlast
    -- the last node of `l₁` is not among those before it
    have hl₁ : l₁ ≠ [] := List.ne_nil_of_mem hx₁
    have hsplit := List.dropLast_append_getLast hl₁
    have hxl : l₁.getLast hl₁ = x := by
      rw [List.getLast?_eq_some_getLast hl₁] at hlast
      exact Option.some.inj hlast
    have hnd₁ := (List.nodup_append.mp hnd).1
    rw [← hsplit, List.nodup_append] at hnd₁
    exact hnd₁.2.2 x hx x (by simp [hxl]) rfl
  · rw [h.next_other x (h.ne (h.mem_behind hx)), if_neg]
    intro hlast
    exact (List.nodup_append.mp hnd).2.2 x (List.mem_of_getLast? hlast) x hx rfl

theorem walk_other (h : Inserted s bins bin l₁ l₂ e key s') (ht : Table s bins) {b : Nat}
    (hb : b ≠ bin) : Walk (fun x => (s'.entries x).next) 0 (s'.cache.table b) (bins b) := by
  rw [h.start, if_neg fun hbin => hb hbin.2]
  refine (ht.walk b).congr fun x hx => ?_
  rw [h.next_other x (h.ne hx), if_neg]
  intro hlast
  have hxbin := h.mem_before (List.mem_of_getLast? hlast)
  exact hb ((ht.hashed b x hx).2.symm.trans (ht.hashed bin x hxbin).2)

theorem sorted_bin (h : Inserted s bins bin l₁ l₂ e key s') (ht : Table s bins) :
    (l₁ ++ e :: l₂).Pairwise fun x y => entryStr s' x < entryStr s' y := by
  have hsort := ht.sorted bin
  rw [h.split] at hsort
  obtain ⟨hs₁, hs₂, hs₁₂⟩ := List.pairwise_append.mp hsort
  refine List.pairwise_append.mpr ⟨?_, List.pairwise_cons.mpr ⟨fun x hx => ?_, ?_⟩, ?_⟩
  · exact hs₁.imp_of_mem fun {x y} hx hy hxy => by
      rw [h.str_old (h.mem_before hx), h.str_old (h.mem_before hy)]; exact hxy
  · rw [h.str_new, h.str_old (h.mem_behind hx)]
    exact h.behind x hx
  · exact hs₂.imp_of_mem fun {x y} hx hy hxy => by
      rw [h.str_old (h.mem_behind hx), h.str_old (h.mem_behind hy)]; exact hxy
  · intro x hx y hy
    rw [h.str_old (h.mem_before hx)]
    rcases List.mem_cons.mp hy with rfl | hy
    · rw [h.str_new]
      exact h.before x hx
    · rw [h.str_old (h.mem_behind hy)]
      exact hs₁₂ x hx y hy

theorem table (h : Inserted s bins bin l₁ l₂ e key s') (ht : Table s bins) :
    Table s' (update bins bin (l₁ ++ e :: l₂)) := by
  refine ⟨fun b => ?_, fun b => ?_, fun b x hx => ?_, fun b x hx => ?_⟩
  · by_cases hb : b = bin
    · rw [hb, update_same]
      exact h.walk_bin ht
    · rw [update_other _ _ hb]
      exact h.walk_other ht hb
  · by_cases hb : b = bin
    · rw [hb, update_same]
      exact h.sorted_bin ht
    · rw [update_other _ _ hb]
      exact (ht.sorted b).imp_of_mem fun {x y} hx hy hxy => by
        rw [h.str_old hx, h.str_old hy]; exact hxy
  · -- the new key hashes to `bin`, the others as before
    rw [cacheHash_frame h.keys h.address h.maxSize]
    rcases h.mem_iff.mp hx with hx | ⟨rfl, rfl⟩
    · rw [h.key_other x (h.ne hx)]
      exact ht.hashed b x hx
    · rw [h.key_new]
      exact ⟨h.key_ne_zero, h.hash⟩
  · rcases h.mem_iff.mp hx with hx | ⟨-, rfl⟩
    · exact le_trans (ht.fresh b x hx) h.brk
    · exact h.allocated

end Inserted

/-- No entry has the key's number. -/
def NewKey (s : Mem) (bins : Nat → List Ptr) (key : Ptr) : Prop :=
  ∀ b, ∀ x ∈ bins b, entryNum s x ≠ numKey s key

/-- `cache_set` replaces the page of the entry with the key, or else links a new entry
    in where the walk stops. -/
theorem cacheSet_cases (ht : Table s bins) (h : cacheSet s key wp fuel = .ok (s', e)) :
    ∃ l₁ l₂, bins (cacheHash s key) = l₁ ++ l₂ ∧
      (∀ x ∈ l₁, entryStr s x < decimal (numKey s key)) ∧
      ((e ∈ bins (cacheHash s key) ∧ entryNum s e = numKey s key ∧
          s' = s.setEntry e fun c => { c with wp := wp }) ∨
        NewKey s bins key ∧ (∀ x ∈ l₂, decimal (numKey s key) < entryStr s x) ∧
          e = (cacheNewEntry s key wp).2 ∧
          linkEntry (cacheNewEntry s key wp).1 (cacheHash s key) (l₁.getLast?.getD 0)
            (l₂.head?.getD 0) e = .ok s') := by
  obtain ⟨⟨last, next⟩, hplace, h⟩ := bind_eq_ok.mp h
  obtain ⟨l₁, l₂, hsplit, hr, hlt, hle⟩ := ht.findPlace_bin hplace
  obtain ⟨hiff, hfound⟩ := ht.hasKey_iff hsplit hlt hle
  obtain ⟨rfl, rfl⟩ := Prod.mk.inj hr
  refine ⟨l₁, l₂, hsplit, hlt, ?_⟩
  dsimp only at h
  split at h
  · rename_i hk
    obtain ⟨rfl, rfl⟩ := Prod.mk.inj (Except.ok.inj h)
    exact .inl ⟨(hfound hk).1, (hfound hk).2, rfl⟩
  · rename_i hk
    have hnew : NewKey s bins key := fun b x hx hn => hk (hiff.mpr ⟨b, x, hx, hn⟩)
    obtain ⟨s₁, hlink, h⟩ := bind_eq_ok.mp h
    obtain ⟨rfl, rfl⟩ := Prod.mk.inj (Except.ok.inj h)
    refine .inr ⟨hnew, fun x hx => ?_, rfl, hlink⟩
    refine lt_of_le_of_ne (hle x hx) fun heq => ?_
    exact hnew (cacheHash s key) x (by rw [hsplit]; simp [hx]) (decimal_inj heq).symm

theorem SetOutcome.replace (ht : Table s bins) (hmem : e ∈ bins (cacheHash s key))
    (hnum : entryNum s e = numKey s key) :
    SetOutcome s bins key wp (s.setEntry e fun c => { c with wp := wp }) e bins := by
  set f : CacheEntry → CacheEntry := fun c => { c with wp := wp }
  have hkeys : ∀ x, ((s.setEntry e f).entries x).key = (s.entries x).key :=
    Mem.field_setEntry s e f (·.key) fun _ => rfl
  have hnexts : ∀ x, ((s.setEntry e f).entries x).next = (s.entries x).next :=
    Mem.field_setEntry s e f (·.next) fun _ => rfl
  have hsame : (s.setEntry e f).entries e = f (s.entries e) := Mem.entries_setEntry_same s e f
  refine ⟨ht.congr rfl (fun _ => rfl) rfl (le_refl _) (fun _ => rfl) (fun _ x _ => hkeys x)
    fun _ x _ => hnexts x, fun b x => ?_, ?_, ?_, fun x hx => ?_, fun _ _ => ⟨hsame, rfl⟩,
    fun hnew => absurd hmem (hnew _), rfl, rfl, ⟨rfl, rfl⟩, ⟨rfl, rfl, rfl⟩, le_refl _⟩
  · constructor
    · exact .inl
    · rintro (hx | ⟨rfl, rfl⟩)
      · exact hx
      · exact hmem
  · exact (@entryNum_congr s (s.setEntry e f) e rfl (fun _ => rfl) (hkeys e)).trans hnum
  · rw [hsame]
  · rw [Mem.entries_setEntry_other _ _ _ hx]

theorem SetOutcome.insert (ht : Table s bins) (hkey : key ≠ 0)
    (hroom : s.cache.size < s.cache.maxSize) (hsplit : bins (cacheHash s key) = l₁ ++ l₂)
    (hlt : ∀ x ∈ l₁, entryStr s x < decimal (numKey s key))
    (hgt : ∀ x ∈ l₂, decimal (numKey s key) < entryStr s x)
    (h : linkEntry (cacheNewEntry s key wp).1 (cacheHash s key) (l₁.getLast?.getD 0)
      (l₂.head?.getD 0) (cacheNewEntry s key wp).2 = .ok s') :
    SetOutcome s bins key wp s' (cacheNewEntry s key wp).2
      (update bins (cacheHash s key) (l₁ ++ (cacheNewEntry s key wp).2 :: l₂)) := by
  rw [cacheNewEntry, if_neg (not_le.mpr hroom)] at h ⊢
  dsimp only at h ⊢
  set e := s.brk + 1 with he
  set s₁ : Mem := { s with
    brk := e
    entries := update s.entries e (freshEntry key wp)
    cache := { s.cache with size := cint (s.cache.size + 1) } }
  have hfresh : ∀ b, e ∉ bins b := fun b hm => by
    have hle := ht.fresh b e hm
    rw [he] at hle
    exact Nat.not_succ_le_self _ hle
  have he0 : e ≠ 0 := Nat.succ_ne_zero _
  have hsame : ∀ x, x ≠ e → s₁.entries x = s.entries x := fun x hx => update_other _ _ hx
  have hnew : s₁.entries e = freshEntry key wp := update_same _ _ _
  have hw : Walk (fun x => (s₁.entries x).next) 0 (s₁.cache.table (cacheHash s key))
      (l₁ ++ l₂) := by
    rw [← hsplit]
    refine (ht.walk _).congr fun x hx => ?_
    rw [hsame x (fun hxe => hfresh _ (hxe ▸ hx))]
  obtain ⟨s₃, hlink₃, hent, hente, htab, hkeys, hfiles, hbrk, hlru, hsize, hmax, hdh, hdt⟩ :=
    linkEntry_spec hw he0 (by rw [hnew]; rfl)
  obtain rfl := Except.ok.inj (h.symm.trans hlink₃)
  have hnin : e ∉ l₁ := fun hm => hfresh (cacheHash s key) (by rw [hsplit]; simp [hm])
  have hente' := hente hnin
  rw [hnew] at hente'
  have hother : ∀ x, x ≠ e → s'.entries x = { s.entries x with next := (s'.entries x).next } := by
    intro x hx
    rw [hent x hx, hsame x hx]
    split <;> rfl
  have hle : s.brk ≤ s'.brk := by
    rw [hbrk]
    exact Nat.le_succ _
  have hins : Inserted s bins (cacheHash s key) l₁ l₂ e key s' :=
    { split := hsplit
      keys := hkeys
      address := fun p => by rw [hfiles]
      maxSize := hmax
      allocated := by rw [hbrk]
      brk := hle
      fresh := hfresh
      ne_zero := he0
      start := htab
      key_other := fun x hx => by rw [hother x hx]
      next_other := fun x hx => by
        rw [hent x hx, hsame x hx]
        split <;> rfl
      key_new := by rw [hente']; rfl
      next_new := by rw [hente']
      key_ne_zero := hkey
      hash := rfl
      before := hlt
      behind := hgt }
  refine ⟨hins.table ht, fun b x => hins.mem_iff, ?_, ?_, hother,
    fun b hb => absurd hb (hfresh b), fun _ => ⟨rfl, ?_, ?_⟩, hkeys, hfiles, hlru,
    ⟨hmax, hdh, hdt⟩, hle⟩
  · exact (congrArg (numKey s') hins.key_new).trans (numKey_congr hins.keys hins.address key)
  · rw [hente']
    rfl
  · rw [hsize]
  · rw [hente']

theorem cacheSet_spec (ht : Table s bins) (hkey : key ≠ 0)
    (hroom : NewKey s bins key → s.cache.size < s.cache.maxSize)
    (h : cacheSet s key wp fuel = .ok (s', e)) :
    ∃ bins', SetOutcome s bins key wp s' e bins' := by
  obtain ⟨l₁, l₂, hsplit, hlt, ⟨hmem, hnum, rfl⟩ | ⟨hnew, hgt, rfl, hlink⟩⟩ := cacheSet_cases ht h
  · exact ⟨bins, SetOutcome.replace ht hmem hnum⟩
  · exact ⟨_, SetOutcome.insert ht hkey (hroom hnew) hsplit hlt hgt hlink⟩

theorem linkEntry_ok (h : newentry ≠ 0) :
    ∃ s', linkEntry s bin last next newentry = .ok s' := by
  unfold linkEntry
  simp only [Mem.access_ne _ h, ok_bind]
  split
  · exact ⟨_, rfl⟩
  · split
    · exact ⟨_, rfl⟩
    · exact ⟨_, rfl⟩

theorem cacheSet_ok (ht : Table s bins)
    (hroom : NewKey s bins key → s.cache.size < s.cache.maxSize)
    (hf : ∀ b, (bins b).length < fuel) : ∃ r, cacheSet s key wp fuel = .ok r := by
  obtain ⟨⟨last, next⟩, hplace⟩ : ∃ r, findPlace s key fuel 0 (s.cache.table (cacheHash s key)) =
      .ok r := findPlace_ok (ht.walk _) (hf _)
  obtain ⟨l₁, l₂, hsplit, hr, hlt, hle⟩ := ht.findPlace_bin hplace
  obtain ⟨hiff, -⟩ := ht.hasKey_iff hsplit hlt hle
  obtain ⟨rfl, rfl⟩ := Prod.mk.inj hr
  rw [cacheSet, hplace, ok_bind]
  dsimp only
  split
  · exact ⟨_, rfl⟩
  · rename_i hk
    have hnone : NewKey s bins key := fun b x hx hn => hk (hiff.mpr ⟨b, x, hx, hn⟩)
    rw [cacheNewEntry, if_neg (not_le.mpr (hroom hnone))]
    obtain ⟨s', hlink⟩ := linkEntry_ok (Nat.succ_ne_zero _)
    dsimp only
    rw [hlink]
    exact ⟨_, rfl⟩

/-- A new key in a full cache: the call goes well only behind the last entry of a bin
    with smaller keys, and there it answers `NULL`. -/
theorem cacheSet_new_full (ht : Table s bins) (hnew : NewKey s bins key)
    (hfull : s.cache.maxSize ≤ s.cache.size) (h : cacheSet s key wp fuel = .ok (s', e)) :
    s' = s ∧ e = 0 ∧ bins (cacheHash s key) ≠ [] ∧
      ∀ x ∈ bins (cacheHash s key), entryStr s x < decimal (numKey s key) := by
  obtain ⟨l₁, l₂, hsplit, hlt, ⟨hmem, hnum, -⟩ | ⟨-, -, rfl, hlink⟩⟩ := cacheSet_cases ht h
  · exact absurd hnum (hnew _ _ hmem)
  · rw [cacheNewEntry, if_pos hfull] at hlink ⊢
    have hw := ht.walk (cacheHash s key)
    rw [hsplit] at hw
    obtain ⟨hne, hl₂, hs₁⟩ := (linkEntry_null hw).mp hlink
    rw [hsplit, hl₂, List.append_nil]
    exact ⟨hs₁, rfl, hne, hlt⟩

theorem cacheSet_behind (ht : Table s bins) (hfull : s.cache.maxSize ≤ s.cache.size)
    (hne : bins (cacheHash s key) ≠ [])
    (hlt : ∀ x ∈ bins (cacheHash s key), entryStr s x < decimal (numKey s key))
    (hf : (bins (cacheHash s key)).length < fuel) : cacheSet s key wp fuel = .ok (s, 0) := by
  obtain ⟨⟨last, next⟩, hplace⟩ : ∃ r, findPlace s key fuel 0 (s.cache.table (cacheHash s key)) =
      .ok r := findPlace_ok (ht.walk _) hf
  obtain ⟨l₁, l₂, hsplit, hr, -, hle⟩ := ht.findPlace_bin hplace
  have hl₂ : l₂ = [] := by
    apply List.eq_nil_iff_forall_not_mem.mpr
    intro x hx
    exact not_lt_of_ge (hle x hx) (hlt x (by rw [hsplit]; simp [hx]))
  subst hl₂
  obtain ⟨rfl, rfl⟩ := Prod.mk.inj hr
  have hk : ¬ hasKey s key 0 := fun hk => hk.1 rfl
  have hw := ht.walk (cacheHash s key)
  rw [hsplit] at hw
  have hne₁ : l₁ ≠ [] := by
    rw [hsplit, List.append_nil] at hne
    exact hne
  rw [cacheSet, hplace, ok_bind]
  dsimp only [List.head?_nil, Option.getD_none]
  rw [if_neg hk, cacheNewEntry, if_pos hfull]
  have hlink : linkEntry s (cacheHash s key) (l₁.getLast?.getD 0) 0 0 = .ok s :=
    (linkEntry_null hw).mpr ⟨hne₁, rfl, rfl⟩
  rw [hlink]
  rfl

theorem cacheSet_entry (ht : Table s bins) (hkey : key ≠ 0) (he : e ≠ 0)
    (h : cacheSet s key wp fuel = .ok (s', e)) : ∃ bins', SetOutcome s bins key wp s' e bins' := by
  refine cacheSet_spec ht hkey (fun hnew => ?_) h
  by_contra hfull
  exact he (cacheSet_new_full ht hnew (not_lt.mp hfull) h).2.1

theorem cacheSet_full (hfull : s.cache.maxSize ≤ s.cache.size)
    (h : cacheSet s key wp fuel = .ok (s', e)) : s'.cache.maxSize ≤ s'.cache.size := by
  simp only [cacheSet, bind_eq_ok] at h
  obtain ⟨⟨last, next⟩, -, h⟩ := h
  dsimp only at h
  split at h
  · cases h
    exact hfull
  · rw [cacheNewEntry, if_pos hfull] at h
    obtain ⟨s₁, hlink, h⟩ := bind_eq_ok.mp h
    cases h
    unfold linkEntry at hlink
    split at hlink
    · obtain ⟨s₂, hacc, -⟩ := bind_eq_ok.mp hlink
      exact absurd rfl (Mem.access_eq_ok.mp hacc).1
    · split at hlink
      · cases hlink
        exact hfull
      · obtain ⟨s₂, hacc, -⟩ := bind_eq_ok.mp hlink
        exact absurd rfl (Mem.access_eq_ok.mp hacc).1

namespace SetOutcome
variable {bins' : Nat → List Ptr} {b : Nat} {x : Ptr}

theorem address (h : SetOutcome s bins key wp s' e bins') (p : Ptr) :
    (s'.files p).address = (s.files p).address := by rw [h.files]

theorem numKey_eq (h : SetOutcome s bins key wp s' e bins') (k : Ptr) :
    numKey s' k = numKey s k := numKey_congr h.keys h.address k

theorem mem (h : SetOutcome s bins key wp s' e bins') : e ∈ bins' (cacheHash s key) :=
  (h.members _ _).mpr (.inr ⟨rfl, rfl⟩)

theorem other (h : SetOutcome s bins key wp s' e bins') (hx : x ≠ e) :
    entryNum s' x = entryNum s x ∧ (s'.entries x).wp = (s.entries x).wp := by
  have hkey : (s'.entries x).key = (s.entries x).key := by rw [h.others x hx]
  exact ⟨entryNum_congr h.keys h.address hkey, by rw [h.others x hx]⟩

theorem old_num (h : SetOutcome s bins key wp s' e bins') (he : e ∈ bins b) :
    entryNum s e = numKey s key := by
  have hkey : (s'.entries e).key = (s.entries e).key := by rw [(h.old b he).1]
  rw [← entryNum_congr h.keys h.address hkey, h.num]

theorem num_ne (h : SetOutcome s bins key wp s' e bins') (hx : x ∈ bins b) (hne : x ≠ e) :
    entryNum s x ≠ numKey s key := by
  intro hn
  refine hne (h.table.unique ((h.members b x).mpr (.inl hx)) h.mem ?_)
  rw [(h.other hne).1, hn, h.num]

theorem length_le (h : SetOutcome s bins key wp s' e bins') (b : Nat) :
    (bins' b).length ≤ (bins b).length + 1 := by
  have hsub : bins' b ⊆ e :: bins b := fun x hx => by
    rcases (h.members b x).mp hx with hx | hx
    · exact List.mem_cons_of_mem _ hx
    · exact hx.2 ▸ List.mem_cons_self
  exact ((Chain.nodup (h.table.walk b)).subperm hsub).length_le

end SetOutcome

end

end Cycology.PageCache
