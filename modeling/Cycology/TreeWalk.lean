import Cycology.CacheStructs

/- `filesystem.c`: the way from a page up to the inode of its file.

   `fs_getPage` goes up from a page to its parent, level by level, as long as the
   page is not in the cache. A parent holds the addresses of its children, so the
   walk passes an index at every level: a byte index in each indirect page, and at
   the top an index in the inode. Here no page is cached, and what the pages hold
   is left out.

   The ranges of the levels should be powers of `INDIRECT_PAGES`, but `^` is
   exclusive or, and the index in a parent is not the place within its range. So
   the indices are in bounds for the first pages of a file only
   (`walksRight_iff`), a tree of one level gives one slot to several pages, and from
   four levels on an offset is no `int` any more and wraps around. In trees of two
   and three levels the first 128 pages have slots of their own, and no other page
   of any tree has (`resolves_iff`). -/
namespace Cycology.PageCache
open ByteMem Runs.Fallible

def PAGESIZE : Int := 1024
def POINTER_SIZE : Int := 8
def DIRECT_PAGES : Int := 16
def INDIRECT_PAGES : Int := 128

/-- Why the walk does not reach the inode. -/
inductive WalkFault where
  | divide
  | null
  | fuel
  deriving DecidableEq, Repr

/-- `a ^ b`, for two `int`s. -/
def cxor (a b : Int) : Int := (BitVec.ofInt 32 a ^^^ BitVec.ofInt 32 b).toInt

/-- `a / b`. -/
def cdiv (a b : Int) : Except WalkFault Int := if b = 0 then .error .divide else .ok (a.tdiv b)

/-- `getParentKey`. -/
def getParentKey (childKey : PageKey) : Except WalkFault PageKey := do
  let parentDataRange := cint (PAGESIZE * cxor INDIRECT_PAGES (cint (childKey.levelsAbove + 1)))
  let parentNum ← cdiv childKey.dataOffset parentDataRange
  .ok
    { file := childKey.file
      dataOffset := cint (parentNum * POINTER_SIZE)
      levelsAbove := cint (childKey.levelsAbove + 1) }

def getIndexInInode (childOffset fileHeight : Int) : Except WalkFault Int :=
  cdiv childOffset (cint (DIRECT_PAGES * cxor INDIRECT_PAGES (fileHeight - 2)))

def getIndexInParent (childOffset parentOffset : Int) : Int :=
  (cint (childOffset - parentOffset)).tdiv INDIRECT_PAGES

/-- The parents of a page with the index in each, from the bottom up, and the index
    in the inode. -/
structure Way where
  parents : List (PageKey × Int)
  inodeIndex : Int
  deriving DecidableEq

/-- The walk of `fs_getPage`, in a file of height `maxFileHeight`. -/
def walkUp (maxFileHeight : Int) : Nat → PageKey → Except WalkFault Way
  | 0, _ => .error .fuel
  | fuel + 1, desiredKey =>
    if maxFileHeight ≤ desiredKey.levelsAbove then .error .null
    else if desiredKey.levelsAbove = maxFileHeight - 1 then do
      let desiredIndex ← getIndexInInode desiredKey.dataOffset maxFileHeight
      .ok { parents := [], inodeIndex := desiredIndex }
    else do
      let parentKey ← getParentKey desiredKey
      let parent ← walkUp maxFileHeight fuel parentKey
      let desiredIndex := getIndexInParent desiredKey.dataOffset parentKey.dataOffset
      .ok { parent with parents := (parentKey, desiredIndex) :: parent.parents }

/-- The key of data page `p`. -/
def dataKey (file : Ptr) (p : Nat) : PageKey :=
  { file := file, dataOffset := cint (PAGESIZE * p), levelsAbove := 0 }

/-- The way of data page `p`, in a tree of `h` levels. -/
def wayOf (file : Ptr) (h p : Nat) : Except WalkFault Way := walkUp h h (dataKey file p)

/-- The walk ends, with every index in bounds. -/
def WalksRight (file : Ptr) (h p : Nat) : Prop :=
  ∃ way, wayOf file h p = .ok way ∧
    (∀ parent ∈ way.parents,
      POINTER_SIZE ∣ parent.2 ∧ 0 ≤ parent.2 ∧ parent.2 ≤ PAGESIZE - POINTER_SIZE) ∧
    0 ≤ way.inodeIndex ∧ way.inodeIndex ≤ DIRECT_PAGES - 1

/-- The walk ends, with every index in bounds, and no other page goes the same way. -/
def Resolves (file : Ptr) (h p : Nat) : Prop :=
  WalksRight file h p ∧
    ∀ q, q < 16 * 128 ^ (h - 1) → q ≠ p → wayOf file h q ≠ wayOf file h p

/-! ## One level -/

section
variable {file : Ptr} {h p l fuel : Nat} {n : Int}

theorem tdiv_cases (a b : Int) :
    0 ≤ a ∧ a.tdiv b = a / b ∨ a < 0 ∧ a.tdiv b = -(-a / b) := by
  rcases lt_or_ge a 0 with ha | ha
  · right
    refine ⟨ha, ?_⟩
    rw [← Int.tdiv_eq_ediv_of_nonneg (show 0 ≤ -a by omega), Int.neg_tdiv, neg_neg]
  · exact .inl ⟨ha, Int.tdiv_eq_ediv_of_nonneg ha⟩

/-- The number that the offset of a page says it has: half of the 2^22 numbers that
    fit are negative. -/
theorem offset_eq (p : Nat) : ∃ n : Int, cint (PAGESIZE * p) = 1024 * n ∧
    -2097152 ≤ n ∧ n < 2097152 ∧ n % 4194304 = p % 4194304 := by
  have hmod := cint_emod (PAGESIZE * p)
  obtain ⟨hlo, hhi⟩ := isInt_cint (PAGESIZE * p)
  refine ⟨cint (PAGESIZE * p) / 1024, ?_⟩
  unfold PAGESIZE at hmod hlo hhi ⊢
  generalize cint (1024 * (p : Int)) = o at hmod hlo hhi ⊢
  omega

theorem cint_level (hl : l ≤ 127) : cint ((l : Int) + 1) = l + 1 :=
  cint_eq ⟨by omega, by omega⟩

theorem dataRange_ne_zero (hl : l < 127) :
    cint (PAGESIZE * cxor INDIRECT_PAGES (cint ((l : Int) + 1))) ≠ 0 := by
  have hall : ∀ l : Nat, l < 127 →
      cint (PAGESIZE * cxor INDIRECT_PAGES (cint ((l : Int) + 1))) ≠ 0 := by decide
  exact hall l hl

theorem inodeRange_ne_zero (hl : l < 127) :
    cint (DIRECT_PAGES * cxor INDIRECT_PAGES (l : Int)) ≠ 0 := by
  have hall : ∀ l : Nat, l < 127 →
      cint (DIRECT_PAGES * cxor INDIRECT_PAGES (l : Int)) ≠ 0 := by decide
  exact hall l hl

/-- At level 127 the range is 0, for `128 ^ 128`. -/
theorem getParentKey_divide {key : PageKey} (hl : key.levelsAbove = 127) :
    getParentKey key = .error .divide := by
  have hrange : cint (PAGESIZE * cxor INDIRECT_PAGES (cint (127 + 1))) = 0 := by decide
  unfold getParentKey cdiv
  rw [hl, hrange]
  rfl

theorem getParentKey_level {key parent : PageKey} (hl : key.levelsAbove = l) (hl' : l ≤ 127)
    (h : getParentKey key = .ok parent) : parent.levelsAbove = (l + 1 : Nat) := by
  obtain ⟨num, -, hparent⟩ := bind_eq_ok.mp h
  rw [← Except.ok.inj hparent, hl]
  exact cint_level hl'

theorem getParentKey_first (hl : l < 127) :
    getParentKey ⟨file, 0, l⟩ = .ok ⟨file, 0, (l + 1 : Nat)⟩ := by
  unfold getParentKey cdiv
  dsimp only
  rw [if_neg (dataRange_ne_zero hl), cint_level (Nat.le_of_lt hl), Int.zero_tdiv]
  rfl

theorem getParentKey_data (hlo : -2097152 ≤ n) (hhi : n < 2097152) :
    getParentKey ⟨file, 1024 * n, 0⟩ = .ok ⟨file, 8 * n.tdiv 129, 1⟩ := by
  have hrange : cint (PAGESIZE * cxor INDIRECT_PAGES (cint (0 + 1))) = 1024 * 129 := by decide
  have hoff : cint (n.tdiv 129 * POINTER_SIZE) = 8 * n.tdiv 129 := by
    have hn := tdiv_cases n 129
    unfold POINTER_SIZE
    rw [cint_eq ⟨by omega, by omega⟩, mul_comm]
  unfold getParentKey cdiv
  dsimp only
  rw [hrange, if_neg (by decide), Int.mul_tdiv_mul_of_pos _ _ (by omega), ok_bind, hoff]
  rfl

/-- The index of a data page in its parent. -/
def slot (n : Int) : Int := (1024 * n - 8 * n.tdiv 129).tdiv 128

theorem getIndexInParent_data (hlo : -2097152 ≤ n) (hhi : n < 2097152) :
    getIndexInParent (1024 * n) (8 * n.tdiv 129) = slot n := by
  have hn := tdiv_cases n 129
  unfold getIndexInParent INDIRECT_PAGES slot
  rw [cint_eq ⟨by omega, by omega⟩]

theorem slot_lt {m : Int} (h : n < m) : slot n < slot m := by
  have hn := tdiv_cases n 129
  have hm := tdiv_cases m 129
  have hsn := tdiv_cases (1024 * n - 8 * n.tdiv 129) 128
  have hsm := tdiv_cases (1024 * m - 8 * m.tdiv 129) 128
  unfold slot
  omega

theorem slot_inj {m : Int} (h : slot n = slot m) : n = m := by
  rcases lt_trichotomy n m with hlt | heq | hlt
  · exact absurd h (ne_of_lt (slot_lt hlt))
  · exact heq
  · exact absurd h.symm (ne_of_lt (slot_lt hlt))

/-- A slot is the place of a pointer for the first 128 pages only. -/
theorem slot_in_bounds_iff :
    (POINTER_SIZE ∣ slot n ∧ 0 ≤ slot n ∧ slot n ≤ PAGESIZE - POINTER_SIZE) ↔ 0 ≤ n ∧ n < 128 := by
  have hn := tdiv_cases n 129
  have hsn := tdiv_cases (1024 * n - 8 * n.tdiv 129) 128
  unfold slot POINTER_SIZE PAGESIZE
  constructor
  · rintro ⟨-, hlo, hhi⟩
    omega
  · rintro ⟨hlo, hhi⟩
    have hfirst : n.tdiv 129 = 0 := by omega
    omega

/-! ## The walk -/

/-- A page that is the first one of its level is reached at index 0 everywhere. -/
theorem walkUp_first {d : Nat} (hh : h = l + d + 2) (hh' : h ≤ 128) (hf : d < fuel) :
    ∃ way, walkUp h fuel ⟨file, 0, (l + 1 : Nat)⟩ = .ok way ∧
      (∀ parent ∈ way.parents, parent.2 = 0) ∧ way.inodeIndex = 0 := by
  induction d generalizing l fuel with
  | zero =>
    obtain ⟨fuel, rfl⟩ := Nat.exists_eq_succ_of_ne_zero (Nat.ne_of_gt hf)
    have hheight : (h : Int) - 2 = (l : Nat) := by omega
    refine ⟨⟨[], 0⟩, ?_, fun _ hp => absurd hp List.not_mem_nil, rfl⟩
    -- the top: offset 0 divided by the range of the inode's slots
    rw [walkUp, if_neg (by dsimp only; omega), if_pos (by dsimp only; omega), getIndexInInode, hheight,
      cdiv, if_neg (inodeRange_ne_zero (by omega)), Int.zero_tdiv]
    rfl
  | succ d ih =>
    obtain ⟨fuel, rfl⟩ := Nat.exists_eq_succ_of_ne_zero (Nat.ne_of_gt (Nat.zero_lt_of_lt hf))
    obtain ⟨way, hway, hparents, hinode⟩ :=
      ih (show h = l + 1 + d + 2 by omega) (Nat.lt_of_succ_lt_succ hf)
    refine ⟨⟨(⟨file, 0, (l + 1 + 1 : Nat)⟩, 0) :: way.parents, way.inodeIndex⟩, ?_, ?_, hinode⟩
    · rw [walkUp, if_neg (by dsimp only; omega), if_neg (by dsimp only; omega),
        getParentKey_first (by omega), ok_bind, hway]
      rfl
    · intro parent hp
      rcases List.mem_cons.mp hp with rfl | hp
      · rfl
      · exact hparents parent hp

/-- A tree that is too high is not walked to its top. -/
theorem walkUp_divide (hh : 128 < h) {d : Nat} (hl : l + d = 127) {key : PageKey}
    (hkey : key.levelsAbove = l) (way : Way) : walkUp h fuel key ≠ .ok way := by
  induction d generalizing l key fuel way with
  | zero =>
    cases fuel with
    | zero => exact nofun
    | succ fuel =>
      -- the parent of level 127 is asked for
      rw [walkUp, if_neg (by omega), if_neg (by omega), getParentKey_divide (by omega)]
      exact nofun
  | succ d ih =>
    cases fuel with
    | zero => exact nofun
    | succ fuel =>
      rw [walkUp, if_neg (by omega), if_neg (by omega)]
      intro hway
      obtain ⟨parent, hparent, hway⟩ := bind_eq_ok.mp hway
      obtain ⟨way', hway', -⟩ := bind_eq_ok.mp hway
      refine ih (show l + 1 + d = 127 by omega) ?_ way' hway'
      exact getParentKey_level hkey (by omega) hparent

theorem walkUp_data (hh : 2 ≤ h) (hlo : -2097152 ≤ n) (hhi : n < 2097152) :
    walkUp h (fuel + 1) ⟨file, 1024 * n, 0⟩ =
      walkUp h fuel ⟨file, 8 * n.tdiv 129, 1⟩ >>= fun parent =>
        .ok { parent with parents := (⟨file, 8 * n.tdiv 129, 1⟩, slot n) :: parent.parents } := by
  rw [walkUp, if_neg (by dsimp only; omega), if_neg (by dsimp only; omega),
    getParentKey_data hlo hhi, ok_bind]
  dsimp only
  rw [getIndexInParent_data hlo hhi]

end

section
variable {file : Ptr} {h p q : Nat}

theorem wayOf_one (file : Ptr) {p : Nat} (hp : p < 16) :
    wayOf file 1 p = .ok ⟨[], -(64 * p / 129 : Nat)⟩ := by
  have hall : ∀ p < 16, (cint (PAGESIZE * (p : Nat))).tdiv (cint (DIRECT_PAGES *
      cxor INDIRECT_PAGES ((1 : Nat) - 2))) = -(64 * p / 129 : Nat) := by decide
  have hindex : getIndexInInode (cint (PAGESIZE * (p : Nat))) (1 : Nat) =
      .ok (-(64 * p / 129 : Nat)) := by
    rw [← hall p hp]
    rfl
  unfold wayOf dataKey
  rw [walkUp, if_neg (show ¬ ((1 : Nat) : Int) ≤ 0 by decide),
    if_pos (show (0 : Int) = (1 : Nat) - 1 by decide)]
  dsimp only
  rw [hindex]
  rfl

theorem walksRight_iff (hh : 2 ≤ h) :
    WalksRight file h p ↔ h ≤ 128 ∧ p % 4194304 < 128 := by
  obtain ⟨n, hoff, hlo, hhi, hmod⟩ := offset_eq p
  have hp : p % 4194304 < 128 ↔ 0 ≤ n ∧ n < 128 := by omega
  obtain ⟨fuel, rfl⟩ := Nat.exists_eq_add_of_le' hh
  have hway : wayOf file (fuel + 2) p = _ :=
    (congrArg _ (congrArg (PageKey.mk file · 0) hoff)).trans (walkUp_data hh hlo hhi)
  rw [hp, ← slot_in_bounds_iff]
  constructor
  · rintro ⟨way, hw, hparents, -⟩
    refine ⟨?_, ?_⟩
    · by_contra hhigh
      exact walkUp_divide (l := 0) (d := 127) (by omega) rfl rfl way hw
    · rw [hway] at hw
      obtain ⟨parent, -, hw⟩ := bind_eq_ok.mp hw
      rw [← Except.ok.inj hw] at hparents
      exact hparents _ List.mem_cons_self
  · rintro ⟨hh', hslot⟩
    have hn := slot_in_bounds_iff.mp hslot
    -- all these pages have the first parent, so the rest of the walk is that of page 0
    have hfirst : n.tdiv 129 = 0 := by
      have := tdiv_cases n 129
      omega
    obtain ⟨way, hw, hparents, hinode⟩ := walkUp_first (show fuel + 2 = 0 + fuel + 2 by omega) hh'
      (Nat.lt_succ_self fuel)
    rw [hfirst] at hway
    refine ⟨_, hway.trans (congrArg (· >>= _) hw), ?_, ?_⟩
    · intro parent hp
      rcases List.mem_cons.mp hp with rfl | hp
      · exact hslot
      · rw [hparents parent hp]
        decide
    · dsimp only
      rw [hinode]
      decide

/-- Data pages that go the same way have offsets that are the same `int`. -/
theorem mod_eq_of_wayOf_eq (hh : 2 ≤ h) {way : Way} (hp : wayOf file h p = .ok way)
    (hq : wayOf file h q = .ok way) : p % 4194304 = q % 4194304 := by
  obtain ⟨n, hn, hnlo, hnhi, hnmod⟩ := offset_eq p
  obtain ⟨m, hm, hmlo, hmhi, hmmod⟩ := offset_eq q
  obtain ⟨fuel, rfl⟩ := Nat.exists_eq_add_of_le' hh
  have hway : wayOf file (fuel + 2) p = _ :=
    (congrArg _ (congrArg (PageKey.mk file · 0) hn)).trans (walkUp_data hh hnlo hnhi)
  have hway' : wayOf file (fuel + 2) q = _ :=
    (congrArg _ (congrArg (PageKey.mk file · 0) hm)).trans (walkUp_data hh hmlo hmhi)
  obtain ⟨x, -, hx⟩ := bind_eq_ok.mp (hway.symm.trans hp)
  obtain ⟨y, -, hy⟩ := bind_eq_ok.mp (hway'.symm.trans hq)
  have hsame := congrArg Way.parents (Except.ok.inj (hx.trans hy.symm))
  have hslot : slot n = slot m := congrArg (fun a => a.2) (List.cons.inj hsame).1
  have := slot_inj hslot
  omega

theorem wayOf_eq_of_mod_eq (h : Nat) (hpq : p % 4194304 = q % 4194304) :
    wayOf file h p = wayOf file h q := by
  have hoff : cint (PAGESIZE * p) = cint (PAGESIZE * q) := by
    unfold cint PAGESIZE
    have hmod : 1024 * (p : Int) % 4294967296 = 1024 * (q : Int) % 4294967296 := by omega
    rw [hmod]
  unfold wayOf dataKey
  rw [hoff]

/-- Every page of a tree of one level shares its slot or has none. -/
theorem not_resolves_one (hp : p < 16) : ¬ Resolves file 1 p := by
  rintro ⟨⟨way, hway, -, hlo, -⟩, hother⟩
  have hw := Except.ok.inj ((wayOf_one file hp).symm.trans hway)
  rw [← hw] at hlo
  dsimp only at hlo
  have hp' : p ≤ 2 := by omega
  by_cases h0 : p = 0
  · refine hother 1 (by decide) (by omega) ?_
    rw [wayOf_one file hp, wayOf_one file (by decide), h0]
  · refine hother 0 (by decide) (by omega) ?_
    rw [wayOf_one file hp, wayOf_one file (by decide), show 64 * p / 129 = 64 * 0 / 129 by omega]

end

/-- The walk from a data page to the inode ends, has every index in bounds and is no
    other page's walk, exactly if the tree has two or three levels and the page is
    one of the first 128. -/
theorem resolves_iff {file : Ptr} {h p : Nat} (hh : 1 ≤ h) (hp : p < 16 * 128 ^ (h - 1)) :
    Resolves file h p ↔ (h = 2 ∨ h = 3) ∧ p < 128 := by
  rcases Nat.eq_or_lt_of_le hh with rfl | hh
  · exact iff_of_false (not_resolves_one hp) (by omega)
  constructor
  · rintro ⟨hright, hother⟩
    have hmod := ((walksRight_iff hh).mp hright).2
    have hlow : h ≤ 3 := by
      by_contra hhigh
      -- 2^22 pages away there is a page with the same offset
      have hpow : 128 ^ 3 ≤ 128 ^ (h - 1) := Nat.pow_le_pow_right (by omega) (by omega)
      have hpages : 33554432 ≤ 16 * 128 ^ (h - 1) := by omega
      rcases lt_or_ge p 4194304 with hlt | hge
      · exact hother (p + 4194304) (by omega) (by omega) (wayOf_eq_of_mod_eq h (by omega))
      · exact hother (p - 4194304) (by omega) (by omega) (wayOf_eq_of_mod_eq h (by omega))
    have hpow : 128 ^ (h - 1) ≤ 128 ^ 2 := Nat.pow_le_pow_right (by omega) (by omega)
    omega
  · rintro ⟨hlevels, hp'⟩
    have hright : WalksRight file h p := (walksRight_iff hh).mpr ⟨by omega, by omega⟩
    refine ⟨hright, fun q hq hne heq => hne ?_⟩
    obtain ⟨way, hway, -⟩ := hright
    have hmod := mod_eq_of_wayOf_eq hh (heq.trans hway) hway
    have hpow : 128 ^ (h - 1) ≤ 128 ^ 2 := Nat.pow_le_pow_right (by omega) (by omega)
    omega

theorem resolves_hundred : Resolves 1 2 100 :=
  (resolves_iff (by decide) (by decide)).mpr (by decide)

/-- Page 128 of a file of two levels is looked for behind the end of its parent. -/
theorem not_resolves_next : 1 ≤ 2 ∧ 128 < 16 * 128 ^ (2 - 1) ∧ ¬ Resolves 1 2 128 := by
  refine ⟨by decide, by decide, fun hr => ?_⟩
  have hmod := ((walksRight_iff (le_refl 2)).mp hr.1).2
  exact absurd hmod (by decide)

end Cycology.PageCache
