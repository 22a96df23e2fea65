import Mathlib.Data.Nat.Log
import Cycology.Cache

/- The buffers `keyCmp` and `cache_hash` write the number of a key to.

   Both take `ceil(log10(num)) + 1` characters and have `sprintf` write the digits of
   `num` and a NUL there. That is enough exactly if `num` is no power of ten
   (`keyFits_iff`); for those the logarithm has no part to round up. Where the
   buffers are long enough the two functions are those of `cache.c` as modelled. -/
namespace Cycology.PageCache

/-- `(int)((ceil(log10(num))+1)*sizeof(char))`, for numbers from 1 on. -/
def keyLength (num : Int) : Nat := Nat.clog 10 num.toNat + 1

/-- `sprintf(str, "%d", num)` to a buffer of so many characters: the string before
    the NUL, if both fit. -/
def sprintfInt (length : Nat) (num : Int) : Option (List Char) :=
  if (decimal num).length + 1 ≤ length then some (decimal num) else none

/-- The string `keyCmp` and `cache_hash` make of a key. -/
def keyString (s : Mem) (key : Ptr) : Option (List Char) :=
  sprintfInt (keyLength (numKey s key)) (numKey s key)

/-- `keyCmp`, with its buffers. -/
def keyCmpIn (s : Mem) (key1 key2 : Ptr) : Option Int := do
  let str1 ← keyString s key1
  let str2 ← keyString s key2
  some (strcmp str1 str2)

/-- `cache_hash`, with its buffer. -/
def cacheHashIn (s : Mem) (key : Ptr) : Option Nat := do
  let strKey ← keyString s key
  some ((hashString strKey).toNat % s.cache.maxSize.toNat)

/-- The buffer holds the digits and the NUL. -/
def KeyFits (s : Mem) (key : Ptr) : Prop :=
  (decimal (numKey s key)).length + 1 ≤ keyLength (numKey s key)

section
variable {s : Mem} {key key1 key2 : Ptr}

/-- The rounded logarithm counts the digits, but for the powers of the base. -/
theorem length_toDigits_le_clog_iff {b n : Nat} (hb : 1 < b) (hn : 1 ≤ n) :
    (Nat.toDigits b n).length ≤ Nat.clog b n ↔ ∀ k, n ≠ b ^ k := by
  constructor
  · intro h k hk
    subst hk
    rw [Nat.clog_pow b k hb] at h
    have hpos : 0 < k := lt_of_lt_of_le Nat.length_toDigits_pos h
    exact lt_irrefl _ ((Nat.length_toDigits_le_iff hb hpos).mp h)
  · intro h
    have hpos : 0 < Nat.clog b n := by
      apply Nat.clog_pos hb
      have hone := h 0
      rw [pow_zero] at hone
      omega
    apply (Nat.length_toDigits_le_iff hb hpos).mpr
    exact lt_of_le_of_ne (Nat.le_pow_clog hb n) (h _)

theorem keyString_eq_some (hfits : KeyFits s key) :
    keyString s key = some (decimal (numKey s key)) := if_pos hfits

theorem keyString_eq_none (hfits : ¬ KeyFits s key) : keyString s key = none := if_neg hfits

/-- With long enough buffers the strings compared are the numbers'. -/
theorem keyCmpIn_eq (h1 : KeyFits s key1) (h2 : KeyFits s key2) :
    keyCmpIn s key1 key2 = some (keyCmp s key1 key2) := by
  rw [keyCmpIn, keyString_eq_some h1, keyString_eq_some h2]
  rfl

theorem cacheHashIn_eq (h : KeyFits s key) : cacheHashIn s key = some (cacheHash s key) := by
  rw [cacheHashIn, keyString_eq_some h]
  rfl

/-- With one that is too short neither function gets through. -/
theorem keyIn_eq_none (h : ¬ KeyFits s key) (key2 : Ptr) :
    keyCmpIn s key key2 = none ∧ cacheHashIn s key = none := by
  rw [keyCmpIn, cacheHashIn, keyString_eq_none h]
  exact ⟨rfl, rfl⟩

end

/-- **Powers of ten do not fit.** For every key with a number of at least 1, the
    buffer of `keyCmp` and `cache_hash` holds the digits and the NUL exactly if the
    number is no power of ten; and `cache_hash` gets through exactly then. -/
theorem keyFits_iff (s : Mem) (key : Ptr) (hnum : 1 ≤ numKey s key) :
    (KeyFits s key ↔ ∀ k : Nat, numKey s key ≠ 10 ^ k) ∧
    (cacheHashIn s key = some (cacheHash s key) ↔ ∀ k : Nat, numKey s key ≠ 10 ^ k) := by
  obtain ⟨n, hn⟩ := Int.eq_ofNat_of_zero_le (show 0 ≤ numKey s key by omega)
  have hfits : KeyFits s key ↔ ∀ k : Nat, numKey s key ≠ 10 ^ k := by
    unfold KeyFits keyLength
    rw [hn, Nat.add_le_add_iff_right, Int.toNat_natCast]
    refine (length_toDigits_le_clog_iff (by decide) (by omega)).trans ?_
    apply forall_congr'
    intro k
    exact_mod_cast Iff.rfl
  refine ⟨hfits, ⟨fun h => ?_, fun h => cacheHashIn_eq (hfits.mpr h)⟩⟩
  apply hfits.mp
  by_contra hno
  rw [(keyIn_eq_none hno key).2] at h
  cases h

/-- The keys of a file with the address 100, as `test_openFile.c` makes them: key 1 is
    of its first page, and key 2 of the page at 1. -/
def testKeys : Mem :=
  { (default : Mem) with
    keys := fun p => { file := 1, dataOffset := if p = 1 then 0 else 1, levelsAbove := 0 }
    files := fun _ => { (default : OpenFile) with address := 100 } }

theorem keyFits_hundred_one :
    KeyFits testKeys 2 ∧ cacheHashIn testKeys 2 = some (cacheHash testKeys 2) := by
  have hpow : ∀ k : Nat, numKey testKeys 2 ≠ 10 ^ k := by
    have hnum : numKey testKeys 2 = 101 := by decide
    rw [hnum]
    intro k hk
    cases k with
    | zero => exact absurd hk (by decide)
    | succ k =>
      rw [Int.pow_succ] at hk
      omega
  obtain ⟨hfits, hhash⟩ := keyFits_iff testKeys 2 (by decide)
  exact ⟨hfits.mpr hpow, hhash.mpr hpow⟩

/-- The number 100 has three digits, and its logarithm is two. -/
theorem hundred_does_not_fit : 1 ≤ numKey testKeys 1 ∧ ¬ KeyFits testKeys 1 := by
  have hnum : numKey testKeys 1 = 10 ^ 2 := by decide
  refine ⟨by rw [hnum]; decide, fun h => ?_⟩
  have hfits := (length_toDigits_le_clog_iff (b := 10) (n := 10 ^ 2) (by decide) (by decide)).mp
  unfold KeyFits keyLength at h
  rw [hnum] at h
  exact hfits (by simpa [decimal] using h) 2 rfl

end Cycology.PageCache
