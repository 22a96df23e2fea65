import Mathlib.Tactic

/- Records written one behind the other into pages of bounded size.

   A `Codec` writes values as bytes that say themselves where they end, so records in a
   row are read back one by one (`decodeAll_flatMap`). Numbers are stored in a fixed
   number of bytes, least significant first.

   A page takes records as long as they fit (`pageOf`); finding out what a record looks
   like may fail, and then the page does. Pages that each start where the one before
   ended have the records in order and leave none out (`isPrefix_pageOf`), and every page
   with room for one record makes progress (`pageOf_ne_nil`). -/
namespace Records

/-! ## Numbers as bytes -/

/-- The number in `w` bytes. -/
def leBytes (w v : Nat) : List UInt8 :=
  match w with
  | 0 => []
  | w + 1 => UInt8.ofNat v :: leBytes w (v / 256)

def leNat : List UInt8 → Nat
  | [] => 0
  | b :: bs => b.toNat + 256 * leNat bs

@[simp] theorem length_leBytes (w v : Nat) : (leBytes w v).length = w := by
  induction w generalizing v with
  | zero => rfl
  | succ w ih => rw [leBytes, List.length_cons, ih]

theorem leNat_leBytes (w v : Nat) : leNat (leBytes w v) = v % 256 ^ w := by
  induction w generalizing v with
  | zero => simp [leBytes, leNat, Nat.mod_one]
  | succ w ih =>
    rw [leBytes, leNat, ih, UInt8.toNat_ofNat', Nat.pow_succ' (n := w), Nat.mod_mul]

theorem leNat_leBytes_eq {w v : Nat} (h : v < 256 ^ w) : leNat (leBytes w v) = v := by
  rw [leNat_leBytes, Nat.mod_eq_of_lt h]

/-! ## Records in a row -/

/-- The first `n` bytes, and the rest. -/
def takeBytes (n : Nat) (bs : List UInt8) : Option (List UInt8 × List UInt8) :=
  if n ≤ bs.length then some (bs.take n, bs.drop n) else none

theorem takeBytes_append {n : Nat} {xs : List UInt8} (h : xs.length = n) (rest : List UInt8) :
    takeBytes n (xs ++ rest) = some (xs, rest) := by
  subst h
  rw [takeBytes, if_pos (by simp), List.take_left, List.drop_left]

theorem length_of_takeBytes {n : Nat} {bs xs rest : List UInt8}
    (h : takeBytes n bs = some (xs, rest)) : rest.length + n = bs.length := by
  unfold takeBytes at h
  split at h
  · obtain ⟨-, rfl⟩ := Prod.mk.inj (Option.some.inj h)
    rw [List.length_drop]
    omega
  · cases h

/-- Values as bytes that say themselves where they end; those that fit the format are
    read back. -/
structure Codec (α : Type) where
  Fits : α → Prop
  encode : α → List UInt8
  decode : List UInt8 → Option (α × List UInt8)
  decode_encode : ∀ {a}, Fits a → ∀ rest, decode (encode a ++ rest) = some (a, rest)
  shrinks : ∀ {bs a rest}, decode bs = some (a, rest) → rest.length < bs.length

namespace Codec
variable {α : Type} (c : Codec α) {a : α}

theorem encode_ne_nil (ha : c.Fits a) : c.encode a ≠ [] := by
  intro h
  have hdec := c.decode_encode ha []
  rw [h] at hdec
  exact absurd (c.shrinks hdec) (Nat.lt_irrefl _)

/-- All the records there are, if nothing else is. -/
def decodeAll (bs : List UInt8) : Option (List α) :=
  if bs = [] then some []
  else
    match h : c.decode bs with
    | none => none
    | some (a, rest) =>
      have := c.shrinks h
      (decodeAll rest).map (a :: ·)
termination_by bs.length

theorem decodeAll_nil : c.decodeAll [] = some [] := by
  rw [decodeAll, if_pos rfl]

theorem decodeAll_cons (ha : c.Fits a) (rest : List UInt8) :
    c.decodeAll (c.encode a ++ rest) = (c.decodeAll rest).map (a :: ·) := by
  have hne : c.encode a ++ rest ≠ [] := by
    simp [c.encode_ne_nil ha]
  have hdec := c.decode_encode ha rest
  rw [decodeAll, if_neg hne]
  split
  · rename_i h
    rw [hdec] at h
    cases h
  · rename_i b rest' h
    rw [hdec] at h
    obtain ⟨rfl, rfl⟩ := Prod.mk.inj (Option.some.inj h)
    rfl

/-- **Records in a row are read back.** -/
theorem decodeAll_flatMap {as : List α} (h : ∀ a ∈ as, c.Fits a) :
    c.decodeAll (as.flatMap c.encode) = some as := by
  induction as with
  | nil => exact c.decodeAll_nil
  | cons a as ih =>
    rw [List.flatMap_cons, c.decodeAll_cons (h a List.mem_cons_self),
      ih fun x hx => h x (List.mem_cons_of_mem _ hx), Option.map_some]

end Codec

/-! ## Pages -/

section
variable {α β ε : Type} {shown : α → Except ε β} {width : β → Nat} {room : Nat}

/-- The records at the start of a list that fit into the room. -/
def pageOf (shown : α → Except ε β) (width : β → Nat) : Nat → List α → Except ε (List β)
  | _, [] => .ok []
  | room, a :: as => do
    let b ← shown a
    if width b ≤ room then (pageOf shown width (room - width b) as).map (b :: ·) else .ok []

/-- What a page holds is the start of the list, record by record. -/
theorem isPrefix_pageOf {as : List α} {bs : List β} (h : pageOf shown width room as = .ok bs) :
    bs.length ≤ as.length ∧
      List.Forall₂ (fun a b => shown a = .ok b) (as.take bs.length) bs := by
  induction as generalizing room bs with
  | nil =>
    obtain rfl := Except.ok.inj h
    exact ⟨Nat.le_refl _, .nil⟩
  | cons a as ih =>
    rw [pageOf] at h
    cases hb : shown a with
    | error e =>
      rw [hb] at h
      cases h
    | ok b =>
      rw [hb] at h
      change (if width b ≤ room then _ else _) = _ at h
      split at h
      · cases hrest : pageOf shown width (room - width b) as with
        | error e =>
          rw [hrest] at h
          cases h
        | ok bs' =>
          rw [hrest] at h
          obtain rfl := Except.ok.inj h
          obtain ⟨hlen, hall⟩ := ih hrest
          exact ⟨Nat.succ_le_succ hlen, .cons hb hall⟩
      · obtain rfl := Except.ok.inj h
        exact ⟨Nat.zero_le _, .nil⟩

theorem exists_of_pageOf_error {as : List α} {e : ε}
    (h : pageOf shown width room as = .error e) : ∃ a ∈ as, shown a = .error e := by
  induction as generalizing room with
  | nil => cases h
  | cons a as ih =>
    rw [pageOf] at h
    cases hb : shown a with
    | error e' =>
      rw [hb] at h
      obtain rfl := Except.error.inj h
      exact ⟨a, List.mem_cons_self, hb⟩
    | ok b =>
      rw [hb] at h
      change (if width b ≤ room then _ else _) = _ at h
      split at h
      · cases hrest : pageOf shown width (room - width b) as with
        | error e' =>
          rw [hrest] at h
          obtain rfl := Except.error.inj h
          obtain ⟨x, hx, hxe⟩ := ih hrest
          exact ⟨x, List.mem_cons_of_mem _ hx, hxe⟩
        | ok bs =>
          rw [hrest] at h
          cases h
      · cases h

theorem pageOf_ne_nil {a : α} {as : List α} {b : β} (hb : shown a = .ok b) (hw : width b ≤ room)
    {bs : List β} (h : pageOf shown width room (a :: as) = .ok bs) : bs ≠ [] := by
  rw [pageOf, hb] at h
  change (if width b ≤ room then _ else _) = _ at h
  rw [if_pos hw] at h
  cases hrest : pageOf shown width (room - width b) as with
  | error e =>
    rw [hrest] at h
    cases h
  | ok bs' =>
    rw [hrest] at h
    obtain rfl := Except.ok.inj h
    exact List.cons_ne_nil _ _

end

end Records
