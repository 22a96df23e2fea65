import Cycology.Lib.Chain
import Cycology.ShowNand

/- What `showFreeList` reports of the two free lists of an image.

   A list of the image is the pass along its links that stops at a block visited before,
   on it or on the list shown before it (`Pass`). The walk of `showFreeList` is that pass
   (`walk_run`): its marks are the blocks visited. What it reports differs from what is so
   in four ways. A block of both lists is reported as a cycle; the tail of a list without
   nodes is not looked at; and where the page of a link is not on the device, `page` keeps
   the last link read, and the walk comes to the same block again. -/
namespace Cycology.ShowNand
open ByteMem Nand Loops LinkedChain Runs.Fallible

/-! ## The lists of an image -/

/-- The page with the link of a list node. -/
def linkPage (t : BlockMark) (p : Nat) : Nat := if t = .completelyFree then p + 15 else p

/-- The node after `p`, by the link stored on the image of `n` blocks. -/
def nextNode (d : Nand) (n : Nat) (t : BlockMark) (p : Nat) : Option Nat :=
  if linkPage t p < 16 * n then ofLink (d.page (linkPage t p)).nextLogBlock else none

/-- The head of a list and the links that are followed from it. -/
inductive Followed (d : Nand) (n : Nat) (t : BlockMark) : Int → Prop
  | head : Followed d n t ((init d).getFreeListHead t)
  | link {p : Nat} (hp : 0 < p) (h : Followed d n t p) (hlt : linkPage t p < 16 * n) :
      Followed d n t (d.page (linkPage t p)).nextLogBlock

/-- Heads and links are pages of the image of `n` blocks, and the pages with the links
    have offsets in the range of an `int`. -/
structure LinksInRange (d : Nand) (n : Nat) : Prop where
  range : ∀ t q, Followed d n t q → q = 0 ∨ 0 < q ∧ q < 16 * n
  offset : ∀ t (p : Nat), Followed d n t p → pageOff (linkPage t p) < 2147483648

/-- The nodes of the complete list, and what the pass over it came to at last; and those of
    the other, shown after it. -/
structure Passes (d : Nand) (n : Nat) (cs : List Nat) (cend : Option Nat) (ps : List Nat)
    (pend : Option Nat) : Prop where
  complete : Pass (nextNode d n .completelyFree) (· / 16) []
    (ofLink (init d).superBlock.freeLists.completeHead) cs cend
  second : Pass (nextNode d n .partiallyFree) (· / 16) (cs.map (· / 16))
    (ofLink (init d).superBlock.freeLists.partialHead) ps pend

/-- The last node of a list, 0 for none. -/
def lastNode (l : List Nat) : Int := (l.getLast?.map Nat.cast).getD 0

/-- The reports among what was printed. -/
def reportsOf (out : List Printed) : List Printed :=
  out.filter (· ∈ [.cycle, .bothLists, .invalidTail])

/-- The blocks marked are those of `seen`. -/
def MarksOf (v : ShowNand) (n : Nat) (seen : List Nat) : Prop :=
  v.blockStat.length = n ∧ ∀ b < n, v.blockStat[b]? ≠ some .unmarked ↔ b ∈ seen

/-- The walk over a list, before a turn. -/
structure WalkAt (d : Nand) (n : Nat) (t : BlockMark) (w : Listing) (seen : List Nat) : Prop where
  store : SameStore d w.tool.nand
  superBlock : w.tool.superBlock = (init d).superBlock
  running : w.stopped = false
  followed : Followed d n t w.freeBlockPtr
  marks : MarksOf w.tool n seen

/-- The walk after it came from `w` by the nodes of `l`, and whether it reported a
    cycle. -/
structure WalkEnd (d : Nand) (n : Nat) (w : Listing) (l seen : List Nat) (cycle : Bool)
    (w' : Listing) : Prop where
  store : SameStore d w'.tool.nand
  superBlock : w'.tool.superBlock = (init d).superBlock
  previous : w'.previous = (l.getLast?.map Nat.cast).getD w.previous
  marks : MarksOf w'.tool n (l.map (· / 16) ++ seen)
  reports : reportsOf w'.printed = reportsOf w.printed ++ if cycle then [.cycle] else []

section
variable {d : Nand} {n p : Nat} {t : BlockMark} {v : ShowNand} {w w' : Listing}
  {seen l : List Nat} {q : Option Nat}

theorem reportsOf_append (out more : List Printed) :
    reportsOf (out ++ more) = reportsOf out ++ reportsOf more := List.filter_append _ _

@[simp] theorem reportsOf_printPageNumber (blockPtr position : Int) :
    reportsOf (printPageNumber blockPtr position) = [] := by
  unfold printPageNumber
  split <;> simp [reportsOf]

theorem MarksOf.congr {seen' : List Nat} (h : MarksOf v n seen) (heq : ∀ b, b ∈ seen ↔ b ∈ seen') :
    MarksOf v n seen' := ⟨h.1, fun b hb => (h.2 b hb).trans (heq b)⟩

theorem MarksOf.mark (h : MarksOf v n seen) (ht : t ≠ .unmarked) (p : Nat) :
    MarksOf (v.mark t p) n (p / 16 :: seen) := by
  refine ⟨length_mark.trans h.1, fun b hb => ?_⟩
  rw [blockStat_mark, Int.toNat_natCast, List.getElem?_set, h.1, List.mem_cons]
  by_cases hbp : p / 16 = b
  · rw [if_pos hbp, if_pos (hbp ▸ hb)]
    simp [ht, hbp]
  · rw [if_neg hbp, h.2 b hb]
    simp [Ne.symm hbp]

theorem readNAND_past (hs : d.Sound n) (buf : FullPage) {k : Nat} (hk : 16 * n ≤ k)
    (hoff : pageOff k < 2147483648) : readNAND d buf k = (d, buf, -1) := by
  have hcut : cint ((nandFeaturesBytes : Int) + (k : Int).tdiv blockSize * blockBytes
      + (k : Int).tmod blockSize * fullPageBytes) = (pageOff k : Nat) := by
    rw [← Int.ofNat_tdiv, ← Int.ofNat_tmod]
    simp only [nandFeaturesBytes, blockSize, blockBytes, fullPageBytes, pageOff] at hoff ⊢
    rw [cint_eq (by unfold IsInt; omega)]
    push_cast
    omega
  have hend : d.features.memSize ≤ (pageOff k : Nat) := by
    rw [hs.memSize]
    unfold pageOff
    omega
  simp only [readNAND, hcut, if_pos hend]

theorem getNextLogBlock_eq (hoff : pageOff (linkPage t p) < 2147483648) :
    v.getNextLogBlock t p =
      ({ v with nand := (readNAND v.nand v.page (linkPage t p)).1
                page := (readNAND v.nand v.page (linkPage t p)).2.1 },
        (readNAND v.nand v.page (linkPage t p)).2.1.nextLogBlock) := by
  have hk : (if t = .completelyFree then cint ((p : Int) + blockSize - 1) else (p : Int)) =
      (linkPage t p : Nat) := by
    unfold linkPage at hoff ⊢
    split
    · rename_i ht
      rw [if_pos ht] at hoff
      unfold pageOff at hoff
      rw [cint_eq (by simp only [IsInt, blockSize]; omega), blockSize]
      omega
    · rfl
  simp only [getNextLogBlock, hk]

theorem getNextLogBlock_on (hs : d.Sound n) (hstore : SameStore d v.nand)
    (hoff : pageOff (linkPage t p) < 2147483648) (hlt : linkPage t p < 16 * n) :
    SameStore d (v.getNextLogBlock t p).1.nand ∧
    (v.getNextLogBlock t p).2 = (d.page (linkPage t p)).nextLogBlock := by
  rw [getNextLogBlock_eq hoff, readNAND_eq (hstore.sound hs) v.page hlt]
  exact ⟨⟨hstore.1, hstore.2⟩, congrArg FullPage.nextLogBlock (hstore.page _)⟩

/-- Where the page is not on the device, the link is the one read before. -/
theorem getNextLogBlock_past (hs : d.Sound n) (hstore : SameStore d v.nand)
    (hoff : pageOff (linkPage t p) < 2147483648) (hge : 16 * n ≤ linkPage t p) :
    v.getNextLogBlock t p = (v, v.page.nextLogBlock) := by
  rw [getNextLogBlock_eq hoff, readNAND_past (hstore.sound hs) v.page hge hoff]

/-! ## The walk is the pass -/

theorem WalkAt.over (h : WalkAt d n t w seen) : WalkEnd d n w [] seen false w :=
  ⟨h.store, h.superBlock, rfl, h.marks, (List.append_nil _).symm⟩

theorem WalkAt.stop (h : WalkAt d n t w seen) (ht : t ≠ .unmarked) (hptr : w.freeBlockPtr = p)
    (hp : 0 < p) (hlt : p < 16 * n) (hseen : p / 16 ∈ seen) (m : Nat) :
    ∃ w', loop Listing.GoesOn (listTurn t) .fuel (m + 1) w = .ok w' ∧
      WalkEnd d n w [] seen true w' := by
  have hgo : w.GoesOn := ⟨by omega, h.running⟩
  have hblock : w.freeBlockPtr.toNat / 16 = p / 16 := by rw [hptr, Int.toNat_natCast]
  have hturn := listTurn_of_marked (w := w) (by omega) (by rw [h.marks.1]; omega) ht
    (by rw [Marked, hblock]; exact (h.marks.2 _ (by omega)).mpr hseen)
  refine ⟨_, (loop_turn ⟨hgo, hturn⟩).trans (loop_of_not fun hgo' => ?_), h.store, h.superBlock,
    rfl, h.marks, ?_⟩
  · simpa using hgo'.2
  · rw [reportsOf_append, reportsOf_append, reportsOf_printPageNumber]
    simp [reportsOf]

theorem WalkAt.turn (h : WalkAt d n t w seen) (hptr : w.freeBlockPtr = p) (hp : 0 < p)
    (hlt : p < 16 * n) (hnew : p / 16 ∉ seen) : ∃ w₁,
    Turn Listing.GoesOn (listTurn t) w w₁ ∧ w₁.stopped = false ∧ w₁.previous = p ∧
    w₁.tool = ((w.tool.mark t p).getNextLogBlock t p).1 ∧
    w₁.freeBlockPtr = ((w.tool.mark t p).getNextLogBlock t p).2 ∧
    reportsOf w₁.printed = reportsOf w.printed := by
  have hgo : w.GoesOn := ⟨by omega, h.running⟩
  have hblock : w.freeBlockPtr.toNat / 16 = p / 16 := by rw [hptr, Int.toNat_natCast]
  have hturn := listTurn_of_unmarked (w := w) (t := t) (by omega)
    (by rw [Marked, hblock]; exact fun hm => hnew ((h.marks.2 _ (by omega)).mp hm))
  rw [hptr] at hturn
  refine ⟨_, ⟨hgo, hturn⟩, h.running, rfl, rfl, rfl, ?_⟩
  rw [reportsOf_append, reportsOf_printPageNumber, List.append_nil]

theorem WalkEnd.cons {w₁ : Listing} {c : Bool} (h : WalkEnd d n w₁ l (p / 16 :: seen) c w')
    (hprevious : w₁.previous = p) (hreports : reportsOf w₁.printed = reportsOf w.printed) :
    WalkEnd d n w (p :: l) seen c w' := by
  refine ⟨h.store, h.superBlock, ?_, h.marks.congr fun b => ?_, ?_⟩
  · rw [h.previous, hprevious]
    cases l with
    | nil => rfl
    | cons a l =>
      rw [List.getLast?_cons_cons]
      cases hlast : (a :: l).getLast? with
      | none => simp at hlast
      | some x => rfl
  · simp only [List.mem_append, List.mem_cons, List.map_cons]
    tauto
  · rw [h.reports, hreports]

theorem WalkAt.follow (h : WalkAt d n t w seen) (hs : d.Sound n) (hptr : w.freeBlockPtr = p)
    (hp : 0 < p) (hlt : p < 16 * n) (hnew : p / 16 ∉ seen)
    (hoff : pageOff (linkPage t p) < 2147483648) (hon : linkPage t p < 16 * n)
    (ht : t ≠ .unmarked) : ∃ w₁, Turn Listing.GoesOn (listTurn t) w w₁ ∧
      WalkAt d n t w₁ (p / 16 :: seen) ∧
      w₁.freeBlockPtr = (d.page (linkPage t p)).nextLogBlock ∧
      w₁.tool.page.nextLogBlock = w₁.freeBlockPtr ∧ w₁.previous = p ∧
      reportsOf w₁.printed = reportsOf w.printed := by
  obtain ⟨w₁, hturn, hrun, hprev, htool, hnext, hrep⟩ := h.turn hptr hp hlt hnew
  have hstore : SameStore d (w.tool.mark t p).nand := h.store
  have hmarks : MarksOf (w.tool.mark t p) n (p / 16 :: seen) := h.marks.mark ht p
  obtain ⟨hstore₁, hlink⟩ := getNextLogBlock_on hs hstore hoff hon
  refine ⟨w₁, hturn, ⟨htool ▸ hstore₁, ?_, hrun, ?_, ?_⟩, hnext.trans hlink, ?_, hprev, hrep⟩
  · rw [htool]
    exact h.superBlock
  · rw [hnext, hlink]
    exact .link hp (hptr ▸ h.followed) hon
  · rw [htool]
    exact hmarks
  · rw [htool, hnext]
    rfl

/-- Where it is not, the walk takes the link read before: none at the first node, and at
    any other the one that led to it, so that it stops there as at a cycle. -/
theorem WalkAt.past (h : WalkAt d n t w seen) (hs : d.Sound n) (hptr : w.freeBlockPtr = p)
    (hp : 0 < p) (hlt : p < 16 * n) (hnew : p / 16 ∉ seen)
    (hoff : pageOff (linkPage t p) < 2147483648) (hon : 16 * n ≤ linkPage t p)
    (ht : t ≠ .unmarked) (first : Bool)
    (hpage : w.tool.page.nextLogBlock = if first then 0 else w.freeBlockPtr) :
    ∃ w', loop Listing.GoesOn (listTurn t) .fuel 2 w = .ok w' ∧
      WalkEnd d n w [p] seen (!first) w' := by
  obtain ⟨w₁, hturn, hrun, hprev, htool, hnext, hrep⟩ := h.turn hptr hp hlt hnew
  have hstore : SameStore d (w.tool.mark t p).nand := h.store
  have hmarks : MarksOf (w.tool.mark t p) n (p / 16 :: seen) := h.marks.mark ht p
  rw [getNextLogBlock_past hs hstore hoff hon] at htool hnext
  have hstore₁ : SameStore d w₁.tool.nand := htool ▸ hstore
  have hsuper₁ : w₁.tool.superBlock = (init d).superBlock := htool ▸ h.superBlock
  have hmarks₁ : MarksOf w₁.tool n (p / 16 :: seen) := htool ▸ hmarks
  have hnext' : w₁.freeBlockPtr = if first then 0 else w.freeBlockPtr := hnext.trans hpage
  cases first with
  | true =>
    have hend : WalkEnd d n w₁ [] (p / 16 :: seen) false w₁ :=
      ⟨hstore₁, hsuper₁, rfl, hmarks₁, (List.append_nil _).symm⟩
    have h0 : w₁.freeBlockPtr = 0 := hnext'
    exact ⟨w₁, (loop_turn hturn).trans (loop_of_not fun hgo => hgo.1 h0), hend.cons hprev hrep⟩
  | false =>
    have hsame : w₁.freeBlockPtr = p := hnext'.trans hptr
    have hfollowed : Followed d n t (p : Int) := hptr ▸ h.followed
    have hat : WalkAt d n t w₁ (p / 16 :: seen) :=
      ⟨hstore₁, hsuper₁, hrun, hsame ▸ hfollowed, hmarks₁⟩
    obtain ⟨w', hw', hend⟩ := hat.stop ht hsame hp hlt List.mem_cons_self 0
    exact ⟨w', (loop_turn hturn).trans hw', hend.cons hprev hrep⟩

/-- **The walk is the pass** over the list, from wherever it is. It reports a cycle if the
    pass comes to a node, and also if the link of a node is not on the device; but there
    `first` says that the node it is at has none before it, whose link it would take. -/
theorem walk_run (hs : d.Sound n) (hin : LinksInRange d n) (ht : t ≠ .unmarked) (first : Bool)
    (h : WalkAt d n t w seen)
    (hpass : Pass (nextNode d n t) (· / 16) seen (ofLink w.freeBlockPtr) l q)
    (hpage : t = .completelyFree →
      w.tool.page.nextLogBlock = if first then 0 else w.freeBlockPtr) :
    ∃ w' c, loop Listing.GoesOn (listTurn t) .fuel (l.length + 1) w = .ok w' ∧
      WalkEnd d n w l seen c w' ∧
      (c = true ↔ q ≠ none ∨ ∃ p ∈ if first then l.tail else l, 16 * n ≤ linkPage t p) := by
  induction l generalizing w seen first with
  | nil =>
    obtain ⟨rfl, hseen⟩ := hpass
    rcases hin.range t _ h.followed with h0 | ⟨hpos, hlt⟩
    · refine ⟨w, false, loop_of_not fun hgo => hgo.1 h0, h.over, ?_⟩
      simp [h0]
    · obtain ⟨p, hp⟩ := Int.eq_ofNat_of_zero_le (le_of_lt hpos)
      have hlink : ofLink w.freeBlockPtr = some p := by rw [hp]; exact ofLink_nat (by omega)
      obtain ⟨w', hw', hend⟩ := h.stop ht hp (by omega) (by omega) (hseen p hlink) 0
      refine ⟨w', true, hw', hend, ?_⟩
      simp [hlink]
  | cons p l ih =>
    obtain ⟨hptr, hnew, hrest⟩ := hpass
    have hptr0 : w.freeBlockPtr ≠ 0 := fun h0 => by simp [h0] at hptr
    obtain ⟨hpos, hlt⟩ := (hin.range t _ h.followed).resolve_left hptr0
    obtain ⟨p', hp'⟩ := Int.eq_ofNat_of_zero_le (le_of_lt hpos)
    rw [hp', ofLink_nat (by omega), Option.some.injEq] at hptr
    subst hptr
    have hoff := hin.offset t p' (hp' ▸ h.followed)
    by_cases hon : linkPage t p' < 16 * n
    · -- the link is read, and the walk goes on with the pass
      obtain ⟨w₁, hturn, hat, hlink, hpage₁, hprev, hrep⟩ :=
        h.follow hs hp' (by omega) (by omega) hnew hoff hon ht
      have hpass₁ : Pass (nextNode d n t) (· / 16) (p' / 16 :: seen)
          (ofLink w₁.freeBlockPtr) l q := by
        rw [hlink]
        rw [nextNode, if_pos hon] at hrest
        exact hrest
      obtain ⟨w', c, hw', hend, hc⟩ := ih false hat hpass₁ fun _ => hpage₁
      refine ⟨w', c, (loop_turn hturn).trans hw', hend.cons hprev hrep, hc.trans ?_⟩
      cases first <;> simp [not_le.mpr hon]
    · -- the list ends here
      rw [not_lt] at hon
      rw [nextNode, if_neg (by omega)] at hrest
      have ht' : t = .completelyFree := by
        by_contra hne
        rw [linkPage, if_neg hne] at hon
        omega
      have hl : l = [] ∧ q = none := by
        cases l with
        | nil => exact ⟨rfl, hrest.1⟩
        | cons a l => cases hrest.1
      obtain ⟨rfl, rfl⟩ := hl
      obtain ⟨w', hw', hend⟩ :=
        h.past hs hp' (by omega) (by omega) hnew hoff hon ht first (hpage ht')
      refine ⟨w', !first, hw', hend, ?_⟩
      cases first <;> simp [hon]

theorem showFreeList_reports (hs : d.Sound n) (hin : LinksInRange d n) (ht : t ≠ .unmarked)
    (hstore : SameStore d v.nand) (hsuper : v.superBlock = (init d).superBlock)
    (hmarks : MarksOf v n seen) (hpage : t = .completelyFree → v.page.nextLogBlock = 0)
    (hpass : Pass (nextNode d n t) (· / 16) seen (ofLink ((init d).getFreeListHead t)) l q)
    {fuel : Nat} (hfuel : l.length < fuel) :
    ∃ v' out c, v.showFreeList t fuel = .ok (v', out) ∧ SameStore d v'.nand ∧
      v'.superBlock = (init d).superBlock ∧ MarksOf v' n (l.map (· / 16) ++ seen) ∧
      (c = true ↔ q ≠ none ∨ ∃ p ∈ l.tail, 16 * n ≤ linkPage t p) ∧
      reportsOf out = (if c then [.cycle] else []) ++
        if v.isValidTail (lastNode l) t then [] else [.invalidTail] := by
  have hhead : v.getFreeListHead t = (init d).getFreeListHead t := by
    rw [getFreeListHead, hsuper]
    rfl
  have hat : WalkAt d n t (v.listStart t) seen :=
    ⟨hstore, hsuper, rfl, by rw [listStart, hhead]; exact .head, hmarks⟩
  obtain ⟨w, c, hw, hend, hc⟩ := walk_run hs hin ht true hat
    (by rw [listStart, hhead]; exact hpass) hpage
  have hprevious : w.previous = lastNode l := hend.previous
  have hvalid : w.tool.isValidTail w.previous t = v.isValidTail (lastNode l) t := by
    rw [hprevious, isValidTail, isValidTail, hend.superBlock, hsuper]
  let tail : List Printed := if v.isValidTail (lastNode l) t then [] else [.invalidTail]
  have hok : v.showFreeList t fuel = .ok (w.tool, w.printed ++ tail ++ [.blank]) := by
    rw [showFreeList, loop_mono hw hfuel, ok_bind, hvalid]
  have htail : reportsOf tail = tail := by
    simp only [tail]
    split <;> rfl
  refine ⟨w.tool, _, c, hok, hend.store, hend.superBlock, hend.marks, hc, ?_⟩
  have hblank : reportsOf [.blank] = [] := rfl
  have hnone : reportsOf (v.listStart t).printed = [] := rfl
  rw [reportsOf_append, reportsOf_append, hend.reports, htail, hblank, hnone, List.nil_append,
    List.append_nil]

/-! ## The reports -/

theorem LinksInRange.node (hin : LinksInRange d n) {link : Int} (h : Followed d n t link)
    (hp : ofLink link = some p) : link = p ∧ 0 < p ∧ p < 16 * n := by
  have h0 : link ≠ 0 := fun h0 => by simp [h0] at hp
  obtain ⟨hpos, hlt⟩ := (hin.range t link h).resolve_left h0
  obtain ⟨k, rfl⟩ := Int.eq_ofNat_of_zero_le (le_of_lt hpos)
  rw [ofLink_nat (by omega), Option.some.injEq] at hp
  omega

theorem LinksInRange.leads (hin : LinksInRange d n) {a b : Nat} (ha : Followed d n t a)
    (ha0 : 0 < a) (hab : Relation.ReflTransGen (Link (nextNode d n t)) a b) :
    Followed d n t b ∧ 0 < b := by
  induction hab with
  | refl => exact ⟨ha, ha0⟩
  | tail _ hlast ih =>
    unfold Link nextNode at hlast
    split at hlast
    · rename_i hon
      have hlink := Followed.link ih.2 ih.1 hon
      obtain ⟨heq, hpos, -⟩ := hin.node hlink hlast
      exact ⟨heq ▸ hlink, hpos⟩
    · cases hlast

theorem LinksInRange.exists_pass (hin : LinksInRange d n) (t : BlockMark) (seen : List Nat) :
    ∃ l q, Pass (nextNode d n t) (· / 16) seen (ofLink ((init d).getFreeListHead t)) l q := by
  refine Pass.exists_of_finite (Finset.range n) fun a ha b hab => .inl ?_
  obtain ⟨heq, hpos, -⟩ := hin.node .head ha
  obtain ⟨hb, hb0⟩ := hin.leads (heq ▸ Followed.head) hpos hab
  have hlt := hin.range t b hb
  exact Finset.mem_range.mpr (by omega)

theorem LinksInRange.pass_range (hin : LinksInRange d n)
    (h : Pass (nextNode d n t) (· / 16) seen (ofLink ((init d).getFreeListHead t)) l q)
    (hp : p ∈ l) : 0 < p ∧ p < 16 * n := by
  obtain ⟨a, ha, hap⟩ := h.leads hp
  obtain ⟨heq, hpos, -⟩ := hin.node .head ha
  obtain ⟨hb, hb0⟩ := hin.leads (heq ▸ Followed.head) hpos hap
  have hlt := hin.range t p hb
  omega

theorem LinksInRange.pass_length (hin : LinksInRange d n)
    (h : Pass (nextNode d n t) (· / 16) seen (ofLink ((init d).getFreeListHead t)) l q) :
    l.length < n + 1 := by
  have hsub : l.map (· / 16) ⊆ List.range n := by
    intro b hb
    obtain ⟨p, hp, rfl⟩ := List.mem_map.mp hb
    have hlt := (hin.pass_range h hp).2
    exact List.mem_range.mpr (by omega)
  have hle := (List.subperm_of_subset h.nodup.1 hsub).length_le
  rw [List.length_map, List.length_range] at hle
  omega

end

/-- A report of each kind is printed exactly if it is so. -/
structure Diagnosed (out : List Printed) (cycle both badTail : Prop) : Prop where
  cycle : Printed.cycle ∈ out ↔ cycle
  both : Printed.bothLists ∈ out ↔ both
  tail : Printed.invalidTail ∈ out ↔ badTail

/-- What was printed of the two lists is exact. -/
def Exact (d : Nand) (cs : List Nat) (cend : Option Nat) (ps : List Nat) (pend : Option Nat)
    (out₁ out₂ : List Printed) : Prop :=
  Diagnosed out₁ (∃ p, cend = some p) False
    ((init d).superBlock.freeLists.completeTail ≠ lastNode cs) ∧
  Diagnosed out₂ (∃ p, pend = some p ∧ p / 16 ∈ ps.map (· / 16))
    (∃ p, pend = some p ∧ p / 16 ∈ cs.map (· / 16))
    ((init d).superBlock.freeLists.partialTail ≠ lastNode ps)

/-- None of the ways to a wrong report is taken. -/
structure Plain (d : Nand) (n : Nat) (cs ps : List Nat) (pend : Option Nat) : Prop where
  apart : ∀ p, pend = some p → p / 16 ∉ cs.map (· / 16)
  completeTail : cs = [] → (init d).superBlock.freeLists.completeTail = 0
  partialTail : ps = [] → (init d).superBlock.freeLists.partialTail = 0
  linkPages : ∀ p ∈ cs.tail, p + 15 < 16 * n

section
variable {d : Nand} {n : Nat} {out : List Printed}

theorem diagnosed_of_reports {c ok : Bool}
    (h : reportsOf out = (if c then [.cycle] else []) ++ if ok then [] else [.invalidTail]) :
    Diagnosed out (c = true) False (ok = false) := by
  have hmem : ∀ x ∈ [Printed.cycle, .bothLists, .invalidTail], x ∈ out ↔ x ∈ reportsOf out := by
    intro x hx
    rw [reportsOf, List.mem_filter, decide_eq_true_iff]
    exact ⟨fun hout => ⟨hout, hx⟩, And.left⟩
  refine ⟨?_, ?_, ?_⟩
  · rw [hmem _ (by simp), h]
    cases c <;> cases ok <;> decide
  · rw [hmem _ (by simp), h]
    cases c <;> cases ok <;> decide
  · rw [hmem _ (by simp), h]
    cases c <;> cases ok <;> decide

theorem Diagnosed.iff {cycle both badTail cycle' both' badTail' : Prop}
    (h : Diagnosed out cycle both badTail) : Diagnosed out cycle' both' badTail' ↔
      (cycle ↔ cycle') ∧ (both ↔ both') ∧ (badTail ↔ badTail') :=
  ⟨fun h' => ⟨h.cycle.symm.trans h'.cycle, h.both.symm.trans h'.both, h.tail.symm.trans h'.tail⟩,
    fun ⟨hc, hb, ht⟩ => ⟨h.cycle.trans hc, h.both.trans hb, h.tail.trans ht⟩⟩

theorem Passes.unique {cs cs' ps ps' : List Nat} {cend cend' pend pend' : Option Nat}
    (h : Passes d n cs cend ps pend) (h' : Passes d n cs' cend' ps' pend') :
    cs = cs' ∧ cend = cend' ∧ ps = ps' ∧ pend = pend' := by
  obtain ⟨rfl, rfl⟩ := h.complete.unique h'.complete
  obtain ⟨rfl, rfl⟩ := h.second.unique h'.second
  exact ⟨rfl, rfl, rfl, rfl⟩

theorem isValidTail_eq_false {v : ShowNand} {t : BlockMark} {previous : Int} :
    v.isValidTail previous t = false ↔ previous ≠ 0 ∧
      (if t = .completelyFree then v.superBlock.freeLists.completeTail
        else v.superBlock.freeLists.partialTail) ≠ previous := by
  unfold isValidTail
  split
  · rename_i h0
    split <;> simp [h0, eq_comm]
  · rename_i h0
    simp [h0]

theorem showFreeLists_reports (hs : d.Sound n) (hin : LinksInRange d n) :
    ∃ cs cend ps pend v₁ out₁ v₂ out₂, Passes d n cs cend ps pend ∧
      (init d).showFreeList .completelyFree (n + 1) = .ok (v₁, out₁) ∧
      v₁.showFreeList .partiallyFree (n + 1) = .ok (v₂, out₂) ∧
      Diagnosed out₁ ((∃ p, cend = some p) ∨ ∃ p ∈ cs.tail, 16 * n ≤ p + 15) False
        (lastNode cs ≠ 0 ∧ (init d).superBlock.freeLists.completeTail ≠ lastNode cs) ∧
      Diagnosed out₂ (∃ p, pend = some p) False
        (lastNode ps ≠ 0 ∧ (init d).superBlock.freeLists.partialTail ≠ lastNode ps) := by
  have hmarks : MarksOf (init d) n [] := by
    rw [MarksOf, blockStat_init, hs.numBlocks, Int.toNat_natCast, List.length_replicate]
    refine ⟨rfl, fun b hb => ?_⟩
    rw [List.getElem?_replicate, if_pos hb]
    simp
  obtain ⟨cs, cend, hcs⟩ := hin.exists_pass .completelyFree []
  obtain ⟨ps, pend, hps⟩ := hin.exists_pass .partiallyFree (cs.map (· / 16))
  obtain ⟨v₁, out₁, c₁, h₁, hstore₁, hsuper₁, hmarks₁, hc₁, hrep₁⟩ :=
    showFreeList_reports hs hin (by decide) (sameStore_init d) rfl hmarks
      (fun _ => Buf.int_zero _) hcs (hin.pass_length hcs)
  rw [List.append_nil] at hmarks₁
  obtain ⟨v₂, out₂, c₂, h₂, -, -, -, hc₂, hrep₂⟩ :=
    showFreeList_reports (t := .partiallyFree) hs hin (by decide) hstore₁ hsuper₁ hmarks₁ nofun
      hps (hin.pass_length hps)
  refine ⟨cs, cend, ps, pend, v₁, out₁, v₂, out₂, ⟨hcs, hps⟩, h₁, h₂,
    (diagnosed_of_reports hrep₁).iff.mpr ⟨?_, Iff.rfl, ?_⟩,
    (diagnosed_of_reports hrep₂).iff.mpr ⟨?_, Iff.rfl, ?_⟩⟩
  · rw [hc₁, Option.ne_none_iff_exists']
    rfl
  · exact isValidTail_eq_false
  · rw [hc₂, Option.ne_none_iff_exists', or_iff_left]
    -- the page of a link is the node itself
    rintro ⟨p, hp, hge⟩
    have hlt := (hin.pass_range hps (List.mem_of_mem_tail hp)).2
    rw [linkPage, if_neg (by decide)] at hge
    omega
  · rw [isValidTail_eq_false, hsuper₁]
    rfl

theorem lastNode_eq_zero {l : List Nat} (hpos : ∀ p ∈ l, 0 < p) : lastNode l = 0 ↔ l = [] := by
  rcases List.eq_nil_or_concat l with rfl | ⟨l, p, rfl⟩
  · simp [lastNode]
  · have hp := hpos p (by simp)
    simp only [lastNode, List.concat_eq_append, List.getLast?_append, List.getLast?_singleton,
      Option.some_or, Option.map_some, Option.getD_some, List.append_eq_nil_iff,
      List.cons_ne_self, and_false, iff_false]
    omega

end

/-- **What `showNAND` reports of the free lists** of an image whose links are in range is
    exact if and only if the second list comes to no block of the first, a list without
    nodes has no tail recorded, and no node of the first list after its head has a link page
    past the device. -/
theorem showFreeLists_exact_iff {d : Nand} {n : Nat} (hs : d.Sound n) (hin : LinksInRange d n) :
    ∃ cs cend ps pend v₁ out₁ v₂ out₂, Passes d n cs cend ps pend ∧
      (init d).showFreeList .completelyFree (n + 1) = .ok (v₁, out₁) ∧
      v₁.showFreeList .partiallyFree (n + 1) = .ok (v₂, out₂) ∧
      (Exact d cs cend ps pend out₁ out₂ ↔ Plain d n cs ps pend) := by
  obtain ⟨cs, cend, ps, pend, v₁, out₁, v₂, out₂, hpass, h₁, h₂, hd₁, hd₂⟩ :=
    showFreeLists_reports hs hin
  refine ⟨cs, cend, ps, pend, v₁, out₁, v₂, out₂, hpass, h₁, h₂, ?_⟩
  have hcs := lastNode_eq_zero fun p hp => (hin.pass_range hpass.complete hp).1
  have hps := lastNode_eq_zero fun p hp => (hin.pass_range hpass.second hp).1
  have hpend : ∀ p, pend = some p → p / 16 ∈ ps.map (· / 16) ∨ p / 16 ∈ cs.map (· / 16) :=
    fun p hp => hpass.second.key_mem hp
  have hfresh : ∀ p, p / 16 ∈ ps.map (· / 16) → p / 16 ∉ cs.map (· / 16) := by
    intro p hp
    obtain ⟨a, ha, heq⟩ := List.mem_map.mp hp
    exact heq ▸ hpass.second.nodup.2 a ha
  rw [Exact, hd₁.iff, hd₂.iff]
  constructor
  · rintro ⟨⟨hcycle, -, htail₁⟩, -, hboth, htail₂⟩
    refine ⟨fun p hp hmem => hboth.mpr ⟨p, hp, hmem⟩, fun hnil => ?_, fun hnil => ?_,
      fun p hp => ?_⟩
    · by_contra hne
      rw [← hcs.mpr hnil] at hne
      exact (htail₁.mpr hne).1 (hcs.mpr hnil)
    · by_contra hne
      rw [← hps.mpr hnil] at hne
      exact (htail₂.mpr hne).1 (hps.mpr hnil)
    · by_contra hge
      obtain ⟨a, ha⟩ := hcycle.mp (.inr ⟨p, hp, not_lt.mp hge⟩)
      have hnone : nextNode d n .completelyFree p = none := if_neg hge
      rw [hpass.complete.eq_none (List.mem_of_mem_tail hp) hnone] at ha
      cases ha
  · rintro ⟨hapart, htail₁, htail₂, hpages⟩
    refine ⟨⟨or_iff_left ?_, Iff.rfl, ?_⟩, ?_, ?_, ?_⟩
    · rintro ⟨p, hp, hge⟩
      have hlt := hpages p hp
      omega
    · refine and_iff_right_of_imp fun hne h0 => hne ?_
      rw [htail₁ (hcs.mp h0), h0]
    · exact exists_congr fun p => ⟨fun hp =>
        ⟨hp, (hpend p hp).resolve_right (hapart p hp)⟩, And.left⟩
    · exact ⟨False.elim, fun ⟨p, hp, hmem⟩ => hapart p hp hmem⟩
    · refine and_iff_right_of_imp fun hne h0 => hne ?_
      rw [htail₂ (hps.mp h0), h0]

theorem linksInRange_imageWith {lists : FreeList}
    (hcomplete : lists.completeHead = 0 ∨ 0 < lists.completeHead ∧ lists.completeHead < 48)
    (hsecond : lists.partialHead = 0 ∨ 0 < lists.partialHead ∧ lists.partialHead < 48) :
    LinksInRange (imageWith lists) 3 := by
  have hrange : ∀ t q, Followed (imageWith lists) 3 t q → q = 0 ∨ 0 < q ∧ q < 16 * (3 : Nat) := by
    intro t q hq
    cases hq with
    | head =>
      rw [getFreeListHead, lists_imageWith]
      split
      · exact hcomplete
      · exact hsecond
    | link hp h hlt => exact .inl (link_imageWith lists _)
  refine ⟨hrange, fun t p hp => ?_⟩
  have hlt : p < 48 := by
    rcases hrange t p hp with h0 | ⟨-, hlt⟩ <;> omega
  unfold linkPage pageOff
  split <;> omega

theorem nextNode_imageWith {lists : FreeList} (n : Nat) (t : BlockMark) (p : Nat) :
    nextNode (imageWith lists) n t p = none := by
  unfold nextNode
  split
  · rw [link_imageWith, ofLink_zero]
  · rfl

/-- Block 2 is on the complete list, and page 17 on the other. -/
def listedImage : Nand :=
  imageWith (FreeList.setCompleteTail (FreeList.setCompleteHead
    (FreeList.setPartialTail (FreeList.setPartialHead (Buf.zero 24) 17) 17) 32) 32)

theorem passes_listedImage : Passes listedImage 3 [32] none [17] none := by
  unfold listedImage
  refine ⟨⟨?_, by decide, (nextNode_imageWith _ _ _).symm, nofun⟩,
    ⟨?_, by decide, (nextNode_imageWith _ _ _).symm, nofun⟩⟩
  · rw [lists_imageWith]
    decide
  · rw [lists_imageWith]
    decide

theorem showFreeLists_exact_listedImage : ∃ v₁ out₁ v₂ out₂,
    (init listedImage).showFreeList .completelyFree 4 = .ok (v₁, out₁) ∧
    v₁.showFreeList .partiallyFree 4 = .ok (v₂, out₂) ∧
    Exact listedImage [32] none [17] none out₁ out₂ := by
  obtain ⟨cs, cend, ps, pend, v₁, out₁, v₂, out₂, hpass, h₁, h₂, hiff⟩ :=
    showFreeLists_exact_iff (d := listedImage) (sound_imageWith _)
      (linksInRange_imageWith (by decide) (by decide))
  obtain ⟨rfl, rfl, rfl, rfl⟩ := hpass.unique passes_listedImage
  exact ⟨v₁, out₁, v₂, out₂, h₁, h₂, hiff.mpr ⟨nofun, nofun, nofun, nofun⟩⟩

theorem passes_crossLinked : Passes crossLinked 3 [32] none [] (some 32) := by
  unfold crossLinked
  refine ⟨⟨?_, by decide, (nextNode_imageWith _ _ _).symm, nofun⟩, ⟨?_, ?_⟩⟩
  · rw [lists_imageWith]
    decide
  · rw [lists_imageWith]
    decide
  · rw [lists_imageWith]
    decide

/-- The block both lists start at is not reported to be on both. -/
theorem crossLinked_reported_as_cycle :
    LinksInRange crossLinked 3 ∧ Passes crossLinked 3 [32] none [] (some 32) ∧
    ∃ v₁ out₁ v₂ out₂,
      (init crossLinked).showFreeList .completelyFree 4 = .ok (v₁, out₁) ∧
      v₁.showFreeList .partiallyFree 4 = .ok (v₂, out₂) ∧
      ¬ Exact crossLinked [32] none [] (some 32) out₁ out₂ := by
  have hin : LinksInRange crossLinked 3 := linksInRange_imageWith (by decide) (by decide)
  obtain ⟨cs, cend, ps, pend, v₁, out₁, v₂, out₂, hpass, h₁, h₂, -, hdiagnosed⟩ :=
    showFreeLists_reports (sound_imageWith _) hin
  obtain ⟨rfl, rfl, rfl, rfl⟩ := hpass.unique passes_crossLinked
  refine ⟨hin, passes_crossLinked, v₁, out₁, v₂, out₂, h₁, h₂, fun hexact => ?_⟩
  exact hdiagnosed.both.mp (hexact.2.both.mpr ⟨32, rfl, by decide⟩)

end Cycology.ShowNand
