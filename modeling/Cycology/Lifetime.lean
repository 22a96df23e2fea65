import Cycology.Removal
import Cycology.Lib.Journal

/- The life of a file system: callbacks, unmounts and crashes in any order.

   A mount reads the free lists and the address map that `xmp_destroy` last wrote; a
   mount after a crash finds old ones. The headers of the files created in between are
   still on the device, and the next creates are given the same slots and pages again.
   Since the device takes a page once, the header of a file is always the first that was
   written for it. So the file system is a journal of headers: a create puts the header
   of the next file, an unmount saves how many files there are (`mounted_run`).

   Correspondence (callbacks ↔ journal):
     `xmp_create`                              ↔ `put`
     `xmp_create` that fails to open its stub  ↔ `skip`
     `xmp_destroy`, then `xmp_init`            ↔ `save`
     `xmp_init` without `xmp_destroy`          ↔ `crash`

   Releases that write a header, and unlinks that recycle a log, are not part of the
   runs here. -/
namespace Cycology
open ByteMem LinkedChain Nand Runs Journals

/-! ## What happens to a file system -/

/-- A callback, or a mount of the device: after an unmount, or after a crash. -/
inductive LifeOp where
  | call (op : VfsOp)
  | remount (frame : Block) (mem : CYCstate)
  | crash (frame : Block) (mem : CYCstate)

/-- A mount of what `d` left in its file. The stub files are still there. -/
def mountAgain (w : Session) (d : Nand) (frame : Block) (mem : CYCstate) : Session :=
  { w with
    state := xmpInit d.file frame { mem with stubs := w.state.stubs }
    handles := [] }

def LifeOp.run (w : Session) : LifeOp → Session
  | .call op => op.run w
  | .remount frame mem => mountAgain w (xmpDestroy w.state).nand frame mem
  | .crash frame mem => mountAgain w w.state.nand frame mem

/-- The block at the head of the partial list is not its last one, and two slots and
    one more are free. -/
structure Room (s : CYCstate) : Prop where
  block : s.lists.partialHead ≠ s.lists.partialTail
  slots : s.vaddrMap.freePtr + 2 < s.vaddrMap.size

/-- `xmp_release` of this handle writes a header. -/
def WritesHeader (s : CYCstate) (fh : Ptr) : Prop :=
  ((dropHandle s fh).openFiles fh).currentOpens = 0 ∧
    ((dropHandle s fh).openFiles (s.openFileTable (s.openFiles fh).inode.iFileNo)).modified = 1

/-- Creates find room, releases write no header, and an unlink is of a file that is
    open or has another link. -/
def LifeOp.Allowed (w : Session) : LifeOp → Prop
  | .call (.file (.create _ _ _ _)) => Room w.state
  | .call (.file (.open _ _)) => True
  | .call (.file (.release handle _)) => ¬ WritesHeader w.state handle.oFile
  | .call (.unlink path nlink _ _) =>
    ∀ id, w.state.stubs path = some id → 1 < nlink ∨ w.state.openFileTable id ≠ 0
  | .remount _ _ => True
  | .crash _ _ => True

/-- What an operation is to the journal. -/
def LifeOp.event : LifeOp → Option (Event UInt32)
  | .call (.file (.create _ mode _ errno)) => some (if errno = 0 then .put mode else .skip)
  | .call _ => none
  | .remount _ _ => some .save
  | .crash _ _ => some .crash

/-! ## The device and the mounted state -/

/-- The page with the header of file number `i`, on the `i`-th block handed out. -/
def headerPage (i : Nat) : Nat := 16 * (i + 2) + 1

/-- The free lists once `i` blocks were handed out. -/
structure ListsFrom (l : FreeList) (n i : Nat) : Prop where
  partialHead : l.partialHead = (16 * (2 + i) : Nat)
  partialTail : l.partialTail = (16 * (n - 1) : Nat)
  completeHead : l.completeHead = 0
  completeTail : l.completeTail = 0

/-- The address map once `i` files were created. -/
structure MapUpTo (m : AddrMap) (i : Nat) : Prop where
  slots : FreeSlots m 254 (2 * i + 1)
  none : m.map 0 = 0
  file : ∀ k < i, m.map (2 * k + 1) = (headerPage k : Nat)
  log : ∀ k < i, m.map (2 * k + 2) = (headerPage k : Nat)

/-- What `makefs` leaves on page `k` of a free block. -/
def freshPage (n k : Nat) : FullPage :=
  if k % 16 = 0 ∧ k / 16 + 1 < n then linkPage (k + 16) else Buf.zero 1048

/-- File number `i` has a header on the device. -/
structure HeaderStored (d : Nand) (i : Nat) (mode : UInt32) : Prop where
  written : d.nextPage (i + 2) = 2
  pageType : (d.page (headerPage i)).pageType = ptypeInode
  header : NewInode (LogHeader.ofPage (d.page (headerPage i))).fInode mode (2 * i + 1 : Nat)
    (2 * i + 2 : Nat)

/-- The device of `n` blocks holds the journal. -/
structure OnDevice (d : Nand) (n : Nat) (j : Journal UInt32) : Prop where
  sound : d.Sound n
  labelled : d.Labelled
  super : (superBlockOf d).latestVaddrMap = 16
  lists : ListsFrom (superBlockOf d).freeLists n j.saved
  map : MapUpTo (AddrMap.ofPage (d.page 16)) j.saved
  links : Chain (partialNext d) (some 32) (newPartialList n)
  fresh : ∀ k, 32 ≤ k → k % 16 ≠ 1 → d.page k = freshPage n k
  room : j.saved + 3 ≤ n ∧ j.saved ≤ 126
  stored : ∀ i mode, j.cells i = some mode → HeaderStored d i mode
  blank : ∀ i, i + 3 < n → j.cells i = none →
    d.nextPage (i + 2) = 1 ∧ d.page (headerPage i) = Buf.zero 1048

/-- The mounted state, and its device, stand for the journal. -/
structure Mounted (s : CYCstate) (n : Nat) (j : Journal UInt32) : Prop
    extends OnDevice s.nand n j where
  ordered : j.Ordered
  room' : j.next + 3 ≤ n ∧ j.next ≤ 126
  lists' : ListsFrom s.lists n j.next
  map' : MapUpTo s.vaddrMap j.next

/-! ## Lists and maps -/

theorem newPartialList_split {n i : Nat} (h : i + 2 ≤ n) :
    newPartialList n = (List.range' 2 i).map (16 * ·) ++ partialListFrom n i := by
  rw [newPartialList, partialListFrom, ← List.map_append, List.range'_append_1]
  congr 2
  omega

theorem ListsFrom.freeLists {d : Nand} {l : FreeList} {n i : Nat} (h : ListsFrom l n i)
    (hlinks : Chain (partialNext d) (some 32) (newPartialList n)) (hi : i + 3 ≤ n) :
    FreeLists d n l (partialListFrom n i) [] where
  partialChain := by
    rw [newPartialList_split (show i + 2 ≤ n by omega), partialListFrom_cons (by omega)] at hlinks
    rw [h.partialHead, ofLink_nat (by omega), partialListFrom_cons (by omega)]
    exact hlinks.suffix
  completeChain := by
    rw [h.completeHead]
    rfl
  inRange p hp := by
    simp only [partialListFrom, List.append_nil, List.mem_map, List.mem_range'_1] at hp
    obtain ⟨b, hb, rfl⟩ := hp
    omega
  room p hp := by
    simp only [partialListFrom, List.mem_map] at hp
    obtain ⟨b, -, rfl⟩ := hp
    omega
  apart := by
    rw [partialListFrom, List.append_nil, List.map_map]
    refine (@List.nodup_range' _ _ 1 (by omega)).map fun a b hab => ?_
    simp only [Function.comp_apply] at hab
    omega

theorem MapUpTo.congr {m m' : AddrMap} {i : Nat} (h : MapUpTo m i) (hi : i ≤ 126)
    (halloc : 1024 ≤ m'.alloc) (hints : ∀ o, o + 4 ≤ 1024 → m'.mem.int o = m.mem.int o) :
    MapUpTo m' i where
  slots :=
    { alloc := halloc
      fits := h.slots.fits
      size := (hints 0 (by omega)).trans h.slots.size
      freePtr := (hints 4 (by omega)).trans h.slots.freePtr
      chain := fun j hj hj' => (hints (8 + 4 * j) (by omega)).trans (h.slots.chain j hj hj')
      last := (hints (8 + 4 * (254 - 1)) (by omega)).trans h.slots.last }
  none := (hints 8 (by omega)).trans h.none
  file k hk := (hints (8 + 4 * (2 * k + 1)) (by omega)).trans (h.file k hk)
  log k hk := (hints (8 + 4 * (2 * k + 2)) (by omega)).trans (h.log k hk)

theorem MapUpTo.create {m : AddrMap} {i : Nat} (h : MapUpTo m i) (hi : i < 126) :
    MapUpTo (createdMap m (2 * i + 1) (2 * i + 2) (2 * i + 3) (headerPage i)) (i + 1) := by
  have hk : headerPage i < 2147483648 := by unfold headerPage; omega
  have hmap := map_createdMap (h.slots.hasSlots (show 2 * i + 1 + 2 < 254 by omega)) hk
  refine ⟨freeSlots_createdMap h.slots (by omega) hk, ?_, fun k hk' => ?_, fun k hk' => ?_⟩
  · rw [hmap, if_neg (by omega)]
    exact h.none
  · rw [hmap]
    by_cases hki : k = i
    · rw [if_pos (.inl (by rw [hki])), hki]
    · rw [if_neg (by omega)]
      exact h.file k (by omega)
  · rw [hmap]
    by_cases hki : k = i
    · rw [if_pos (.inr (by rw [hki])), hki]
    · rw [if_neg (by omega)]
      exact h.log k (by omega)

theorem MapUpTo.load {p : FullPage} {i : Nat} (h : MapUpTo (AddrMap.ofPage p) i) (hi : i ≤ 126) :
    MapUpTo (loadVaddrMap p) i := by
  refine h.congr hi ?_ fun o ho => int_loadVaddrMap h.slots.size (by omega) ho
  exact (freeSlots_loadVaddrMap h.slots (by omega) (by omega)).alloc

namespace OnDevice
variable {d d' : Nand} {n : Nat} {j j' : Journal UInt32}

theorem of_sameStore (h : OnDevice d n j) (hsame : SameStore d d') : OnDevice d' n j := by
  have hsuper : superBlockOf d' = superBlockOf d := by
    rw [superBlockOf, hsame.page, superBlockOf]
  refine ⟨hsame.sound h.sound, hsame.labelled h.labelled, ?_, ?_, ?_, ?_, fun k hk hk1 => ?_,
    h.room, fun i mode hi => ?_, fun i hi hnone => ?_⟩
  · rw [hsuper, h.super]
  · rw [hsuper]
    exact h.lists
  · rw [hsame.page]
    exact h.map
  · exact h.links.congr fun p _ => by rw [partialNext, hsame.page, partialNext]
  · rw [hsame.page, h.fresh k hk hk1]
  · obtain ⟨hwritten, htype, hheader⟩ := h.stored i mode hi
    exact ⟨by rw [hsame.nextPage, hwritten], by rw [hsame.page, htype],
      by rw [hsame.page]; exact hheader⟩
  · rw [hsame.nextPage, hsame.page]
    exact h.blank i hi hnone

theorem of_cells (h : OnDevice d n j) (hsaved : j'.saved = j.saved) (hcells : j'.cells = j.cells) :
    OnDevice d n j' := by
  refine ⟨h.sound, h.labelled, h.super, ?_, ?_, h.links, h.fresh, ?_, ?_, ?_⟩
  · rw [hsaved]
    exact h.lists
  · rw [hsaved]
    exact h.map
  · rw [hsaved]
    exact h.room
  · rw [hcells]
    exact h.stored
  · rw [hcells]
    exact h.blank

theorem links_congr (h : OnDevice d n j)
    (hpage : ∀ k, 32 ≤ k → k % 16 = 0 → d'.page k = d.page k) :
    Chain (partialNext d') (some 32) (newPartialList n) := by
  refine h.links.congr fun p hp => ?_
  simp only [newPartialList, List.mem_map, List.mem_range'_1] at hp
  obtain ⟨b, hb, rfl⟩ := hp
  rw [partialNext, hpage _ (by omega) (by omega), partialNext]

theorem put_again (h : OnDevice d n j) {i : Nat} (hi : i + 3 < n) {first : UInt32}
    (hfirst : j.cells i = some first) (page : FullPage) :
    SameStore d (writeNAND d page (headerPage i : Nat) 0).1 := by
  have hlt : headerPage i < 16 * n := by unfold headerPage; omega
  refine (writeNAND_refused h.sound page hlt fun ha => ?_).2
  have hptr := ha.resolve_left (by decide)
  rw [show headerPage i / 16 = i + 2 by unfold headerPage; omega, (h.stored i first hfirst).written,
    show headerPage i % 16 = 1 by unfold headerPage; omega] at hptr
  cases hptr

theorem put_first (h : OnDevice d n j) {i : Nat} (hi : i + 3 < n) (hnone : j.cells i = none)
    (page : FullPage) :
    (∀ k, (writeNAND d page (headerPage i : Nat) 0).1.page k =
      if k = headerPage i then page else d.page k) ∧
    ∀ b, (writeNAND d page (headerPage i : Nat) 0).1.nextPage b =
      if b = i + 2 then 2 else d.nextPage b := by
  have hlt : headerPage i < 16 * n := by unfold headerPage; omega
  have hblk : headerPage i / 16 = i + 2 := by unfold headerPage; omega
  have hptr := (h.blank i hi hnone).1
  have ha : d.Accepts (headerPage i) 0 := by
    refine .inr ?_
    rw [hblk, hptr, show headerPage i % 16 = 1 by unfold headerPage; omega]
    rfl
  refine ⟨page_writeNAND h.sound page hlt ha, fun b => ?_⟩
  rw [nextPage_writeNAND h.sound page hlt ha, hblk]
  by_cases hb : b = i + 2
  · rw [if_pos ⟨hb, rfl⟩, if_pos hb, hb, hptr]
    rfl
  · rw [if_neg fun hc => hb hc.1, if_neg hb]

theorem page_put (h : OnDevice d n j) {i : Nat} (hi : i + 3 < n) (page : FullPage) {k : Nat}
    (hk : k ≠ headerPage i) :
    (writeNAND d page (headerPage i : Nat) 0).1.page k = d.page k := by
  cases hcell : j.cells i with
  | some first => exact (h.put_again hi hcell page).page k
  | none => rw [(h.put_first hi hcell page).1, if_neg hk]

/-- **A header goes to the device**: only the first one of its number is taken. -/
theorem put (h : OnDevice d n j) (hi : j.next + 3 < n) {mode : UInt32} {page : FullPage}
    (htype : page.pageType = ptypeInode)
    (hpage : NewInode (LogHeader.ofPage page).fInode mode (2 * j.next + 1 : Nat)
      (2 * j.next + 2 : Nat)) :
    OnDevice (writeNAND d page (headerPage j.next : Nat) 0).1 n (j.step (.put mode)) := by
  have hlt : headerPage j.next < 16 * n := by unfold headerPage; omega
  have hk : 33 ≤ headerPage j.next ∧ headerPage j.next % 16 = 1 := by unfold headerPage; omega
  cases hcell : j.cells j.next with
  -- the device keeps the page it has, and the journal its record
  | some first =>
    refine (h.of_sameStore (h.put_again hi hcell page)).of_cells rfl ?_
    funext k
    rw [Journal.cells_step, Journal.putAt]
    split
    · rename_i hkn
      rw [← hkn, hcell]
      rfl
    · exact Option.or_none ..
  -- the page is written, and its block's write pointer moves behind it
  | none =>
    obtain ⟨hpages, hptrs⟩ := h.put_first hi hcell page
    have hsuper : superBlockOf (writeNAND d page (headerPage j.next : Nat) 0).1 =
        superBlockOf d := by
      rw [superBlockOf, hpages, if_neg (by omega), superBlockOf]
    refine ⟨sound_writeNAND h.sound page _ 0, labelled_writeNAND h.sound h.labelled page hlt 0,
      ?_, ?_, ?_, h.links_congr fun k _ hk0 => ?_, fun k hk32 hk1 => ?_, h.room,
      fun i first hi' => ?_, fun i hin hnone => ?_⟩
    · rw [hsuper, h.super]
    · rw [hsuper]
      exact h.lists
    · rw [hpages, if_neg (by omega)]
      exact h.map
    · rw [hpages, if_neg (by omega)]
    · rw [hpages, if_neg (by omega), h.fresh k hk32 hk1]
    · rw [Journal.cells_step, Journal.putAt] at hi'
      by_cases hin : i = j.next
      · rw [hin, hcell, if_pos rfl] at hi'
        obtain rfl := Option.some.inj hi'
        subst hin
        refine ⟨?_, ?_, ?_⟩
        · rw [hptrs, if_pos rfl]
        · rw [hpages, if_pos rfl, htype]
        · rw [hpages, if_pos rfl]
          exact hpage
      · rw [if_neg (Ne.symm hin), Option.or_none] at hi'
        obtain ⟨hwritten, htype', hheader⟩ := h.stored i first hi'
        refine ⟨?_, ?_, ?_⟩
        · rw [hptrs, if_neg (by omega), hwritten]
        · rw [hpages, if_neg (by unfold headerPage; omega), htype']
        · rw [hpages, if_neg (by unfold headerPage; omega)]
          exact hheader
    · rw [Journal.cells_step, Journal.putAt] at hnone
      by_cases hij : i = j.next
      · rw [hij, hcell, if_pos rfl] at hnone
        cases hnone
      · rw [if_neg (Ne.symm hij), Option.or_none] at hnone
        rw [hptrs, if_neg (by omega), hpages, if_neg (by unfold headerPage; omega)]
        exact h.blank i hin hnone

end OnDevice

/-! ## The callbacks -/

section
variable {s s' : CYCstate} {n : Nat} {j : Journal UInt32}

theorem Room.next_lt (hr : Room s) (h : Mounted s n j) : j.next + 3 < n ∧ j.next < 126 := by
  have hblock := hr.block
  have hslots := hr.slots
  obtain ⟨hn, -⟩ := h.room'
  rw [h.lists'.partialHead, h.lists'.partialTail] at hblock
  rw [h.map'.slots.freePtr, h.map'.slots.size] at hslots
  constructor
  · by_contra hge
    apply hblock
    congr 1
    omega
  · omega

/-- Up to the opening of the stub file a create takes the block at the head of the
    list and two slots, and leaves the device alone. -/
theorem Mounted.createOpenFile (h : Mounted s n j) (hr : Room s) (mode : UInt32)
    (mem : CreateMem) :
    SameStore s.nand (createOpenFile s mode mem).1.nand ∧
    ListsFrom (createOpenFile s mode mem).1.lists n (j.next + 1) ∧
    MapUpTo (createOpenFile s mode mem).1.vaddrMap (j.next + 1) ∧
    ((createOpenFile s mode mem).1.activeLogs (createOpenFile s mode mem).2.1).nextPage =
      (headerPage j.next : Nat) ∧
    NewInode ((createOpenFile s mode mem).1.activeLogs (createOpenFile s mode mem).2.1).log.fInode
      mode (2 * j.next + 1 : Nat) (2 * j.next + 2 : Nat) := by
  obtain ⟨hi, hi'⟩ := hr.next_lt h
  have hfits := h.sound.fits
  have hfree := h.lists'.freeLists h.links h.room'.1
  rw [partialListFrom_cons (by omega)] at hfree
  -- the link on the block's first page leads to the next block
  have hlink : (s.nand.page (16 * (2 + j.next))).nextLogBlock = (16 * (2 + (j.next + 1)) : Nat) := by
    have hchain := hfree.partialChain.2
    rw [partialListFrom_cons (show j.next + 1 + 2 < n by omega)] at hchain
    exact (ofLink_eq_some (by omega)).mp hchain.1
  obtain ⟨hsame, hlists, hpage, -⟩ := getFreeBlock_partial h.sound
    (show 0 < 16 * (2 + j.next) by omega) (show 16 * (2 + j.next) < 16 * n by omega)
    (show (1 : Int) ≠ 0 by decide) h.lists'.partialHead
  have hk : (getFreeBlock s.nand s.lists 1).freePage = (headerPage j.next : Nat) := by
    rw [hpage]
    unfold headerPage
    push_cast
    ring
  obtain ⟨hnand, hlists', hmap, hnext, -, hind⟩ := createOpenFile_spec mode mem
    (h.map'.slots.hasSlots (show 2 * j.next + 1 + 2 < 254 by omega)) hk
  refine ⟨?_, ?_, ?_, hnext, hind⟩
  · rw [hnand]
    exact hsame
  · rw [hlists', hlists, hlink]
    refine ⟨?_, ?_, ?_, ?_⟩
    · simp only [FreeList.fields_setPartialHeadErases, FreeList.fields_setPartialHead]
      exact cint_eq (by unfold IsInt; omega)
    · simp only [FreeList.fields_setPartialHeadErases, FreeList.fields_setPartialHead]
      exact h.lists'.partialTail
    · simp only [FreeList.fields_setPartialHeadErases, FreeList.fields_setPartialHead]
      exact h.lists'.completeHead
    · simp only [FreeList.fields_setPartialHeadErases, FreeList.fields_setPartialHead]
      exact h.lists'.completeTail
  · rw [hmap]
    exact h.map'.create hi'

/-- A create whose stub file cannot be opened passes over a number. -/
theorem Mounted.skip (h : Mounted s n j) (hr : Room s) (path : String) (mode : UInt32)
    (mem : CreateMem) {errno : Nat} (he : errno ≠ 0) :
    Mounted (xmpCreate s path mode mem errno).1 n (j.step .skip) := by
  obtain ⟨hi, hi'⟩ := hr.next_lt h
  obtain ⟨hsame, hlists, hmap, -⟩ := h.createOpenFile hr mode mem
  have heq : (xmpCreate s path mode mem errno).1 = (Cycology.createOpenFile s mode mem).1 := by
    simp only [xmpCreate, if_pos he]
  rw [heq]
  exact
    { (h.of_sameStore hsame).of_cells rfl rfl with
      ordered := Journal.ordered_step h.ordered .skip
      room' := ⟨Nat.lt_of_succ_le hi, hi'⟩
      lists' := hlists
      map' := hmap }

theorem writeNewHeader_page {theLog : Ptr} {k : Nat} (mem : FullPage) (hk : k < 2147483600)
    (h13 : k % 16 < 13) (hnext : (s.activeLogs theLog).nextPage = k) :
    ∃ page, page.pageType = ptypeInode ∧
      (LogHeader.ofPage page).fInode = (s.activeLogs theLog).log.fInode ∧
      (writeNewHeader s theLog mem).nand = (writeNAND s.nand page k 0).1 ∧
      (writeNewHeader s theLog mem).lists = s.lists ∧
      (writeNewHeader s theLog mem).vaddrMap = s.vaddrMap := by
  have heq : getFreePage s.nand s.lists (s.activeLogs theLog) mem = _ := getFreePage_eq hnext hk
  rw [if_neg (show ¬ k % 16 = 14 by omega), if_neg (show ¬ k % 16 = 15 by omega),
    if_neg (show ¬ k % 16 = 13 by omega)] at heq
  refine ⟨_, FullPage.pageType_setPageType _ (by decide) (by decide), ?_,
    by rw [writeNewHeader, heq], by rw [writeNewHeader, heq], by rw [writeNewHeader, heq]⟩
  rw [ofPage_setPageType, ActiveLog.movedTo, fInode_setActive]

theorem Mounted.create (h : Mounted s n j) (hr : Room s) (path : String) (mode : UInt32)
    (mem : CreateMem) :
    ∃ d page, OnDevice d n j ∧ SameStore s.nand d ∧ page.pageType = ptypeInode ∧
      NewInode (LogHeader.ofPage page).fInode mode (2 * j.next + 1 : Nat)
        (2 * j.next + 2 : Nat) ∧
      (xmpCreate s path mode mem 0).1.nand = (writeNAND d page (headerPage j.next : Nat) 0).1 ∧
      ListsFrom (xmpCreate s path mode mem 0).1.lists n (j.next + 1) ∧
      MapUpTo (xmpCreate s path mode mem 0).1.vaddrMap (j.next + 1) := by
  obtain ⟨hi, hi'⟩ := hr.next_lt h
  have hfits := h.sound.fits
  obtain ⟨hsame, hlists, hmap, hnext, hind⟩ := h.createOpenFile hr mode mem
  have hcreate : (xmpCreate s path mode mem 0).1 =
      writeNewHeader { (Cycology.createOpenFile s mode mem).1 with
        stubs := update (Cycology.createOpenFile s mode mem).1.stubs path
          (some (getFreePtr s.vaddrMap).1) } (Cycology.createOpenFile s mode mem).2.1 mem.page := rfl
  obtain ⟨page, htype, hpage, hnand, hlists', hmap'⟩ := writeNewHeader_page
    (s := { (Cycology.createOpenFile s mode mem).1 with
        stubs := update (Cycology.createOpenFile s mode mem).1.stubs path
          (some (getFreePtr s.vaddrMap).1) })
    mem.page (show headerPage j.next < 2147483600 by unfold headerPage; omega)
    (show headerPage j.next % 16 < 13 by unfold headerPage; omega) hnext
  rw [hcreate]
  exact ⟨_, page, h.of_sameStore hsame, hsame, htype, hpage ▸ hind, hnand, hlists' ▸ hlists,
    hmap' ▸ hmap⟩

/-- **A create** puts its header. -/
theorem Mounted.put (h : Mounted s n j) (hr : Room s) (path : String) (mode : UInt32)
    (mem : CreateMem) : Mounted (xmpCreate s path mode mem 0).1 n (j.step (.put mode)) := by
  obtain ⟨hi, hi'⟩ := hr.next_lt h
  obtain ⟨d, page, hd, -, htype, hpage, hnand, hlists, hmap⟩ := h.create hr path mode mem
  have hdevice := hd.put hi htype hpage
  rw [← hnand] at hdevice
  exact
    { hdevice with
      ordered := Journal.ordered_step h.ordered (.put mode)
      room' := ⟨Nat.lt_of_succ_le hi, hi'⟩
      lists' := hlists
      map' := hmap }

/-- The device, the lists and the address map are as they were. -/
structure Undisturbed (s s' : CYCstate) : Prop where
  nand : SameStore s.nand s'.nand
  lists : s'.lists = s.lists
  vaddrMap : s'.vaddrMap = s.vaddrMap

theorem Mounted.of_undisturbed (h : Mounted s n j) (hu : Undisturbed s s') : Mounted s' n j :=
  { h.toOnDevice.of_sameStore hu.nand with
    ordered := h.ordered
    room' := h.room'
    lists' := hu.lists ▸ h.lists'
    map' := hu.vaddrMap ▸ h.map' }

theorem undisturbed_xmpOpen (s : CYCstate) (path : String) (mem : OpenMem) :
    Undisturbed s (xmpOpen s path mem).1 := by
  have hfirst : ∀ id, Undisturbed s (openFirst s id mem).1 := by
    intro id
    refine ⟨?_, ?_, vaddrMap_openFirst id mem⟩
    -- up to two pages are read, and the log is a copy in memory
    · unfold openFirst openActiveLog
      dsimp only
      split
      · dsimp only
        split
        · exact (sameStore_readNAND _ _ _).trans (sameStore_readNAND _ _ _)
        · exact sameStore_readNAND _ _ _
      · exact sameStore_readNAND _ _ _
    · unfold openFirst openActiveLog
      dsimp only
      split <;> rfl
  unfold xmpOpen
  split
  · exact ⟨SameStore.refl _, rfl, rfl⟩
  · rename_i id _
    split
    · exact ⟨SameStore.refl _, rfl, rfl⟩
    · by_cases h0 : s.openFileTable id = 0
      · rw [if_pos h0]
        exact ⟨(hfirst id).nand, (hfirst id).lists, (hfirst id).vaddrMap⟩
      · rw [if_neg h0]
        exact ⟨SameStore.refl _, rfl, rfl⟩

theorem undisturbed_xmpRelease {fh : Ptr} (hw : ¬ WritesHeader s fh) (mem : FullPage) :
    Undisturbed s (xmpRelease s fh mem).1 := by
  have heq : (xmpRelease s fh mem).1 = dropHandle s fh := by
    unfold WritesHeader at hw
    unfold xmpRelease
    dsimp only
    rw [if_neg hw]
  rw [heq]
  exact ⟨SameStore.refl _, rfl, rfl⟩

theorem undisturbed_xmpUnlink {path : String} {nlink : Nat}
    (hkeep : ∀ id, s.stubs path = some id → 1 < nlink ∨ s.openFileTable id ≠ 0) (errno : Nat)
    (ret : Int) : Undisturbed s (xmpUnlink s path nlink errno ret).1 := by
  unfold xmpUnlink
  split
  · exact ⟨SameStore.refl _, rfl, rfl⟩
  · rename_i id hid
    have hkept := hkeep id hid
    split_ifs with hlinks herr hentry herr
    · exact ⟨SameStore.refl _, rfl, rfl⟩
    · exact ⟨SameStore.refl _, rfl, rfl⟩
    · exact absurd hentry (hkept.resolve_left hlinks)
    · exact absurd hentry (hkept.resolve_left hlinks)
    · exact ⟨SameStore.refl _, rfl, rfl⟩

end

/-! ## Mounts -/

section
variable {d : Nand} {s : CYCstate} {n : Nat} {j : Journal UInt32}

theorem map_zero_vaddrMapImage : (AddrMap.ofPage vaddrMapImage).map 0 = 0 := by
  have hsize : ((pageDataSize : Int) / 4 - 2) = ((254 : Nat) : Int) := rfl
  have halloc : (initVaddrMap (AddrMap.ofPage clearPage) ((254 : Nat) : Int)).alloc = 1024 :=
    alloc_initVaddrMap _ _
  rw [vaddrMapImage, hsize, ofPage_setContents _ _ halloc]
  have halloc' : (((AddrMap.ofPage clearPage).setSize (254 : Nat)).setFreePtr 1).alloc = 1024 := rfl
  have hsize' : (((AddrMap.ofPage clearPage).setSize (254 : Nat)).setFreePtr 1).size = 254 := by
    rw [AddrMap.size_setFreePtr, AddrMap.size_setSize _ (by decide)]
    rfl
  simp only [initVaddrMap, hsize', size_linkEntries]
  rw [AddrMap.map_setMap_other _ (by decide), map_linkEntries _ (by rw [halloc']; decide) (by decide),
    if_neg (by omega), AddrMap.map_setFreePtr]
  have hblank : (AddrMap.ofPage clearPage).map 0 = 0 := by
    rw [AddrMap.map, AddrMap.ofPage, clearPage, FullPage.contents, Buf.slice_zero, Buf.int_zero]
  rw [← hblank]
  exact Buf.int_setInt_other _ _ (by omega)

theorem Image.onDevice (h : Image d n) (hn : 3 ≤ n) : OnDevice d n (Journal.empty UInt32) := by
  have hfit := h.sound.fits
  have hsuper : superBlockOf d = newSuperBlock n := by
    rw [superBlockOf, h.super, ofPage_superImage]
  obtain ⟨hph, hpt, hch, hct⟩ := freeLists_newSuperBlock (show 1 ≤ n by omega) (by omega)
  have hmap : AddrMap.ofPage (d.page 16) = AddrMap.ofPage vaddrMapImage :=
    congrArg AddrMap.ofPage h.vaddrMap
  obtain ⟨count, hcount⟩ : ∃ count, n - 2 = count + 1 := ⟨n - 3, by omega⟩
  refine ⟨h.sound, h.labelled, ?_, ?_, ?_, ?_, fun k hk hk1 => ?_, ⟨hn, Nat.zero_le _⟩,
    fun i mode hi => ?_, fun i hi _ => ⟨?_, ?_⟩⟩
  · rw [hsuper, latestVaddrMap_newSuperBlock]
  · rw [hsuper]
    exact ⟨hph, hpt, hch, hct⟩
  · rw [hmap]
    exact ⟨freeSlots_vaddrMapImage, map_zero_vaddrMapImage,
      fun k hk => absurd hk (Nat.not_lt_zero k), fun k hk => absurd hk (Nat.not_lt_zero k)⟩
  · rw [newPartialList, hcount]
    exact h.partialChain count 2 (le_refl 2) (by omega)
  · rw [freshPage]
    split
    · rename_i hlink
      have hk16 : k = 16 * (k / 16) := by omega
      have hpage := h.link (k / 16) (by omega) hlink.2
      rwa [Nat.mul_add, ← hk16] at hpage
    · exact h.blank k (by omega)
  · cases hi
  · rw [h.nextPage, if_pos (by omega)]
  · exact h.blank _ (.inl (by unfold headerPage; omega))

theorem OnDevice.xmpInit (h : OnDevice d n j) (frame : Block) (mem : CYCstate) :
    SameStore d (xmpInit d.file frame mem).nand ∧
    (xmpInit d.file frame mem).lists = (superBlockOf d).freeLists ∧
    (xmpInit d.file frame mem).vaddrMap = loadVaddrMap (d.page 16) := by
  have hn := h.room.1
  have hinit := sameStore_initNAND h.sound h.labelled frame
  have hfound := h.of_sameStore hinit
  obtain ⟨hsame, hlists, hmap⟩ := initCYCstate_spec
    (show ({ mem with nand := initNAND d.file frame } : CYCstate).nand.Sound n from hfound.sound)
    (show 0 < n by omega) (show 16 < 16 * n by omega) hfound.super
  rw [hinit.page] at hlists hmap
  exact ⟨hinit.trans hsame, hlists, hmap⟩

/-- **A mount** finds what was saved. -/
theorem OnDevice.mount (h : OnDevice d n j) (frame : Block) (mem : CYCstate) :
    Mounted (Cycology.xmpInit d.file frame mem) n (j.step .crash) := by
  obtain ⟨hsame, hlists, hmap⟩ := h.xmpInit frame mem
  exact
    { (h.of_sameStore hsame).of_cells rfl rfl with
      ordered := le_refl _
      room' := h.room
      lists' := by
        rw [hlists]
        exact h.lists
      map' := by
        rw [hmap]
        exact h.map.load h.room.2 }

/-- **An unmount** saves how many files there are. -/
theorem Mounted.unmount (h : Mounted s n j) :
    OnDevice (xmpDestroy s).nand n (j.step .save) := by
  obtain ⟨hn, hi⟩ := h.room'
  -- pages 0 and 16 are written anew; links and headers are on later ones
  obtain ⟨hsound, hlab, hsuper, hints, hpages, hptrs, -⟩ := xmpDestroy_spec h.sound
    (show 0 < 16 by omega) (show 16 < 16 * n by omega) h.super
  have hbytes : AddrMap.bytesFor s.vaddrMap.size = 1024 := by
    rw [h.map'.slots.size]
    rfl
  rw [hbytes] at hints
  have hsuper' : superBlockOf (xmpDestroy s).nand = (superBlockOf s.nand).setFreeLists s.lists :=
    hsuper
  refine ⟨hsound, hlab h.labelled, ?_, ?_, ?_, h.links_congr fun k hk _ => hpages k ?_ ?_,
    fun k hk hk1 => ?_, h.room', fun i mode hcell => ?_, fun i hin hcell => ?_⟩
  · rw [hsuper', SuperPage.latestVaddrMap_setFreeLists, h.super]
  · rw [hsuper', SuperPage.freeLists_setFreeLists]
    exact h.lists'
  · exact h.map'.congr hi (le_refl 1024) fun o ho => hints o ho ho
  · omega
  · omega
  · rw [hpages k (by omega) (by omega), h.fresh k hk hk1]
  · obtain ⟨hwritten, htype, hheader⟩ := h.stored i mode hcell
    have hpage := hpages (headerPage i) (by unfold headerPage; omega) (by unfold headerPage; omega)
    exact ⟨(hptrs _).trans hwritten, by rw [hpage, htype], by rw [hpage]; exact hheader⟩
  · obtain ⟨hptr, hblank⟩ := h.blank i hin hcell
    refine ⟨(hptrs _).trans hptr, ?_⟩
    rw [hpages _ (by unfold headerPage; omega) (by unfold headerPage; omega)]
    exact hblank

end

/-! ## Runs -/

/-- A new file system of `d`, mounted, without handles. -/
def newSession (d : Nand) (frame : Block) (mem : CYCstate) : Session :=
  ⟨xmpInit (makefs d).1.file frame mem, [], []⟩

/-- The journal of a run. -/
def journalOf (ops : List LifeOp) : Journal UInt32 :=
  after Journal.step (Journal.empty UInt32) (ops.filterMap LifeOp.event)

section
variable {d : Nand} {w : Session} {n : Nat} {j : Journal UInt32} {ops : List LifeOp}
  {frame : Block} {mem : CYCstate}

theorem state_run_create (w : Session) (path : String) (mode : UInt32) (mem : CreateMem)
    (errno : Nat) : ((FileOp.create path mode mem errno).run w).state =
      (xmpCreate w.state path mode mem errno).1 := by
  unfold FileOp.run
  dsimp only
  split <;> rfl

theorem state_run_open (w : Session) (path : String) (mem : OpenMem) :
    ((FileOp.open path mem).run w).state = (xmpOpen w.state path mem).1 := by
  unfold FileOp.run
  dsimp only
  split <;> rfl

theorem Mounted.remount (h : Mounted w.state n j) (frame : Block) (mem : CYCstate) :
    Mounted ((LifeOp.remount frame mem).run w).state n (j.step .save) := by
  have hmount := h.unmount.mount frame { mem with stubs := w.state.stubs }
  rw [Journal.crash_save] at hmount
  exact hmount

theorem Mounted.crash (h : Mounted w.state n j) (frame : Block) (mem : CYCstate) :
    Mounted ((LifeOp.crash frame mem).run w).state n (j.step .crash) :=
  h.mount frame { mem with stubs := w.state.stubs }

theorem mounted_step (w : Session) (j : Journal UInt32) (op : LifeOp) (h : Mounted w.state n j)
    (ha : op.Allowed w) : Mounted (op.run w).state n (op.event.elim j j.step) := by
  cases op with
  | call op =>
    cases op with
    | file op =>
      cases op with
      | create path mode mem errno =>
        have hroom : Room w.state := ha
        show Mounted ((FileOp.create path mode mem errno).run w).state n
          (j.step (if errno = 0 then .put mode else .skip))
        rw [state_run_create]
        by_cases he : errno = 0
        · rw [if_pos he, he]
          exact h.put hroom path mode mem
        · rw [if_neg he]
          exact h.skip hroom path mode mem he
      | «open» path mem =>
        show Mounted ((FileOp.open path mem).run w).state n j
        rw [state_run_open]
        exact h.of_undisturbed (undisturbed_xmpOpen w.state path mem)
      | release handle mem => exact h.of_undisturbed (undisturbed_xmpRelease ha mem)
    | unlink path nlink errno ret =>
      exact h.of_undisturbed (undisturbed_xmpUnlink ha errno ret)
  | remount frame mem => exact h.remount frame mem
  | crash frame mem => exact h.crash frame mem

theorem mounted_newSession (hz : Zeroed d n) (hn : 3 ≤ n) :
    Mounted (newSession d frame mem).state n (Journal.empty UInt32) :=
  ((makefs_image hz hn).1.onDevice hn).mount frame mem

/-- **Every run is one of the journal.** -/
theorem mounted_run (hz : Zeroed d n) (hn : 3 ≤ n)
    (hall : EveryStep LifeOp.run LifeOp.Allowed (newSession d frame mem) ops) :
    Mounted (after LifeOp.run (newSession d frame mem) ops).state n (journalOf ops) :=
  hall.simulation (B := fun w j => Mounted w.state n j) mounted_step (mounted_newSession hz hn)

end

end Cycology
