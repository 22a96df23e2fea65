import Cycology.Lifetime

/- What a crash costs.

   A crash takes the mounted state back to the last unmount: the free lists and the
   address map are the old ones (`crash_rolls_back`). The device is not taken back. So
   the ids of the files lost are given out again, with the same pages, and these have a
   header already: the new file's is refused, and `xmp_create` does not notice
   (`create_stored_iff`). Whatever happens, the header found under an id is that of the
   first file created with it (`first_create_stays`). What was created under a new id
   and unmounted before a crash is safe for good (`created_durable`), and no block is
   lost or listed while a file has it (`listed_iff_unused`). -/
namespace Cycology
open ByteMem LinkedChain Nand Runs Journals

/-! ## The files of a run -/

/-- The mode of the file an operation creates under `id`. -/
def LifeOp.creates (id : Int) (w : Session) : LifeOp → Option UInt32
  | .call (.file (.create _ mode _ errno)) =>
    if errno = 0 ∧ (nextIds w.state.vaddrMap).1 = id then some mode else none
  | _ => none

/-- The modes of the files a run creates under `id`, in order. -/
def createdAs (id : Int) (w : Session) (ops : List LifeOp) : List UInt32 :=
  trace LifeOp.run (LifeOp.creates id) w ops

section
variable {d : Nand} {s : CYCstate} {w : Session} {n : Nat} {j : Journal UInt32}
  {ops : List LifeOp} {frame : Block} {mem : CYCstate}

theorem Mounted.nextId (h : Mounted s n j) :
    (nextIds s.vaddrMap).1 = (2 * j.next + 1 : Nat) := h.map'.slots.freePtr

theorem creates_eq (k : Nat) (h : Mounted w.state n j) (op : LifeOp) :
    op.creates (2 * k + 1 : Nat) w = op.event.bind (Journal.putAt k j) := by
  cases op with
  | call op =>
    cases op with
    | file op =>
      cases op with
      | create path mode mem errno =>
        show (if errno = 0 ∧ _ then some mode else none) =
          Journal.putAt k j (if errno = 0 then .put mode else .skip)
        rw [h.nextId]
        by_cases he : errno = 0
        · rw [if_pos he]
          exact if_congr ⟨fun hc => by omega, fun hc => ⟨he, by rw [hc]⟩⟩ rfl rfl
        · rw [if_neg he, if_neg fun hc => he hc.1]
          rfl
      | «open» path mem => rfl
      | release handle mem => rfl
    | unlink path nlink errno ret => rfl
  | remount frame mem => rfl
  | crash frame mem => rfl

/-- The files created under an id are what the journal was given under its number. -/
theorem createdAs_eq (k : Nat) (h : Mounted w.state n j)
    (hall : EveryStep LifeOp.run LifeOp.Allowed w ops) :
    createdAs (2 * k + 1 : Nat) w ops = Journal.putsAt k j (ops.filterMap LifeOp.event) :=
  hall.trace_simulation (B := fun w j => Mounted w.state n j) mounted_step
    (fun _ _ op h _ => creates_eq k h op) h

/-- The journal of a run from a new file system has the first file of each id. -/
theorem cells_journalOf (hz : Zeroed d n) (hn : 3 ≤ n)
    (hall : EveryStep LifeOp.run LifeOp.Allowed (newSession d frame mem) ops) (k : Nat) :
    (journalOf ops).cells k =
      (createdAs (2 * k + 1 : Nat) (newSession d frame mem) ops).head? := by
  rw [journalOf, Journal.cells_after, createdAs_eq k (mounted_newSession hz hn) hall]
  exact Option.none_or ..

theorem Room.of_mounted (h : Mounted s n j) (hn : j.next + 3 < n) (hi : j.next < 126) :
    Room s := by
  have hfits := h.sound.fits
  constructor
  · rw [h.lists'.partialHead, h.lists'.partialTail]
    omega
  · rw [h.map'.slots.freePtr, h.map'.slots.size]
    omega

/-- Creates, unmounts and crashes are allowed as long as the numbers they give out are
    small enough. -/
theorem everyStep_allowed (h : Mounted w.state n j) (hops : ∀ op ∈ ops, op.event.isSome)
    (hroom : EveryStep Journal.step (fun j _ => j.next + 3 < n ∧ j.next < 126) j
      (ops.filterMap LifeOp.event)) : EveryStep LifeOp.run LifeOp.Allowed w ops := by
  induction ops generalizing w j with
  | nil => trivial
  | cons op ops ih =>
    obtain ⟨e, he⟩ := Option.isSome_iff_exists.mp (hops op List.mem_cons_self)
    rw [List.filterMap_cons_some he] at hroom
    obtain ⟨⟨hn, hi⟩, hrest⟩ := hroom
    have ha : op.Allowed w := by
      cases op with
      | call op =>
        cases op with
        | file op =>
          cases op with
          -- what the journal does not see is not in `ops`
          | create path mode mem errno => exact .of_mounted h hn hi
          | «open» path mem => trivial
          | release handle mem => cases he
        | unlink path nlink errno ret => cases he
      | remount frame mem => trivial
      | crash frame mem => trivial
    have hnext := mounted_step w j op h ha
    rw [he] at hnext
    exact ⟨ha, ih hnext (fun op' hop' => hops op' (List.mem_cons_of_mem _ hop')) hrest⟩

/-- **Where the headers are.** After any run of creates, opens, releases, unlinks,
    unmounts and crashes, the ids given out lead to the pages set aside for them, and
    a page has the header of the first file created with its id, if there was one. -/
theorem first_create_stays (hz : Zeroed d n) (hn : 3 ≤ n)
    (hall : EveryStep LifeOp.run LifeOp.Allowed (newSession d frame mem) ops) (k : Nat) :
    let s := (after LifeOp.run (newSession d frame mem) ops).state
    (((2 * k + 1 : Nat) : Int) < s.vaddrMap.freePtr →
      s.vaddrMap.map (2 * k + 1) = (headerPage k : Nat)) ∧
    match (createdAs (2 * k + 1 : Nat) (newSession d frame mem) ops).head? with
    | some mode => NewInode (LogHeader.ofPage (s.nand.page (headerPage k))).fInode mode
        (2 * k + 1 : Nat) (2 * k + 2 : Nat)
    | none => k + 3 < n → s.nand.page (headerPage k) = Buf.zero 1048 := by
  have h := mounted_run hz hn hall
  have hcell := cells_journalOf hz hn hall k
  refine ⟨fun hlt => ?_, ?_⟩
  · rw [h.map'.slots.freePtr] at hlt
    exact h.map'.file k (by omega)
  -- a page without a record is as `makefs` left it
  · rw [← hcell]
    split
    · rename_i mode hmode
      exact (h.stored k mode hmode).header
    · rename_i hnone
      exact fun hk => (h.blank k hk hnone).2

end

/-- A file, a crash that forgets it, and a file that is given the same id. -/
def twoFilesOneId : List LifeOp :=
  [.call (.file (.create "/a" 33188 default 0)), .crash default default,
    .call (.file (.create "/b" 33261 default 0))]

theorem allowed_twoFilesOneId : EveryStep LifeOp.run LifeOp.Allowed
    (newSession (blankNAND 5 default) default default) twoFilesOneId :=
  everyStep_allowed (mounted_newSession (zeroed_blankNAND default (by omega)) (by omega))
    (by decide) ⟨⟨by decide, by decide⟩, ⟨by decide, by decide⟩, ⟨by decide, by decide⟩, trivial⟩

theorem first_create_stays_two :
    NewInode (LogHeader.ofPage ((after LifeOp.run
      (newSession (blankNAND 5 default) default default) twoFilesOneId).state.nand.page
        (headerPage 0))).fInode 33188 (1 : Nat) (2 : Nat) := by
  have hz := zeroed_blankNAND default (show 8 + 16776 * 5 < 2147483648 by omega)
  have hnew : Mounted (newSession (blankNAND 5 default) default default).state 5
      (Journal.empty UInt32) := mounted_newSession hz (by omega)
  have hmode := createdAs_eq 0 hnew allowed_twoFilesOneId
  have hstays := first_create_stays hz (by omega) allowed_twoFilesOneId 0
  dsimp only at hstays
  have hputs : Journal.putsAt 0 (Journal.empty UInt32) (twoFilesOneId.filterMap LifeOp.event) =
      [33188, 33261] := rfl
  rw [hmode, hputs] at hstays
  exact hstays.2

section
variable {d : Nand} {s : CYCstate} {w : Session} {n : Nat} {j : Journal UInt32}
  {ops : List LifeOp} {frame : Block} {mem : CYCstate}

theorem Mounted.nextIds (h : Mounted s n j) (hr : Room s) :
    nextIds s.vaddrMap = (((2 * j.next + 1 : Nat) : Int), ((2 * j.next + 2 : Nat) : Int)) :=
  nextIds_eq (h.map'.slots.hasSlots (by have := (hr.next_lt h).2; omega))

theorem Mounted.filesFound (h : Mounted s n j) {k : Nat} {mode : UInt32} (hk : k < j.next)
    (hcell : j.cells k = some mode) :
    FilesFound s n [⟨(2 * k + 1 : Nat), (2 * k + 2 : Nat), mode⟩] := by
  have hlt : headerPage k < 16 * n := by
    have := h.room'.1
    unfold headerPage
    omega
  have hmap : s.vaddrMap.map ((2 * k + 1 : Nat) : Int).toNat = (headerPage k : Nat) := by
    rw [Int.toNat_natCast]
    exact h.map'.file k hk
  refine ⟨fun f hf => ?_, List.nodup_singleton _, fun f hf buf => ?_⟩
  · obtain rfl := List.mem_singleton.mp hf
    exact ⟨headerPage k, hlt, hmap⟩
  · obtain rfl := List.mem_singleton.mp hf
    obtain ⟨d', hread, -⟩ := readNAND_ok h.sound buf hlt
    rw [hmap, hread]
    exact ⟨rfl, (h.stored k mode hcell).header⟩

theorem event_eq_crash {op : LifeOp} (h : op.event = some .crash) :
    ∃ frame mem, op = .crash frame mem := by
  cases op with
  | call op =>
    cases op with
    | file op =>
      cases op with
      | create path mode mem errno =>
        simp only [LifeOp.event, Option.some.injEq] at h
        split at h <;> cases h
      | «open» path mem => cases h
      | release handle mem => cases h
    | unlink path nlink errno ret => cases h
  | remount frame mem => cases h
  | crash frame mem => exact ⟨frame, mem, rfl⟩

/-- **What was unmounted is safe.** A file created under an id that no file was created
    under before, and unmounted before the next crash, is found after any run. -/
theorem created_durable (hz : Zeroed d n) (hn : 3 ≤ n) {ops₁ ops₂ ops₃ : List LifeOp}
    {path : String} {mode : UInt32} {cmem : CreateMem} {frame' : Block} {mem' : CYCstate}
    (hall : EveryStep LifeOp.run LifeOp.Allowed (newSession d frame mem)
      (ops₁ ++ (.call (.file (.create path mode cmem 0)) :: ops₂ ++ .remount frame' mem' :: ops₃)))
    (hnew : createdAs (nextIds
      (after LifeOp.run (newSession d frame mem) ops₁).state.vaddrMap).1
      (newSession d frame mem) ops₁ = [])
    (hops₂ : ∀ frame mem, .crash frame mem ∉ ops₂) :
    FilesFound (after LifeOp.run (newSession d frame mem)
      (ops₁ ++ (.call (.file (.create path mode cmem 0)) :: ops₂ ++
        .remount frame' mem' :: ops₃))).state n
      [⟨(nextIds (after LifeOp.run (newSession d frame mem) ops₁).state.vaddrMap).1,
        (nextIds (after LifeOp.run (newSession d frame mem) ops₁).state.vaddrMap).2, mode⟩] := by
  obtain ⟨hall₁, hroom, -⟩ := hall.append
  have h₁ := mounted_run hz hn hall₁
  have h := mounted_run hz hn hall
  rw [h₁.nextId, createdAs_eq _ (mounted_newSession hz hn) hall₁] at hnew
  -- no file had the id, so there is no record under the next number
  have hcell : (journalOf ops₁).cells (journalOf ops₁).next = none := by
    rw [cells_journalOf hz hn hall₁, createdAs_eq _ (mounted_newSession hz hn) hall₁, hnew]
    rfl
  have hevents : ∀ e ∈ ops₂.filterMap LifeOp.event, e ≠ .crash := by
    rintro e he rfl
    obtain ⟨op, hop, hev⟩ := List.mem_filterMap.mp he
    obtain ⟨frame, mem, rfl⟩ := event_eq_crash hev
    exact hops₂ frame mem hop
  obtain ⟨hnext, hkept⟩ := Journal.kept_after_save (a := mode) h₁.ordered hcell hevents
    (ops₃.filterMap LifeOp.event)
  -- the run, as the journal sees it: a put, no crash, a save, and the rest
  have hjournal : journalOf (ops₁ ++ (.call (.file (.create path mode cmem 0)) :: ops₂ ++
      .remount frame' mem' :: ops₃)) = after Journal.step (journalOf ops₁)
        (.put mode :: ops₂.filterMap LifeOp.event ++ .save :: ops₃.filterMap LifeOp.event) := by
    rw [journalOf, List.filterMap_append, after_append, List.filterMap_append]
    rfl
  rw [← hjournal] at hnext hkept
  rw [h₁.nextIds hroom]
  exact h.filesFound hnext hkept

end

/-- A file, an unmount and a crash. -/
theorem created_durable_one :
    FilesFound (after LifeOp.run (newSession (blankNAND 5 default) default default)
      [.call (.file (.create "/a" 33188 default 0)), .remount default default,
        .crash default default]).state 5
      [⟨(nextIds (newSession (blankNAND 5 default) default default).state.vaddrMap).1,
        (nextIds (newSession (blankNAND 5 default) default default).state.vaddrMap).2, 33188⟩] := by
  have hz := zeroed_blankNAND default (show 8 + 16776 * 5 < 2147483648 by omega)
  refine @created_durable _ _ _ _ hz (by omega) [] [] [.crash default default] _ _ default _ _ ?_
    rfl (by simp)
  exact everyStep_allowed (mounted_newSession hz (by omega)) (by decide)
    ⟨⟨by decide, by decide⟩, ⟨by decide, by decide⟩, ⟨by decide, by decide⟩, trivial⟩

section
variable {d : Nand} {s : CYCstate} {w : Session} {n : Nat} {j : Journal UInt32}
  {ops : List LifeOp} {frame : Block} {mem : CYCstate}
/-- **A create whose header is lost.** In any state a run reaches, a create that finds
    room returns 0, and the device is as before exactly if its id was given to a file
    before. If it was not, the file is found. -/
theorem create_stored_iff (hz : Zeroed d n) (hn : 3 ≤ n)
    (hall : EveryStep LifeOp.run LifeOp.Allowed (newSession d frame mem) ops)
    (hr : Room (after LifeOp.run (newSession d frame mem) ops).state) (path : String)
    (mode : UInt32) (cmem : CreateMem) :
    let s := (after LifeOp.run (newSession d frame mem) ops).state
    let ids := Cycology.nextIds s.vaddrMap
    (xmpCreate s path mode cmem 0).2.1 = 0 ∧
    (SameStore s.nand (xmpCreate s path mode cmem 0).1.nand ↔
      createdAs ids.1 (newSession d frame mem) ops ≠ []) ∧
    (createdAs ids.1 (newSession d frame mem) ops = [] →
      FilesFound (xmpCreate s path mode cmem 0).1 n [⟨ids.1, ids.2, mode⟩]) := by
  have h := mounted_run hz hn hall
  obtain ⟨hi, -⟩ := hr.next_lt h
  obtain ⟨d', page, hd, hsame, -, -, hnand, -⟩ := h.create hr path mode cmem
  have hcell := cells_journalOf hz hn hall (journalOf ops).next
  dsimp only
  rw [h.nextIds hr]
  dsimp only
  refine ⟨rfl, ⟨fun hunchanged hnew => ?_, fun hold => ?_⟩, fun hnew => ?_⟩
  · -- a header that is taken moves the write pointer of its block
    rw [hnew] at hcell
    have hptr := (hd.put_first hi hcell page).2 ((journalOf ops).next + 2)
    rw [← hnand, if_pos rfl, hunchanged.nextPage, (h.blank _ hi hcell).1] at hptr
    cases hptr
  · obtain ⟨first, hfirst⟩ := Option.ne_none_iff_exists'.mp (mt List.head?_eq_none_iff.mp hold)
    rw [hnand]
    exact hsame.trans (hd.put_again hi (hcell.trans hfirst) page)
  · rw [hnew] at hcell
    refine (h.put hr path mode cmem).filesFound (k := (journalOf ops).next) (Nat.lt_succ_self _) ?_
    rw [Journal.cells_step, hcell, Journal.putAt, if_pos rfl]
    rfl

end

/-- The second file with the id of the first. -/
theorem create_stored_iff_second :
    SameStore
      (after LifeOp.run (newSession (blankNAND 5 default) default default)
        (twoFilesOneId.take 2)).state.nand
      (xmpCreate (after LifeOp.run (newSession (blankNAND 5 default) default default)
        (twoFilesOneId.take 2)).state "/b" 33261 default 0).1.nand := by
  have hz := zeroed_blankNAND default (show 8 + 16776 * 5 < 2147483648 by omega)
  have hnew : Mounted (newSession (blankNAND 5 default) default default).state 5
      (Journal.empty UInt32) := mounted_newSession hz (by omega)
  have hall : EveryStep LifeOp.run LifeOp.Allowed
      (newSession (blankNAND 5 default) default default) (twoFilesOneId.take 2) :=
    everyStep_allowed hnew (by decide) ⟨⟨by decide, by decide⟩, ⟨by decide, by decide⟩, trivial⟩
  have h := mounted_run hz (by omega) hall
  have hroom : Room (after LifeOp.run (newSession (blankNAND 5 default) default default)
      (twoFilesOneId.take 2)).state := .of_mounted h (by decide) (by decide)
  have hstored := create_stored_iff hz (by omega) hall hroom "/b" 33261 default
  dsimp only at hstored
  have hputs : Journal.putsAt 0 (Journal.empty UInt32)
      ((twoFilesOneId.take 2).filterMap LifeOp.event) = [33188] := rfl
  have hid : (nextIds (after LifeOp.run (newSession (blankNAND 5 default) default default)
      (twoFilesOneId.take 2)).state.vaddrMap).1 = (2 * 0 + 1 : Nat) := h.nextId
  rw [hid, createdAs_eq 0 hnew hall, hputs] at hstored
  exact hstored.2.1.mpr (by decide)

section
variable {d : Nand} {s : CYCstate} {w : Session} {n : Nat} {j : Journal UInt32}
  {ops : List LifeOp} {frame : Block} {mem : CYCstate}

/-! ## What a mount finds -/

theorem page_run (h : Mounted w.state n j) {op : LifeOp} (ha : op.Allowed w)
    (hop : ∀ frame mem, op ≠ .remount frame mem) {k : Nat} (hk : k < 32) :
    (op.run w).state.nand.page k = w.state.nand.page k := by
  cases op with
  | call op =>
    cases op with
    | file op =>
      cases op with
      | create path mode mem errno =>
        have hroom : Room w.state := ha
        show ((FileOp.create path mode mem errno).run w).state.nand.page k = _
        rw [state_run_create]
        by_cases he : errno = 0
        -- the only page written is a header's, from block 2 on
        · obtain ⟨d', page, hd, hsame, -, -, hnand, -⟩ := h.create hroom path mode mem
          rw [he, hnand, hd.page_put (hroom.next_lt h).1 page (by unfold headerPage; omega),
            hsame.page]
        · have hfailed : (xmpCreate w.state path mode mem errno).1 =
              (createOpenFile w.state mode mem).1 := by simp only [xmpCreate, if_pos he]
          rw [hfailed, (h.createOpenFile hroom mode mem).1.page]
      | «open» path mem =>
        show ((FileOp.open path mem).run w).state.nand.page k = _
        rw [state_run_open, (undisturbed_xmpOpen w.state path mem).nand.page]
      | release handle mem => exact (undisturbed_xmpRelease ha mem).nand.page k
    | unlink path nlink errno ret => exact (undisturbed_xmpUnlink ha errno ret).nand.page k
  | remount frame mem => exact absurd rfl (hop frame mem)
  | crash frame mem => exact (h.xmpInit frame { mem with stubs := w.state.stubs }).1.page k

/-- The lists and the map are those a mount would find. -/
def AsSaved (s : CYCstate) : Prop :=
  s.lists = (superBlockOf s.nand).freeLists ∧ s.vaddrMap = loadVaddrMap (s.nand.page 16)

theorem OnDevice.asSaved {d : Nand} (h : OnDevice d n j) (frame : Block) (mem : CYCstate) :
    AsSaved (Cycology.xmpInit d.file frame mem) := by
  obtain ⟨hstore, hlists, hmap⟩ := h.xmpInit frame mem
  rw [AsSaved, superBlockOf, hstore.page, hstore.page]
  exact ⟨hlists, hmap⟩

theorem Mounted.asSaved_remount (h : Mounted w.state n j) (frame : Block) (mem : CYCstate) :
    AsSaved ((LifeOp.remount frame mem).run w).state :=
  h.unmount.asSaved frame { mem with stubs := w.state.stubs }

theorem crash_after_mount {w₁ : Session} (h : Mounted w₁.state n j) (hsaved : AsSaved w₁.state)
    (hall : EveryStep LifeOp.run LifeOp.Allowed w₁ ops)
    (hops : ∀ frame mem, .remount frame mem ∉ ops) :
    ((LifeOp.crash frame mem).run (after LifeOp.run w₁ ops)).state.lists = w₁.state.lists ∧
    ((LifeOp.crash frame mem).run (after LifeOp.run w₁ ops)).state.vaddrMap = w₁.state.vaddrMap ∧
    SameStore (after LifeOp.run w₁ ops).state.nand
      ((LifeOp.crash frame mem).run (after LifeOp.run w₁ ops)).state.nand := by
  have hno : EveryStep LifeOp.run (fun _ op => ∀ frame mem, op ≠ .remount frame mem) w₁ ops :=
    EveryStep.of_forall fun op hop frame mem heq => hops frame mem (heq ▸ hop)
  -- the superblock and the map stay where the mount found them
  obtain ⟨⟨j', h'⟩, hpages⟩ := (hall.and hno).invariant
    (I := fun w => (∃ j, Mounted w.state n j) ∧
      ∀ k < 32, w.state.nand.page k = w₁.state.nand.page k)
    (fun w op hI hP => by
      obtain ⟨⟨j, hj⟩, hsame⟩ := hI
      exact ⟨⟨_, mounted_step w j op hj hP.1⟩,
        fun k hk => (page_run hj hP.1 hP.2 hk).trans (hsame k hk)⟩)
    ⟨⟨_, h⟩, fun k _ => rfl⟩
  obtain ⟨hstore, hlists, hmap⟩ := h'.xmpInit frame
    { mem with stubs := (after LifeOp.run w₁ ops).state.stubs }
  refine ⟨hlists.trans ?_, hmap.trans ?_, hstore⟩
  · rw [superBlockOf, hpages 0 (by omega), hsaved.1, superBlockOf]
  · rw [hpages 16 (by omega), hsaved.2]

/-- **A crash goes back to the last unmount.** What was done in between is not in the free
    lists and not in the address map, and the pages are as the crash found them. -/
theorem crash_rolls_back (hz : Zeroed d n) (hn : 3 ≤ n) {ops₁ ops₂ : List LifeOp}
    {frame₁ frame₂ : Block} {mem₁ mem₂ : CYCstate}
    (hall : EveryStep LifeOp.run LifeOp.Allowed (newSession d frame mem)
      (ops₁ ++ .remount frame₁ mem₁ :: ops₂))
    (hops₂ : ∀ frame mem, .remount frame mem ∉ ops₂) :
    let w₁ := after LifeOp.run (newSession d frame mem) (ops₁ ++ [.remount frame₁ mem₁])
    let w₂ := after LifeOp.run (newSession d frame mem) (ops₁ ++ .remount frame₁ mem₁ :: ops₂)
    let w₃ := (LifeOp.crash frame₂ mem₂).run w₂
    w₃.state.lists = w₁.state.lists ∧ w₃.state.vaddrMap = w₁.state.vaddrMap ∧
    SameStore w₂.state.nand w₃.state.nand := by
  obtain ⟨hall₁, -, hall₂⟩ := hall.append
  have h₁ := mounted_run hz hn hall₁
  simp only [after_append, after]
  exact crash_after_mount (h₁.remount frame₁ mem₁) (h₁.asSaved_remount frame₁ mem₁) hall₂ hops₂

end

/-- The second of two files forgotten. -/
theorem crash_rolls_back_second :
    ((LifeOp.crash default default).run
      (after LifeOp.run (newSession (blankNAND 5 default) default default)
        [.call (.file (.create "/a" 33188 default 0)), .remount default default,
          .call (.file (.create "/b" 33261 default 0))])).state.lists =
    (after LifeOp.run (newSession (blankNAND 5 default) default default)
      [.call (.file (.create "/a" 33188 default 0)), .remount default default]).state.lists := by
  have hz := zeroed_blankNAND default (show 8 + 16776 * 5 < 2147483648 by omega)
  refine (@crash_rolls_back _ _ _ _ hz (by omega) [.call (.file (.create "/a" 33188 default 0))]
    [.call (.file (.create "/b" 33261 default 0))] _ _ _ _ ?_ (by simp)).1
  exact everyStep_allowed (mounted_newSession hz (by omega)) (by decide)
    ⟨⟨by decide, by decide⟩, ⟨by decide, by decide⟩, ⟨by decide, by decide⟩, trivial⟩

section
variable {d : Nand} {s : CYCstate} {w : Session} {n : Nat} {j : Journal UInt32}
  {ops : List LifeOp} {frame : Block} {mem : CYCstate}

theorem MapUpTo.map_eq {m : AddrMap} {i : Nat} (h : MapUpTo m i) {id : Nat} (hid : 1 ≤ id)
    (hlt : id < 2 * i + 1) : m.map id = (headerPage ((id - 1) / 2) : Nat) := by
  rcases Nat.even_or_odd' id with ⟨k, rfl | rfl⟩
  · rw [show (2 * k - 1) / 2 = k - 1 by omega, ← h.log (k - 1) (by omega)]
    congr 1
    omega
  · rw [show (2 * k + 1 - 1) / 2 = k by omega]
    exact h.file k (by omega)

theorem MapUpTo.blockOf_map {m : AddrMap} {i : Nat} (h : MapUpTo m i) {id : Nat} (hid : 1 ≤ id)
    (hlt : id < 2 * i + 1) : blockOf (m.map id) = ((id - 1) / 2 + 2 : Nat) := by
  rw [h.map_eq hid hlt, blockOf_natCast]
  congr 1
  unfold headerPage
  omega

theorem MapUpTo.mem_partialListFrom {m : AddrMap} {i b : Nat} (h : MapUpTo m i) (hb : 2 ≤ b)
    (hbn : b < n) : 16 * b ∈ partialListFrom n i ↔
      ∀ id : Nat, 1 ≤ id → (id : Int) < m.freePtr → blockOf (m.map id) ≠ (b : Nat) := by
  rw [partialListFrom, h.slots.freePtr]
  simp only [List.mem_map, List.mem_range'_1]
  constructor
  · rintro ⟨b', hb', heq⟩ id hid hlt hsame
    rw [h.blockOf_map hid (by omega)] at hsame
    omega
  · intro hnone
    refine ⟨b, ⟨?_, by omega⟩, rfl⟩
    by_contra hlt
    -- the block was handed out to the file with this id
    refine hnone (2 * (b - 2) + 1) (by omega) (by omega) ?_
    rw [h.blockOf_map (by omega) (by omega)]
    congr 1
    omega

theorem block_of_mem_partialListFrom {n i p : Nat} (hp : p ∈ partialListFrom n i) :
    ∃ b, 2 ≤ b ∧ b < n ∧ p = 16 * b := by
  simp only [partialListFrom, List.mem_map, List.mem_range'_1] at hp
  obtain ⟨b, hb, rfl⟩ := hp
  exact ⟨b, by omega, by omega, rfl⟩

/-- **No block is lost, and none is handed out twice.** After any run the links of the
    partial list visit the first pages of exactly the blocks that no id given out leads to,
    each once, and the complete list is empty. -/
theorem listed_iff_unused (hz : Zeroed d n) (hn : 3 ≤ n)
    (hall : EveryStep LifeOp.run LifeOp.Allowed (newSession d frame mem) ops) :
    let s := (after LifeOp.run (newSession d frame mem) ops).state
    s.lists.completeHead = 0 ∧
    ∃ ps : List Nat, Chain (partialNext s.nand) (ofLink s.lists.partialHead) ps ∧ ps.Nodup ∧
      (∀ p ∈ ps, ∃ b, 2 ≤ b ∧ b < n ∧ p = 16 * b) ∧
      ∀ b, 2 ≤ b → b < n → (16 * b ∈ ps ↔
        ∀ id : Nat, 1 ≤ id → (id : Int) < s.vaddrMap.freePtr →
          blockOf (s.vaddrMap.map id) ≠ (b : Nat)) := by
  have h := mounted_run hz hn hall
  have hchain := (h.lists'.freeLists h.links h.room'.1).partialChain
  exact ⟨h.lists'.completeHead, _, hchain, hchain.nodup,
    fun p hp => block_of_mem_partialListFrom hp,
    fun b hb hbn => h.map'.mem_partialListFrom hb hbn⟩

end

/-- With the second file of an id. -/
theorem listed_iff_unused_two : ∃ ps : List Nat,
    Chain (partialNext (after LifeOp.run (newSession (blankNAND 5 default) default default)
      twoFilesOneId).state.nand)
      (ofLink (after LifeOp.run (newSession (blankNAND 5 default) default default)
        twoFilesOneId).state.lists.partialHead) ps ∧ ps.Nodup ∧
    ∀ p ∈ ps, ∃ b, 2 ≤ b ∧ b < 5 ∧ p = 16 * b := by
  obtain ⟨-, ps, hchain, hnodup, hblocks, -⟩ := listed_iff_unused
    (zeroed_blankNAND default (by omega)) (by omega) allowed_twoFilesOneId
  exact ⟨ps, hchain, hnodup, hblocks⟩

end Cycology
