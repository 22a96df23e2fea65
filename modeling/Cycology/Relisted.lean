import Cycology.FullCache
import Cycology.Lib.Dll

/- Adding an entry to a page list it is on.

   `openFile_addDataPage` and `openFile_addMetadataPage` take an entry for a new one
   if it has no links. So has the only entry of a list, and that entry is then linked
   behind itself. Adding an entry of a list again leaves the list as it is exactly if
   there is another one (`addKeeps_iff`), and a page that is written again and again
   stays listed once exactly if, whenever it is cached already, its file has another
   data page listed (`relisted_iff`). -/
namespace Cycology.PageCache
open ByteMem LinkedChain DoublyLinked Runs.Fallible

/-- The two page lists of a file. -/
inductive FileList where
  | data
  | metadata
  deriving DecidableEq, Repr

def FileList.fields : FileList → PageList
  | .data => dataList
  | .metadata => metadataList

def FileList.add : FileList → Mem → Ptr → Ptr → Except Fault Mem
  | .data => openFileAddDataPage
  | .metadata => openFileAddMetadataPage

/-- The list of the file has the entries of `l`, linked both ways between its ends. -/
def ListIs (k : FileList) (s : Mem) (file : Ptr) (l : List Ptr) : Prop :=
  Dll (fun e => k.fields.next (s.entries e)) (fun e => k.fields.prev (s.entries e)) 0
    (k.fields.head (s.files file)) (k.fields.tail (s.files file)) l

/-- Adding the entry leaves the list as it is. -/
def AddKeeps (k : FileList) (s : Mem) (file entry : Ptr) (l : List Ptr) : Prop :=
  ∃ s', k.add s file entry = .ok s' ∧ ListIs k s' file l

/-! ## Writes of one page -/

def writeStep (env : Surroundings) (fuel : Nat) (key : Ptr) (s : Mem) (data : Buf 1024) :
    Except WalkFault Mem := do
  let (s, _) ← fsWriteData env s key data fuel
  .ok s

/-- If the page of the key is cached, the list of its file has it once. -/
def ListedOnce (key : Ptr) (s : Mem) : Prop :=
  ∀ e, InTable s e → keyCmp s key (s.entries e).key = 0 →
    ∃ l, ListIs .data s (s.keys key).file l ∧ l.count e = 1

/-- If it is cached, its file has another data page listed. -/
def NotAlone (key : Ptr) (s : Mem) : Prop :=
  KeyIn s key → (s.files (s.keys key).file).dataHead ≠ (s.files (s.keys key).file).dataTail

/-- The key is that of a data page, the table and the list of data pages of its file
    are well formed, and the page is on the list if it is cached. -/
structure WritesPage (s : Mem) (key : Ptr) (bins : Nat → List Ptr) (l : List Ptr) : Prop where
  keyAllocated : key ≠ 0 ∧ key ≤ s.brk
  level : (s.keys key).levelsAbove = 0
  height : IsInt (s.files (s.keys key).file).treeHeight
  table : Formed s bins
  list : ListIs .data s (s.keys key).file l
  allocated : ∀ e ∈ l, e ≤ s.brk
  listed : ∀ b, ∀ e ∈ bins b, entryNum s e = numKey s key → e ∈ l

/-! ## Adding once -/

section
variable {k : FileList} {s s' : Mem} {file e : Ptr} {l : List Ptr}

/-- An entry with links is taken for one that is listed. -/
theorem add_linked (he : e ≠ 0)
    (h : ¬ (k.fields.next (s.entries e) = 0 ∧ k.fields.prev (s.entries e) = 0)) :
    k.add s file e = .ok s := by
  cases k with
  | data =>
    change openFileAddDataPage s file e = .ok s
    rw [openFileAddDataPage, Mem.access_ne s he, ok_bind]
    exact if_neg h
  | metadata =>
    change openFileAddMetadataPage s file e = .ok s
    rw [openFileAddMetadataPage, Mem.access_ne s he, ok_bind]
    exact if_neg h

/-- The only entry of a list is linked behind itself. -/
theorem add_alone (hlist : ListIs k s file [e]) :
    ∃ s', k.add s file e = .ok s' ∧ k.fields.next (s'.entries e) = e := by
  obtain ⟨-, he, hprev, hnext, htail⟩ := hlist
  cases k with
  | data =>
    change (s.entries e).fileDataPrev = 0 at hprev
    change (s.entries e).fileDataNext = 0 at hnext
    change (s.files file).dataTail = e at htail
    change ∃ s', openFileAddDataPage s file e = .ok s' ∧ (s'.entries e).fileDataNext = e
    rw [openFileAddDataPage, Mem.access_ne s he, ok_bind, if_pos ⟨hnext, hprev⟩, htail]
    simp only [if_neg he]
    refine ⟨_, rfl, ?_⟩
    rw [Mem.entries_setFile, Mem.entries_setEntry_same]
  | metadata =>
    change (s.entries e).fileMetadataPrev = 0 at hprev
    change (s.entries e).fileMetadataNext = 0 at hnext
    change (s.files file).metadataTail = e at htail
    change ∃ s', openFileAddMetadataPage s file e = .ok s' ∧ (s'.entries e).fileMetadataNext = e
    rw [openFileAddMetadataPage, Mem.access_ne s he, ok_bind, if_pos ⟨hnext, hprev⟩, htail]
    simp only [if_neg he]
    refine ⟨_, rfl, ?_⟩
    rw [Mem.entries_setFile, Mem.entries_setEntry_same, Mem.entries_setEntry_same]

theorem two_le_length_iff (he : e ∈ l) : 2 ≤ l.length ↔ l ≠ [e] := by
  cases l with
  | nil => cases he
  | cons a l =>
    cases l with
    | nil => simp [List.mem_singleton.mp he]
    | cons b l => simp

/-- Adding an entry again leaves the list as it is exactly if it is not alone. -/
theorem addKeeps_iff (hlist : ListIs k s file l) (he : e ∈ l) :
    AddKeeps k s file e l ↔ 2 ≤ l.length := by
  rw [two_le_length_iff he]
  constructor
  · intro hkeeps halone
    subst halone
    obtain ⟨s', hadd, hlist'⟩ := hkeeps
    obtain ⟨s'', hadd', hloop⟩ := add_alone hlist
    obtain rfl := Except.ok.inj (hadd.symm.trans hadd')
    exact hlist'.next_ne he hloop
  · intro hne
    have hlinked := fun h => hne ((hlist.alone_iff he).mp h)
    exact ⟨s, add_linked (hlist.ne_null he) hlinked, hlist⟩

theorem addDataPage_new (hlist : ListIs .data s file l) (he : e ≠ 0) (hnin : e ∉ l)
    (hnext : (s.entries e).fileDataNext = 0) (hprev : (s.entries e).fileDataPrev = 0)
    (h : openFileAddDataPage s file e = .ok s') : ListIs .data s' file (l ++ [e]) := by
  rw [openFileAddDataPage, Mem.access_ne s he, ok_bind, if_pos ⟨hnext, hprev⟩] at h
  dsimp only at h
  set tail := (s.files file).dataTail with htail
  have hd : Dll (fun x => (s.entries x).fileDataNext) (fun x => (s.entries x).fileDataPrev) 0
      (s.files file).dataHead tail l := hlist
  have hl : tail ≠ 0 → l ≠ [] := by
    intro h0 hl
    subst hl
    exact h0 hd.2
  have hne : ∀ x ∈ l, x ≠ e := fun x hx hxe => hnin (hxe ▸ hx)
  set prev : CacheEntry → CacheEntry := fun c => { c with fileDataPrev := tail }
  set next : CacheEntry → CacheEntry := fun c => { c with fileDataNext := 0 }
  set s₁ := (s.setEntry e prev).setEntry e next with hs₁
  have hother : ∀ x, x ≠ e → s₁.entries x = s.entries x := by
    intro x hx
    rw [hs₁, Mem.entries_setEntry_other _ _ _ hx, Mem.entries_setEntry_other _ _ _ hx]
  have hsame : s₁.entries e = next (prev (s.entries e)) := by
    rw [hs₁, Mem.entries_setEntry_same, Mem.entries_setEntry_same]
  by_cases h0 : tail = 0
  · -- the first entry of the list
    rw [if_pos h0] at h
    obtain rfl := Except.ok.inj h
    have hnil : l = [] := by
      by_contra hl'
      exact hd.ne_null (Seg.last_mem hd hl') h0
    subst hnil
    refine ⟨?_, he, ?_, ?_, ?_⟩
    · exact (congrArg OpenFile.dataHead (Mem.files_setFile_same _ _ _)).trans
        (congrArg OpenFile.dataHead (Mem.files_setFile_same _ _ _))
    · exact (congrArg CacheEntry.fileDataPrev hsame).trans h0
    · exact congrArg CacheEntry.fileDataNext hsame
    · exact congrArg OpenFile.dataTail (Mem.files_setFile_same _ _ _)
  · rw [if_neg h0] at h
    obtain rfl := Except.ok.inj h
    have htl : tail ∈ l := Seg.last_mem hd (hl h0)
    have hte : e ≠ tail := fun heq => hne tail htl heq.symm
    set link : CacheEntry → CacheEntry := fun c => { c with fileDataNext := e }
    set s₂ := s₁.setEntry tail link with hs₂
    have hprevs : ∀ x, (s₂.entries x).fileDataPrev = (s₁.entries x).fileDataPrev :=
      Mem.field_setEntry s₁ tail link (·.fileDataPrev) fun _ => rfl
    have hdone : Dll (fun x => (s₂.entries x).fileDataNext) (fun x => (s₂.entries x).fileDataPrev)
        0 (s.files file).dataHead e (l ++ [e]) := by
      refine hd.push_back he ?_ ?_ (fun x hx => ?_) (fun x hx hxt => ?_) (fun _ => ?_) ?_
      · rw [hprevs, hsame]
      · rw [hs₂, Mem.entries_setEntry_other _ _ _ hte, hsame]
      · rw [hprevs, hother x (hne x hx)]
      · rw [hs₂, Mem.entries_setEntry_other _ _ _ hxt, hother x (hne x hx)]
      · exact congrArg CacheEntry.fileDataNext (Mem.entries_setEntry_same s₁ tail link)
      · rw [if_neg (hl h0)]
    have hends := Mem.files_setFile_same s₂ file fun f => { f with dataTail := e }
    unfold ListIs FileList.fields dataList
    dsimp only
    rw [hends]
    exact hdone

end

/-! ## Writing again and again -/

section
variable {s s' : Mem} {bins bins' : Nat → List Ptr} {key e page file : Ptr} {l : List Ptr}
  {fuel : Nat} {env : Surroundings} {data : Buf 1024}

theorem DataKept.listIs (h : DataKept s s') (hle : ∀ e ∈ l, e ≤ s.brk)
    (hlist : ListIs .data s file l) : ListIs .data s' file l := by
  have hd : Dll (fun x => (s.entries x).fileDataNext) (fun x => (s.entries x).fileDataPrev) 0
      (s.files file).dataHead (s.files file).dataTail l := hlist
  rw [← (h.ends file).1, ← (h.ends file).2] at hd
  exact hd.congr (fun x hx => (h.links x (hle x hx)).1) fun x hx => (h.links x (hle x hx)).2

theorem SameFields.listIs (h : SameDataLists s s') (hlist : ListIs .data s file l) :
    ListIs .data s' file l := by
  have hd : Dll (fun x => (s.entries x).fileDataNext) (fun x => (s.entries x).fileDataPrev) 0
      (s.files file).dataHead (s.files file).dataTail l := hlist
  obtain ⟨hhead, htail⟩ := Prod.mk.inj (h.file file)
  rw [← hhead, ← htail] at hd
  exact hd.congr (fun x _ => (Prod.mk.inj (h.entry x)).1) fun x _ => (Prod.mk.inj (h.entry x)).2

theorem Extends.keyIn (hf : Formed s bins) (h : Extends s bins s' bins') (hle : key ≤ s.brk)
    (hin : KeyIn s key) : KeyIn s' key := by
  obtain ⟨b, e, he, hnum⟩ := hf.keyIn_iff.mp hin
  refine h.formed.keyIn_iff.mpr ⟨b, e, h.members b e he, ?_⟩
  rw [h.entryNum_eq hf he, h.numKey_eq hle, hnum]

theorem Extends.entry_old (hf : Formed s bins) (h : Extends s bins s' bins') {b : Nat}
    (he : e ∈ bins' b) (hnum : entryNum s' e = numKey s key) (hin : KeyIn s key) :
    ∃ c, e ∈ bins c ∧ entryNum s e = numKey s key := by
  obtain ⟨c, x, hx, hxnum⟩ := hf.keyIn_iff.mp hin
  have hex : e = x := by
    apply h.formed.unique he (h.members c x hx)
    rw [hnum, h.entryNum_eq hf hx, hxnum]
  rw [hex]
  exact ⟨c, hx, hxnum⟩

namespace WritesPage

theorem extend (h : WritesPage s key bins l) (hext : Extends s bins s' bins')
    (hkept : DataKept s s') (hin : bins' = bins ∨ KeyIn s key) : WritesPage s' key bins' l where
  keyAllocated := ⟨h.keyAllocated.1, le_trans h.keyAllocated.2 hext.brk⟩
  level := by
    rw [hext.keys key h.keyAllocated.2]
    exact h.level
  height := by
    rw [hext.keys key h.keyAllocated.2, (hext.file _).2]
    exact h.height
  table := hext.formed
  list := by
    rw [hext.keys key h.keyAllocated.2]
    exact hkept.listIs h.allocated h.list
  allocated e he := le_trans (h.allocated e he) hext.brk
  listed b e he hnum := by
    rw [hext.numKey_eq h.keyAllocated.2] at hnum
    rcases hin with hsame | hin
    · rw [hsame] at he
      rw [hext.entryNum_eq h.table he] at hnum
      exact h.listed b e he hnum
    · -- the number is in the table already, and only once
      obtain ⟨c, hc, hcnum⟩ := hext.entry_old h.table he hnum hin
      exact h.listed c e hc hcnum

theorem put_entry (h : WritesPage s key bins l) (hext : Extends s bins s' bins')
    (hnum : entryNum s' e = numKey s key) {b : Nat} (he : e ∈ bins' b) (hin : KeyIn s key) :
    ∃ c, e ∈ bins c ∧ e ∈ l := by
  obtain ⟨c, hc, hcnum⟩ := hext.entry_old h.table he hnum hin
  exact ⟨c, hc, h.listed c e hc hcnum⟩

/-- A put of the page: the list grows by a page that was not cached, is kept if there
    is another page on it, and else the page is linked behind itself. -/
theorem put (h : WritesPage s key bins l)
    (hput : putPageIntoCache s page key fuel = .ok (s', e)) :
    ∃ bins', Extends s bins s' bins' ∧ (∃ b, e ∈ bins' b) ∧ entryNum s' e = numKey s' key ∧
      (¬ KeyIn s key → WritesPage s' key bins' (l ++ [e])) ∧
      (KeyIn s key → e ∈ l ∧ e ≤ s.brk ∧ (l ≠ [e] → WritesPage s' key bins' l) ∧
        (l = [e] → (s'.entries e).fileDataNext = e)) := by
  obtain ⟨s₁, bins', hout, hext, hnum, -, hdata⟩ :=
    putPage_spec h.table h.keyAllocated.1 h.keyAllocated.2 hput
  obtain ⟨s₂, hadd, hsame⟩ := hdata h.level
  have hkept₁ : DataKept s s₁ := (hout.extends h.table h.keyAllocated.2).2
  have hlist₁ := hkept₁.listIs h.allocated h.list
  have he : e ∈ bins' (cacheHash s key) := hout.mem
  have he0 : e ≠ 0 := hext.formed.ne_zero he
  have hnum' : entryNum s' e = numKey s' key := by
    rw [hnum, hext.numKey_eq h.keyAllocated.2]
  refine ⟨bins', hext, ⟨_, he⟩, hnum', fun hnew => ?_, fun hin => ?_⟩
  · -- a new entry
    have hnone : ∀ b, e ∉ bins b := by
      intro b hb
      exact hnew (h.table.keyIn_iff.mpr ⟨b, e, hb, hout.old_num hb⟩)
    obtain ⟨hbrk, -, hfresh⟩ := hout.new hnone
    have hnin : e ∉ l := by
      intro hl
      have hle := h.allocated e hl
      rw [hbrk] at hle
      exact Nat.not_succ_le_self _ hle
    have hlist₂ : ListIs .data s₂ (s.keys key).file (l ++ [e]) :=
      addDataPage_new hlist₁ he0 hnin (by rw [hfresh]; rfl) (by rw [hfresh]; rfl) hadd
    refine ⟨⟨h.keyAllocated.1, le_trans h.keyAllocated.2 hext.brk⟩, ?_, ?_, hext.formed, ?_,
      fun x hx => ?_, fun b x hx hxnum => ?_⟩
    · rw [hext.keys key h.keyAllocated.2]
      exact h.level
    · rw [hext.keys key h.keyAllocated.2, (hext.file _).2]
      exact h.height
    · rw [hext.keys key h.keyAllocated.2]
      exact SameFields.listIs hsame hlist₂
    · rcases List.mem_append.mp hx with hx | hx
      · exact le_trans (h.allocated x hx) hext.brk
      · rw [List.mem_singleton.mp hx]
        exact hext.formed.fresh _ e he
    · rw [hext.formed.unique hx he (hxnum.trans hnum'.symm)]
      simp
  · obtain ⟨c, hc, hl⟩ := h.put_entry hext hnum he hin
    refine ⟨hl, h.table.fresh c e hc, fun hne => ?_, fun halone => ?_⟩
    · -- the entry has links
      have hlinked := fun hlinks => hne ((hlist₁.alone_iff hl).mp hlinks)
      have hsame₁ : openFileAddDataPage s₁ (s.keys key).file e = .ok s₁ :=
        add_linked (k := .data) he0 hlinked
      obtain rfl := Except.ok.inj (hsame₁.symm.trans hadd)
      exact h.extend hext (hkept₁.sameDataLists hsame) (.inr hin)
    · rw [halone] at hlist₁
      obtain ⟨s₃, hadd', hloop⟩ := add_alone hlist₁
      obtain rfl := Except.ok.inj (hadd'.symm.trans hadd)
      rw [(Prod.mk.inj (hsame.entry e)).1]
      exact hloop

theorem listedOnce (h : WritesPage s key bins l) : ListedOnce key s := by
  intro e he hcmp
  obtain ⟨b, hb⟩ := h.table.inTable_iff.mp he
  have hl := h.listed b e hb (keyCmp_eq_zero.mp hcmp).symm
  exact ⟨l, h.list, List.count_eq_one_of_mem h.list.nodup hl⟩

theorem write (h : WritesPage s key bins l) (hw : writeStep env fuel key s data = .ok s') :
    (NotAlone key s → ∃ bins' l', WritesPage s' key bins' l') ∧
    (¬ NotAlone key s → ¬ ListedOnce key s') := by
  obtain ⟨⟨t, page⟩, hwrite, hw⟩ := bind_eq_ok.mp hw
  obtain rfl := Except.ok.inj hw
  obtain ⟨s₁, s₂, e, hprep, hput, hparent⟩ := fsWriteData_cases hwrite
  obtain ⟨-, hext₁, hkept₁⟩ := prepareWriteablePage_extends h.table hprep
  have h₁ := h.extend hext₁ hkept₁ (.inl rfl)
  obtain ⟨bins₂, hext₂, ⟨c, hc⟩, hnum, hnew, hold⟩ := h₁.put hput
  obtain ⟨bins', hext₃, hkept₃⟩ := fsUpdateParentPage_extends hext₂.formed hparent
  have hle₂ := le_trans h₁.keyAllocated.2 hext₂.brk
  have hin₂ : KeyIn s₂ key := hext₂.formed.keyIn_iff.mpr ⟨c, e, hc, hnum⟩
  have hkeys : s₂.keys key = s.keys key := by
    rw [hext₂.keys key h₁.keyAllocated.2, hext₁.keys key h.keyAllocated.2]
  have hkept : DataKept s₂ t := by
    apply hkept₃
    · rw [hkeys]
      exact h.level
    · rw [hkeys, (hext₂.file _).2, (hext₁.file _).2]
      exact h.height
  by_cases hcached : KeyIn s key
  · -- the page is on the list, and alone there if the ends are the same
    obtain ⟨hl, hle, hmore, halone⟩ := hold (hext₁.keyIn h.table h.keyAllocated.2 hcached)
    have hends := h.list.ends_eq_iff hl
    constructor
    · intro hnot
      have h₂ := hmore fun heq => hnot hcached (hends.mpr heq)
      exact ⟨bins', l, h₂.extend hext₃ hkept (.inr hin₂)⟩
    · intro hnot hlisted
      have hl' : l = [e] := by
        by_contra hne
        exact hnot fun _ heq => hne (hends.mp heq)
      have hcmp : keyCmp t key (t.entries e).key = 0 := by
        apply keyCmp_eq_zero.mpr
        change _ = entryNum t e
        rw [hext₃.entryNum_eq hext₂.formed hc, hnum, hext₃.numKey_eq hle₂]
      obtain ⟨l', hlist, hcount⟩ :=
        hlisted e (hext₃.formed.inTable_iff.mpr ⟨c, hext₃.members c e hc⟩) hcmp
      have hmem : e ∈ l' := List.count_pos_iff.mp (by omega)
      apply hlist.next_ne hmem
      exact (hkept.links e (le_trans hle hext₂.brk)).1.trans (halone hl')
  · have hnew₁ : ¬ KeyIn s₁ key := h₁.table.newKey_iff.mp
      (hext₁.newKey h.table h.keyAllocated.2 (h.table.newKey_iff.mpr hcached))
    constructor
    · intro _
      exact ⟨bins', l ++ [e], (hnew hnew₁).extend hext₃ hkept (.inr hin₂)⟩
    · intro hnot
      exact absurd (fun hin => absurd hin hcached) hnot

end WritesPage

end

/-- **Adding a listed page again.** For each of the two lists of a file, in any memory,
    an entry that is added again leaves the list as it is exactly if it is not alone
    on it. And while one data page is written again and again, it is listed once
    whenever it is cached exactly if no write finds it cached and alone. -/
theorem relisted_iff {env : Surroundings} {fuel : Nat} {s s' : Mem} {key : Ptr}
    {bins : Nat → List Ptr} {l : List Ptr} (h : WritesPage s key bins l)
    {datas : List (Buf 1024)} (hrun : outcome (writeStep env fuel key) s datas = .ok s') :
    (∀ (k : FileList) (s : Mem) (file e : Ptr) (l : List Ptr), ListIs k s file l → e ∈ l →
      (AddKeeps k s file e l ↔ 2 ≤ l.length)) ∧
    (EveryState (writeStep env fuel key) (ListedOnce key) s datas ↔
      EveryStep (writeStep env fuel key) (fun s _ => NotAlone key s) s datas) := by
  refine ⟨fun k s file e l hlist he => addKeeps_iff hlist he, ?_⟩
  refine EveryStep.everyState_iff (I := fun s => ∃ bins l, WritesPage s key bins l)
    (P := fun _ _ => True) (fun hI _ hstep hQ => ?_) (fun hI _ hstep hR => ?_) (fun hI => ?_)
    (EveryStep.of_all fun _ _ => trivial) ⟨bins, l, h⟩ hrun
  · obtain ⟨bins, l, h⟩ := hI
    exact (h.write hstep).1 hQ
  · obtain ⟨bins, l, h⟩ := hI
    by_contra hnot
    exact (h.write hstep).2 hnot hR
  · obtain ⟨bins, l, h⟩ := hI
    exact h.listedOnce

/-- `oneFile` with an empty cache and the data pages of `head` listed. -/
def openedFile (head : Ptr) : Mem :=
  { oneFile with
    files := fun _ => { (default : OpenFile) with
      mainExtentLog := 1, treeHeight := 1, dataHead := head, dataTail := head } }

theorem openedFile_create (head : Ptr) :
    cacheCreate (openedFile head) 4 = some (openedFile head) := rfl

/-- Another page is listed, and the page of the key 2 is written three times. -/
theorem relisted_behind_another :
    EveryState (writeStep nothingAround 9 2) (ListedOnce 2) (openedFile 9)
      [default, default, default] ∧
    ∃ s, writeStep nothingAround 9 2 (openedFile 9) default = .ok s ∧
      ∀ e ∈ [9, 11], AddKeeps .data s 1 e [9, 11] := by
  have h : WritesPage (openedFile 9) 2 (fun _ => []) [9] :=
    ⟨by decide, rfl, by decide, Formed.create (openedFile_create 9), ⟨rfl, by decide, rfl, rfl, rfl⟩,
      by decide, fun _ _ he => absurd he List.not_mem_nil⟩
  have hnew : ¬ KeyIn (openedFile 9) 2 :=
    h.table.newKey_iff.mp fun _ _ he => absurd he List.not_mem_nil
  have hrun : ∃ s', outcome (writeStep nothingAround 9 2) (openedFile 9)
      [default, default, default] = .ok s' := ⟨_, rfl⟩
  obtain ⟨s', hrun⟩ := hrun
  have hnotAlone : EveryStep (writeStep nothingAround 9 2) (fun s _ => NotAlone 2 s) (openedFile 9)
      [default, default, default] :=
    (EveryStep.cons_ok rfl).mpr ⟨fun hin => absurd hin hnew,
      (EveryStep.cons_ok rfl).mpr ⟨fun _ => by decide,
        (EveryStep.cons_ok rfl).mpr ⟨fun _ => by decide, trivial⟩⟩⟩
  refine ⟨(relisted_iff h hrun).2.mpr hnotAlone, _, rfl, fun e he => ?_⟩
  refine ((relisted_iff h hrun).1 .data _ 1 e [9, 11] ?_ he).mpr (by decide)
  exact ⟨rfl, by decide, rfl, rfl, by decide, rfl, rfl, rfl⟩

/-- A page is listed alone and added again; and the first page of a file is written
    twice. -/
theorem relisted_alone :
    (ListIs .data (openedFile 9) 1 [9] ∧ ¬ AddKeeps .data (openedFile 9) 1 9 [9]) ∧
    WritesPage (openedFile 0) 2 (fun _ => []) [] ∧
    ¬ EveryState (writeStep nothingAround 9 2) (ListedOnce 2) (openedFile 0)
      [default, default] := by
  have hlist : ListIs .data (openedFile 9) 1 [9] := ⟨rfl, by decide, rfl, rfl, rfl⟩
  have h : WritesPage (openedFile 0) 2 (fun _ => []) [] :=
    ⟨by decide, rfl, by decide, Formed.create (openedFile_create 0), ⟨rfl, rfl⟩,
      fun _ he => absurd he List.not_mem_nil, fun _ _ he => absurd he List.not_mem_nil⟩
  refine ⟨⟨hlist, fun hkeeps => ?_⟩, h, fun hall => ?_⟩
  · exact absurd ((addKeeps_iff hlist (by simp)).mp hkeeps) (by decide)
  · have hnew : ¬ KeyIn (openedFile 0) 2 :=
      h.table.newKey_iff.mp fun _ _ he => absurd he List.not_mem_nil
    -- the first write lists the page, and the second finds it alone
    obtain ⟨s₁, hfirst, hin, hends, s₂, hsecond⟩ :
        ∃ s₁, writeStep nothingAround 9 2 (openedFile 0) default = .ok s₁ ∧ KeyIn s₁ 2 ∧
          (s₁.files (s₁.keys 2).file).dataHead = (s₁.files (s₁.keys 2).file).dataTail ∧
          ∃ s₂, writeStep nothingAround 9 2 s₁ default = .ok s₂ :=
      ⟨_, rfl, ⟨11, ⟨3, [11], by decide, by decide⟩, by decide⟩, by decide, _, rfl⟩
    obtain ⟨bins, l, h₁⟩ := (h.write hfirst).1 fun hin => absurd hin hnew
    exact (h₁.write hsecond).2 (fun hnot => hnot hin hends) ((hall.2 s₁ hfirst).2 s₂ hsecond)

end Cycology.PageCache
