import Cycology.Lib.Runs
import Cycology.ReadDir

/- What the kernel is told of a directory.

   A request asks for the entries from some offset on; the right answer has the records of
   these entries, as many as fit (`Request.listing`). A handle that was asked for the end
   of its directory remembers the empty reply as if it were a list, and gives it to every
   request until one for the offset 0. So every run of requests for offsets of the
   directory is answered as by a machine with one bit (`replies_eq_plain`), and rightly exactly
   if after a request for the end nothing that is there is asked for before the directory is
   read from its start (`replies_right_iff`).

   Offsets of a run may come in any order; `DirReader` has a reader that goes on where the
   last reply ended. -/
namespace Cycology.ReadDir
open Records Runs.Fallible

/-! ## Listings -/

/-- The entries, each with the offset behind it. -/
def Directory.placed (dir : Directory) : List (Dirent × Int64) :=
  dir.entries.mapIdx fun i e => (e, dir.telldir (i + 1))

/-- An entry as it is shown; `head` is what `FUSE_READDIRPLUS` puts in front. -/
structure Record where
  head : List UInt8
  ino : UInt64
  off : Int64
  type : UInt32
  name : List UInt8

namespace Record

def length (rec : Record) : Nat := rec.head.length + FUSE_NAME_OFFSET + rec.name.length

def width (rec : Record) : Nat := FUSE_DIRENT_ALIGN rec.length

def bytes (rec : Record) : List UInt8 :=
  rec.head ++ dirent rec.ino rec.off rec.type rec.name (rec.width - rec.length)

theorem length_bytes (rec : Record) : rec.bytes.length = rec.width := by
  have hle : rec.length ≤ rec.width := by
    unfold width FUSE_DIRENT_ALIGN
    omega
  unfold bytes dirent
  simp only [List.length_append, length_leBytes, List.length_replicate]
  unfold length FUSE_NAME_OFFSET at *
  omega

end Record

/-- What a request is shown of an entry, or the error. -/
def Request.shown (conf : FuseConfig) (r : Request) (p : Dirent × Int64) : Except Int Record :=
  let (st, plus) := statOf r.around.fstatat r.plus p.1
  if r.plus then
    let (res, e) := lookUp conf r.around p.1.name st p.2 plus
    if res ≠ 0 then .error res
    else .ok
      { head := (r.around.fillEntry e).bytes, ino := e.attr.ino, off := p.2
        type := (e.attr.mode &&& 0o170000) >>> 12, name := p.1.name }
  else .ok
    { head := [], ino := direntIno conf r.around p.1.name st, off := p.2
      type := (st.mode &&& 0o170000) >>> 12, name := p.1.name }

/-- The right answer. -/
def Request.listing (dir : Directory) (conf : FuseConfig) (r : Request) : Reply :=
  (pageOf (r.shown conf) Record.width r.size (dir.placed.drop (dir.seekdir r.off))).map
    (List.flatMap Record.bytes)

/-- The offset is one of the directory: that of its start, or one behind an entry. -/
def Directory.Given (dir : Directory) (off : Int64) : Prop :=
  ∃ k ≤ dir.entries.length, off = dir.telldir k

/-- A handle as one bit: whether the end was asked for. -/
def plainReaddir (dir : Directory) (conf : FuseConfig) (ended : Bool) (r : Request) :
    Bool × Reply :=
  if ended ∧ r.off ≠ 0 then (true, .ok [])
  else (decide (dir.seekdir r.off = dir.entries.length), r.listing dir conf)

section
variable {dir : Directory} {conf : FuseConfig} {r : Request} {d : Dirp} {k : Nat} {dh : Dh}
  {p : Dirent × Int64}

theorem length_placed (dir : Directory) : dir.placed.length = dir.entries.length :=
  List.length_mapIdx ..

theorem tell_inj {i j : Nat} (hi : i ≤ dir.entries.length) (hj : j ≤ dir.entries.length)
    (h : dir.telldir i = dir.telldir j) : i = j := by
  rw [← dir.seek_tell i hi, h, dir.seek_tell j hj]

theorem tell_ne_zero (hk : k < dir.entries.length) : dir.telldir (k + 1) ≠ 0 := by
  intro h
  rw [← dir.tell_zero] at h
  have := tell_inj hk (Nat.zero_le _) h
  omega

theorem drop_placed (hk : k < dir.entries.length) :
    dir.placed.drop k = (dir.entries[k], dir.telldir (k + 1)) :: dir.placed.drop (k + 1) := by
  have hk' : k < dir.placed.length := by rwa [length_placed]
  have hget : dir.placed[k] = (dir.entries[k], dir.telldir (k + 1)) := List.getElem_mapIdx ..
  rw [List.drop_eq_getElem_cons hk', hget]

theorem drop_placed_end : dir.placed.drop dir.entries.length = [] := by
  rw [← length_placed, List.drop_length]

/-! ## The fillers -/

theorem ne_zero_of_shown {e : Int} (h : r.shown conf p = .error e) : e ≠ 0 := by
  unfold Request.shown at h
  dsimp only at h
  split at h
  · split at h
    · rename_i hres
      exact Except.error.inj h ▸ hres
    · cases h
  · cases h

theorem addEntry_eq {off : Int64} (hoff : off ≠ 0) (hfirst : dh.first = [])
    (hlen : dh.contents.length ≤ dh.needlen) {add : Nat → List UInt8 × Nat} {rec : Record}
    (hadd : ∀ bufsize, add bufsize =
      if rec.width > bufsize then ([], rec.width) else (rec.bytes, rec.width)) (de : Direntry) :
    addEntry dh off add de =
      if rec.width ≤ dh.needlen - dh.contents.length then
        ({ dh with filled := false, contents := dh.contents ++ rec.bytes }, false)
      else ({ dh with filled := false }, true) := by
  unfold addEntry
  rw [if_pos hoff, if_neg (by simp [hfirst])]
  dsimp only
  by_cases hfits : rec.width ≤ dh.needlen - dh.contents.length
  · rw [hadd, if_neg (Nat.not_lt.mpr hfits), if_pos hfits]
    exact if_neg (by omega)
  · rw [hadd, if_pos (Nat.not_le.mp hfits), if_neg hfits]
    exact if_pos (by omega)

theorem filler_eq (conf : FuseConfig) (r : Request) (hoff : p.2 ≠ 0) (hfirst : dh.first = [])
    (hlen : dh.contents.length ≤ dh.needlen) :
    r.filler conf dh p.1.name (statOf r.around.fstatat r.plus p.1).1 p.2
        (statOf r.around.fstatat r.plus p.1).2 =
      match r.shown conf p with
      | .error e => ({ dh with error := e }, true)
      | .ok rec =>
        if rec.width ≤ dh.needlen - dh.contents.length then
          ({ dh with filled := false, contents := dh.contents ++ rec.bytes }, false)
        else ({ dh with filled := false }, true) := by
  unfold Request.filler Request.shown
  cases hst : statOf r.around.fstatat r.plus p.1 with
  | mk st plus =>
  by_cases hplus : r.plus = true
  -- `FUSE_READDIRPLUS`: the look-up may fail, and its head is in front
  · rw [if_pos hplus, fillDirPlus]
    dsimp only
    rw [if_pos hplus]
    cases hlook : lookUp conf r.around p.1.name st p.2 plus with
    | mk res e =>
    dsimp only
    by_cases hres : res = 0
    · rw [if_neg (by simpa using hres), if_neg (by simpa using hres)]
      refine addEntry_eq hoff hfirst hlen (fun bufsize => ?_) _
      have hsize := (r.around.fillEntry e).size
      have hwidth : 128 + FUSE_NAME_OFFSET = FUSE_NAME_OFFSET_DIRENTPLUS := rfl
      simp only [fuseAddDirentryPlus, Record.width, Record.bytes, Record.length, hsize, hwidth]
    · rw [if_pos hres, if_pos hres]
  · rw [if_neg hplus, fillDir]
    dsimp only
    rw [if_neg hplus]
    refine addEntry_eq hoff hfirst hlen (fun bufsize => ?_) _
    simp only [fuseAddDirentry, Record.width, Record.bytes, Record.length, List.length_nil,
      Nat.zero_add, List.nil_append]

/-! ## The loop -/

/-- The next entry to show is number `k`: it is in hand, or the directory stands before it. -/
structure AtEntry (dir : Directory) (d : Dirp) (k : Nat) : Prop where
  le : k ≤ dir.entries.length
  offset : d.offset = dir.telldir k
  place : d.entry = none ∧ d.dp = k ∨
    ∃ e, dir.entries[k]? = some e ∧ d.entry = some e ∧ d.dp = k + 1

theorem AtEntry.next (h : AtEntry dir d k) (hk : k < dir.entries.length) :
    ∃ d', nextEntry dir d = (d', some dir.entries[k]) ∧ d'.dp = k + 1 ∧ AtEntry dir d' k := by
  have hget : dir.entries[k]? = some dir.entries[k] := List.getElem?_eq_getElem hk
  obtain ⟨hnone, hdp⟩ | ⟨e, he, hsome, hdp⟩ := h.place
  · refine ⟨{ d with dp := k + 1, entry := some dir.entries[k] }, ?_, rfl,
      ⟨h.le, h.offset, .inr ⟨_, hget, rfl, rfl⟩⟩⟩
    simp only [nextEntry, hnone, hdp, hget]
  · obtain rfl : dir.entries[k] = e := Option.some.inj (hget.symm.trans he)
    refine ⟨d, ?_, hdp, h⟩
    simp only [nextEntry, hsome]

theorem AtEntry.over (h : AtEntry dir d k) (hk : k = dir.entries.length) :
    nextEntry dir d = (d, none) := by
  have hget : dir.entries[k]? = none := List.getElem?_eq_none (Nat.le_of_eq hk.symm)
  obtain ⟨hnone, hdp⟩ | ⟨e, he, -⟩ := h.place
  · simp only [nextEntry, hnone, hdp, hget]
  · rw [hget] at he
    cases he

/-- What the loop leaves, if the entries from number `k` on are `as`. -/
structure LoopEnd (dir : Directory) (conf : FuseConfig) (r : Request) (dh : Dh)
    (as : List (Dirent × Int64)) (out : Dh × Dirp) : Prop where
  atEntry : ∃ k, AtEntry dir out.2 k
  first : out.1.first = []
  reply : match pageOf (r.shown conf) Record.width (dh.needlen - dh.contents.length) as with
    | .error e => out.1.error = e
    | .ok page => out.1.error = 0 ∧
      out.1.contents = dh.contents ++ page.flatMap Record.bytes ∧
      out.1.filled = (as.isEmpty && dh.filled)

theorem readdirLoop_over {β : Type} {fstatat : List UInt8 → Option Stat} {filler : Filler β}
    {plus : Bool} {buf : β} {d' : Dirp} (h : nextEntry dir d = (d', none)) :
    readdirLoop dir fstatat filler plus buf d = (buf, d') := by
  rw [readdirLoop]
  split
  · rename_i hnext
    obtain rfl := (Prod.mk.inj (hnext.symm.trans h)).1
    rfl
  · rename_i hnext
    cases (Prod.mk.inj (hnext.symm.trans h)).2

theorem readdirLoop_next {β : Type} {fstatat : List UInt8 → Option Stat} {filler : Filler β}
    {plus : Bool} {buf : β} {d' : Dirp} {e : Dirent} (h : nextEntry dir d = (d', some e))
    {buf' : β} {full : Bool}
    (hfill : filler buf e.name (statOf fstatat plus e).1 (dir.telldir d'.dp)
      (statOf fstatat plus e).2 = (buf', full)) :
    readdirLoop dir fstatat filler plus buf d =
      if full then (buf', d')
      else readdirLoop dir fstatat filler plus buf'
        { d' with entry := none, offset := dir.telldir d'.dp } := by
  rw [readdirLoop]
  split
  · rename_i hnext
    cases (Prod.mk.inj (hnext.symm.trans h)).2
  · rename_i hnext
    obtain ⟨rfl, he⟩ := Prod.mk.inj (hnext.symm.trans h)
    obtain rfl := Option.some.inj he
    dsimp only
    rw [hfill]

theorem readdirLoop_end (conf : FuseConfig) (r : Request) (dh : Dh)
    {as : List (Dirent × Int64)} (has : dir.placed.drop k = as) (hat : AtEntry dir d k)
    (hfirst : dh.first = []) (herr : dh.error = 0) (hlen : dh.contents.length ≤ dh.needlen) :
    LoopEnd dir conf r dh as
      (readdirLoop dir r.around.fstatat (r.filler conf) r.plus dh d) := by
  induction as generalizing k d dh with
  | nil =>
    have hk : k = dir.entries.length := by
      have hle := List.drop_eq_nil_iff.mp has
      rw [length_placed] at hle
      exact Nat.le_antisymm hat.le hle
    rw [readdirLoop_over (hat.over hk)]
    exact ⟨⟨k, hat⟩, hfirst, herr, by simp, rfl⟩
  | cons p as ih =>
    have hk : k < dir.entries.length := by
      by_contra hge
      rw [List.drop_eq_nil_of_le (by rw [length_placed]; exact Nat.not_lt.mp hge)] at has
      cases has
    obtain ⟨d', hnext, hdp, hat'⟩ := hat.next hk
    rw [drop_placed hk, ← hdp] at has
    obtain ⟨rfl, hrest⟩ := List.cons.inj has
    have hfill := filler_eq conf r (p := (dir.entries[k], dir.telldir d'.dp))
      (hdp ▸ tell_ne_zero hk) hfirst hlen
    cases hshown : r.shown conf (dir.entries[k], dir.telldir d'.dp) with
    | error e =>
      rw [hshown] at hfill
      rw [readdirLoop_next hnext hfill, if_pos rfl]
      refine ⟨⟨k, hat'⟩, hfirst, ?_⟩
      rw [pageOf, hshown]
      rfl
    | ok rec =>
      rw [hshown] at hfill
      dsimp only at hfill
      by_cases hfits : rec.width ≤ dh.needlen - dh.contents.length
      · -- the entry is out of hand, and the offset is the one behind it
        rw [if_pos hfits] at hfill
        rw [readdirLoop_next hnext hfill, if_neg Bool.false_ne_true]
        have hat'' : AtEntry dir { d' with entry := none, offset := dir.telldir d'.dp } d'.dp :=
          ⟨hdp ▸ hk, rfl, .inl ⟨rfl, rfl⟩⟩
        have hlen' : (dh.contents ++ rec.bytes).length = dh.contents.length + rec.width := by
          rw [List.length_append, rec.length_bytes]
        obtain ⟨hend, hfirst', hreply⟩ :=
          ih { dh with filled := false, contents := dh.contents ++ rec.bytes } hrest hat''
            hfirst herr (by rw [hlen']; dsimp only; omega)
        refine ⟨hend, hfirst', ?_⟩
        have hroom : dh.needlen - dh.contents.length - rec.width =
            dh.needlen - (dh.contents ++ rec.bytes).length := by
          rw [hlen']
          omega
        dsimp only at hreply
        rw [pageOf, hshown, ok_bind, if_pos hfits, hroom]
        -- what the rest of the loop does is what the rest of the page has
        cases hpage : pageOf (r.shown conf) Record.width
            (dh.needlen - (dh.contents ++ rec.bytes).length) as with
        | error e =>
          rw [hpage] at hreply
          exact hreply
        | ok page =>
          rw [hpage] at hreply
          obtain ⟨herr', hcontents, hfilled⟩ := hreply
          refine ⟨herr', ?_, ?_⟩
          · rw [hcontents, List.flatMap_cons, List.append_assoc]
          · rw [hfilled, Bool.and_false]
            rfl
      -- no room: the entry stays in hand for the next request
      · rw [if_neg hfits] at hfill
        rw [readdirLoop_next hnext hfill, if_pos rfl]
        refine ⟨⟨k, hat'⟩, hfirst, ?_⟩
        rw [pageOf, hshown, ok_bind, if_neg hfits]
        exact ⟨herr, by simp, rfl⟩

/-! ## Requests -/

/-- Between two requests. -/
structure Open (dir : Directory) (h : Handle) (ended : Bool) : Prop where
  atEntry : ∃ k, AtEntry dir h.fh k
  first : h.dh.first = []
  filled : h.dh.filled = ended

theorem open_fuseLibOpendir (dir : Directory) : Open dir fuseLibOpendir false :=
  ⟨⟨0, Nat.zero_le _, dir.tell_zero.symm, .inl ⟨rfl, rfl⟩⟩, rfl, rfl⟩

theorem AtEntry.seek {j : Nat} (h : AtEntry dir d j) (hk : k ≤ dir.entries.length) :
    AtEntry dir (if dir.telldir k ≠ d.offset then
      { dp := dir.seekdir (dir.telldir k), entry := none, offset := dir.telldir k } else d) k := by
  split
  · exact ⟨hk, rfl, .inl ⟨rfl, dir.seek_tell k hk⟩⟩
  · rename_i hsame
    obtain rfl : k = j := tell_inj hk h.le ((not_not.mp hsame).trans h.offset)
    exact h

variable {h : Handle} {ended : Bool}

theorem listing_error {e : Int} (hlist : r.listing dir conf = .error e) :
    e ≠ 0 ∧ dir.seekdir r.off < dir.entries.length := by
  unfold Request.listing at hlist
  cases hpage : pageOf (r.shown conf) Record.width r.size
      (dir.placed.drop (dir.seekdir r.off)) with
  | ok page =>
    rw [hpage] at hlist
    cases hlist
  | error e' =>
    rw [hpage] at hlist
    obtain rfl := Except.error.inj hlist
    obtain ⟨p, hp, hshown⟩ := exists_of_pageOf_error hpage
    refine ⟨ne_zero_of_shown hshown, ?_⟩
    by_contra hge
    rw [List.drop_eq_nil_of_le (by rw [length_placed]; exact Nat.not_lt.mp hge)] at hp
    cases hp

theorem isEmpty_drop_placed {k : Nat} (hk : k ≤ dir.entries.length) :
    (dir.placed.drop k).isEmpty = decide (k = dir.entries.length) := by
  rw [Bool.eq_iff_iff, List.isEmpty_iff, List.drop_eq_nil_iff, length_placed, decide_eq_true_iff]
  omega

theorem readdirFill_spec (conf : FuseConfig) (hat : ∃ k, AtEntry dir h.fh k)
    (hgiven : dir.Given r.off) :
    Open dir (readdirFill dir conf h r).1 (decide (dir.seekdir r.off = dir.entries.length)) ∧
    match r.listing dir conf with
    | .error e => (readdirFill dir conf h r).2 = e
    | .ok bytes =>
      (readdirFill dir conf h r).2 = 0 ∧ (readdirFill dir conf h r).1.dh.contents = bytes := by
  obtain ⟨j, hj⟩ := hat
  obtain ⟨k, hk, hoff⟩ := hgiven
  have hseek := hj.seek hk
  rw [← hoff] at hseek
  have hplace : dir.seekdir r.off = k := by rw [hoff, dir.seek_tell k hk]
  have hend := readdirLoop_end conf r
    { contents := [], first := [], needlen := r.size, filled := true, error := 0 } rfl hseek rfl
    rfl (Nat.zero_le _)
  rw [readdirFill, xmpReaddir]
  dsimp only at hend ⊢
  generalize readdirLoop dir r.around.fstatat (r.filler conf) r.plus _ _ = out at hend ⊢
  obtain ⟨hatEntry, hfirst, hreply⟩ := hend
  rw [List.length_nil, Nat.sub_zero] at hreply
  cases hlist : r.listing dir conf with
  | error e =>
    obtain ⟨hne, hlt⟩ := listing_error hlist
    cases hpage : pageOf (r.shown conf) Record.width r.size (dir.placed.drop k) with
    | ok page =>
      rw [Request.listing, hplace, hpage] at hlist
      cases hlist
    | error e' =>
      rw [Request.listing, hplace, hpage] at hlist
      obtain rfl := Except.error.inj hlist
      rw [hpage] at hreply
      rw [if_pos (by rw [hreply]; exact hne)]
      exact ⟨⟨hatEntry, hfirst, (decide_eq_false (Nat.ne_of_lt hlt)).symm⟩, hreply⟩
  | ok bytes =>
    cases hpage : pageOf (r.shown conf) Record.width r.size (dir.placed.drop k) with
    | error e =>
      rw [Request.listing, hplace, hpage] at hlist
      cases hlist
    | ok page =>
      rw [Request.listing, hplace, hpage] at hlist
      obtain rfl := Except.ok.inj hlist
      rw [hpage] at hreply
      obtain ⟨herr, hcontents, hfilled⟩ := hreply
      rw [isEmpty_drop_placed hk, Bool.and_true] at hfilled
      rw [if_neg (not_not.mpr herr), hplace]
      exact ⟨⟨hatEntry, hfirst, hfilled⟩, herr, hcontents⟩

theorem readdirFillFromList_nil (hfirst : dh.first = []) (size : Nat) :
    readdirFillFromList r { dh with needlen := size } =
      { dh with needlen := size, contents := [] } := by
  rw [readdirFillFromList, hfirst, skipTo]
  dsimp only
  rw [listLoop]

theorem listing_end (hend : dir.seekdir r.off = dir.entries.length) :
    r.listing dir conf = .ok [] := by
  rw [Request.listing, hend, drop_placed_end]
  rfl

theorem readdir_step (conf : FuseConfig) (hopen : Open dir h ended) (hgiven : dir.Given r.off) :
    (fuseReaddirCommon dir conf h r).2 = (plainReaddir dir conf ended r).2 ∧
    Open dir (fuseReaddirCommon dir conf h r).1 (plainReaddir dir conf ended r).1 := by
  have hfilled := hopen.filled
  by_cases hstuck : ended = true ∧ r.off ≠ 0
  · -- the empty list is taken for the directory
    rw [plainReaddir, if_pos hstuck, fuseReaddirCommon, if_neg hstuck.2,
      if_neg (by simp [hfilled, hstuck.1])]
    dsimp only
    rw [if_neg (by simp), if_pos (by rw [hfilled]; exact hstuck.1),
      readdirFillFromList_nil hopen.first]
    exact ⟨rfl, hopen.atEntry, hopen.first, hfilled.trans hstuck.1⟩
  · rw [plainReaddir, if_neg hstuck, fuseReaddirCommon]
    dsimp only
    have hdh : (if r.off = 0 then { h.dh with filled := false } else h.dh).filled = false := by
      by_cases h0 : r.off = 0
      · rw [if_pos h0]
      · rw [if_neg h0, hfilled]
        exact Bool.not_eq_true _ ▸ fun he => hstuck ⟨he, h0⟩
    rw [if_pos hdh]
    have hspec := readdirFill_spec conf
      (h := { h with dh := if r.off = 0 then { h.dh with filled := false } else h.dh })
      hopen.atEntry hgiven
    generalize readdirFill dir conf _ r = out at hspec ⊢
    obtain ⟨hopen', hreply⟩ := hspec
    cases hlist : r.listing dir conf with
    | error e =>
      rw [hlist] at hreply
      dsimp only at hreply
      rw [if_pos (by rw [hreply]; exact (listing_error hlist).1), hreply]
      exact ⟨rfl, hopen'⟩
    | ok bytes =>
      rw [hlist] at hreply
      obtain ⟨herr, hcontents⟩ := hreply
      rw [if_neg (not_not.mpr herr)]
      by_cases hend : dir.seekdir r.off = dir.entries.length
      · rw [listing_end hend] at hlist
        obtain rfl := Except.ok.inj hlist
        rw [if_pos (by rw [hopen'.filled, hend, decide_eq_true rfl]),
          readdirFillFromList_nil hopen'.first]
        exact ⟨rfl, hopen'.atEntry, hopen'.first, hopen'.filled⟩
      -- something was left to show, and the filler said so by clearing `filled`
      · rw [if_neg (by rw [hopen'.filled]; simpa using hend), hcontents]
        exact ⟨rfl, hopen'⟩

/-- The end is remembered once it was asked for, until the start is. -/
theorem ended_iff {pre : List Request} :
    Runs.after (fun ended r => (plainReaddir dir conf ended r).1) false pre = true ↔
      ∃ before r between, pre = before ++ r :: between ∧
        dir.seekdir r.off = dir.entries.length ∧ ∀ x ∈ between, x.off ≠ 0 := by
  induction pre using List.reverseRecOn with
  | nil =>
    refine ⟨fun h => absurd h Bool.false_ne_true, ?_⟩
    rintro ⟨before, r, between, h, -⟩
    cases before <;> cases h
  | append_singleton pre a ih =>
    rw [Runs.after_append]
    generalize hended : Runs.after (fun ended r => (plainReaddir dir conf ended r).1) false pre =
      ended at ih ⊢
    change (plainReaddir dir conf ended a).1 = true ↔ _
    constructor
    · intro hend
      by_cases hstuck : ended = true ∧ a.off ≠ 0
      · obtain ⟨before, r, between, rfl, hr, hbetween⟩ := ih.mp hstuck.1
        refine ⟨before, r, between ++ [a], by simp, hr, fun x hx => ?_⟩
        obtain hx | hx := List.mem_append.mp hx
        · exact hbetween x hx
        · exact List.mem_singleton.mp hx ▸ hstuck.2
      · rw [plainReaddir, if_neg hstuck] at hend
        exact ⟨pre, a, [], rfl, of_decide_eq_true hend, fun _ hx => absurd hx List.not_mem_nil⟩
    · rintro ⟨before, r, between, hpre, hr, hbetween⟩
      by_cases hstuck : ended = true ∧ a.off ≠ 0
      · rw [plainReaddir, if_pos hstuck]
      · rw [plainReaddir, if_neg hstuck]
        refine decide_eq_true ?_
        -- a request in between would have kept the end in mind
        obtain rfl | ⟨between', x, rfl⟩ := between.eq_nil_or_concat
        · obtain ⟨-, hx⟩ := List.append_inj' hpre rfl
          exact (List.singleton_inj.mp hx) ▸ hr
        · refine absurd ⟨ih.mpr ⟨before, r, between', ?_, hr, fun y hy => ?_⟩, ?_⟩ hstuck
          · rw [List.concat_eq_append, ← List.cons_append, ← List.append_assoc] at hpre
            exact (List.append_inj' hpre rfl).1
          · exact hbetween y (by simp [hy])
          · rw [List.concat_eq_append, ← List.cons_append, ← List.append_assoc] at hpre
            rw [List.singleton_inj.mp (List.append_inj' hpre rfl).2]
            exact hbetween x (by simp)

end

/-- **What is answered.** Whatever requests for offsets of the directory come on a handle,
    each is answered rightly, unless the end was asked for before and the request is not for
    the start: then nothing is shown. -/
theorem replies_eq_plain (dir : Directory) (conf : FuseConfig) {requests : List Request}
    (hgiven : ∀ r ∈ requests, dir.Given r.off) :
    (replies (fuseReaddirCommon dir conf) fuseLibOpendir requests).2 =
      (replies (plainReaddir dir conf) false requests).2 := by
  refine replies_eq (B := Open dir) (A := fun r => dir.Given r.off) ?_ hgiven
    (open_fuseLibOpendir dir)
  intro h ended r hopen hr
  exact readdir_step conf hopen hr

/-- **When the answers are right.** All requests of a run are answered rightly exactly if
    after one for the end, and none for the start since, there is nothing to show to those
    that come. -/
theorem replies_right_iff (dir : Directory) (conf : FuseConfig) {requests : List Request}
    (hgiven : ∀ r ∈ requests, dir.Given r.off) :
    (replies (fuseReaddirCommon dir conf) fuseLibOpendir requests).2 =
        requests.map (Request.listing dir conf) ↔
      ∀ before r between r' rest, requests = before ++ r :: (between ++ r' :: rest) →
        dir.seekdir r.off = dir.entries.length → (∀ x ∈ between, x.off ≠ 0) → r'.off ≠ 0 →
          r'.listing dir conf = .ok [] := by
  rw [replies_eq_plain dir conf hgiven, replies_eq_map_iff]
  constructor
  · intro h before r between r' rest hrequests hend hbetween hne
    have hreply := h (before ++ r :: between) r' rest (by simp [hrequests])
    have hended : Runs.after (fun ended r => (plainReaddir dir conf ended r).1) false
        (before ++ r :: between) = true :=
      ended_iff.mpr ⟨before, r, between, rfl, hend, hbetween⟩
    rw [hended, plainReaddir, if_pos ⟨rfl, hne⟩] at hreply
    exact hreply.symm
  · intro h pre a rest hrequests
    unfold plainReaddir
    split
    · rename_i hstuck
      obtain ⟨before, r, between, rfl, hend, hbetween⟩ := ended_iff.mp hstuck.1
      exact (h before r between a rest (by simp [hrequests]) hend hbetween hstuck.2).symm
    · rfl

/-- A directory with one name besides `.` and `..`. -/
def oneName : Directory where
  entries := [⟨11, 4, [46], by decide⟩, ⟨12, 4, [46, 46], by decide⟩, ⟨13, 8, [97], by decide⟩]
  telldir k := Int64.ofNat (10 * k)
  seekdir off := off.toUInt64.toNat / 10
  seek_tell := by decide
  tell_zero := rfl

/-- A request with room for all of it. -/
def plainRequest (off : Int64) : Request :=
  { off := off, size := 4096, plus := false
    around :=
      { fstatat := fun _ => none, lookupNodeid := fun _ => FUSE_UNKNOWN_INO
        doLookup := fun _ e => (0, e), fillEntry := fun _ => ⟨List.replicate 128 0, rfl⟩ } }

theorem given_oneName {offs : List Int64} (h : ∀ off ∈ offs, off = 0 ∨ off = 20 ∨ off = 30) :
    ∀ r ∈ offs.map plainRequest, oneName.Given r.off := by
  intro r hr
  obtain ⟨off, hoff, rfl⟩ := List.mem_map.mp hr
  obtain rfl | rfl | rfl := h off hoff
  · exact ⟨0, by decide, rfl⟩
  · exact ⟨2, by decide, rfl⟩
  · exact ⟨3, by decide, rfl⟩

/-- The whole directory, its end, the directory again and its last name: all are answered
    rightly. Without the second listing of the whole the last name is not shown. -/
theorem replies_right_iff_again :
    (replies (fuseReaddirCommon oneName ⟨false, false⟩) fuseLibOpendir
        ([0, 30, 0, 20].map plainRequest)).2 =
      ([0, 30, 0, 20].map plainRequest).map (Request.listing oneName ⟨false, false⟩) ∧
    (replies (fuseReaddirCommon oneName ⟨false, false⟩) fuseLibOpendir
        ([0, 30, 20].map plainRequest)).2 ≠
      ([0, 30, 20].map plainRequest).map (Request.listing oneName ⟨false, false⟩) := by
  constructor
  · refine (replies_right_iff oneName ⟨false, false⟩ (given_oneName (by simp))).mpr
      fun before r between r' rest hrequests hend hbetween hne => ?_
    -- the end is asked for once, and then the start
    rcases before with _ | ⟨_, _ | ⟨_, _ | ⟨_, before⟩⟩⟩
    · obtain ⟨rfl, -⟩ : plainRequest 0 = r ∧ _ := List.cons.injEq .. ▸ hrequests
      exact absurd hend (by decide)
    · obtain ⟨-, -, hrest⟩ : _ ∧ _ ∧ [plainRequest 0, plainRequest 20] = between ++ r' :: rest := by
        simpa using hrequests
      rcases between with _ | ⟨x, between⟩
      · obtain ⟨rfl, -⟩ : plainRequest 0 = r' ∧ _ := by simpa using hrest
        exact absurd rfl hne
      · obtain ⟨rfl, -⟩ : plainRequest 0 = x ∧ _ := by simpa using hrest
        exact absurd rfl (hbetween _ List.mem_cons_self)
    · obtain ⟨-, -, rfl, -⟩ : _ ∧ _ ∧ plainRequest 0 = r ∧ _ := by simpa using hrequests
      exact absurd hend (by decide)
    · have hlength := congrArg List.length hrequests
      simp at hlength
      omega
  · intro hright
    have hnothing := (replies_right_iff oneName ⟨false, false⟩ (given_oneName (by simp))).mp
      hright [plainRequest 0] (plainRequest 30) [] (plainRequest 20) [] rfl (by decide)
      (fun _ hx => absurd hx List.not_mem_nil) (by decide)
    have hlength := congrArg (fun reply => (reply.map List.length).toOption) hnothing
    exact absurd hlength (by decide)

end Cycology.ReadDir
