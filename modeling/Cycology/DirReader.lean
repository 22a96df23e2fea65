import Cycology.DirReplies

/- Reading a directory to its end.

   A reader asks for the entries from the offset 0, and then from the offset of the last
   record it was given, with any sizes and with and without attributes (`Reader.ask`). The
   records in a reply are found one behind the other (`recordCodec`). Whatever it asks for, it
   has been given the first entries of the directory, each once and in order; a request
   whose size has room for one record, and whose files are found, brings it forward
   (`reads_every_entry`). -/
namespace Cycology.ReadDir
open Records Runs.Fallible

/-! ## The format of a reply -/

/-- The `struct fuse_entry_out` in front. -/
def headLength (plus : Bool) : Nat := if plus then 128 else 0

/-- A `struct fuse_direntplus`, or a `struct fuse_dirent`. -/
def decodeRecord (plus : Bool) (bs : List UInt8) : Option (Record × List UInt8) := do
  let (head, bs) ← takeBytes (headLength plus) bs
  let (ino, bs) ← takeBytes 8 bs
  let (off, bs) ← takeBytes 8 bs
  let (namelen, bs) ← takeBytes 4 bs
  let (type, bs) ← takeBytes 4 bs
  let (name, bs) ← takeBytes (leNat namelen) bs
  let found : Record :=
    { head := head, ino := UInt64.ofNat (leNat ino), off := (UInt64.ofNat (leNat off)).toInt64
      type := UInt32.ofNat (leNat type), name := name }
  let (_, bs) ← takeBytes (found.width - found.length) bs
  some (found, bs)

theorem decodeRecord_bytes {plus : Bool} {rec : Record} (hhead : rec.head.length = headLength plus)
    (hname : rec.name.length < 256) (rest : List UInt8) :
    decodeRecord plus (rec.bytes ++ rest) = some (rec, rest) := by
  have hino : leNat (leBytes 8 rec.ino.toNat) = rec.ino.toNat := leNat_leBytes_eq rec.ino.toNat_lt
  have hoff : leNat (leBytes 8 rec.off.toUInt64.toNat) = rec.off.toUInt64.toNat :=
    leNat_leBytes_eq rec.off.toUInt64.toNat_lt
  have htype : leNat (leBytes 4 rec.type.toNat) = rec.type.toNat :=
    leNat_leBytes_eq rec.type.toNat_lt
  have hlen : leNat (leBytes 4 rec.name.length) = rec.name.length :=
    leNat_leBytes_eq (Nat.lt_trans hname (by decide))
  -- the fields are taken off one by one; the name has the length that was stored
  unfold Record.bytes dirent decodeRecord
  simp only [List.append_assoc, Option.bind_eq_bind, Option.bind_some, takeBytes_append hhead,
    takeBytes_append (length_leBytes _ _), hlen, takeBytes_append rfl, hino, hoff, htype,
    UInt64.ofNat_toNat, UInt32.ofNat_toNat, Int64.toInt64_toUInt64]
  rw [takeBytes_append (List.length_replicate ..), Option.bind_some]

theorem decodeRecord_shrinks {plus : Bool} {bs rest : List UInt8} {rec : Record}
    (h : decodeRecord plus bs = some (rec, rest)) : rest.length < bs.length := by
  unfold decodeRecord at h
  simp only [Option.bind_eq_bind, Option.bind_eq_some_iff, Prod.exists] at h
  obtain ⟨_, _, hhead, _, _, hino, _, _, hoff, _, _, hnamelen, _, _, htype, _, _, hname, _, _,
    hpad, h⟩ := h
  obtain ⟨-, rfl⟩ := Prod.mk.inj (Option.some.inj h)
  have := length_of_takeBytes hhead
  have := length_of_takeBytes hino
  have := length_of_takeBytes hoff
  have := length_of_takeBytes hnamelen
  have := length_of_takeBytes htype
  have := length_of_takeBytes hname
  have := length_of_takeBytes hpad
  omega

def recordCodec (plus : Bool) : Codec Record where
  Fits rec := rec.head.length = headLength plus ∧ rec.name.length < 256
  encode := Record.bytes
  decode := decodeRecord plus
  decode_encode h := decodeRecord_bytes h.1 h.2
  shrinks := decodeRecord_shrinks

/-! ## The reader -/

/-- The handle, the offset to go on from, and the records given so far. -/
structure Reader where
  handle : Handle
  off : Int64
  got : List Record

namespace Reader

def start : Reader := { handle := fuseLibOpendir, off := 0, got := [] }

/-- What becomes of a reply. -/
def receive (s : Reader) (handle : Handle) (plus : Bool) : Reply → Reader
  | .error _ => { s with handle := handle }
  | .ok bytes =>
    match (recordCodec plus).decodeAll bytes with
    | none => { s with handle := handle }
    | some records =>
      { handle := handle, off := (records.getLast?.map Record.off).getD s.off
        got := s.got ++ records }

/-- One request, for the entries from where the reader is. -/
def ask (dir : Directory) (conf : FuseConfig) (s : Reader) (r : Request) : Reader :=
  let (handle, reply) := fuseReaddirCommon dir conf s.handle { r with off := s.off }
  s.receive handle r.plus reply

end Reader

/-- Every entry can be shown, and there is room for it. -/
def Request.roomy (dir : Directory) (conf : FuseConfig) (r : Request) : Bool :=
  dir.placed.all fun p =>
    match r.shown conf p with
    | .ok rec => rec.width ≤ r.size
    | .error _ => false

section
variable {dir : Directory} {conf : FuseConfig} {r : Request} {p : Dirent × Int64} {rec : Record}
  {s : Reader} {k : Nat}

theorem shown_ok (h : r.shown conf p = .ok rec) :
    (recordCodec r.plus).Fits rec ∧ rec.name = p.1.name ∧ rec.off = p.2 := by
  unfold Request.shown at h
  dsimp only at h
  split at h
  · rename_i hplus
    split at h
    · cases h
    · obtain rfl := Except.ok.inj h
      refine ⟨⟨?_, p.1.short⟩, rfl, rfl⟩
      rw [headLength, if_pos hplus]
      exact (r.around.fillEntry _).size
  · rename_i hplain
    obtain rfl := Except.ok.inj h
    refine ⟨⟨?_, p.1.short⟩, rfl, rfl⟩
    rw [headLength, if_neg hplain]
    rfl

/-- The reader was given the first `k` entries, and stands behind them. -/
structure Reader.At (dir : Directory) (s : Reader) (k : Nat) : Prop where
  le : k ≤ dir.entries.length
  off : s.off = dir.telldir k
  got : s.got.map (fun rec => (rec.name, rec.off)) =
    (dir.placed.take k).map fun p => (p.1.name, p.2)
  handle : ∃ ended, Open dir s.handle ended ∧ (ended = true → k = dir.entries.length)

theorem Reader.at_start (dir : Directory) : Reader.start.At dir 0 :=
  ⟨Nat.zero_le _, dir.tell_zero.symm, rfl, false, open_fuseLibOpendir dir,
    fun h => absurd h Bool.false_ne_true⟩

theorem named_of_forall₂ {as : List (Dirent × Int64)} {page : List Record}
    (h : List.Forall₂ (fun p rec => r.shown conf p = .ok rec) as page) :
    page.map (fun rec => (rec.name, rec.off)) = as.map (fun p => (p.1.name, p.2)) ∧
      ∀ rec ∈ page, (recordCodec r.plus).Fits rec := by
  induction h with
  | nil => exact ⟨rfl, fun _ h => absurd h List.not_mem_nil⟩
  | cons hshown _ ih =>
    obtain ⟨hfits, hname, hoff⟩ := shown_ok hshown
    obtain ⟨hmap, hall⟩ := ih
    refine ⟨by rw [List.map_cons, List.map_cons, hname, hoff, hmap], fun rec hrec => ?_⟩
    obtain rfl | hrec := List.mem_cons.mp hrec
    · exact hfits
    · exact hall rec hrec

theorem off_getLast {page : List Record}
    (hmap : page.map (fun rec => (rec.name, rec.off)) =
      ((dir.placed.drop k).take page.length).map fun p => (p.1.name, p.2))
    (hle : k + page.length ≤ dir.entries.length) {off : Int64} (hoff : off = dir.telldir k) :
    (page.getLast?.map Record.off).getD off = dir.telldir (k + page.length) := by
  obtain rfl | ⟨before, last, rfl⟩ := page.eq_nil_or_concat
  · exact hoff
  · rw [List.concat_eq_append, List.length_append, List.length_singleton] at hmap hle ⊢
    have hlt : k + before.length < dir.entries.length := hle
    have hget : dir.placed[k + before.length]? =
        some (dir.entries[k + before.length], dir.telldir (k + before.length + 1)) := by
      rw [← List.head?_drop, drop_placed hlt, List.head?_cons]
    have hlast := congrArg (fun l => l[before.length]?) hmap
    simp only [List.getElem?_map, hget, List.getElem?_drop,
      List.getElem?_take_of_lt (Nat.lt_succ_self before.length), List.getElem?_concat_length,
      Option.map_some, Option.some.injEq, Prod.mk.injEq] at hlast
    rw [List.getLast?_concat, Option.map_some, Option.getD_some, hlast.2]
    rfl

theorem exists_of_roomy (h : r.roomy dir conf = true) (hp : p ∈ dir.placed) :
    ∃ rec, r.shown conf p = .ok rec ∧ rec.width ≤ r.size := by
  have hall := List.all_eq_true.mp h p hp
  cases hshown : r.shown conf p with
  | error e =>
    rw [hshown] at hall
    cases hall
  | ok rec =>
    rw [hshown] at hall
    exact ⟨rec, rfl, of_decide_eq_true hall⟩

/-- Names are short: a request is roomy if the files are found and it has the size of the
    longest record. -/
theorem roomy_of_size (hfound : r.plus = true → ∀ p ∈ dir.placed,
      (lookUp conf r.around p.1.name (statOf r.around.fstatat r.plus p.1).1 p.2
        (statOf r.around.fstatat r.plus p.1).2).1 = 0)
    (hsize : headLength r.plus + 280 ≤ r.size) : r.roomy dir conf = true := by
  apply List.all_eq_true.mpr
  intro p hp
  cases hshown : r.shown conf p with
  | ok rec =>
    obtain ⟨⟨hhead, hname⟩, -⟩ := shown_ok hshown
    have hheads : headLength r.plus = 0 ∨ headLength r.plus = 128 := by
      unfold headLength
      split <;> simp
    apply decide_eq_true
    unfold Record.width FUSE_DIRENT_ALIGN Record.length FUSE_NAME_OFFSET
    rw [hhead]
    omega
  | error e =>
    unfold Request.shown at hshown
    dsimp only at hshown
    split at hshown
    · rename_i hplus
      rw [hfound hplus p hp] at hshown
      cases hshown
    · cases hshown

theorem page_pos (h : r.roomy dir conf = true) (hk : k < dir.entries.length) {page : List Record}
    (hpage : pageOf (r.shown conf) Record.width r.size (dir.placed.drop k) = .ok page) :
    0 < page.length := by
  rw [drop_placed hk] at hpage
  have hmem : (dir.entries[k], dir.telldir (k + 1)) ∈ dir.placed := by
    apply List.mem_of_mem_drop (i := k)
    rw [drop_placed hk]
    exact List.mem_cons_self
  obtain ⟨rec, hshown, hfits⟩ := exists_of_roomy h hmem
  exact List.length_pos_iff.mpr (pageOf_ne_nil hshown hfits hpage)

theorem Reader.At.receive (h : s.At dir k) (conf : FuseConfig) (r : Request)
    (page : List Record) {handle : Handle} {ended : Bool} (hopen : Open dir handle ended)
    (hended : ended = true → k + page.length = dir.entries.length)
    (hle : k + page.length ≤ dir.entries.length)
    (hall : List.Forall₂ (fun p rec => r.shown conf p = .ok rec)
      ((dir.placed.drop k).take page.length) page) :
    (s.receive handle r.plus (.ok (page.flatMap Record.bytes))).At dir (k + page.length) := by
  obtain ⟨hmap, hfits⟩ := named_of_forall₂ hall
  have hdecode : (recordCodec r.plus).decodeAll (page.flatMap Record.bytes) = some page :=
    (recordCodec r.plus).decodeAll_flatMap hfits
  rw [Reader.receive, hdecode]
  refine ⟨hle, off_getLast hmap hle h.off, ?_, ended, hopen, hended⟩
  dsimp only
  rw [List.map_append, h.got, hmap, List.take_add, List.map_append]

/-- **One request of the reader.** -/
theorem Reader.ask_at (h : s.At dir k) (conf : FuseConfig) (r : Request) :
    ∃ k', k ≤ k' ∧ (s.ask dir conf r).At dir k' ∧
      (r.roomy dir conf = true → k < dir.entries.length → k < k') := by
  obtain ⟨ended, hopen, hended⟩ := h.handle
  obtain ⟨hreply, hopen'⟩ := readdir_step (r := { r with off := s.off }) conf hopen
    ⟨k, h.le, h.off⟩
  rw [Reader.ask]
  generalize fuseReaddirCommon dir conf s.handle { r with off := s.off } = out at hreply hopen' ⊢
  obtain ⟨handle, reply⟩ := out
  dsimp only at hreply hopen' ⊢
  subst hreply
  by_cases hstuck : ended = true ∧ s.off ≠ 0
  · -- nothing is answered, and nothing is left
    rw [plainReaddir, if_pos hstuck] at hopen' ⊢
    have hk := hended hstuck.1
    refine ⟨k, Nat.le_refl _, ?_, fun _ hlt => absurd hk (Nat.ne_of_lt hlt)⟩
    exact h.receive conf r [] hopen' (fun _ => hk) h.le .nil
  · rw [plainReaddir, if_neg hstuck] at hopen' ⊢
    have hplace : dir.seekdir s.off = k := by
      rw [h.off, dir.seek_tell k h.le]
    have hlisting : ({ r with off := s.off } : Request).listing dir conf =
        (pageOf (r.shown conf) Record.width r.size (dir.placed.drop k)).map
          (List.flatMap Record.bytes) := by
      rw [← hplace]
      rfl
    dsimp only at hopen' ⊢
    rw [hplace] at hopen'
    rw [hlisting]
    cases hpage : pageOf (r.shown conf) Record.width r.size (dir.placed.drop k) with
    | error e =>
      refine ⟨k, Nat.le_refl _, ⟨h.le, h.off, h.got, _, hopen', of_decide_eq_true⟩, ?_⟩
      intro hroomy _
      obtain ⟨p, hp, hshown⟩ := exists_of_pageOf_error hpage
      obtain ⟨rec, hok, -⟩ := exists_of_roomy hroomy (List.mem_of_mem_drop hp)
      rw [hok] at hshown
      cases hshown
    | ok page =>
      obtain ⟨hlen, hall⟩ := isPrefix_pageOf hpage
      rw [List.length_drop, length_placed] at hlen
      have hle : k + page.length ≤ dir.entries.length := by
        have := h.le
        omega
      refine ⟨k + page.length, Nat.le_add_right _ _, ?_, fun hroomy hlt => ?_⟩
      · refine h.receive conf r page hopen' (fun hend => ?_) hle hall
        have := of_decide_eq_true hend
        omega
      · have := page_pos hroomy hlt hpage
        omega

theorem Reader.after_at (conf : FuseConfig) (asks : List Request) (h : s.At dir k) :
    ∃ k', (Runs.after (Reader.ask dir conf) s asks).At dir k' ∧
      min (k + asks.countP (Request.roomy dir conf)) dir.entries.length ≤ k' := by
  induction asks generalizing s k with
  | nil => exact ⟨k, h, Nat.min_le_left _ _⟩
  | cons r asks ih =>
    obtain ⟨k₁, hle, hat, hforward⟩ := Reader.ask_at h conf r
    obtain ⟨k', hat', hmin⟩ := ih hat
    refine ⟨k', hat', Nat.le_trans ?_ hmin⟩
    have := hat.le
    rw [List.countP_cons]
    split
    -- a roomy request goes on, unless the reader is at the end
    · rename_i hroomy
      by_cases hk : k < dir.entries.length
      · have := hforward hroomy hk
        omega
      · omega
    · omega

end

/-- **Each entry once.** Whatever a reader asks for, it was given the first entries of the
    directory, in order, each once and with the offset behind it; and at least one for
    each request with room for the entries, until there are no more. -/
theorem reads_every_entry (dir : Directory) (conf : FuseConfig) (asks : List Request) :
    ∃ m, min (asks.countP (Request.roomy dir conf)) dir.entries.length ≤ m ∧
      m ≤ dir.entries.length ∧
      (Runs.after (Reader.ask dir conf) Reader.start asks).got.map
          (fun rec => (rec.name, rec.off)) =
        (dir.placed.take m).map fun p => (p.1.name, p.2) := by
  obtain ⟨m, hat, hmin⟩ := Reader.after_at conf asks (Reader.at_start dir)
  rw [Nat.zero_add] at hmin
  exact ⟨m, hmin, hat.le, hat.got⟩

end Cycology.ReadDir
