import Cycology.PageOrder
import Cycology.ReadPages

/- What `xmp_read` asks the page cache for, and what it copies out of each page.

   The pages asked for and the stretches copied depend on the file's size and the
   arguments alone, so they can be listed before the read (`ReadCall.copies`), and the
   read takes them one after the other. When every buffer it gets has the bytes the file
   has in that page, a read that returns has copied what was asked for, as far as the
   file has it, and no byte from behind the end of a page or of the file.

   Whether it returns depends on the pages requested before. The page at the front of
   the list, requested again, is linked to itself, and the search for any other page
   then goes round in a circle (`Stands.request`). So a read is exact if and only if,
   once a page was requested twice in a row, no other page is asked for
   (`xmpRead_exact_iff`). -/
namespace Cycology.PagedFs
open ByteMem Runs.Fallible

/-- A page that is asked for, and the stretch copied out of it. -/
structure PageCopy where
  pageNum : Int
  startWithinPage : Int
  toRead : Int
  deriving DecidableEq, Repr

/-- The page and the stretch of turn `i`, as `xmp_read` computes them. -/
def ReadCall.copy (r : ReadCall) (size i : Nat) : PageCopy :=
  let startDeviation : Int := (r.offset % PAGESIZE : Nat)
  let endDeviation : Int := (word (size + r.offset) % PAGESIZE : Nat)
  let numPages : Int := cint (word (r.offset % PAGESIZE + PAGESIZE + size - 1) / PAGESIZE : Nat)
  let bounds : Int × Int :=
    if numPages = 1 then (startDeviation, cint size)
    else if i = 0 then (startDeviation, PAGESIZE - startDeviation)
    else if (i : Int) = numPages - 1 ∧ endDeviation ≠ 0 then (0, endDeviation)
    else (0, PAGESIZE)
  { pageNum := cint (cint (r.offset / PAGESIZE : Nat) + i)
    startWithinPage := bounds.1
    toRead := bounds.2 }

/-- A call of `cacheLoop`, and `memcpy(buf, bufRead + startWithinPage, toRead)`. -/
def PageCopy.exec (r : ReadCall) (f : File) (fuel : Nat) (s : ReadState) (p : PageCopy) :
    Except Fault ReadState := do
  let (c, bufRead) ← cacheLoop s.con r.path f p.pageNum (sizeInPages f) fuel
  (if p.toRead < 0 then .error .memory
  else .ok
    { con := c
      buf := fun j =>
        if s.copied ≤ j ∧ j < s.copied + p.toRead.toNat then
          (c.pages bufRead).byte (p.startWithinPage.toNat + (j - s.copied))
        else s.buf j
      copied := s.copied + p.toRead.toNat
      res := cint (s.res + p.toRead) })

/-- All of them, in the order of the loop. -/
def ReadCall.copies (r : ReadCall) (f : File) : List PageCopy :=
  let fileSize := cint f.size
  if fileSize < r.offset then []
  else
    let size := if word fileSize < word (r.offset + r.size) then fileSize.toNat - r.offset else r.size
    let numPages := cint (word (r.offset % PAGESIZE + PAGESIZE + size - 1) / PAGESIZE : Nat)
    (List.range numPages.toNat).map (r.copy size)

/-- The pages a read goes through: as many as its bytes lie in, from that of the offset
    on, and none behind the end of the file. If there are no bytes to read, it is the page
    of the offset, unless it starts there. -/
def ReadCall.asked (r : ReadCall) (f : File) : List PageKey :=
  if f.size < r.offset then []
  else (List.range (r.pages f)).map fun k => (r.path, ((r.offset / PAGESIZE + k : Nat) : Int))

/-- The buffer agrees with the bytes the file has in the page. -/
def AgreesWith (f : File) (pageNum : Int) (page : Buf PAGESIZE) : Prop :=
  ∀ i : Nat, i < PAGESIZE → 0 ≤ pageNum * PAGESIZE + i → pageNum * PAGESIZE + i < f.size →
    page.byte i = f.byte (pageNum * PAGESIZE + i).toNat

/-- A buffer that `cacheLoop` returns for the page agrees with the file. -/
def Agrees (r : ReadCall) (f : File) (fuel : Nat) (s : ReadState) (p : PageCopy) : Prop :=
  ∀ c bufRead, cacheLoop s.con r.path f p.pageNum (sizeInPages f) fuel = .ok (c, bufRead) →
    AgreesWith f p.pageNum (c.pages bufRead)

/-- `xmp_read` copies `min(size, max(0, |F| - offset))` bytes of the file from the offset
    on, in order, and returns that number; it takes the pages from the first one on, in
    order, and copies nothing from behind the end of a page or of the file. -/
structure ReadExact (c : LogSysCon) (f : File) (r : ReadCall) (fuel : Nat) : Prop where
  bytes : ∃ c' buf, xmpRead c f r fuel = .ok (c', buf, (min r.size (f.size - r.offset) : Nat)) ∧
    ∀ j, buf j = if j < min r.size (f.size - r.offset) then f.byte (r.offset + j) else r.buf j
  takes : xmpRead c f r fuel = (outcome (PageCopy.exec r f fuel) (r.begin c) (r.copies f)).map
    fun s => (s.con, s.buf, s.res)
  inOrder : (r.copies f).map PageCopy.pageNum =
    (List.range (r.copies f).length).map fun k => ((r.offset / PAGESIZE + k : Nat) : Int)
  within : ∀ p ∈ r.copies f, 0 ≤ p.startWithinPage ∧ 0 ≤ p.toRead ∧
    p.startWithinPage + p.toRead ≤ PAGESIZE ∧
    p.pageNum * PAGESIZE + p.startWithinPage + p.toRead ≤ f.size

/-! ## Which requests return -/

/-- A use of the cache: a request, or a caller's write into a buffer. -/
inductive CacheUse where
  | request (r : Request)
  | write (bufPtr : Ptr) (page : Buf PAGESIZE)

def CacheUse.exec (fuel : Nat) (c : LogSysCon) : CacheUse → Except Fault LogSysCon
  | .request r => do
    let (c, _) ← cacheLoop c r.path r.file r.pageNum r.fileSizeInPages fuel
    .ok c
  | .write bufPtr page => .ok { c with pages := update c.pages bufPtr page }

/-- The page a use asks for. -/
def CacheUse.key : CacheUse → Option PageKey
  | .request r => some r.key
  | .write _ _ => none

/-- The pages requested, the latest first. Once a page was requested twice in a row, no
    other page is. -/
def NeverStuck : List PageKey → Prop
  | [] => True
  | k :: ks => (ks.head? = some k ∨ ks.IsChain (· ≠ ·)) ∧ NeverStuck ks

/-- The front node, which holds the page requested last, is linked to itself. -/
structure FrontLoops (c : LogSysCon) (ks : List PageKey) : Prop where
  head : c.head ≠ 0
  next : (c.nodes c.head).next = c.head
  prev : (c.nodes c.head).prev = 0
  last : ks.head? = some (c.nodes c.head).key

/-- The list after requests for the pages `ks`, the latest first. -/
inductive Stands (c : LogSysCon) (ks : List PageKey) : Prop
  | listed (given : List (PageKey × Ptr)) (tail : Ptr) (l : List Ptr) :
    given.map Prod.fst = ks → ks.IsChain (· ≠ ·) →
      Requests.Holds { con := c, given := given } tail l → Stands c ks
  | looped : ¬ ks.IsChain (· ≠ ·) → NeverStuck ks → FrontLoops c ks → Stands c ks

theorem NeverStuck.of_isChain {ks : List PageKey} (h : ks.IsChain (· ≠ ·)) : NeverStuck ks := by
  induction ks with
  | nil => trivial
  | cons k ks ih => exact ⟨.inr h.tail, ih h.tail⟩

theorem NeverStuck.of_append {ks' ks : List PageKey} (h : NeverStuck (ks' ++ ks)) :
    NeverStuck ks := by
  induction ks' with
  | nil => exact h
  | cons k ks' ih => exact ih h.2

section
variable {c : LogSysCon} {ks : List PageKey} {path : String} {n m : Int} {f : File} {fuel : Nat}
  {p : Ptr}

/-- A search that starts at a node linked to itself does not leave it. -/
theorem findNode_loops (h0 : p ≠ 0) (hnext : (c.nodes p).next = p)
    (hne : (c.nodes p).key ≠ (path, n)) : findNode c path n fuel p = .error .fuel := by
  induction fuel with
  | zero => rfl
  | succ fuel ih =>
    have hother : ¬ (path = (c.nodes p).path ∧ n = (c.nodes p).pageNum) := by
      rintro ⟨rfl, rfl⟩
      exact hne rfl
    rw [findNode, if_neg h0, if_neg hother, hnext]
    exact ih

theorem FrontLoops.other (h : FrontLoops c ks) (hne : ks.head? ≠ some (path, n)) :
    cacheLoop c path f n m fuel = .error .fuel := by
  have hkey : (c.nodes c.head).key ≠ (path, n) := fun heq => hne (heq ▸ h.last)
  rw [cacheLoop, findNode_loops h.head h.next hkey]
  rfl

theorem frontLoops_again (h0 : c.head ≠ 0) (hprev : (c.nodes c.head).prev = 0)
    (hkey : (c.nodes c.head).key = (path, n)) (hf : 0 < fuel) :
    ∃ c' page, cacheLoop c path f n m fuel = .ok (c', page) ∧
      FrontLoops c' ((path, n) :: ks) := by
  obtain ⟨fuel, rfl⟩ := Nat.exists_eq_succ_of_ne_zero (Nat.ne_of_gt hf)
  have hcond : path = (c.nodes c.head).path ∧ n = (c.nodes c.head).pageNum := by
    rw [Node.key, Prod.mk.injEq] at hkey
    exact ⟨hkey.1.symm, hkey.2.symm⟩
  have hfind : findNode c path n (fuel + 1) c.head = .ok c.head := by
    rw [findNode, if_neg h0, if_pos hcond]
  have hhead := head_moveToHead c c.head
  have hsame := (sameContents_moveToHead c c.head).content c.head
  refine ⟨moveToHead c c.head, ((moveToHead c c.head).nodes (moveToHead c c.head).head).page,
    ?_, ?_, ?_, prev_moveToHead_head c c.head, ?_⟩
  · rw [cacheLoop, hfind, ok_bind, if_pos h0]
  · rw [hhead]
    exact h0
  · rw [hhead]
    exact next_moveToHead_head hprev rfl h0
  · rw [hhead]
    exact congrArg some (hkey.symm.trans (congrArg Prod.fst hsame).symm)

end

theorem Stands.neverStuck {c : LogSysCon} {ks : List PageKey} (h : Stands c ks) :
    NeverStuck ks := by
  rcases h with ⟨-, -, -, -, hchain, -⟩ | ⟨-, hnever, -⟩
  · exact .of_isChain hchain
  · exact hnever

/-- **A request** returns exactly if the search for its page does, and leaves the list as
    the requests so far have it. -/
theorem Stands.request {c : LogSysCon} {ks : List PageKey} {fuel : Nat} (h : Stands c ks)
    (hf : ks.length < fuel) (path : String) (f : File) (n m : Int) :
    (NeverStuck ((path, n) :: ks) ∧ ∃ c' page,
      cacheLoop c path f n m fuel = .ok (c', page) ∧ Stands c' ((path, n) :: ks)) ∨
    ¬ NeverStuck ((path, n) :: ks) ∧ cacheLoop c path f n m fuel = .error .fuel := by
  have hpos : 0 < fuel := Nat.zero_lt_of_lt hf
  have hrepeat : ks.head? = some (path, n) → ¬ ((path, n) :: ks).IsChain (· ≠ ·) := by
    intro hhead hchain
    obtain ⟨ks', rfl⟩ : ∃ ks', ks = (path, n) :: ks' := List.head?_eq_some_iff.mp hhead
    exact (List.isChain_cons_cons.mp hchain).1 rfl
  rcases h with ⟨given, tail, l, hgiven, hchain, hlist⟩ | ⟨hchain, hstuck, hloop⟩
  · left
    have hlast : Requests.lastKey { con := c, given := given } = ks.head? := by
      rw [← hgiven, List.head?_map]
      rfl
    refine ⟨⟨.inr hchain, .of_isChain hchain⟩, ?_⟩
    by_cases hagain : ks.head? = some (path, n)
    · -- its node is the front of the list
      have hfront := hlist.front.trans (hlast.trans hagain)
      cases l with
      | nil => cases hfront
      | cons a l =>
        obtain rfl : c.head = a := hlist.links.head_eq
        obtain ⟨c', page, hcall, hloops⟩ : ∃ c' page,
            cacheLoop c path f n m fuel = .ok (c', page) ∧ FrontLoops c' ((path, n) :: ks) :=
          frontLoops_again (hlist.links.ne_null List.mem_cons_self) hlist.links.prev_head
            (Option.some.inj hfront) hpos
        exact ⟨c', page, hcall, .looped (hrepeat hagain)
          ⟨.inl hagain, .of_isChain hchain⟩ hloops⟩
    · have hlen : given.length < fuel := by
        rw [← List.length_map (f := Prod.fst), hgiven]
        exact hf
      obtain ⟨s', tail', l', hstep, hlist', hlast', -⟩ :=
        hlist.step (r := ⟨path, f, n, m⟩) (by rw [hlast]; exact hagain) hlen
      obtain ⟨⟨c', page⟩, hcall, hret⟩ := bind_eq_ok.mp hstep
      cases hret
      refine ⟨c', page, hcall, .listed _ tail' l' ?_ ?_ hlist'⟩
      · exact congrArg ((path, n) :: ·) hgiven
      · refine List.isChain_cons.mpr ⟨fun k hk hkey => ?_, hchain⟩
        exact hagain (hkey ▸ hk)
  · by_cases hagain : ks.head? = some (path, n)
    · left
      obtain ⟨c', page, hcall, hloops⟩ : ∃ c' page,
          cacheLoop c path f n m fuel = .ok (c', page) ∧ FrontLoops c' ((path, n) :: ks) :=
        frontLoops_again hloop.head hloop.prev
          (Option.some.inj (hloop.last.symm.trans hagain)) hpos
      exact ⟨⟨.inl hagain, hstuck⟩, c', page, hcall,
        .looped (hrepeat hagain) ⟨.inl hagain, hstuck⟩ hloops⟩
    · right
      exact ⟨fun hnever => hnever.1.elim hagain hchain, hloop.other hagain⟩

/-- What is written into the buffers does not matter to the list. -/
theorem Stands.write {c : LogSysCon} {ks : List PageKey} (h : Stands c ks)
    (pages : Ptr → Buf PAGESIZE) : Stands { c with pages := pages } ks := by
  rcases h with ⟨given, tail, l, hgiven, hchain, hlist⟩ | ⟨hchain, hnever, hloop⟩
  · exact .listed given tail l hgiven hchain ⟨⟨hlist.links, hlist.keys, hlist.fresh⟩,
      hlist.requested, hlist.first, hlist.front, hlist.length⟩
  · exact .looped hchain hnever ⟨hloop.head, hloop.next, hloop.prev, hloop.last⟩

theorem Stands.uses {uses : List CacheUse} : ∀ {c c' : LogSysCon} {ks : List PageKey} {fuel : Nat},
    Stands c ks → ks.length + uses.length < fuel → outcome (CacheUse.exec fuel) c uses = .ok c' →
      Stands c' ((uses.filterMap CacheUse.key).reverse ++ ks) := by
  induction uses with
  | nil =>
    intro c c' ks fuel h _ hrun
    cases hrun
    exact h
  | cons use uses ih =>
    intro c c' ks fuel h hf hrun
    rw [List.length_cons] at hf
    obtain ⟨c₁, hstep, hrest⟩ := outcome_cons_eq_ok.mp hrun
    cases use with
    | write bufPtr page =>
      cases hstep
      rw [List.filterMap_cons_none rfl]
      exact ih (h.write _) (by omega) hrest
    | request r =>
      obtain ⟨⟨c₂, page⟩, hcall, hret⟩ := bind_eq_ok.mp hstep
      cases hret
      rw [List.filterMap_cons_some (show CacheUse.key (.request r) = some r.key from rfl),
        List.reverse_cons, List.append_assoc, List.singleton_append]
      rcases h.request (show ks.length < fuel by omega) r.path r.file r.pageNum
        r.fileSizeInPages with ⟨-, c₃, page', hcall', h'⟩ | ⟨-, hcall'⟩
      · cases hcall.symm.trans hcall'
        have hlen : (r.key :: ks).length + uses.length < fuel := by
          rw [List.length_cons]
          omega
        exact ih h' hlen hrest
      · cases hcall.symm.trans hcall'

section
variable {r : ReadCall} {f : File} {k n size fuel : Nat} {s : ReadState} {c : LogSysCon}

/-! ## The turns of the loop -/

theorem readTurn_eq_copy (i : Nat) :
    readTurn r f size fuel s i = (r.copy size i).exec r f fuel s := rfl

/-- A read takes the copies in turn. -/
theorem xmpRead_eq_copies :
    xmpRead c f r fuel = (outcome (PageCopy.exec r f fuel) (r.begin c) (r.copies f)).map
      fun s => (s.con, s.buf, s.res) := by
  unfold xmpRead ReadCall.copies
  dsimp only
  split
  · rfl
  · rw [outcome_map]
    rfl

theorem copies_eq (h : r.InFile f) :
    r.copies f = (List.range (r.pages f)).map (r.copy (r.span f)) := by
  have hfile := h.file
  have hstart := h.start
  unfold ReadCall.copies
  rw [if_neg (by rw [cint_eq ⟨by omega, by omega⟩]; omega)]
  dsimp only
  rw [ReadCall.size_eq h, ReadCall.numPages_eq h, Int.toNat_natCast]

theorem copy_eq (h : r.InFile f) (hk : k < r.pages f) :
    r.copy (r.span f) k = ⟨(r.offset / 1023 + k : Nat), r.first k, r.count f k⟩ := by
  unfold ReadCall.copy
  dsimp only
  rw [ReadCall.numPages_eq h, ReadCall.bounds_eq h hk, ReadCall.pageNum_eq h hk]

theorem Copied.run (h : r.InFile f) (hs : Copied r f k s) (hn : k + n = r.pages f)
    (hagree : EveryStep (PageCopy.exec r f fuel) (Agrees r f fuel) s
      ((List.range' k n).map (r.copy (r.span f)))) {s' : ReadState}
    (hrun : outcome (PageCopy.exec r f fuel) s ((List.range' k n).map (r.copy (r.span f))) = .ok s') :
    Copied r f (r.pages f) s' := by
  induction n generalizing k s with
  | zero =>
    obtain rfl : k = r.pages f := by omega
    cases hrun
    exact hs
  | succ n ih =>
    rw [List.range'_succ, List.map_cons] at hagree hrun
    obtain ⟨hpage, hrest⟩ := hagree
    obtain ⟨s₁, hexec, hrun⟩ := outcome_cons_eq_ok.mp hrun
    obtain ⟨⟨c, p⟩, hcall, -⟩ := bind_eq_ok.mp hexec
    have hk : k < r.pages f := by omega
    have hbuf := hpage c p hcall
    rw [copy_eq h hk] at hcall hbuf
    obtain ⟨s₂, hturn, -, hs₂⟩ := hs.turn_of_bytes h hk hcall fun i hi hin => by
      have hpos : ((r.offset / 1023 + k : Nat) : Int) * PAGESIZE + i =
          ((r.offset / 1023 + k) * 1023 + i : Nat) := by
        push_cast
        rfl
      have hbyte := hbuf i hi (by dsimp only; omega) (by dsimp only; omega)
      dsimp only at hbyte
      rw [hbyte, hpos, Int.toNat_natCast]
    rw [readTurn_eq_copy] at hturn
    obtain rfl : s₁ = s₂ := Except.ok.inj (hexec.symm.trans hturn)
    exact ih hs₂ (by omega) (hrest s₁ hexec) hrun

theorem PageCopy.exec_ok {p : PageCopy} {page : Ptr} (hpos : 0 ≤ p.toRead)
    (hcall : cacheLoop s.con r.path f p.pageNum (sizeInPages f) fuel = .ok (c, page)) :
    ∃ s', p.exec r f fuel s = .ok s' ∧ s'.con = c := by
  rw [PageCopy.exec, hcall, ok_bind]
  dsimp only
  rw [if_neg (by omega)]
  exact ⟨_, rfl, rfl⟩

/-- The copies return exactly if the requests for their pages do. -/
theorem copies_return_iff {ps : List PageCopy} {ks : List PageKey} (hs : Stands s.con ks)
    (hpos : ∀ p ∈ ps, 0 ≤ p.toRead) (hf : ks.length + ps.length < fuel) :
    (∃ s', outcome (PageCopy.exec r f fuel) s ps = .ok s') ↔
      NeverStuck ((ps.map fun p => (r.path, p.pageNum)).reverse ++ ks) := by
  induction ps generalizing s ks with
  | nil => exact iff_of_true ⟨s, rfl⟩ hs.neverStuck
  | cons p ps ih =>
    rw [List.length_cons] at hf
    rw [List.map_cons, List.reverse_cons, List.append_assoc, List.singleton_append]
    rcases hs.request (show ks.length < fuel by omega) r.path f p.pageNum (sizeInPages f) with
      ⟨-, c, page, hcall, hs₁⟩ | ⟨hstuck, hcall⟩
    · obtain ⟨s₁, hexec, rfl⟩ := PageCopy.exec_ok (hpos p List.mem_cons_self) hcall
      rw [← ih hs₁ (fun q hq => hpos q (List.mem_cons_of_mem _ hq)) (by
        rw [List.length_cons]
        omega)]
      simp only [outcome, hexec, ok_bind]
    · refine iff_of_false (fun hret => ?_) fun hnever => hstuck hnever.of_append
      obtain ⟨s', hrun⟩ := hret
      obtain ⟨s₁, hexec, -⟩ := outcome_cons_eq_ok.mp hrun
      obtain ⟨x, hok, -⟩ := bind_eq_ok.mp hexec
      cases hcall.symm.trans hok

end

section
variable {r : ReadCall} {f : File} {fuel : Nat} {s : ReadState} {c : LogSysCon}

theorem copies_behind (hfile : f.size < 2147483648) (hstart : f.size < r.offset) :
    r.copies f = [] := by
  unfold ReadCall.copies
  rw [if_pos (by rw [cint_eq ⟨by omega, by omega⟩]; omega)]

theorem copy_bounds (hfile : f.size < 2147483648) (hoffset : r.offset < 2147483648)
    (hsize : r.size < 2147483648) {p : PageCopy} (hp : p ∈ r.copies f) :
    0 ≤ p.startWithinPage ∧ 0 ≤ p.toRead ∧ p.startWithinPage + p.toRead ≤ PAGESIZE ∧
      p.pageNum * PAGESIZE + p.startWithinPage + p.toRead ≤ f.size := by
  by_cases hstart : f.size < r.offset
  · rw [copies_behind hfile hstart] at hp
    cases hp
  have h : r.InFile f := ⟨hfile, by omega, by omega⟩
  rw [copies_eq h] at hp
  obtain ⟨k, hk, rfl⟩ := List.mem_map.mp hp
  have hk := List.mem_range.mp hk
  rw [copy_eq h hk]
  have hstart := h.start
  have hspan : r.span f ≤ f.size - r.offset := min_le_right _ _
  unfold ReadCall.pages at hk
  unfold ReadCall.count ReadCall.first PAGESIZE
  dsimp only
  omega

theorem copies_inOrder (hfile : f.size < 2147483648) (hoffset : r.offset < 2147483648)
    (hsize : r.size < 2147483648) : (r.copies f).map PageCopy.pageNum =
      (List.range (r.copies f).length).map fun k => ((r.offset / PAGESIZE + k : Nat) : Int) := by
  by_cases hstart : f.size < r.offset
  · rw [copies_behind hfile hstart]
    rfl
  have h : r.InFile f := ⟨hfile, by omega, by omega⟩
  rw [copies_eq h, List.map_map, List.length_map, List.length_range]
  refine List.map_congr_left fun k hk => ?_
  exact congrArg PageCopy.pageNum (copy_eq h (List.mem_range.mp hk))

theorem keys_copies (hfile : f.size < 2147483648) (hoffset : r.offset < 2147483648)
    (hsize : r.size < 2147483648) :
    (r.copies f).map (fun p => (r.path, p.pageNum)) = r.asked f := by
  unfold ReadCall.asked
  split
  · rename_i hstart
    rw [copies_behind hfile hstart, List.map_nil]
  · have h : r.InFile f := ⟨hfile, by omega, by omega⟩
    rw [copies_eq h, List.map_map]
    refine List.map_congr_left fun k hk => ?_
    exact congrArg (fun p : PageCopy => (r.path, p.pageNum)) (copy_eq h (List.mem_range.mp hk))

theorem bytes_of_returns (hfile : f.size < 2147483648) (hoffset : r.offset < 2147483648)
    (hsize : r.size < 2147483648)
    (hagree : EveryStep (PageCopy.exec r f fuel) (Agrees r f fuel) (r.begin c) (r.copies f))
    (hrun : outcome (PageCopy.exec r f fuel) (r.begin c) (r.copies f) = .ok s) :
    ∃ c' buf, xmpRead c f r fuel = .ok (c', buf, r.span f) ∧
      ∀ j, buf j = if j < r.span f then f.byte (r.offset + j) else r.buf j := by
  by_cases hstart : f.size < r.offset
  · -- nothing is asked for
    obtain ⟨hread, hspan⟩ := xmpRead_behind hfile hstart
    refine ⟨c, r.buf, hread, fun j => (if_neg ?_).symm⟩
    rw [hspan]
    exact Nat.not_lt_zero j
  · have h : r.InFile f := ⟨hfile, by omega, by omega⟩
    rw [copies_eq h, List.range_eq_range'] at hagree hrun
    have hs := (Copied.zero r f c).run h (Nat.zero_add _) hagree hrun
    rw [← List.range_eq_range', outcome_map] at hrun
    obtain ⟨buf, hread, hbuf⟩ := readsRight_of_copied h hrun hs
    exact ⟨s.con, buf, hread, hbuf⟩

end

/-- **A read is exact, if it returns.** For every file shorter than 2^31 bytes, every
    offset and size below 2^31, and every use of the cache before: if each buffer
    `cacheLoop` returns during the read agrees with the bytes the file has in that page,
    the read is exact if and only if, of all pages requested up to its end, no other one
    is requested once one was requested twice in a row. -/
theorem xmpRead_exact_iff {f : File} {r : ReadCall} (hfile : f.size < 2 ^ 31)
    (hoffset : r.offset < 2 ^ 31) (hsize : r.size < 2 ^ 31) {c₀ c : LogSysCon} (hc : c₀.head = 0)
    {uses : List CacheUse} {fuel : Nat} (hrun : outcome (CacheUse.exec fuel) c₀ uses = .ok c)
    (hf : uses.length + (r.asked f).length < fuel)
    (hagree : EveryStep (PageCopy.exec r f fuel) (Agrees r f fuel) (r.begin c) (r.copies f)) :
    ReadExact c f r fuel ↔
      NeverStuck (uses.filterMap CacheUse.key ++ r.asked f).reverse := by
  have hkeys := keys_copies hfile hoffset hsize
  rw [← hkeys, List.length_map] at hf
  have hempty : Stands c₀ [] := .listed [] 0 [] rfl List.isChain_nil (Requests.Holds.empty hc)
  have hstands := hempty.uses (by rw [List.length_nil]; omega) hrun
  rw [List.append_nil] at hstands
  have hlen : (uses.filterMap CacheUse.key).reverse.length ≤ uses.length := by
    rw [List.length_reverse]
    exact List.length_filterMap_le _ _
  have hreturn : (∃ s, outcome (PageCopy.exec r f fuel) (r.begin c) (r.copies f) = .ok s) ↔
      NeverStuck (uses.filterMap CacheUse.key ++ r.asked f).reverse := by
    rw [List.reverse_append, ← hkeys]
    exact copies_return_iff hstands (fun p hp => (copy_bounds hfile hoffset hsize hp).2.1)
      (by omega)
  rw [← hreturn]
  constructor
  · intro h
    obtain ⟨c', buf, hread, -⟩ := h.bytes
    rw [h.takes] at hread
    cases hout : outcome (PageCopy.exec r f fuel) (r.begin c) (r.copies f) with
    | error e =>
      rw [hout] at hread
      cases hread
    | ok s => exact ⟨s, rfl⟩
  · rintro ⟨s, hout⟩
    exact ⟨bytes_of_returns hfile hoffset hsize hagree hout, xmpRead_eq_copies,
      copies_inOrder hfile hoffset hsize, fun p => copy_bounds hfile hoffset hsize⟩

/-- A page of 1023 bytes and one more byte. -/
def twoPages : File := File.empty.pwrite 0 1024 UInt8.ofNat

def wholeFile : ReadCall := { path := "/a", buf := fun _ => 0, size := 1024, offset := 0 }

/-- A request for a page of `twoPages`. -/
def pageOfTwo (n : Int) : CacheUse := .request ⟨"/a", twoPages, n, 2⟩

theorem copies_wholeFile : wholeFile.copies twoPages = [⟨0, 0, 1023⟩, ⟨1, 0, 1⟩] := by decide

theorem agreesWith_fillBuffer {n : Nat} (hn : n < 2) (buffer : Buf PAGESIZE) :
    AgreesWith twoPages n (fillBuffer buffer twoPages n 2) := by
  intro i hi _ hin
  have hpos : cint ((n : Int) * PAGESIZE) = (n * 1023 : Nat) := by
    unfold PAGESIZE
    rw [cint_eq ⟨by omega, by omega⟩]
    rfl
  have hbyte : ((n : Int) * PAGESIZE + i).toNat = n * 1023 + i := by
    unfold PAGESIZE
    omega
  have hlt : n * 1023 + i < 1024 := by
    have hsize : (twoPages.size : Int) = 1024 := rfl
    unfold PAGESIZE at hin
    omega
  have havail : i < 0 + twoPages.avail (n * 1023) PAGESIZE := by
    have hsize : twoPages.size = 1024 := rfl
    unfold File.avail PAGESIZE at *
    omega
  unfold fillBuffer
  rw [if_neg (by omega), if_neg (by omega), hpos, File.pread_nat, hbyte,
    Buf.byte_blit_in _ _ (Nat.zero_le _) havail hi, Nat.sub_zero]

/-- The second page of the file was read before, and the whole file is read. -/
theorem xmpRead_exact_twoPages : ∃ c, outcome (CacheUse.exec 9) default [pageOfTwo 1] = .ok c ∧
    ReadExact c twoPages wholeFile 9 := by
  refine ⟨(readPage default "/a" twoPages 1 2).1, rfl, ?_⟩
  have hnever : NeverStuck (([pageOfTwo 1].filterMap CacheUse.key) ++
      wholeFile.asked twoPages).reverse := .of_isChain (by decide)
  have hagree : EveryStep (PageCopy.exec wholeFile twoPages 9) (Agrees wholeFile twoPages 9)
      (wholeFile.begin (readPage default "/a" twoPages 1 2).1) (wholeFile.copies twoPages) := by
    rw [copies_wholeFile]
    refine ⟨fun c page hcall => ?_, fun s hs => ⟨fun c page hcall => ?_, fun _ _ => trivial⟩⟩
    · cases hcall
      exact agreesWith_fillBuffer (n := 0) (by omega) _
    · cases hs
      cases hcall
      exact agreesWith_fillBuffer (n := 1) (by omega) _
  have hempty : (default : LogSysCon).head = 0 := rfl
  exact (xmpRead_exact_iff (by decide) (by decide) (by decide) hempty rfl (by decide)
    hagree).mpr hnever

theorem frontLoops_wholeFile {fuel : Nat} {s : ReadState}
    (h : (⟨0, 0, 1023⟩ : PageCopy).exec wholeFile twoPages fuel
      (wholeFile.begin (readPage default "/a" twoPages 0 2).1) = .ok s) :
    FrontLoops s.con [("/a", 0)] := by
  cases fuel with
  | zero => cases h
  | succ fuel =>
    obtain ⟨c, page, hcall, hloops⟩ : ∃ c page,
        cacheLoop (readPage default "/a" twoPages 0 2).1 "/a" twoPages 0 2 (fuel + 1) =
          .ok (c, page) ∧ FrontLoops c [("/a", 0)] :=
      frontLoops_again (by decide) rfl rfl (Nat.succ_pos fuel)
    obtain ⟨s', hexec, rfl⟩ := PageCopy.exec_ok (r := wholeFile) (f := twoPages)
      (s := wholeFile.begin (readPage default "/a" twoPages 0 2).1) (p := ⟨0, 0, 1023⟩)
      (by decide) hcall
    cases h.symm.trans hexec
    exact hloops

/-- The first page was read before: the read of the whole file asks for it again, and
    does not find its way to the second one. -/
theorem xmpRead_of_front_never_returns :
    ∃ c, outcome (CacheUse.exec 9) default [pageOfTwo 0] = .ok c ∧
      (∀ fuel, EveryStep (PageCopy.exec wholeFile twoPages fuel) (Agrees wholeFile twoPages fuel)
        (wholeFile.begin c) (wholeFile.copies twoPages)) ∧
      ∀ fuel x, xmpRead c twoPages wholeFile fuel ≠ .ok x := by
  have hsecond : ∀ {fuel : Nat} {s : ReadState}, FrontLoops s.con [("/a", 0)] →
      cacheLoop s.con "/a" twoPages 1 2 fuel = .error .fuel :=
    fun h => h.other (by decide)
  refine ⟨(readPage default "/a" twoPages 0 2).1, rfl, fun fuel => ?_, fun fuel x hread => ?_⟩
  · rw [copies_wholeFile]
    refine ⟨fun c page hcall => ?_, fun s hs => ⟨fun c page hcall => ?_, fun _ _ => trivial⟩⟩
    · cases fuel with
      | zero => cases hcall
      | succ fuel =>
        cases hcall
        exact agreesWith_fillBuffer (n := 0) (by omega) _
    · cases (hsecond (frontLoops_wholeFile hs)).symm.trans hcall
  · rw [xmpRead_eq_copies, copies_wholeFile] at hread
    cases hout : outcome (PageCopy.exec wholeFile twoPages fuel)
        (wholeFile.begin (readPage default "/a" twoPages 0 2).1) [⟨0, 0, 1023⟩, ⟨1, 0, 1⟩] with
    | error e =>
      rw [hout] at hread
      cases hread
    | ok s' =>
      obtain ⟨s, hs, hrest⟩ := outcome_cons_eq_ok.mp hout
      obtain ⟨s₁, hs₁, -⟩ := outcome_cons_eq_ok.mp hrest
      obtain ⟨y, hcall, -⟩ := bind_eq_ok.mp hs₁
      cases (hsecond (frontLoops_wholeFile hs)).symm.trans hcall

end Cycology.PagedFs
