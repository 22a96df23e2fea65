import Cycology.PagedCache
import Cycology.Lib.Dll
import Cycology.Lib.Runs

/- The order of the cached pages.

   A run is a sequence of `cacheLoop` calls. Beside the list it carries what was
   requested and which buffer each request was given, the latest first, and after
   every call the list should be linked both ways and hold each requested page
   once, in the buffer it was given first, and the latest page at the front
   (`PagesListed`).

   A page found behind the front is moved there as it should be. A page found at
   the front is linked to itself, and every later search for another page runs in
   a circle. So the list is right throughout a run exactly if no page is requested
   twice in a row (`pages_listed_iff`). -/
namespace Cycology.PagedFs
open ByteMem LinkedChain DoublyLinked Runs.Fallible

/-! ## Runs -/

/-- What a page is cached under. -/
abbrev PageKey := String × Int

def Node.key (n : Node) : PageKey := (n.path, n.pageNum)

/-- The arguments of a `cacheLoop` call. -/
structure Request where
  path : String
  file : File
  pageNum : Int
  fileSizeInPages : Int

def Request.key (r : Request) : PageKey := (r.path, r.pageNum)

/-- The list, and the requests so far with the buffers they were given, the latest
    first. -/
structure Requests where
  con : LogSysCon
  given : List (PageKey × Ptr)

def Requests.step (fuel : Nat) (s : Requests) (r : Request) : Except Fault Requests := do
  let (c, page) ← cacheLoop s.con r.path r.file r.pageNum r.fileSizeInPages fuel
  .ok { con := c, given := (r.key, page) :: s.given }

/-- The list is linked both ways and holds every requested page once, in the buffer
    it was given first, with the latest one at the front. -/
def PagesListed (s : Requests) : Prop :=
  ∃ l tail, Dll (fun p => (s.con.nodes p).next) (fun p => (s.con.nodes p).prev) 0 s.con.head tail l ∧
    (l.map fun p => (s.con.nodes p).key).Nodup ∧
    (∀ k, k ∈ l.map (fun p => (s.con.nodes p).key) ↔ k ∈ s.given.map Prod.fst) ∧
    (∀ p ∈ l, s.given.reverse.lookup (s.con.nodes p).key = some (s.con.nodes p).page) ∧
    l.head?.map (fun p => (s.con.nodes p).key) = s.given.head?.map Prod.fst

/-- Every call returns, and the list is right before and after each. -/
def ListedThroughout (fuel : Nat) (s : Requests) (rs : List Request) : Prop :=
  (∃ s', outcome (Requests.step fuel) s rs = .ok s') ∧
    EveryState (Requests.step fuel) PagesListed s rs

/-! ## The links after a call -/

section
variable (c : LogSysCon) (p v q : Ptr) (f : Node → Node)

@[simp] theorem head_setNode : (c.setNode p f).head = c.head := rfl
@[simp] theorem pages_setNode : (c.setNode p f).pages = c.pages := rfl
@[simp] theorem brk_setNode : (c.setNode p f).brk = c.brk := rfl

theorem nodes_setNode : (c.setNode p f).nodes q = if q = p then f (c.nodes p) else c.nodes q := rfl

@[simp] theorem next_setNext :
    ((c.setNode p fun n => { n with next := v }).nodes q).next =
      if q = p then v else (c.nodes q).next := by
  rw [nodes_setNode]
  split <;> rfl

@[simp] theorem prev_setPrev :
    ((c.setNode p fun n => { n with prev := v }).nodes q).prev =
      if q = p then v else (c.nodes q).prev := by
  rw [nodes_setNode]
  split <;> rfl

theorem field_setNode {β : Type} (π : Node → β) (hf : ∀ n, π (f n) = π n) :
    π ((c.setNode p f).nodes q) = π (c.nodes q) := by
  rw [nodes_setNode]
  split
  · rename_i hq
    rw [hf, hq]
  · rfl

@[simp] theorem next_setPrev :
    ((c.setNode p fun n => { n with prev := v }).nodes q).next = (c.nodes q).next :=
  field_setNode c p q (fun n => { n with prev := v }) (·.next) fun _ => rfl

@[simp] theorem prev_setNext :
    ((c.setNode p fun n => { n with next := v }).nodes q).prev = (c.nodes q).prev :=
  field_setNode c p q (fun n => { n with next := v }) (·.prev) fun _ => rfl

/-- What a node holds, less its links. -/
def content (c : LogSysCon) (p : Ptr) : PageKey × Ptr := ((c.nodes p).key, (c.nodes p).page)

@[simp] theorem content_setNext :
    content (c.setNode p fun n => { n with next := v }) q = content c q :=
  field_setNode c p q (fun n => { n with next := v }) (fun n => (n.key, n.page)) fun _ => rfl

@[simp] theorem content_setPrev :
    content (c.setNode p fun n => { n with prev := v }) q = content c q :=
  field_setNode c p q (fun n => { n with prev := v }) (fun n => (n.key, n.page)) fun _ => rfl

end

/-- The nodes hold the same, and so do the buffers. -/
structure SameContents (c c' : LogSysCon) : Prop where
  content : ∀ q, content c' q = content c q
  pages : c'.pages = c.pages
  brk : c'.brk = c.brk

namespace SameContents
variable {c c' c'' : LogSysCon}

theorem refl (c : LogSysCon) : SameContents c c := ⟨fun _ => rfl, rfl, rfl⟩

theorem trans (h : SameContents c c') (h' : SameContents c' c'') : SameContents c c'' where
  content q := (h'.content q).trans (h.content q)
  pages := h'.pages.trans h.pages
  brk := h'.brk.trans h.brk

theorem setNext (c : LogSysCon) (p v : Ptr) :
    SameContents c (c.setNode p fun n => { n with next := v }) :=
  ⟨content_setNext c p v, rfl, rfl⟩

theorem setPrev (c : LogSysCon) (p v : Ptr) :
    SameContents c (c.setNode p fun n => { n with prev := v }) :=
  ⟨content_setPrev c p v, rfl, rfl⟩

theorem setHead (c : LogSysCon) (p : Ptr) : SameContents c { c with head := p } :=
  ⟨fun _ => rfl, rfl, rfl⟩

theorem ite (p : Prop) [Decidable p] (h : SameContents c c') (h' : SameContents c c'') :
    SameContents c (if p then c' else c'') := by
  split
  · exact h
  · exact h'

end SameContents

section
variable {c : LogSysCon} {a : Ptr}

theorem sameContents_moveToHead (c : LogSysCon) (a : Ptr) : SameContents c (moveToHead c a) := by
  unfold moveToHead
  dsimp only
  refine .trans ?_ (.setPrev _ _ _)
  have hback : SameContents c (if (c.nodes a).prev ≠ 0 then
      c.setNode (c.nodes a).prev fun n => { n with next := (c.nodes a).next } else c) :=
    .ite _ (.setNext _ _ _) (.refl _)
  refine .ite _ (.trans ?_ (.setPrev _ _ _)) ?_
  · refine .trans (.trans ?_ (.setHead _ _)) (.setNext _ _ _)
    exact hback.trans (.ite _ (.setPrev _ _ _) (.refl _))
  · refine .trans (.trans ?_ (.setHead _ _)) (.setNext _ _ _)
    exact hback.trans (.ite _ (.setPrev _ _ _) (.refl _))

theorem head_moveToHead (c : LogSysCon) (a : Ptr) : (moveToHead c a).head = a := by
  unfold moveToHead
  dsimp only
  rw [head_setNode, apply_ite LogSysCon.head]
  exact ite_self a

theorem links_moveToHead (hprev : (c.nodes a).prev ≠ 0) (hpa : (c.nodes a).prev ≠ a)
    (h0 : c.head ≠ 0) :
    (∀ q, ((moveToHead c a).nodes q).next =
      if q = a then c.head
      else if q = (c.nodes a).prev then (c.nodes a).next else (c.nodes q).next) ∧
    ∀ q, ((moveToHead c a).nodes q).prev =
      if q = a then 0
      else if q = c.head then a
      else if (c.nodes a).next ≠ 0 ∧ q = (c.nodes a).next then (c.nodes a).prev
      else (c.nodes q).prev := by
  by_cases hnext : (c.nodes a).next = 0
  · constructor
    · intro q
      simp [moveToHead, hprev, hnext, h0, Ne.symm hpa]
    · intro q
      simp [moveToHead, hprev, hnext, h0, Ne.symm hpa]
  · constructor
    · intro q
      simp [moveToHead, hprev, hnext, h0, Ne.symm hpa]
    · intro q
      simp [moveToHead, hprev, hnext, h0, Ne.symm hpa]

/-- The front page found again is linked to itself. -/
theorem next_moveToHead_head (hprev : (c.nodes a).prev = 0) (ha : c.head = a) (h0 : a ≠ 0) :
    ((moveToHead c a).nodes a).next = a := by
  by_cases hnext : (c.nodes a).next = 0
  · simp [moveToHead, hprev, hnext, ha, h0]
  · simp [moveToHead, hprev, hnext, ha, h0]

theorem prev_moveToHead_head (c : LogSysCon) (a : Ptr) :
    ((moveToHead c a).nodes (moveToHead c a).head).prev = 0 := by
  unfold moveToHead
  dsimp only
  rw [head_setNode, prev_setPrev]
  exact if_pos rfl

theorem sameContents_linkHead (c : LogSysCon) (a : Ptr) : SameContents c (linkHead c a) := by
  unfold linkHead
  dsimp only
  refine .trans ?_ (.setHead _ _)
  refine .trans ?_ (.setPrev _ _ _)
  exact .ite _ (.trans (.setNext _ _ _) (.setPrev _ _ _)) (.setNext _ _ _)

theorem links_linkHead (c : LogSysCon) (a : Ptr) :
    (∀ q, ((linkHead c a).nodes q).next = if q = a then c.head else (c.nodes q).next) ∧
    ∀ q, ((linkHead c a).nodes q).prev =
      if q = a then 0 else if c.head ≠ 0 ∧ q = c.head then a else (c.nodes q).prev := by
  by_cases h0 : c.head = 0
  · constructor
    · intro q
      simp [linkHead, h0]
    · intro q
      simp [linkHead, h0]
  · constructor
    · intro q
      simp [linkHead, h0]
    · intro q
      simp [linkHead, h0]

theorem readPage_spec {path : String} {f : File} {n m : Int} {c' : LogSysCon} {page : Ptr}
    (h : readPage c path f n m = (c', page)) :
    page = c.brk + 1 ∧ c'.head = c.brk + 2 ∧ c'.brk = c.brk + 2 ∧
    c'.pages = update c.pages (c.brk + 1) (fillBuffer (c.pages (c.brk + 1)) f n m) ∧
    (∀ q, content c' q = if q = c.brk + 2 then ((path, n), c.brk + 1) else content c q) ∧
    (∀ q, (c'.nodes q).next = if q = c.brk + 2 then c.head else (c.nodes q).next) ∧
    ∀ q, (c'.nodes q).prev =
      if q = c.brk + 2 then 0 else if c.head ≠ 0 ∧ q = c.head then c.brk + 2
      else (c.nodes q).prev := by
  cases h
  set c₀ : LogSysCon := { c with
    brk := c.brk + 1
    pages := update c.pages (c.brk + 1) (fillBuffer (c.pages (c.brk + 1)) f n m) }
  set new : Node → Node := fun node =>
    { node with path := path, pageNum := n, page := c.brk + 1 }
  set c₁ : LogSysCon := { c₀.setNode (c.brk + 2) new with brk := c.brk + 2 }
  have hnode : ∀ q, c₁.nodes q = if q = c.brk + 2 then new (c.nodes (c.brk + 2)) else c.nodes q :=
    fun q => nodes_setNode c₀ (c.brk + 2) q new
  have hnext : ∀ q, (c₁.nodes q).next = (c.nodes q).next :=
    fun q => field_setNode c₀ (c.brk + 2) q new (·.next) fun _ => rfl
  have hprev : ∀ q, (c₁.nodes q).prev = (c.nodes q).prev :=
    fun q => field_setNode c₀ (c.brk + 2) q new (·.prev) fun _ => rfl
  obtain ⟨hn, hp⟩ := links_linkHead c₁ (c.brk + 2)
  have hs := sameContents_linkHead c₁ (c.brk + 2)
  refine ⟨rfl, rfl, hs.brk, hs.pages, fun q => ?_, fun q => ?_, fun q => ?_⟩
  · refine (hs.content q).trans ?_
    unfold content
    rw [hnode]
    split
    · rfl
    · rfl
  · refine (hn q).trans ?_
    rw [hnext]
    rfl
  · refine (hp q).trans ?_
    rw [hprev]
    rfl

end

/-! ## What a call does -/

/-- The list `l` is linked both ways, holds no page twice, and lies below `brk`. -/
structure Listed (c : LogSysCon) (tail : Ptr) (l : List Ptr) : Prop where
  links : Dll (fun p => (c.nodes p).next) (fun p => (c.nodes p).prev) 0 c.head tail l
  keys : (l.map fun p => (c.nodes p).key).Nodup
  fresh : ∀ p ∈ l, p ≤ c.brk

section
variable {c c' : LogSysCon} {tail a page : Ptr} {l l₁ l₂ : List Ptr} {path : String} {n m : Int}
  {f : File} {fuel : Nat}

theorem findNode_found {p : Ptr} (hw : Walk (fun p => (c.nodes p).next) 0 p l)
    (hkeys : (l.map fun p => (c.nodes p).key).Nodup) (ha : a ∈ l)
    (hkey : (c.nodes a).key = (path, n)) (hf : l.length < fuel) :
    findNode c path n fuel p = .ok a := by
  induction l generalizing p fuel with
  | nil => cases ha
  | cons b l ih =>
    obtain ⟨fuel, rfl⟩ := Nat.exists_eq_succ_of_ne_zero (Nat.ne_of_gt (Nat.zero_lt_of_lt hf))
    obtain ⟨rfl, h0, hw⟩ := Walk.cons_iff.mp hw
    rw [List.map_cons, List.nodup_cons] at hkeys
    rw [findNode, if_neg h0]
    rcases List.mem_cons.mp ha with rfl | ha
    · have hcond : path = (c.nodes a).path ∧ n = (c.nodes a).pageNum := by
        rw [Node.key, Prod.mk.injEq] at hkey
        exact ⟨hkey.1.symm, hkey.2.symm⟩
      rw [if_pos hcond]
    · -- the page is further down, so not here as well
      have hcond : ¬ (path = (c.nodes p).path ∧ n = (c.nodes p).pageNum) := by
        rintro ⟨rfl, rfl⟩
        exact hkeys.1 (List.mem_map.mpr ⟨a, ha, hkey⟩)
      rw [if_neg hcond]
      exact ih hw hkeys.2 ha (by simpa using hf)

theorem findNode_none {p : Ptr} (hw : Walk (fun p => (c.nodes p).next) 0 p l)
    (hkey : (path, n) ∉ l.map fun p => (c.nodes p).key) (hf : l.length < fuel) :
    findNode c path n fuel p = .ok 0 := by
  induction l generalizing p fuel with
  | nil =>
    obtain ⟨fuel, rfl⟩ := Nat.exists_eq_succ_of_ne_zero (Nat.ne_of_gt hf)
    rw [findNode, if_pos (Walk.nil_iff.mp hw)]
  | cons b l ih =>
    obtain ⟨fuel, rfl⟩ := Nat.exists_eq_succ_of_ne_zero (Nat.ne_of_gt (Nat.zero_lt_of_lt hf))
    obtain ⟨rfl, h0, hw⟩ := Walk.cons_iff.mp hw
    rw [List.map_cons, List.mem_cons, not_or] at hkey
    rw [findNode, if_neg h0, if_neg]
    · exact ih hw hkey.2 (by simpa using hf)
    · rintro ⟨rfl, rfl⟩
      exact hkey.1 rfl

theorem cacheLoop_found (h : Listed c tail l) (ha : a ∈ l) (hkey : (c.nodes a).key = (path, n))
    (hf : l.length < fuel) :
    cacheLoop c path f n m fuel = .ok (moveToHead c a, (c.nodes a).page) := by
  have hfind := findNode_found h.links.walk h.keys ha hkey hf
  rw [cacheLoop, hfind]
  have ha0 : a ≠ 0 := h.links.ne_null ha
  show (if a ≠ 0 then _ else _) = _
  rw [if_pos ha0, head_moveToHead]
  have hpage := congrArg Prod.snd ((sameContents_moveToHead c a).content a)
  exact congrArg (fun p => Except.ok (moveToHead c a, p)) hpage

theorem cacheLoop_missing (h : Listed c tail l)
    (hkey : (path, n) ∉ l.map fun p => (c.nodes p).key) (hf : l.length < fuel) :
    cacheLoop c path f n m fuel = .ok (readPage c path f n m) := by
  rw [cacheLoop, findNode_none h.links.walk hkey hf]
  rfl

/-- The bound on the turns decides only whether there is a result. -/
theorem findNode_unique {fuel' : Nat} {p a b : Ptr} (h : findNode c path n fuel p = .ok a)
    (h' : findNode c path n fuel' p = .ok b) : a = b := by
  induction fuel generalizing p fuel' with
  | zero => cases h
  | succ fuel ih =>
    cases fuel' with
    | zero => cases h'
    | succ fuel' =>
      rw [findNode] at h h'
      by_cases h0 : p = 0
      · rw [if_pos h0] at h h'
        exact (Except.ok.inj h).symm.trans (Except.ok.inj h')
      rw [if_neg h0] at h h'
      by_cases hkey : path = (c.nodes p).path ∧ n = (c.nodes p).pageNum
      · rw [if_pos hkey] at h h'
        exact (Except.ok.inj h).symm.trans (Except.ok.inj h')
      · rw [if_neg hkey] at h h'
        exact ih h h'

theorem cacheLoop_unique {fuel' : Nat} {x y : LogSysCon × Ptr}
    (h : cacheLoop c path f n m fuel = .ok x) (h' : cacheLoop c path f n m fuel' = .ok y) :
    x = y := by
  obtain ⟨a, ha, hx⟩ := bind_eq_ok.mp h
  obtain ⟨b, hb, hy⟩ := bind_eq_ok.mp h'
  rw [findNode_unique ha hb] at hx
  exact Except.ok.inj (hx.symm.trans hy)

theorem keys_congr (h : ∀ q, content c' q = content c q) (l : List Ptr) :
    (l.map fun p => (c'.nodes p).key) = l.map fun p => (c.nodes p).key :=
  List.map_congr_left fun p _ => congrArg Prod.fst (h p)

theorem Listed.moveToHead (h : Listed c tail (l₁ ++ a :: l₂)) (hl₁ : l₁ ≠ []) :
    ∃ tail', Listed (moveToHead c a) tail' (a :: (l₁ ++ l₂)) := by
  have hs := sameContents_moveToHead c a
  have hnd := h.links.nodup
  obtain ⟨ha0, h₁, h₂⟩ := Dll.at_iff.mp h.links
  rw [List.nodup_middle, List.nodup_cons, List.nodup_append] at hnd
  obtain ⟨hnin, -, -, hdisj⟩ := hnd
  have hprev : (c.nodes a).prev ∈ l₁ := h₁.last_mem hl₁
  have hhead : c.head ∈ l₁ := h₁.first_mem hl₁
  have hne : ∀ x ∈ l₁ ++ l₂, x ≠ a := fun x hx hxa => hnin (hxa ▸ hx)
  have hnext : (c.nodes a).next ≠ 0 → (c.nodes a).next ∈ l₂ := fun h0 => by
    refine h₂.first_mem ?_
    rintro rfl
    exact h0 h₂.1
  obtain ⟨hn, hp⟩ := links_moveToHead (h₁.ne_null hprev) (hne _ (by simp [hprev]))
    (h₁.ne_null hhead)
  refine ⟨if l₂ = [] then (c.nodes a).prev else tail, ?_, ?_, fun p hp' => ?_⟩
  · rw [head_moveToHead]
    refine h.links.move_to_front hl₁ (fun x hx hxp => ?_) ?_ (fun x hx hxn hxh => ?_)
      (fun h0 => ?_) ?_ ?_ ?_ rfl
    · rw [hn, if_neg (hne x hx), if_neg hxp]
    · rw [hn, if_neg (hne _ (by simp [hprev])), if_pos rfl]
    · rw [hp, if_neg (hne x hx), if_neg hxh, if_neg (fun hc => hxn hc.2)]
    · have hnl := hnext h0
      rw [hp, if_neg (hne _ (by simp [hnl])), if_neg (hdisj _ hhead _ hnl).symm, if_pos ⟨h0, rfl⟩]
    · rw [hn, if_pos rfl]
    · rw [hp, if_pos rfl]
    · rw [hp, if_neg (hne _ (by simp [hhead])), if_pos rfl]
  · rw [keys_congr hs.content]
    refine (List.Perm.nodup_iff ?_).mp h.keys
    exact List.Perm.map _ List.perm_middle
  · rw [hs.brk]
    refine h.fresh p ?_
    simp only [List.mem_cons, List.mem_append] at hp' ⊢
    tauto

theorem Listed.readPage (h : Listed c tail l) (hkey : (path, n) ∉ l.map fun p => (c.nodes p).key)
    (hread : readPage c path f n m = (c', page)) :
    ∃ tail', Listed c' tail' ((c.brk + 2) :: l) := by
  obtain ⟨-, hhead, hbrk, -, hcontent, hn, hp⟩ := readPage_spec hread
  have hne : ∀ x ∈ l, x ≠ c.brk + 2 := fun x hx =>
    Nat.ne_of_lt (Nat.lt_succ_of_le (Nat.le_succ_of_le (h.fresh x hx)))
  refine ⟨if l = [] then c.brk + 2 else tail, ?_, ?_, fun p hp' => ?_⟩
  · rw [hhead]
    refine h.links.push_front (Nat.succ_ne_zero _) ?_ ?_ (fun x hx => ?_) (fun x hx hxh => ?_)
      (fun h0 => ?_) rfl
    · rw [hn, if_pos rfl]
    · rw [hp, if_pos rfl]
    · rw [hn, if_neg (hne x hx)]
    · rw [hp, if_neg (hne x hx), if_neg (fun hc => hxh hc.2)]
    · have hmem : c.head ∈ l := Seg.first_mem h.links (fun hl => h0 (h.links.eq_nil_iff.mp hl))
      rw [hp, if_neg (hne _ hmem), if_pos ⟨h0, rfl⟩]
  · have hold : ∀ x ∈ l, (c'.nodes x).key = (c.nodes x).key := fun x hx => by
      have hx' := hcontent x
      rw [if_neg (hne x hx)] at hx'
      exact congrArg Prod.fst hx'
    have hnew : (c'.nodes (c.brk + 2)).key = (path, n) := by
      have hx' := hcontent (c.brk + 2)
      rw [if_pos rfl] at hx'
      exact congrArg Prod.fst hx'
    rw [List.map_cons, hnew, List.map_congr_left hold]
    exact List.nodup_cons.mpr ⟨hkey, h.keys⟩
  · rw [hbrk]
    rcases List.mem_cons.mp hp' with rfl | hp'
    · exact le_refl _
    · exact Nat.le_add_right_of_le (h.fresh p hp')

end

/-! ## What a run does -/

/-- The page requested last. -/
def Requests.lastKey (s : Requests) : Option PageKey := s.given.head?.map Prod.fst

/-- The list as `PagesListed` describes it. -/
structure Requests.Holds (s : Requests) (tail : Ptr) (l : List Ptr) : Prop
    extends Listed s.con tail l where
  requested : ∀ k, k ∈ l.map (fun p => (s.con.nodes p).key) ↔ k ∈ s.given.map Prod.fst
  first : ∀ p ∈ l, s.given.reverse.lookup (s.con.nodes p).key = some (s.con.nodes p).page
  front : l.head?.map (fun p => (s.con.nodes p).key) = s.lastKey
  length : l.length ≤ s.given.length

namespace Requests.Holds
variable {s s' : Requests} {tail : Ptr} {l : List Ptr} {r : Request} {fuel : Nat}

theorem pagesListed (h : s.Holds tail l) : PagesListed s :=
  ⟨l, tail, h.links, h.keys, h.requested, h.first, h.front⟩

theorem empty {c : LogSysCon} (hc : c.head = 0) :
    Requests.Holds { con := c, given := [] } 0 [] :=
  ⟨⟨⟨hc, rfl⟩, List.nodup_nil, fun _ hp => absurd hp List.not_mem_nil⟩, fun _ => Iff.rfl,
    fun _ hp => absurd hp List.not_mem_nil, rfl, le_refl 0⟩

/-- A page further down the list is requested: its node is moved to the front. -/
theorem step_found (h : s.Holds tail l) (hne : s.lastKey ≠ some r.key)
    (hmem : r.key ∈ l.map fun p => (s.con.nodes p).key) (hf : l.length < fuel) :
    ∃ s' tail' l', Requests.step fuel s r = .ok s' ∧ s'.Holds tail' l' ∧
      s'.lastKey = some r.key ∧ s'.given.length = s.given.length + 1 := by
  obtain ⟨a, ha, hkey⟩ := List.mem_map.mp hmem
  have hcall := cacheLoop_found (f := r.file) (m := r.fileSizeInPages) h.toListed ha hkey hf
  obtain ⟨l₁, l₂, rfl⟩ := List.append_of_mem ha
  have hl₁ : l₁ ≠ [] := by
    rintro rfl
    exact hne (h.front.symm.trans (congrArg some hkey))
  obtain ⟨tail', hl'⟩ := h.toListed.moveToHead hl₁
  have hcontent := (sameContents_moveToHead s.con a).content
  have hkeys : ∀ q, ((moveToHead s.con a).nodes q).key = (s.con.nodes q).key :=
    fun q => congrArg Prod.fst (hcontent q)
  refine ⟨⟨moveToHead s.con a, (r.key, (s.con.nodes a).page) :: s.given⟩, tail', _, ?_,
    ⟨hl', fun k => ?_, fun p hp => ?_, ?_, ?_⟩, rfl, rfl⟩
  · rw [Requests.step, hcall]
    rfl
  · dsimp only
    rw [keys_congr hcontent, (List.perm_middle.map _).symm.mem_iff, h.requested, List.map_cons,
      List.mem_cons]
    constructor
    · exact .inr
    · rintro (rfl | hk)
      · exact (h.requested _).mp hmem
      · exact hk
  · have hp' : p ∈ l₁ ++ a :: l₂ := List.perm_middle.mem_iff.mpr hp
    have hpage : ((moveToHead s.con a).nodes p).page = (s.con.nodes p).page :=
      congrArg Prod.snd (hcontent p)
    dsimp only
    rw [List.reverse_cons, List.lookup_append, hkeys, hpage, h.first p hp', Option.some_or]
  · exact congrArg some ((hkeys a).trans hkey)
  · have hlen := h.length
    simp only [List.length_append, List.length_cons] at hlen ⊢
    omega

/-- A page that is not in the list is requested: a new node is put in front. -/
theorem step_missing (h : s.Holds tail l) (hmem : r.key ∉ l.map fun p => (s.con.nodes p).key)
    (hf : l.length < fuel) :
    ∃ s' tail' l', Requests.step fuel s r = .ok s' ∧ s'.Holds tail' l' ∧
      s'.lastKey = some r.key ∧ s'.given.length = s.given.length + 1 := by
  have hcall := cacheLoop_missing (f := r.file) (m := r.fileSizeInPages) h.toListed hmem hf
  obtain ⟨⟨c', page⟩, hread⟩ : ∃ x, readPage s.con r.path r.file r.pageNum r.fileSizeInPages = x :=
    ⟨_, rfl⟩
  rw [hread] at hcall
  obtain ⟨tail', hl'⟩ := h.toListed.readPage hmem hread
  obtain ⟨hpage, -, -, -, hcontent, -⟩ := readPage_spec hread
  have hold : ∀ x ∈ l, content c' x = content s.con x := fun x hx => by
    rw [hcontent, if_neg]
    exact Nat.ne_of_lt (Nat.lt_succ_of_le (Nat.le_succ_of_le (h.fresh x hx)))
  have hnew : content c' (s.con.brk + 2) = (r.key, page) := by
    rw [hcontent, if_pos rfl, hpage]
    rfl
  have hkeys : (l.map fun p => (c'.nodes p).key) = l.map fun p => (s.con.nodes p).key :=
    List.map_congr_left fun x hx => congrArg Prod.fst (hold x hx)
  have hnewkey : (c'.nodes (s.con.brk + 2)).key = r.key := congrArg Prod.fst hnew
  have hnone : s.given.reverse.lookup r.key = none := by
    rw [List.lookup_eq_none_iff]
    intro kp hkp
    have hne' : r.key ≠ kp.1 := fun heq =>
      hmem ((h.requested _).mpr (List.mem_map.mpr ⟨kp, List.mem_reverse.mp hkp, heq.symm⟩))
    simpa using hne'
  refine ⟨⟨c', (r.key, page) :: s.given⟩, tail', _, ?_, ⟨hl', fun k => ?_, fun p hp => ?_, ?_, ?_⟩,
    rfl, rfl⟩
  · rw [Requests.step, hcall]
    rfl
  · dsimp only
    rw [List.map_cons, hkeys, hnewkey, List.mem_cons, h.requested, List.map_cons, List.mem_cons]
  · dsimp only
    rw [List.reverse_cons, List.lookup_append]
    rcases List.mem_cons.mp hp with rfl | hp
    · rw [hnewkey, hnone, Option.none_or, List.lookup_cons_self]
      exact congrArg some (congrArg Prod.snd hnew).symm
    · have hkey : (c'.nodes p).key = (s.con.nodes p).key := congrArg Prod.fst (hold p hp)
      have hpg : (c'.nodes p).page = (s.con.nodes p).page := congrArg Prod.snd (hold p hp)
      rw [hkey, hpg, h.first p hp, Option.some_or]
  · exact congrArg some hnewkey
  · exact Nat.succ_le_succ h.length

theorem step (h : s.Holds tail l) (hne : s.lastKey ≠ some r.key) (hf : s.given.length < fuel) :
    ∃ s' tail' l', Requests.step fuel s r = .ok s' ∧ s'.Holds tail' l' ∧
      s'.lastKey = some r.key ∧ s'.given.length = s.given.length + 1 := by
  have hf' : l.length < fuel := lt_of_le_of_lt h.length hf
  by_cases hmem : r.key ∈ l.map fun p => (s.con.nodes p).key
  · exact h.step_found hne hmem hf'
  · exact h.step_missing hmem hf'

/-- The last page is requested again: its node leads to itself. -/
theorem step_again (h : s.Holds tail l) (heq : s.lastKey = some r.key)
    (hf : s.given.length < fuel) :
    ∃ s', Requests.step fuel s r = .ok s' ∧ ¬ PagesListed s' := by
  have hf' : l.length < fuel := lt_of_le_of_lt h.length hf
  cases l with
  | nil =>
    have hfront := h.front
    rw [heq] at hfront
    cases hfront
  | cons a l =>
    have hkey : (s.con.nodes a).key = r.key := Option.some.inj (h.front.trans heq)
    have hcall := cacheLoop_found (f := r.file) (m := r.fileSizeInPages) h.toListed
      List.mem_cons_self hkey hf'
    have ha0 : a ≠ 0 := h.links.ne_null List.mem_cons_self
    refine ⟨⟨moveToHead s.con a, (r.key, (s.con.nodes a).page) :: s.given⟩, ?_, ?_⟩
    · rw [Requests.step, hcall]
      rfl
    · rintro ⟨l', t, hd, -⟩
      have hw := hd.walk
      rw [show (moveToHead s.con a).head = a from head_moveToHead _ _] at hw
      have hloop := next_moveToHead_head h.links.prev_head h.links.head_eq ha0
      cases l' with
      | nil => exact ha0 (Walk.nil_iff.mp hw)
      | cons b l' =>
        obtain ⟨rfl, -, ht⟩ := Walk.cons_iff.mp hw
        refine Walk.not_mem_of_next ha0 ht ?_
        rw [show ((moveToHead s.con a).nodes a).next = a from hloop] at ht
        cases l' with
        | nil => exact absurd (Walk.nil_iff.mp ht) ha0
        | cons b l' => exact (Walk.cons_iff.mp ht).1 ▸ List.mem_cons_self

end Requests.Holds

theorem listedThroughout_cons {fuel : Nat} {s s' : Requests} {r : Request} {rs : List Request}
    (h : Requests.step fuel s r = .ok s') :
    ListedThroughout fuel s (r :: rs) ↔ PagesListed s ∧ ListedThroughout fuel s' rs := by
  unfold ListedThroughout
  rw [EveryState]
  constructor
  · rintro ⟨⟨s'', hrun⟩, hl, hrest⟩
    obtain ⟨t, ht, hrun⟩ := outcome_cons_eq_ok.mp hrun
    obtain rfl := Except.ok.inj (h.symm.trans ht)
    exact ⟨hl, ⟨s'', hrun⟩, hrest _ h⟩
  · rintro ⟨hl, ⟨s'', hrun⟩, hrest⟩
    refine ⟨⟨s'', outcome_cons_eq_ok.mpr ⟨s', h, hrun⟩⟩, hl, fun t ht => ?_⟩
    obtain rfl := Except.ok.inj (h.symm.trans ht)
    exact hrest

/-- No page is requested twice in a row. -/
def NoRepeats (rs : List Request) : Prop := (rs.map Request.key).IsChain (· ≠ ·)

theorem listedThroughout_iff_chain {fuel : Nat} {s : Requests} {tail : Ptr} {l : List Ptr}
    {rs : List Request} (h : s.Holds tail l) (hf : s.given.length + rs.length < fuel) :
    ListedThroughout fuel s rs ↔
      (s.lastKey.toList ++ rs.map Request.key).IsChain (· ≠ ·) := by
  induction rs generalizing s tail l with
  | nil =>
    refine ⟨fun _ => ?_, fun _ => ⟨⟨s, rfl⟩, h.pagesListed⟩⟩
    cases s.lastKey with
    | none => simp
    | some k => simp
  | cons r rs ih =>
    rw [List.length_cons] at hf
    by_cases heq : s.lastKey = some r.key
    · obtain ⟨s', hstep, hnot⟩ := h.step_again heq (show s.given.length < fuel by omega)
      rw [listedThroughout_cons hstep, heq]
      refine iff_of_false (fun hl => hnot ?_) fun hc => ?_
      · cases rs with
        | nil => exact hl.2.2
        | cons r' rs => exact hl.2.2.1
      · exact (List.isChain_cons_cons.mp hc).1 rfl
    · obtain ⟨s', tail', l', hstep, h', hlast, hlen⟩ :=
        h.step heq (show s.given.length < fuel by omega)
      rw [listedThroughout_cons hstep, ih h' (by omega), hlast]
      cases hk : s.lastKey with
      | none =>
        refine ⟨fun hl => hl.2, fun hl => ⟨h.pagesListed, hl⟩⟩
      | some k =>
        have hne : k ≠ r.key := fun hkr => heq (by rw [hk, hkr])
        refine ⟨fun hl => List.isChain_cons_cons.mpr ⟨hne, hl.2⟩, fun hl => ⟨h.pagesListed, ?_⟩⟩
        exact (List.isChain_cons_cons.mp hl).2

/-- Starting from the empty list, every call of a run returns and leaves the list
    right, exactly if no page is requested twice in a row. -/
theorem pages_listed_iff {c : LogSysCon} (hc : c.head = 0) {rs : List Request} {fuel : Nat}
    (hf : rs.length < fuel) :
    ListedThroughout fuel { con := c, given := [] } rs ↔ NoRepeats rs := by
  exact listedThroughout_iff_chain (Requests.Holds.empty hc) (by simpa using hf)

/-- A request for a page of an empty file. -/
def emptyPage (n : Int) : Request :=
  { path := "/a", file := File.empty, pageNum := n, fileSizeInPages := 0 }

theorem pages_listed_in_turns :
    ListedThroughout 9 { con := default, given := [] } [emptyPage 0, emptyPage 1, emptyPage 0] :=
  (pages_listed_iff rfl (by decide)).mpr (by simp [NoRepeats, Request.key, emptyPage])

theorem pages_not_listed_again :
    ¬ ListedThroughout 9 { con := default, given := [] } [emptyPage 0, emptyPage 0] := by
  rw [listedThroughout_iff_chain (Requests.Holds.empty rfl) (by decide)]
  simp [Requests.lastKey]

end Cycology.PagedFs
