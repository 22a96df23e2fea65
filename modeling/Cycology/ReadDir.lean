import Cycology.Lib.Records

/- Directories: `xmp_opendir` and `xmp_readdir` of `passthroughBlocked_fh.c`, and the part
   of libfuse between them and the kernel.

   The kernel asks for a directory in requests of a bounded size. libfuse has a handle
   for each open directory (`struct fuse_dh`), with the bytes of the reply and a list for
   file systems that give no offsets. It calls `xmp_readdir` with a filler, which puts one
   entry into the reply and says when there is no room. `xmp_readdir` keeps the entry there
   was no room for, and the offset it would be read from.

   The directory below is the C library's: its entries do not change while it is open.
   Memory never runs out, and the path of the directory is known to libfuse. -/
namespace Cycology.ReadDir
open Records

/-! ## The C library -/

/-- A name in a `struct dirent` is at most 255 bytes. -/
structure Dirent where
  ino : UInt64
  type : UInt8
  name : List UInt8
  short : name.length < 256

/-- An open directory. `telldir` gives a location for each position, and `seekdir` goes
    back to it; a directory is opened at the location 0. -/
structure Directory where
  entries : List Dirent
  telldir : Nat → Int64
  seekdir : Int64 → Nat
  seek_tell : ∀ k ≤ entries.length, seekdir (telldir k) = k
  tell_zero : telldir 0 = 0

/-- `struct stat`; what only `fill_entry` reads of it is in `rest`. -/
structure Stat where
  ino : UInt64
  mode : UInt32
  rest : List Int

/-! ## `passthroughBlocked_fh.c` -/

/-- `struct xmp_dirp`; `dp` is the position of the open directory. -/
structure Dirp where
  dp : Nat
  entry : Option Dirent
  offset : Int64

def xmpOpendir : Dirp := { dp := 0, entry := none, offset := 0 }

/-- A filler: the buffer, the name, the attributes, the offset, and whether
    `FUSE_FILL_DIR_PLUS` is set. It answers whether the buffer is full. -/
abbrev Filler (β : Type) := β → List UInt8 → Stat → Int64 → Bool → β × Bool

/-- The entry in hand, or the next one. -/
def nextEntry (dir : Directory) (d : Dirp) : Dirp × Option Dirent :=
  match d.entry with
  | some e => (d, some e)
  | none =>
    match dir.entries[d.dp]? with
    | some e => ({ d with dp := d.dp + 1, entry := some e }, some e)
    | none => (d, none)

/-- The attributes for the filler, and whether they are those of the file. -/
def statOf (fstatat : List UInt8 → Option Stat) (plus : Bool) (e : Dirent) : Stat × Bool :=
  let st : Stat := { ino := e.ino, mode := e.type.toUInt32 <<< 12, rest := [] }
  if plus then
    match fstatat e.name with
    | some found => (found, true)
    | none => (st, false)
  else (st, false)

/-- What is left to read: two for each entry, and one for the entry in hand. -/
def Dirp.left (dir : Directory) (d : Dirp) : Nat :=
  2 * (dir.entries.length - d.dp) + if d.entry.isSome then 1 else 0

theorem nextEntry_left {dir : Directory} {d d' : Dirp} {e : Dirent} {offset : Int64}
    (h : nextEntry dir d = (d', some e)) :
    { d' with entry := none, offset := offset : Dirp }.left dir < d.left dir := by
  unfold nextEntry at h
  unfold Dirp.left
  split at h
  · rename_i hentry
    obtain ⟨rfl, -⟩ := Prod.mk.inj h
    simp [hentry]
  · rename_i hnone
    split at h
    · rename_i hsome
      obtain ⟨rfl, -⟩ := Prod.mk.inj h
      obtain ⟨hlt, -⟩ := List.getElem?_eq_some_iff.mp hsome
      simp only [hnone, Option.isSome_none, Bool.false_eq_true, if_false]
      omega
    · cases (Prod.mk.inj h).2

/-- The loop of `xmp_readdir`. -/
def readdirLoop {β : Type} (dir : Directory) (fstatat : List UInt8 → Option Stat)
    (filler : Filler β) (plus : Bool) (buf : β) (d : Dirp) : β × Dirp :=
  match _h : nextEntry dir d with
  | (d', none) => (buf, d')
  | (d', some e) =>
    let nextoff := dir.telldir d'.dp
    let (buf, full) := filler buf e.name (statOf fstatat plus e).1 nextoff (statOf fstatat plus e).2
    if full then (buf, d')
    else readdirLoop dir fstatat filler plus buf { d' with entry := none, offset := nextoff }
termination_by d.left dir
decreasing_by exact nextEntry_left _h

/-- `xmp_readdir`; it returns 0. -/
def xmpReaddir {β : Type} (dir : Directory) (fstatat : List UInt8 → Option Stat) (d : Dirp)
    (buf : β) (filler : Filler β) (offset : Int64) (plus : Bool) : β × Dirp :=
  let d :=
    if offset ≠ d.offset then { dp := dir.seekdir offset, entry := none, offset := offset } else d
  readdirLoop dir fstatat filler plus buf d

/-! ## `fuse_lowlevel.c` -/

def FUSE_NAME_OFFSET : Nat := 24
def FUSE_NAME_OFFSET_DIRENTPLUS : Nat := 152
def FUSE_DIRENT_ALIGN (x : Nat) : Nat := (x + 7) / 8 * 8

/-- The bytes of a `struct fuse_entry_out`. -/
structure EntryOut where
  bytes : List UInt8
  size : bytes.length = 128

/-- `struct fuse_entry_param`; what only `fill_entry` reads of it is in `rest`. -/
structure EntryParam where
  ino : UInt64
  attr : Stat
  rest : List Int

/-- A `struct fuse_dirent` with its name, and zeros up to the next one. -/
def dirent (ino : UInt64) (off : Int64) (type : UInt32) (name : List UInt8) (pad : Nat) :
    List UInt8 :=
  leBytes 8 ino.toNat ++ leBytes 8 off.toUInt64.toNat ++ leBytes 4 name.length ++
    leBytes 4 type.toNat ++ name ++ List.replicate pad 0

/-- `fuse_add_direntry`: what is written, and the size it has or would have. -/
def fuseAddDirentry (bufsize : Nat) (name : List UInt8) (stbuf : Stat) (off : Int64) :
    List UInt8 × Nat :=
  let entlen := FUSE_NAME_OFFSET + name.length
  let padded := FUSE_DIRENT_ALIGN entlen
  if padded > bufsize then ([], padded)
  else
    (dirent stbuf.ino off ((stbuf.mode &&& 0o170000) >>> 12) name (padded - entlen), padded)

/-- `fuse_add_direntry_plus`. -/
def fuseAddDirentryPlus (fillEntry : EntryParam → EntryOut) (bufsize : Nat) (name : List UInt8)
    (e : EntryParam) (off : Int64) : List UInt8 × Nat :=
  let entlen := FUSE_NAME_OFFSET_DIRENTPLUS + name.length
  let padded := FUSE_DIRENT_ALIGN entlen
  if padded > bufsize then ([], padded)
  else
    ((fillEntry e).bytes ++
      dirent e.attr.ino off ((e.attr.mode &&& 0o170000) >>> 12) name (padded - entlen), padded)

/-! ## `fuse.c` -/

def EIO : Int := 5
def FUSE_UNKNOWN_INO : UInt64 := 0xffffffff

/-- The two options of `struct fuse_config` that the fillers read. -/
structure FuseConfig where
  useIno : Bool
  readdirIno : Bool

/-- What is answered to one request about the files of the directory: `fstatat`,
    `lookup_nodeid`, `do_lookup` and `fill_entry`. -/
structure Around where
  fstatat : List UInt8 → Option Stat
  lookupNodeid : List UInt8 → UInt64
  doLookup : List UInt8 → EntryParam → Int × EntryParam
  fillEntry : EntryParam → EntryOut

/-- `struct fuse_direntry`. -/
structure Direntry where
  name : List UInt8
  stat : Stat

/-- `struct fuse_dh`; `contents` has the first `len` bytes, and `first` the list. -/
structure Dh where
  contents : List UInt8
  first : List Direntry
  needlen : Nat
  filled : Bool
  error : Int

/-- The end of both fillers: an entry with an offset goes into the reply, one without into
    the list. -/
def addEntry (dh : Dh) (off : Int64) (add : Nat → List UInt8 × Nat) (de : Direntry) : Dh × Bool :=
  if off ≠ 0 then
    if dh.first ≠ [] then ({ dh with error := - EIO }, true)
    else
      let dh := { dh with filled := false }
      let (written, thislen) := add (dh.needlen - dh.contents.length)
      let newlen := dh.contents.length + thislen
      if newlen > dh.needlen then (dh, true)
      else ({ dh with contents := dh.contents ++ written }, false)
  else if dh.filled = false then ({ dh with error := - EIO }, true)
  else ({ dh with first := dh.first ++ [de] }, false)

/-- The inode number `fill_dir` gives. -/
def direntIno (conf : FuseConfig) (around : Around) (name : List UInt8) (st : Stat) : UInt64 :=
  if conf.useIno then st.ino
  else if conf.readdirIno then around.lookupNodeid name
  else FUSE_UNKNOWN_INO

/-- `fill_dir`. -/
def fillDir (conf : FuseConfig) (around : Around) : Filler Dh := fun dh name st off _ =>
  let stbuf := { st with ino := direntIno conf around name st }
  addEntry dh off (fun bufsize => fuseAddDirentry bufsize name stbuf off) ⟨name, stbuf⟩

def isDotOrDotdot (name : List UInt8) : Bool := name = [46] ∨ name = [46, 46]

/-- What `fill_dir_plus` finds out about an entry. -/
def lookUp (conf : FuseConfig) (around : Around) (name : List UInt8) (st : Stat) (off : Int64)
    (plus : Bool) : Int × EntryParam :=
  if off ≠ 0 ∧ plus then
    let e : EntryParam := { ino := 0, attr := st, rest := [] }
    if isDotOrDotdot name then (0, e) else around.doLookup name e
  else
    let ino :=
      if conf.useIno = false ∧ conf.readdirIno then around.lookupNodeid name else FUSE_UNKNOWN_INO
    (0, { ino := 0, attr := { ino := ino, mode := 0, rest := [] }, rest := [] })

/-- `fill_dir_plus`. -/
def fillDirPlus (conf : FuseConfig) (around : Around) : Filler Dh := fun dh name st off plus =>
  let (res, e) := lookUp conf around name st off plus
  if res ≠ 0 then ({ dh with error := res }, true)
  else
    addEntry dh off (fun bufsize => fuseAddDirentryPlus around.fillEntry bufsize name e off)
      ⟨name, e.attr⟩

/-- An open directory of libfuse, with what `fh` is a pointer to. -/
structure Handle where
  dh : Dh
  fh : Dirp

/-- What `fuse_lib_opendir` leaves. -/
def fuseLibOpendir : Handle :=
  { dh := { contents := [], first := [], needlen := 0, filled := false, error := 0 }
    fh := xmpOpendir }

/-- A `FUSE_READDIR` or a `FUSE_READDIRPLUS`. -/
structure Request where
  off : Int64
  size : Nat
  plus : Bool
  around : Around

/-- The bytes, or the error. -/
abbrev Reply := Except Int (List UInt8)

def Request.filler (conf : FuseConfig) (r : Request) : Filler Dh :=
  if r.plus then fillDirPlus conf r.around else fillDir conf r.around

/-- `readdir_fill`: the handle, and the error. -/
def readdirFill (dir : Directory) (conf : FuseConfig) (h : Handle) (r : Request) : Handle × Int :=
  let dh := { contents := [], first := [], needlen := r.size, filled := true, error := 0 }
  let (dh, fh) := xmpReaddir dir r.around.fstatat h.fh dh (r.filler conf) r.off r.plus
  let err := dh.error
  ({ dh := if err ≠ 0 then { dh with filled := false } else dh, fh := fh }, err)

/-- The loop of `readdir_fill_from_list`, from the position `pos`. -/
def listLoop (r : Request) (dh : Dh) (pos : Int64) : List Direntry → Dh
  | [] => dh
  | de :: rest =>
    let pos := pos + 1
    let bufsize := dh.needlen - dh.contents.length
    let (written, thislen) :=
      if r.plus then
        fuseAddDirentryPlus r.around.fillEntry bufsize de.name
          { ino := 0, attr := de.stat, rest := [] } pos
      else fuseAddDirentry bufsize de.name de.stat pos
    let newlen := dh.contents.length + thislen
    if newlen > dh.needlen then dh
    else listLoop r { dh with contents := dh.contents ++ written } pos rest

/-- The list from the offset on, and the position reached. -/
def skipTo (off pos : Int64) : List Direntry → Int64 × List Direntry
  | [] => (pos, [])
  | de :: rest => if pos < off then skipTo off (pos + 1) rest else (pos, de :: rest)

/-- `readdir_fill_from_list`. -/
def readdirFillFromList (r : Request) (dh : Dh) : Dh :=
  let (pos, rest) := skipTo r.off 0 dh.first
  listLoop r { dh with contents := [] } pos rest

/-- `fuse_readdir_common`. -/
def fuseReaddirCommon (dir : Directory) (conf : FuseConfig) (h : Handle) (r : Request) :
    Handle × Reply :=
  let dh := if r.off = 0 then { h.dh with filled := false } else h.dh
  let (h, err) := if dh.filled = false then readdirFill dir conf { h with dh := dh } r else (h, 0)
  if err ≠ 0 then (h, .error err)
  else if h.dh.filled then
    let dh := readdirFillFromList r { h.dh with needlen := r.size }
    ({ h with dh := dh }, .ok dh.contents)
  else (h, .ok h.dh.contents)

end Cycology.ReadDir
