import Mathlib.Tactic

/- Byte buffers, C integers stored in them, and POSIX files.

   A `Buf n` is `n` bytes of memory; a `File` is a byte string that grows when
   it is written past its end. Both read as zero past their end, so two of them
   are equal as soon as their bytes are. A C `int` is an `Int` kept in range by
   `cint`, and is stored as four bytes, least significant first. An `Fd` is an
   open file with its offset; `lseek`, `read` and `write` are the system calls
   on a file that is never short of space. -/
namespace ByteMem

/-! ## C integers -/

/-- The value an `int` variable holds after it is assigned `v`. -/
def cint (v : Int) : Int :=
  let r := v % 4294967296
  if 2147483648 ≤ r then r - 4294967296 else r

/-- `v` is representable as an `int`. -/
def IsInt (v : Int) : Prop := -2147483648 ≤ v ∧ v < 2147483648

instance (v : Int) : Decidable (IsInt v) := inferInstanceAs (Decidable (_ ∧ _))

theorem isInt_cint (v : Int) : IsInt (cint v) := by
  unfold IsInt cint; dsimp only; split <;> omega

theorem cint_eq {v : Int} (h : IsInt v) : cint v = v := by
  unfold IsInt at h; unfold cint; dsimp only; split <;> omega

@[simp] theorem cint_cint (v : Int) : cint (cint v) = cint v := cint_eq (isInt_cint v)

theorem cint_emod (v : Int) : cint v % 4294967296 = v % 4294967296 := by
  unfold cint; dsimp only; split <;> omega

theorem cint_eq_emod (v : Int) : cint v = (v + 2147483648) % 4294967296 - 2147483648 := by
  unfold cint; dsimp only; split <;> omega

theorem cint_eq_cint_iff (v w : Int) : cint v = cint w ↔ v % 4294967296 = w % 4294967296 := by
  rw [cint_eq_emod, cint_eq_emod]
  omega

@[simp] theorem cint_zero : cint 0 = 0 := rfl

/-! ## Buffers -/

/-- `n` bytes of memory. -/
@[ext] structure Buf (n : Nat) where
  byte : Nat → UInt8
  zero_past : ∀ i, n ≤ i → byte i = 0

namespace Buf
variable {n m : Nat}

theorem ext_lt {a b : Buf n} (h : ∀ i, i < n → a.byte i = b.byte i) : a = b := by
  apply Buf.ext
  funext i
  by_cases hi : i < n
  · exact h i hi
  · rw [a.zero_past i (by omega), b.zero_past i (by omega)]

/-- The buffer whose bytes are the first `n` values of `f`. -/
def ofFn (n : Nat) (f : Nat → UInt8) : Buf n where
  byte i := if i < n then f i else 0
  zero_past i hi := by rw [if_neg (by omega)]

/-- `memset(b, 0, n)`. -/
def zero (n : Nat) : Buf n := ofFn n (fun _ => 0)

instance : Inhabited (Buf n) := ⟨zero n⟩

/-- `memcpy(b + off, src, len)`; what would fall past the end is dropped. -/
def blit (b : Buf n) (off len : Nat) (src : Nat → UInt8) : Buf n where
  byte i := if off ≤ i ∧ i < off + len ∧ i < n then src (i - off) else b.byte i
  zero_past i hi := by rw [if_neg (by omega), b.zero_past i hi]

/-- The `m` bytes of `b` from `off` on. -/
def slice (b : Buf n) (off m : Nat) : Buf m := ofFn m (fun i => b.byte (off + i))

theorem byte_ofFn (f : Nat → UInt8) (i : Nat) :
    (ofFn n f).byte i = if i < n then f i else 0 := rfl

theorem byte_ofFn_lt (f : Nat → UInt8) {i : Nat} (h : i < n) : (ofFn n f).byte i = f i := by
  rw [byte_ofFn, if_pos h]

@[simp] theorem byte_zero (i : Nat) : (zero n).byte i = 0 := by
  rw [zero, byte_ofFn]; split <;> rfl

theorem byte_blit (b : Buf n) (off len : Nat) (src : Nat → UInt8) (i : Nat) :
    (b.blit off len src).byte i =
      if off ≤ i ∧ i < off + len ∧ i < n then src (i - off) else b.byte i := rfl

theorem byte_blit_in (b : Buf n) {off len : Nat} (src : Nat → UInt8) {i : Nat}
    (h₁ : off ≤ i) (h₂ : i < off + len) (h₃ : i < n) :
    (b.blit off len src).byte i = src (i - off) := by
  rw [byte_blit, if_pos ⟨h₁, h₂, h₃⟩]

theorem byte_blit_out (b : Buf n) {off len : Nat} (src : Nat → UInt8) {i : Nat}
    (h : i < off ∨ off + len ≤ i) : (b.blit off len src).byte i = b.byte i := by
  rw [byte_blit, if_neg (by omega)]

theorem byte_slice (b : Buf n) (off : Nat) {i : Nat} (h : i < m) :
    (b.slice off m).byte i = b.byte (off + i) := byte_ofFn_lt _ h

@[simp] theorem slice_zero (off : Nat) : (zero n).slice off m = zero m := by
  apply ext_lt
  intro i hi
  rw [byte_slice _ _ hi, byte_zero, byte_zero]

@[simp] theorem slice_blit_same (b : Buf n) {off : Nat} (src : Buf m) (h : off + m ≤ n) :
    (b.blit off m src.byte).slice off m = src := by
  apply ext_lt
  intro i hi
  rw [byte_slice _ _ hi, byte_blit_in _ _ (by omega) (by omega) (by omega)]
  congr 1; omega

theorem slice_blit_other (b : Buf n) {off len o : Nat} (src : Nat → UInt8)
    (h : o + m ≤ off ∨ off + len ≤ o) : (b.blit off len src).slice o m = b.slice o m := by
  apply ext_lt
  intro i hi
  rw [byte_slice _ _ hi, byte_slice _ _ hi, byte_blit_out _ _ (by omega)]

end Buf

/-! ## Integers in buffers -/

/-- Byte `i` of the integer `v` in memory, least significant byte first. -/
def leByte (v : Int) (i : Nat) : UInt8 :=
  UInt8.ofNat ((v % 18446744073709551616).toNat / 256 ^ i)

/-- The `int` whose four bytes start at byte `off` of `f`. -/
def getInt (f : Nat → UInt8) (off : Nat) : Int :=
  cint ((f off).toNat + 256 * (f (off + 1)).toNat + 65536 * (f (off + 2)).toNat +
    16777216 * (f (off + 3)).toNat)

theorem isInt_getInt (f : Nat → UInt8) (off : Nat) : IsInt (getInt f off) := isInt_cint _

theorem getInt_congr {f g : Nat → UInt8} {o p : Nat} (h : ∀ i, i < 4 → f (o + i) = g (p + i)) :
    getInt f o = getInt g p := by
  have h0 := h 0 (by omega)
  rw [Nat.add_zero, Nat.add_zero] at h0
  rw [getInt, getInt, h0, h 1 (by omega), h 2 (by omega), h 3 (by omega)]

theorem getInt_leByte (v : Int) : getInt (leByte v) 0 = cint v := by
  simp only [getInt, leByte, UInt8.toNat_ofNat', Nat.zero_add]
  unfold cint
  norm_num
  have hmod : v % 18446744073709551616 % 4294967296 = v % 4294967296 := by omega
  split <;> split <;> omega

theorem getInt_leByte_high (v : Int) : getInt (leByte v) 4 = cint (v / 4294967296) := by
  simp only [getInt, leByte, UInt8.toNat_ofNat']
  unfold cint
  norm_num
  split <;> split <;> omega

namespace Buf
variable {n m : Nat}

/-- The `int` field at byte offset `off`. -/
def int (b : Buf n) (off : Nat) : Int := getInt b.byte off

/-- The `unsigned int` field at byte offset `off`. -/
def uint (b : Buf n) (off : Nat) : Int := b.int off % 4294967296

/-- The `unsigned long` field at byte offset `off`. -/
def ulong (b : Buf n) (off : Nat) : Int := b.uint off + 4294967296 * b.uint (off + 4)

/-- Assignment to the `w`-byte integer field at byte offset `off`. -/
def setNum (b : Buf n) (w off : Nat) (v : Int) : Buf n := b.blit off w (leByte v)

/-- Assignment to the `int` field at byte offset `off`. -/
def setInt (b : Buf n) (off : Nat) (v : Int) : Buf n := b.setNum 4 off v

theorem isInt_int (b : Buf n) (off : Nat) : IsInt (b.int off) := isInt_getInt _ _

@[simp] theorem cint_int (b : Buf n) (off : Nat) : cint (b.int off) = b.int off :=
  cint_eq (b.isInt_int off)

@[simp] theorem int_zero (off : Nat) : (zero n).int off = 0 := by
  simp [int, getInt]

@[simp] theorem int_setInt_same (b : Buf n) {off : Nat} (v : Int) (h : off + 4 ≤ n) :
    (b.setInt off v).int off = cint v := by
  rw [← getInt_leByte v]
  apply getInt_congr
  intro i hi
  rw [setInt, setNum, byte_blit_in _ _ (by omega) (by omega) (by omega)]
  congr 1; omega

theorem int_blit_other (b : Buf n) {off len o : Nat} (src : Nat → UInt8)
    (h : o + 4 ≤ off ∨ off + len ≤ o) : (b.blit off len src).int o = b.int o := by
  apply getInt_congr
  intro i hi
  rw [byte_blit_out _ _ (by omega)]

@[simp] theorem int_setInt_other (b : Buf n) {off o : Nat} (v : Int)
    (h : o + 4 ≤ off ∨ off + 4 ≤ o) : (b.setInt off v).int o = b.int o :=
  int_blit_other b _ h

theorem int_slice (b : Buf n) (off : Nat) {o : Nat} (h : o + 4 ≤ m) :
    (b.slice off m).int o = b.int (off + o) := by
  apply getInt_congr
  intro i hi
  rw [byte_slice _ _ (by omega)]
  congr 1; omega

theorem setInt_setInt_same (b : Buf n) (off : Nat) (v w : Int) :
    (b.setInt off v).setInt off w = b.setInt off w := by
  apply ext_lt
  intro i _
  simp only [setInt, setNum, byte_blit]
  split <;> simp_all

theorem ulong_blit_other (b : Buf n) {off len o : Nat} (src : Nat → UInt8)
    (h : o + 8 ≤ off ∨ off + len ≤ o) : (b.blit off len src).ulong o = b.ulong o := by
  unfold ulong uint
  rw [int_blit_other _ _ (by omega), int_blit_other _ _ (by omega)]

theorem ulong_setNum_same (b : Buf n) {off : Nat} (v : Int) (h : off + 8 ≤ n) :
    (b.setNum 8 off v).ulong off = v % 18446744073709551616 := by
  have hlow : (b.setNum 8 off v).int off = cint v := by
    rw [← getInt_leByte v]
    apply getInt_congr
    intro i hi
    rw [setNum, byte_blit_in _ _ (by omega) (by omega) (by omega)]
    congr 1; omega
  have hhigh : (b.setNum 8 off v).int (off + 4) = cint (v / 4294967296) := by
    rw [← getInt_leByte_high v]
    apply getInt_congr
    intro i hi
    rw [setNum, byte_blit_in _ _ (by omega) (by omega) (by omega)]
    congr 1; omega
  rw [ulong, uint, uint, hlow, hhigh, cint_emod, cint_emod]
  omega

@[simp] theorem slice_setInt_other (b : Buf n) {off o : Nat} (v : Int)
    (h : o + m ≤ off ∨ off + 4 ≤ o) : (b.setInt off v).slice o m = b.slice o m :=
  slice_blit_other b _ h

end Buf

/-! ## Files -/

/-- A regular file. -/
@[ext] structure File where
  size : Nat
  byte : Nat → UInt8
  zero_past : ∀ i, size ≤ i → byte i = 0

namespace File

/-- A file just created. -/
def empty : File := ⟨0, fun _ => 0, fun _ _ => rfl⟩

instance : Inhabited File := ⟨empty⟩

@[simp] theorem size_empty : empty.size = 0 := rfl

@[simp] theorem byte_empty (i : Nat) : empty.byte i = 0 := rfl

/-- How many bytes `pread` of `len` bytes at `off` obtains. -/
def avail (f : File) (off len : Nat) : Nat := min len (f.size - off)

/-- `pread(fd, buf, n, off)`: a short read leaves the rest of `buf` as it was, and
    a negative offset fails. -/
def pread {n : Nat} (f : File) (buf : Buf n) (off : Int) : Buf n :=
  if off < 0 then buf
  else buf.blit 0 (f.avail off.toNat n) (fun i => f.byte (off.toNat + i))

/-- `ftruncate` to `len` bytes; what it adds reads as zero. -/
def truncate (f : File) (len : Nat) : File where
  size := len
  byte i := if i < len then f.byte i else 0
  zero_past i hi := by rw [if_neg (by omega)]

/-- `pwrite` of `len` bytes at `off`; a gap before `off` reads as zero. -/
def pwrite (f : File) (off len : Nat) (src : Nat → UInt8) : File where
  size := if len = 0 then f.size else max f.size (off + len)
  byte i := if off ≤ i ∧ i < off + len then src (i - off) else f.byte i
  zero_past i hi := by
    split at hi
    · rw [if_neg (by omega)]; exact f.zero_past i hi
    · rw [if_neg (by omega)]; exact f.zero_past i (by omega)

theorem pread_nat {n : Nat} (f : File) (buf : Buf n) (off : Nat) :
    f.pread buf (off : Int) = buf.blit 0 (f.avail off n) (fun i => f.byte (off + i)) := by
  rw [pread, if_neg (by omega), Int.toNat_natCast]

theorem avail_full (f : File) {off len : Nat} (h : off + len ≤ f.size) : f.avail off len = len := by
  unfold avail; omega

theorem byte_pwrite (f : File) (off len : Nat) (src : Nat → UInt8) (i : Nat) :
    (f.pwrite off len src).byte i =
      if off ≤ i ∧ i < off + len then src (i - off) else f.byte i := rfl

theorem byte_pwrite_in (f : File) {off len : Nat} (src : Nat → UInt8) {i : Nat}
    (h₁ : off ≤ i) (h₂ : i < off + len) : (f.pwrite off len src).byte i = src (i - off) := by
  rw [byte_pwrite, if_pos ⟨h₁, h₂⟩]

theorem byte_pwrite_out (f : File) {off len : Nat} (src : Nat → UInt8) {i : Nat}
    (h : i < off ∨ off + len ≤ i) : (f.pwrite off len src).byte i = f.byte i := by
  rw [byte_pwrite, if_neg (by omega)]

theorem size_pwrite (f : File) (off : Nat) {len : Nat} (src : Nat → UInt8) (h : 0 < len) :
    (f.pwrite off len src).size = max f.size (off + len) := by
  rw [pwrite]; exact if_neg (by omega)

theorem size_le_pwrite (f : File) (off len : Nat) (src : Nat → UInt8) :
    f.size ≤ (f.pwrite off len src).size := by
  simp only [pwrite]; split <;> omega

theorem pwrite_pwrite (f : File) (off a b : Nat) (src : Nat → UInt8) :
    (f.pwrite off a src).pwrite (off + a) b (fun i => src (a + i)) = f.pwrite off (a + b) src := by
  apply File.ext
  · simp only [pwrite]
    split <;> split <;> split <;> omega
  · funext i
    simp only [byte_pwrite]
    by_cases h₁ : off + a ≤ i ∧ i < off + a + b
    · rw [if_pos h₁, if_pos (by omega)]
      congr 1
      omega
    · rw [if_neg h₁]
      by_cases h₂ : off ≤ i ∧ i < off + a
      · rw [if_pos h₂, if_pos (by omega)]
      · rw [if_neg h₂, if_neg (by omega)]

theorem pwrite_zero (f : File) (off : Nat) (src : Nat → UInt8) : f.pwrite off 0 src = f := by
  apply File.ext
  · rfl
  · funext i
    rw [byte_pwrite, if_neg (by omega)]

/-- The `int` stored at byte `off`. -/
def int (f : File) (off : Nat) : Int := getInt f.byte off

/-- The `m` bytes from `off` on. -/
def slice (f : File) (off m : Nat) : Buf m := Buf.ofFn m (fun i => f.byte (off + i))

theorem byte_slice (f : File) (off : Nat) {m i : Nat} (h : i < m) :
    (f.slice off m).byte i = f.byte (off + i) := Buf.byte_ofFn_lt _ h

/-- A stretch of the file that is read, changed and written back, as far as the
    file then goes. -/
theorem pwrite_back (f : File) {off n st len wr : Nat} (src : Nat → UInt8) (hlen : 0 < len)
    (hwr : wr ≤ n) (hin : st + len ≤ wr) (hend : off + wr ≤ max f.size (off + st + len)) :
    f.pwrite off wr ((f.slice off n).blit st len src).byte = f.pwrite (off + st) len src := by
  apply File.ext
  · rw [size_pwrite _ _ _ (by omega), size_pwrite _ _ _ hlen]
    omega
  · funext i
    rw [byte_pwrite, byte_pwrite]
    by_cases h₁ : off ≤ i ∧ i < off + wr
    · rw [if_pos h₁]
      by_cases h₂ : off + st ≤ i ∧ i < off + st + len
      · rw [if_pos h₂, Buf.byte_blit_in _ _ (by omega) (by omega) (by omega)]
        congr 1
        omega
      · rw [if_neg h₂, Buf.byte_blit_out _ _ (by omega), byte_slice _ _ (by omega)]
        congr 1
        omega
    · rw [if_neg h₁, if_neg (by omega)]

theorem int_slice (f : File) (off : Nat) {m o : Nat} (h : o + 4 ≤ m) :
    (f.slice off m).int o = f.int (off + o) := by
  apply getInt_congr
  intro i hi
  rw [byte_slice _ _ (by omega)]
  congr 1; omega

theorem slice_slice (f : File) (off : Nat) {m o k : Nat} (h : o + k ≤ m) :
    (f.slice off m).slice o k = f.slice (off + o) k := by
  apply Buf.ext_lt
  intro i hi
  rw [Buf.byte_slice _ _ hi, byte_slice _ _ (by omega), byte_slice _ _ hi]
  congr 1; omega

theorem slice_pwrite_same (f : File) (off : Nat) {m : Nat} (src : Buf m) :
    (f.pwrite off m src.byte).slice off m = src := by
  apply Buf.ext_lt
  intro i hi
  rw [byte_slice _ _ hi, byte_pwrite_in _ _ (by omega) (by omega)]
  congr 1; omega

/-- The same for a write that stops where the file already has what follows. -/
theorem slice_pwrite_start (f : File) (off : Nat) {m wr : Nat} (src : Buf m)
    (h : ∀ i, wr ≤ i → i < m → src.byte i = f.byte (off + i)) :
    (f.pwrite off wr src.byte).slice off m = src := by
  apply Buf.ext_lt
  intro i hi
  rw [byte_slice _ _ hi]
  by_cases hin : i < wr
  · rw [byte_pwrite_in _ _ (by omega) (by omega)]
    congr 1; omega
  · rw [byte_pwrite_out _ _ (by omega), h i (by omega) hi]

theorem slice_pwrite_other (f : File) {off len o m : Nat} (src : Nat → UInt8)
    (h : o + m ≤ off ∨ off + len ≤ o) : (f.pwrite off len src).slice o m = f.slice o m := by
  apply Buf.ext_lt
  intro i hi
  rw [byte_slice _ _ hi, byte_slice _ _ hi, byte_pwrite_out _ _ (by omega)]

theorem slice_pwrite_sub (f : File) {off o m k : Nat} (src : Buf m) (h₁ : off ≤ o)
    (h₂ : o + k ≤ off + m) : (f.pwrite off m src.byte).slice o k = src.slice (o - off) k := by
  apply Buf.ext_lt
  intro i hi
  rw [byte_slice _ _ hi, Buf.byte_slice _ _ hi, byte_pwrite_in _ _ (by omega) (by omega)]
  congr 1; omega

theorem int_pwrite_other (f : File) {off len o : Nat} (src : Nat → UInt8)
    (h : o + 4 ≤ off ∨ off + len ≤ o) : (f.pwrite off len src).int o = f.int o := by
  apply getInt_congr
  intro i hi
  rw [byte_pwrite_out _ _ (by omega)]

theorem int_pwrite_in (f : File) {off m o : Nat} (src : Buf m) (h₁ : off ≤ o)
    (h₂ : o + 4 ≤ off + m) : (f.pwrite off m src.byte).int o = src.int (o - off) := by
  apply getInt_congr
  intro i hi
  rw [byte_pwrite_in _ _ (by omega) (by omega)]
  congr 1; omega

end File

/-! ## Open files -/

/-- An open file: its contents and the offset the next transfer starts at. -/
structure Fd where
  file : File
  pos : Nat
  deriving Inhabited

namespace Fd

/-- `lseek(fd, off, SEEK_SET)`: a negative offset fails and moves nothing. -/
def lseek (fd : Fd) (off : Int) : Fd := if off < 0 then fd else { fd with pos := off.toNat }

/-- `read(fd, buf, n)`: a short read leaves the rest of `buf` as it was. -/
def read {n : Nat} (fd : Fd) (buf : Buf n) : Fd × Buf n × Int :=
  let got := fd.file.avail fd.pos n
  ({ fd with pos := fd.pos + got }, buf.blit 0 got (fun i => fd.file.byte (fd.pos + i)), got)

/-- `write(fd, buf, n)`. -/
def write {n : Nat} (fd : Fd) (buf : Buf n) : Fd × Int :=
  ({ file := fd.file.pwrite fd.pos n buf.byte, pos := fd.pos + n }, n)

@[simp] theorem lseek_file (fd : Fd) (off : Int) : (fd.lseek off).file = fd.file := by
  unfold lseek; split <;> rfl

theorem lseek_nat (fd : Fd) (off : Nat) : fd.lseek (off : Int) = { fd with pos := off } := by
  unfold lseek; rw [if_neg (by omega)]; simp

@[simp] theorem read_file {n : Nat} (fd : Fd) (buf : Buf n) : (fd.read buf).1.file = fd.file := rfl

@[simp] theorem write_file {n : Nat} (fd : Fd) (buf : Buf n) :
    (fd.write buf).1.file = fd.file.pwrite fd.pos n buf.byte := rfl

theorem read_full {n : Nat} (fd : Fd) (buf : Buf n) (h : fd.pos + n ≤ fd.file.size) :
    fd.read buf = ({ fd with pos := fd.pos + n }, fd.file.slice fd.pos n, (n : Int)) := by
  have hbuf : buf.blit 0 n (fun i => fd.file.byte (fd.pos + i)) = fd.file.slice fd.pos n := by
    apply Buf.ext_lt
    intro i hi
    rw [Buf.byte_blit_in _ _ (by omega) (by omega) hi, File.byte_slice _ _ hi, Nat.sub_zero]
  simp only [read, File.avail_full _ h, hbuf]

end Fd

end ByteMem
