import Mathlib.Algebra.Ring.Nat
import Mathlib.Tactic.Common
import Mathlib.Data.List.TakeWhile

/-!
# `Lib.Bytes` — buffers of bytes, C strings and little-endian words

Memory as C code sees it: a buffer is a list of bytes, a call that fills a buffer overwrites a prefix of it
and leaves the rest as it was (`overlay`), and a string is what stands before the first NUL (`cstr`).

## Contents
- **Overlays.** `overlay buf new`, its length, and the whole-buffer case.
- **Answers of `read`.** `ReadResult n`: an error, or at most `n` bytes; `ret` is what the call returns.
- **C strings.** `cstr`, `strcpy`, `strcat`, `strncpy` and what they leave in the buffer as a string.
- **Words.** `toLe`/`ofLe`: the bytes of a number, least significant first, and back (`ofLe_toLe`, `toLe_ofLe`).
-/

namespace Lib

abbrev Bytes := List UInt8

/-! ## Overlays -/

/-- `buf` after `new` has been written to its front. -/
def overlay (buf new : Bytes) : Bytes := new ++ buf.drop new.length

theorem overlay_length {buf new : Bytes} (h : new.length ≤ buf.length) :
    (overlay buf new).length = buf.length := by
  simp only [overlay, List.length_append, List.length_drop]; omega

/-- A write as long as the buffer leaves nothing of the old contents. -/
theorem overlay_full {buf new : Bytes} (h : buf.length ≤ new.length) : overlay buf new = new := by
  rw [overlay, List.drop_eq_nil_of_le h, List.append_nil]

/-- What `read` and `recv` can answer when asked for `n` bytes. -/
inductive ReadResult (n : Nat) where
  | error
  | data (d : Bytes) (h : d.length ≤ n)

namespace ReadResult

variable {n : Nat}

/-- The return value of the call. -/
def ret : ReadResult n → Int
  | error    => -1
  | data d _ => d.length

/-- The bytes the call stored in the buffer. -/
def bytes : ReadResult n → Bytes
  | error    => []
  | data d _ => d

theorem bytes_length_le (r : ReadResult n) : r.bytes.length ≤ n := by
  cases r with
  | error => exact Nat.zero_le n
  | data d h => exact h

theorem ret_eq_length {r : ReadResult n} (h : 0 ≤ r.ret) : r.ret = r.bytes.length := by
  cases r with
  | error => exact absurd h (show ¬ (0 : Int) ≤ -1 by decide)
  | data d _ => rfl

theorem ret_data {d : Bytes} {h : d.length ≤ n} {m : Nat} : (data d h).ret = (m : Int) ↔ d.length = m :=
  Int.natCast_inj

end ReadResult

/-! ## C strings -/

/-- The string a pointer to `buf` stands for: the bytes before the first NUL. -/
def cstr (buf : Bytes) : Bytes := buf.takeWhile (· ≠ 0)

/-- A string holds no NUL. -/
def NulFree (s : Bytes) : Prop := ∀ b ∈ s, b ≠ 0

theorem nulFree_cstr (buf : Bytes) : NulFree (cstr buf) := fun b hb => by
  simpa using List.mem_takeWhile_imp hb

theorem NulFree.append {s t : Bytes} (hs : NulFree s) (ht : NulFree t) : NulFree (s ++ t) :=
  fun b hb => (List.mem_append.mp hb).elim (hs b) (ht b)

/-- A NUL ends the string, whatever follows it. -/
theorem cstr_nul {s : Bytes} (hs : NulFree s) (t : Bytes) : cstr (s ++ 0 :: t) = s := by
  rw [cstr, List.takeWhile_append_of_pos fun b hb => by simpa using hs b hb]
  simp

theorem cstr_of_nulFree {s : Bytes} (hs : NulFree s) : cstr s = s :=
  List.takeWhile_eq_self_iff.mpr fun b hb => by simpa using hs b hb

/-- `strcpy(dst, src)`: the string and its NUL. -/
def strcpy (dst src : Bytes) : Bytes := overlay dst (cstr src ++ [0])

/-- `strcat(dst, src)`. -/
def strcat (dst src : Bytes) : Bytes := overlay dst (cstr dst ++ cstr src ++ [0])

/-- `strncpy(dst, src, n)`: at most `n` bytes of the string, filled up with NULs to `n`. -/
def strncpy (dst src : Bytes) (n : Nat) : Bytes :=
  overlay dst ((cstr src).take n ++ List.replicate (n - (cstr src).length) 0)

/-- A copied string ends with its NUL, whatever lies behind the buffer. -/
theorem cstr_strcpy_append (dst src t : Bytes) : cstr (strcpy dst src ++ t) = cstr src := by
  rw [strcpy, overlay, List.append_assoc, List.append_assoc]
  exact cstr_nul (nulFree_cstr src) _

@[simp] theorem cstr_strcpy (dst src : Bytes) : cstr (strcpy dst src) = cstr src := by
  have h := cstr_strcpy_append dst src []
  rwa [List.append_nil] at h

@[simp] theorem cstr_strcat (dst src : Bytes) : cstr (strcat dst src) = cstr dst ++ cstr src := by
  rw [strcat, overlay, List.append_assoc]
  exact cstr_nul ((nulFree_cstr dst).append (nulFree_cstr src)) _

theorem strcpy_length {dst src : Bytes} (h : (cstr src).length < dst.length) :
    (strcpy dst src).length = dst.length :=
  overlay_length (by simpa using Nat.succ_le_of_lt h)

/-- What stands before a text free of NULs belongs to the string, and so does that text. -/
theorem cstr_append {s : Bytes} (hs : NulFree s) (t : Bytes) : cstr (s ++ t) = s ++ cstr t :=
  List.takeWhile_append_of_pos fun b hb => by simpa using hs b hb

/-- Copying the first bytes of a string into a buffer of NULs leaves them, and NULs behind them. -/
theorem strncpy_zeros {s : Bytes} (hs : NulFree s) (t : Bytes) (m : Nat) :
    strncpy (List.replicate m 0) (s ++ t) s.length = s ++ List.replicate (m - s.length) 0 := by
  have hlen : s.length ≤ (cstr (s ++ t)).length := by
    rw [cstr_append hs, List.length_append]
    exact Nat.le_add_right _ _
  rw [strncpy, Nat.sub_eq_zero_of_le hlen, List.replicate_zero, List.append_nil, cstr_append hs, List.take_left,
    overlay, List.drop_replicate]

/-! ## Words -/

/-- The `n` low bytes of `x`, least significant first. -/
def toLe : Nat → Nat → Bytes
  | 0, _     => []
  | n + 1, x => UInt8.ofNat x :: toLe n (x / 256)

/-- The number whose bytes are given, least significant first. -/
def ofLe : Bytes → Nat
  | []     => 0
  | b :: s => b.toNat + 256 * ofLe s

@[simp] theorem toLe_length (n x : Nat) : (toLe n x).length = n := by
  induction n generalizing x with
  | zero => rfl
  | succ n ih => simp [toLe, ih]

theorem ofLe_toLe {n x : Nat} (h : x < 256 ^ n) : ofLe (toLe n x) = x := by
  induction n generalizing x with
  | zero => simp at h; simp [toLe, ofLe, h]
  | succ n ih =>
      have hdiv : x / 256 < 256 ^ n := Nat.div_lt_of_lt_mul (by rw [Nat.pow_succ] at h; omega)
      rw [toLe, ofLe, ih hdiv, UInt8.toNat_ofNat']
      omega

theorem toLe_ofLe (b : Bytes) : toLe b.length (ofLe b) = b := by
  induction b with
  | nil => rfl
  | cons x b ih =>
      have hx : x.toNat < 256 := x.toNat_lt
      have hlow : UInt8.ofNat (x.toNat + 256 * ofLe b) = x := by
        apply UInt8.toNat_inj.mp
        rw [UInt8.toNat_ofNat']
        omega
      have hdiv : (x.toNat + 256 * ofLe b) / 256 = ofLe b := by omega
      rw [List.length_cons, ofLe, toLe, hlow, hdiv, ih]

/-- The four bytes of an `int`. -/
def intBytes (x : BitVec 32) : Bytes := toLe 4 x.toNat

/-- The `int` stored in the first four bytes of a buffer. -/
def bytesInt (b : Bytes) : BitVec 32 := BitVec.ofNat 32 (ofLe (b.take 4))

@[simp] theorem intBytes_length (x : BitVec 32) : (intBytes x).length = 4 := toLe_length 4 _

@[simp] theorem bytesInt_intBytes (x : BitVec 32) (s : Bytes) : bytesInt (intBytes x ++ s) = x := by
  have htake : (intBytes x ++ s).take 4 = intBytes x := List.take_left' (intBytes_length x)
  rw [bytesInt, htake, intBytes, ofLe_toLe x.isLt]
  simp

end Lib
