import IOSwitch.Lib.Bytes
import Mathlib.Data.List.GetD

/-!
# `Lib.Block` — a block of memory, and two runs over it

A `Block n` holds `n` bytes. A write at an offset (`store`) leaves the block when it does not fit, and strings and
words are read at offsets.

For two runs from different contents, `Same b c i j` says that the blocks agree from `i` up to `j`, and
`SameStr b c o` that the string at `o` lies in such a stretch. Both are kept by a write that both runs make
(`Same.store`, `SameStr.store`), so that what has been written once does not depend on what was there before.

## Contents
- **Blocks.** `Block`, `get`, `store` and where a write is seen (`store_get`).
- **Readings.** `str`, `u16`.
- **Strings in place.** `Holds`: written by `store`, kept while its bytes are, and read back.
- **Two blocks.** `Same`, `SameStr`, `SameStr.str_eq`.
-/

namespace Lib

/-! ## Blocks -/

/-- `n` bytes of memory. -/
structure Block (n : Nat) where
  bytes : Bytes
  size  : bytes.length = n

namespace Block

variable {n : Nat}

/-- All bytes are `x`. -/
def fill (n : Nat) (x : UInt8) : Block n := ⟨List.replicate n x, List.length_replicate⟩

def get (b : Block n) (i : Nat) : UInt8 := b.bytes.getD i 0

/-- The bytes `s` are written to offset `o`, if they fit. -/
def store (b : Block n) (o : Nat) (s : Bytes) : Option (Block n) :=
  if h : o + s.length ≤ n then
    some ⟨b.bytes.take o ++ (s ++ b.bytes.drop (o + s.length)), by
      have hsize := b.size
      simp only [List.length_append, List.length_take, List.length_drop]
      omega⟩
  else none

/-- A write succeeds if it fits, whatever is in the block. -/
theorem store_isSome {b : Block n} {o : Nat} {s : Bytes} : (b.store o s).isSome ↔ o + s.length ≤ n := by
  unfold store
  split <;> simp_all

theorem exists_store {o : Nat} {s : Bytes} (h : o + s.length ≤ n) (b : Block n) : ∃ b', b.store o s = some b' :=
  Option.isSome_iff_exists.mp (store_isSome.mpr h)

theorem store_fits {b b' : Block n} {o : Nat} {s : Bytes} (h : b.store o s = some b') : o + s.length ≤ n :=
  store_isSome.mp (Option.isSome_iff_exists.mpr ⟨b', h⟩)

/-- A write is seen where it was made, and nowhere else. -/
theorem store_get {b b' : Block n} {o : Nat} {s : Bytes} (h : b.store o s = some b') (i : Nat) :
    b'.get i = if o ≤ i ∧ i < o + s.length then s.getD (i - o) 0 else b.get i := by
  have hfits := store_fits h
  have hsize := b.size
  rw [store, dif_pos hfits, Option.some.injEq] at h
  subst h
  have htake : (b.bytes.take o).length = o := by
    rw [List.length_take]
    omega
  unfold get
  by_cases hlow : i < o
  · rw [if_neg (by omega), List.getD_append _ _ _ _ (by omega), List.getD_eq_getElem?_getD, List.getElem?_take_of_lt hlow,
      List.getD_eq_getElem?_getD]
  · rw [List.getD_append_right _ _ _ _ (by omega), htake]
    by_cases hhigh : i < o + s.length
    · rw [if_pos (by omega), List.getD_append _ _ _ _ (by omega)]
    · rw [if_neg (by omega), List.getD_append_right _ _ _ _ (by omega), List.getD_eq_getElem?_getD, List.getElem?_drop,
        List.getD_eq_getElem?_getD]
      congr 2
      omega

theorem store_get_of_lt {b b' : Block n} {o i : Nat} {s : Bytes} (h : b.store o s = some b') (hi : i < o) :
    b'.get i = b.get i := by
  rw [store_get h, if_neg (by omega)]

theorem store_get_of_le {b b' : Block n} {o i : Nat} {s : Bytes} (h : b.store o s = some b') (hi : o + s.length ≤ i) :
    b'.get i = b.get i := by
  rw [store_get h, if_neg (by omega)]

/-- What has been written is followed by what was there before. -/
theorem drop_store {b b' : Block n} {o : Nat} {s : Bytes} (h : b.store o s = some b') :
    b'.bytes.drop o = s ++ b.bytes.drop (o + s.length) := by
  have hfits := store_fits h
  have hsize := b.size
  rw [store, dif_pos hfits, Option.some.injEq] at h
  subst h
  apply List.drop_left'
  rw [List.length_take]
  omega

/-- The bytes behind a write are those that were there. -/
theorem drop_store_of_le {b b' : Block n} {o p : Nat} {s : Bytes} (h : b.store o s = some b') (hp : o + s.length ≤ p) :
    b'.bytes.drop p = b.bytes.drop p := by
  have hdrop : b'.bytes.drop p = (b'.bytes.drop o).drop (p - o) := by
    rw [List.drop_drop]
    congr 1
    omega
  rw [hdrop, drop_store h, List.drop_append, List.drop_of_length_le (by omega), List.nil_append, List.drop_drop]
  congr 1
  omega

/-- So are the bytes before it. -/
theorem take_store {b b' : Block n} {o k : Nat} {s : Bytes} (h : b.store o s = some b') (hk : k ≤ o) :
    b'.bytes.take k = b.bytes.take k := by
  have hfits := store_fits h
  have hsize := b.size
  rw [store, dif_pos hfits, Option.some.injEq] at h
  subst h
  rw [List.take_append_of_le_length, List.take_take, Nat.min_eq_left hk]
  rw [List.length_take]
  omega

/-! ## Readings -/

/-- The string at offset `o`. -/
def str (b : Block n) (o : Nat) : Bytes := cstr (b.bytes.drop o)

/-- The 16-bit word at offset `o`. -/
def u16 (b : Block n) (o : Nat) : UInt16 := UInt16.ofNat (ofLe ((b.bytes.drop o).take 2))

theorem drop_eq_cons {b : Block n} {o : Nat} (ho : o < n) :
    b.bytes.drop o = b.get o :: b.bytes.drop (o + 1) := by
  have hlen : o < b.bytes.length := by rw [b.size]; exact ho
  rw [get, List.getD_eq_getElem _ _ hlen]
  exact List.drop_eq_getElem_cons hlen

/-- A string that has been copied is read back. -/
theorem str_store {b b' : Block n} {o : Nat} {s : Bytes} (h : b.store o (s ++ [0]) = some b') (hs : NulFree s) :
    b'.str o = s := by
  rw [str, drop_store h, List.append_assoc]
  exact cstr_nul hs _

theorem str_store_of_le {b b' : Block n} {o p : Nat} {s : Bytes} (h : b.store o s = some b') (hp : o + s.length ≤ p) :
    b'.str p = b.str p := by
  rw [str, str, drop_store_of_le h hp]

/-- A string is read byte by byte. -/
theorem str_eq {b : Block n} {o : Nat} (ho : o < n) :
    b.str o = if b.get o = 0 then [] else b.get o :: b.str (o + 1) := by
  unfold str cstr
  rw [drop_eq_cons ho, List.takeWhile_cons]
  by_cases h : b.get o = 0
  · rw [if_pos h, if_neg (by simp [h])]
  · rw [if_neg h, if_pos (by simpa using h)]

theorem u16_eq {b : Block n} {o : Nat} (ho : o + 1 < n) :
    b.u16 o = UInt16.ofNat ((b.get o).toNat + 256 * (b.get (o + 1)).toNat) := by
  unfold u16
  rw [drop_eq_cons (by omega), drop_eq_cons ho]
  simp [ofLe]

/-- What is stored at an offset is read there. -/
theorem u16_store {b b' : Block n} {o x : Nat} (h : b.store o (toLe 2 x) = some b') :
    b'.u16 o = UInt16.ofNat x := by
  have hfits := store_fits h
  rw [toLe_length] at hfits
  have hword : toLe 2 x = [UInt8.ofNat x, UInt8.ofNat (x / 256)] := rfl
  rw [u16_eq (by omega), store_get h, store_get h, hword, if_pos (by simp), if_pos (by simp)]
  apply UInt16.toNat_inj.mp
  simp
  omega

/-- What is stored elsewhere is not. -/
theorem u16_store_of_disjoint {b b' : Block n} {o p : Nat} {s : Bytes} (h : b.store o s = some b')
    (hp : p + 1 < n) (hdis : p + 2 ≤ o ∨ o + s.length ≤ p) : b'.u16 p = b.u16 p := by
  rw [u16_eq hp, u16_eq hp, store_get h, store_get h, if_neg (by omega), if_neg (by omega)]

/-! ## Strings in place -/

/-- The string `w` lies at offset `o`, with its NUL. -/
def Holds (b : Block n) (o : Nat) (w : Bytes) : Prop :=
  o + w.length < n ∧ ∀ j ≤ w.length, b.get (o + j) = (w ++ [0]).getD j 0

section Holds

variable {b b' : Block n} {o : Nat} {w : Bytes}

theorem holds_store (h : b.store o (w ++ [0]) = some b') : b'.Holds o w := by
  have hfits := store_fits h
  rw [List.length_append, List.length_singleton] at hfits
  refine ⟨by omega, fun j hj => ?_⟩
  rw [store_get h, if_pos (by simp; omega), Nat.add_sub_cancel_left]

/-- It stays while its bytes do. -/
theorem Holds.frame (h : b.Holds o w) (hget : ∀ j, o ≤ j → j ≤ o + w.length → b'.get j = b.get j) : b'.Holds o w :=
  ⟨h.1, fun j hj => by rw [hget (o + j) (by omega) (by omega), h.2 j hj]⟩

/-- It is what is read there. -/
theorem Holds.str (h : b.Holds o w) (hw : NulFree w) : b.str o = w := by
  obtain ⟨hfits, hget⟩ := h
  have hhead := hget 0 (Nat.zero_le _)
  rw [Nat.add_zero] at hhead
  induction w generalizing o with
  | nil =>
      have ho : o < n := hfits
      have hnul : b.get o = 0 := hhead
      rw [str_eq ho, if_pos hnul]
  | cons a w ih =>
      rw [List.length_cons] at hfits hget
      have hnext : ∀ j ≤ w.length, b.get (o + 1 + j) = (w ++ [0]).getD j 0 := fun j hj => by
        have hj' := hget (j + 1) (by omega)
        rwa [← Nat.add_assoc, Nat.add_right_comm] at hj'
      have hrest : b.str (o + 1) = w :=
        ih (fun x hx => hw x (List.mem_cons_of_mem a hx)) (by omega) hnext (hnext 0 (Nat.zero_le _))
      have ha : b.get o = a := hhead
      rw [str_eq (by omega), if_neg (by rw [ha]; exact hw a List.mem_cons_self), ha, hrest]

end Holds

/-! ## Two blocks -/

/-- The blocks agree from `i` up to `j`. -/
def Same (b c : Block n) (i j : Nat) : Prop := ∀ k, i ≤ k → k < j → b.get k = c.get k

/-- The blocks hold the same string at `o`, and agree up to its NUL. -/
def SameStr (b c : Block n) (o : Nat) : Prop := ∃ p, o ≤ p ∧ p < n ∧ Same b c o (p + 1) ∧ b.get p = 0

section TwoRuns

variable {b c b' c' : Block n} {i j o : Nat} {s : Bytes} (hb : b.store o s = some b') (hc : c.store o s = some c')
include hb hc

/-- A write to both blocks keeps what is the same. -/
theorem Same.store (h : Same b c i j) : Same b' c' i j := by
  intro k hi hj
  rw [store_get hb, store_get hc, h k hi hj]

/-- What is written to both blocks is the same. -/
theorem same_store : Same b' c' o (o + s.length) := by
  intro k hi hj
  rw [store_get hb, store_get hc, if_pos ⟨hi, hj⟩, if_pos ⟨hi, hj⟩]

end TwoRuns

theorem Same.append {b c : Block n} {i j k : Nat} (h : Same b c i j) (h' : Same b c j k) : Same b c i k := by
  intro m hi hk
  by_cases hm : m < j
  · exact h m hi hm
  · exact h' m (by omega) hk

theorem Same.mono {b c : Block n} {i j i' j' : Nat} (h : Same b c i j) (hi : i ≤ i') (hj : j' ≤ j) :
    Same b c i' j' := fun k hk hk' => h k (by omega) (by omega)

section Strings

variable {b c b' c' : Block n} {o o' : Nat} {s : Bytes}

/-- Behind a stretch that is the same, a string is the same from its beginning. -/
theorem SameStr.of_same (h : Same b c o o') (hle : o ≤ o') (hs : SameStr b c o') : SameStr b c o := by
  obtain ⟨p, hp, hpn, hsame, hnul⟩ := hs
  exact ⟨p, by omega, hpn, h.append hsame, hnul⟩

section Writes

variable (hb : b.store o' (s ++ [0]) = some b') (hc : c.store o' (s ++ [0]) = some c')
include hb hc

/-- A string that is written to both blocks. -/
theorem sameStr_store : SameStr b' c' o' := by
  have hfits := store_fits hb
  have hsame := same_store hb hc
  rw [List.length_append, List.length_singleton] at hfits hsame
  refine ⟨o' + s.length, by omega, by omega, hsame, ?_⟩
  rw [store_get hb, if_pos (by simp)]
  simp

/-- Another string may be written over it, wherever it ends. -/
theorem SameStr.store (h : SameStr b c o) : SameStr b' c' o := by
  obtain ⟨p, hp, hpn, hsame, hnul⟩ := h
  have hkeep : Same b' c' o (p + 1) := Same.store hb hc hsame
  have hnew : SameStr b' c' o' := sameStr_store hb hc
  by_cases hout : p < o' ∨ o' + (s ++ [0]).length ≤ p
  · -- the NUL stays
    refine ⟨p, hp, hpn, hkeep, ?_⟩
    rcases hout with hout | hout
    · rw [store_get_of_lt hb hout, hnul]
    · rw [store_get_of_le hb hout, hnul]
  · have hfits := store_fits hb
    rw [not_or, Nat.not_lt, Nat.not_le] at hout
    rw [List.length_append, List.length_singleton] at hout hfits
    by_cases hbegin : o' ≤ o
    · -- it begins in the new string, and ends with it
      have hnew' := same_store hb hc
      rw [List.length_append, List.length_singleton] at hnew'
      refine ⟨o' + s.length, by omega, by omega, hnew'.mono hbegin (Nat.le_refl _), ?_⟩
      rw [store_get hb, if_pos (by simp)]
      simp
    · -- it goes on into the new string
      exact SameStr.of_same (hkeep.mono (Nat.le_refl _) (by omega)) (by omega) hnew

end Writes

/-- **The same string** is read from both blocks. -/
theorem SameStr.str_eq (h : SameStr b c o) : b.str o = c.str o := by
  obtain ⟨p, hp, hpn, hsame, hnul⟩ := h
  induction hd : p - o generalizing o with
  | zero =>
      obtain rfl : p = o := by omega
      have hnul' : c.get p = 0 := by rw [← hsame p hp (Nat.lt_succ_self p), hnul]
      rw [Block.str_eq hpn, Block.str_eq hpn, if_pos hnul, if_pos hnul']
  | succ d ih =>
      have hget : b.get o = c.get o := hsame o (Nat.le_refl o) (by omega)
      have hrest : b.str (o + 1) = c.str (o + 1) :=
        ih (by omega) (hsame.mono (Nat.le_succ o) (Nat.le_refl _)) (by omega)
      have hon : o < n := by omega
      rw [Block.str_eq (b := b) hon, Block.str_eq (b := c) hon, hget, hrest]

end Strings

/-- The same word is read from both blocks. -/
theorem Same.u16_eq {b c : Block n} {o : Nat} (h : Same b c o (o + 2)) (ho : o + 1 < n) : b.u16 o = c.u16 o := by
  rw [Block.u16_eq ho, Block.u16_eq ho, h o (Nat.le_refl o) (by omega), h (o + 1) (by omega) (by omega)]

/-- Words that are equal have equal high bytes. -/
theorem u16_high {b c : Block n} {o : Nat} (h : b.u16 o = c.u16 o) (ho : o + 1 < n) :
    b.get (o + 1) = c.get (o + 1) := by
  rw [Block.u16_eq ho, Block.u16_eq ho] at h
  have hlow := (b.get o).toNat_lt
  have hlow' := (c.get o).toNat_lt
  have hhigh := (b.get (o + 1)).toNat_lt
  have hhigh' := (c.get (o + 1)).toNat_lt
  have hnat := congrArg UInt16.toNat h
  rw [UInt16.toNat_ofNat', UInt16.toNat_ofNat'] at hnat
  apply UInt8.toNat_inj.mp
  omega

end Block

end Lib
