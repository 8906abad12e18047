import Mathlib.Tactic.Common
import Mathlib.Data.List.Basic

/-!
# `Lib.Framing` — a stream of fixed-size frames, cut into pieces

A sender writes frames of `n` elements back to back; the receiver gets the stream in pieces, cut anywhere.
A `Segmentation` is one such way of arriving. The pieces that are as long as a frame are its **full** pieces.

## Contents
- **Frames.** Equal-sized frames are determined by the stream they make up (`frames_unique`).
- **Marked blocks.** A stream of blocks that each end in a mark: `ends_marked_iff` tells by its last element
  whether the stream so far is made of whole blocks.
- **Segmentations.** `Segmentation`, its full pieces, and when it is `Whole`.
- **Counting.** A segmentation has at most as many full pieces as frames were sent, and as many only when
  every piece is full (`whole_iff_count`); then the pieces are the frames (`Whole.pieces_eq`).
-/

namespace Lib

variable {α : Type} {n : Nat}

/-! ## Frames -/

theorem length_flatten_of_frames {frames : List (List α)} (h : ∀ f ∈ frames, f.length = n) :
    frames.flatten.length = frames.length * n := by
  rw [List.length_flatten, List.map_eq_replicate_iff.mpr h, List.sum_replicate_nat]

/-- The stream from the `i`-th frame on. -/
theorem drop_flatten_frames {frames : List (List α)} (h : ∀ f ∈ frames, f.length = n) (i : Nat) :
    frames.flatten.drop (n * i) = (frames.drop i).flatten := by
  induction i generalizing frames with
  | zero => rw [Nat.mul_zero, List.drop_zero, List.drop_zero]
  | succ i ih =>
      cases frames with
      | nil => rw [List.flatten_nil, List.drop_nil, List.drop_nil, List.flatten_nil]
      | cons f fs =>
          have hf : f.length = n := h f List.mem_cons_self
          have hsucc : n * (i + 1) = f.length + n * i := by rw [hf, Nat.mul_succ, Nat.add_comm]
          rw [List.flatten_cons, hsucc, List.drop_append, List.drop_succ_cons]
          simp only [Nat.add_sub_cancel_left, List.drop_eq_nil_of_le (Nat.le_add_right f.length (n * i)),
            List.nil_append]
          exact ih fun g hg => h g (List.mem_cons_of_mem f hg)

/-- Frames of one size are determined by their concatenation. -/
theorem frames_unique {fs gs : List (List α)} (hn : 0 < n) (hf : ∀ f ∈ fs, f.length = n)
    (hg : ∀ g ∈ gs, g.length = n) (h : fs.flatten = gs.flatten) : fs = gs := by
  have hlen : fs.length * n = gs.length * n := by
    rw [← length_flatten_of_frames hf, ← length_flatten_of_frames hg, h]
  have hcount : fs.length = gs.length := Nat.eq_of_mul_eq_mul_right hn hlen
  refine List.eq_iff_flatten_eq.mpr ⟨h, ?_⟩
  rw [List.map_eq_replicate_iff.mpr hf, List.map_eq_replicate_iff.mpr hg, hcount]

/-! ## Marked blocks -/

/-- The last element of the block is a mark, and no other one is. -/
def Marked (mark : α → Bool) (b : List α) : Prop := ∃ body x, b = body ++ [x] ∧ (∀ a ∈ body, mark a = false) ∧ mark x = true

theorem Marked.ne_nil {mark : α → Bool} {b : List α} (h : Marked mark b) : b ≠ [] := by
  obtain ⟨body, x, rfl, -, -⟩ := h
  simp

/-- What has been seen of one block ends in the mark iff it is the whole block. -/
theorem Marked.part {mark : α → Bool} {b l : List α} (h : Marked mark b) (hl : l <+: b) (hne : l ≠ []) :
    (∀ a, l.getLast? = some a → mark a = true) ↔ l = b := by
  obtain ⟨body, x, rfl, hbody, hx⟩ := h
  rcases List.prefix_concat_iff.mp hl with rfl | hpart
  · simp [hx]
  · have hmem : l.getLast hne ∈ body := hpart.subset (List.getLast_mem hne)
    constructor
    · intro hall
      have hmark := hall _ (List.getLast?_eq_some_getLast hne)
      rw [hbody _ hmem] at hmark
      cases hmark
    · intro heq
      have hle := hpart.length_le
      rw [heq, List.length_append, List.length_singleton] at hle
      omega

/-- **Marks.** The stream so far is empty or ends in a mark iff it is made of whole blocks. -/
theorem ends_marked_iff {mark : α → Bool} {blocks : List (List α)} (hb : ∀ b ∈ blocks, Marked mark b) {l : List α}
    (hl : l <+: blocks.flatten) :
    (∀ a, l.getLast? = some a → mark a = true) ↔ ∃ m, l = (blocks.take m).flatten := by
  induction blocks generalizing l with
  | nil =>
      obtain rfl := List.prefix_nil.mp hl
      simp
  | cons b bs ih =>
      have hmarked := hb b List.mem_cons_self
      by_cases hnil : l = []
      · subst hnil
        simp only [List.getLast?_nil, reduceCtorEq, false_implies, implies_true, true_iff]
        exact ⟨0, rfl⟩
      rw [List.flatten_cons] at hl
      by_cases hlong : b.length ≤ l.length
      · -- the first block is behind us
        obtain ⟨rest, rfl⟩ := List.prefix_of_prefix_length_le (List.prefix_append b bs.flatten) hl hlong
        have hrest : rest <+: bs.flatten := (List.prefix_append_right_inj b).mp hl
        have hih := ih (fun c hc => hb c (List.mem_cons_of_mem b hc)) hrest
        have hlast : (∀ a, (b ++ rest).getLast? = some a → mark a = true) ↔
            ∀ a, rest.getLast? = some a → mark a = true := by
          by_cases hend : rest = []
          · subst hend
            have hwhole := (hmarked.part (List.prefix_refl b) hmarked.ne_nil).mpr rfl
            simpa using hwhole
          · rw [List.getLast?_append_of_ne_nil b hend]
        rw [hlast, hih]
        constructor
        · rintro ⟨m, rfl⟩
          exact ⟨m + 1, by simp⟩
        · rintro ⟨m, hm⟩
          cases m with
          | zero => simp [hmarked.ne_nil] at hm
          | succ m =>
              refine ⟨m, ?_⟩
              simpa using hm
      · have hpart : l <+: b := List.prefix_of_prefix_length_le hl (List.prefix_append b bs.flatten) (by omega)
        rw [hmarked.part hpart hnil]
        constructor
        · rintro rfl
          exact ⟨1, by simp⟩
        · rintro ⟨m, hm⟩
          cases m with
          | zero => exact absurd hm hnil
          | succ m =>
              have hle : b.length ≤ l.length := by simp [hm]
              exact absurd hle hlong

/-! ## Segmentations -/

/-- One way in which a stream can arrive: in non-empty pieces of at most `n` elements. -/
structure Segmentation (n : Nat) (stream : List α) where
  pieces   : List (List α)
  nonempty : ∀ p ∈ pieces, p ≠ []
  fits     : ∀ p ∈ pieces, p.length ≤ n
  joined   : pieces.flatten = stream

namespace Segmentation

variable {stream : List α}

/-- The pieces that are as long as a frame. -/
def full (s : Segmentation n stream) : List (List α) := s.pieces.filter fun p => p.length = n

/-- Every piece is as long as a frame. -/
def Whole (s : Segmentation n stream) : Prop := ∀ p ∈ s.pieces, p.length = n

theorem Whole.full_eq {s : Segmentation n stream} (h : s.Whole) : s.full = s.pieces :=
  List.filter_eq_self.mpr fun p hp => decide_eq_true (h p hp)

theorem full_length_of_mem {s : Segmentation n stream} {p : List α} (h : p ∈ s.full) : p.length = n := by
  simpa using (List.mem_filter.mp h).2

/-- The pieces shorter than a frame. -/
def short (s : Segmentation n stream) : List (List α) := s.pieces.filter fun p => !decide (p.length = n)

/-- The full and the short pieces make up the stream. -/
theorem full_add_short (s : Segmentation n stream) :
    s.full.length * n + s.short.flatten.length = stream.length := by
  have hperm : (s.full ++ s.short).Perm s.pieces := List.filter_append_perm _ s.pieces
  have hlen := hperm.flatten.length_eq
  rw [List.flatten_append, List.length_append, length_flatten_of_frames fun p hp => full_length_of_mem hp] at hlen
  rw [hlen]
  exact congrArg List.length s.joined

variable {frames : List (List α)}

/-- **Counting.** All frames arrive in full pieces iff every piece is full. -/
theorem whole_iff_count (hn : 0 < n) (hf : ∀ f ∈ frames, f.length = n) (s : Segmentation n frames.flatten) :
    s.Whole ↔ s.full.length = frames.length := by
  have hsum := s.full_add_short
  rw [length_flatten_of_frames hf] at hsum
  constructor
  · intro hw
    have hlen : s.pieces.length * n = frames.length * n := by
      rw [← length_flatten_of_frames hw, s.joined, length_flatten_of_frames hf]
    rw [hw.full_eq]
    exact Nat.eq_of_mul_eq_mul_right hn hlen
  · intro hcount p hp
    by_contra hshort
    -- a short piece is not empty, so the full ones cannot make up the whole stream
    have hmem : p ∈ s.short := List.mem_filter.mpr ⟨hp, by simpa using hshort⟩
    have hle : p.length ≤ s.short.flatten.length := (List.sublist_flatten_of_mem hmem).length_le
    have hpos : 0 < p.length := List.length_pos_of_ne_nil (s.nonempty p hp)
    rw [hcount] at hsum
    omega

/-- When every piece is full, the pieces are the frames. -/
theorem Whole.pieces_eq {s : Segmentation n frames.flatten} (h : s.Whole) (hn : 0 < n)
    (hf : ∀ f ∈ frames, f.length = n) : s.pieces = frames :=
  frames_unique hn h hf s.joined

end Segmentation

end Lib
