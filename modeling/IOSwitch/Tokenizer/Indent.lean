import IOSwitch.Tokenizer.Values
import Mathlib.Data.List.Nodup

/-!
# `Tokenizer.Indent` — a line behind spaces

Spaces are skipped as long as `tok_start` is 0, which it is at the beginning of a line and until a first token or a
first space. So the spaces in front of a line take the place of those inside its first text: a line that is not
indented loses a character of it for each of them. Behind a `;` or `,` at the very beginning `tok_start` is still 0,
and the same is true of the text that follows.

## Contents
- `Indented`, `FirstKept` — a line with and without spaces in front, and what becomes of its first text.
- `Front.run_zero`, `Front.word_eq_iff` — which characters are lost.
- `Steady`, `tokens_shift` — the lines for which the spaces in front are of no account.
- `Mark.Whole`, `firstKept_iff` — the first text.
- `indent_iff`.
-/

namespace IOSwitch.Tokenizer

open Lib

/-- A line, and how many spaces are put in front of it. -/
structure Indented where
  text    : Bytes
  indent  : Nat
  single  : newline ∉ text
  nulFree : NulFree text
  width   : indent + text.length + 1 ≤ maxLineWidth - 1

namespace Indented

/-- The line as it is. -/
def flush (x : Indented) : Text where
  lines   := [x.text]
  single  := fun l hl => by rw [List.mem_singleton.mp hl]; exact x.single
  nulFree := fun l hl => by rw [List.mem_singleton.mp hl]; exact x.nulFree
  width   := fun l hl => by have := x.width; rw [List.mem_singleton.mp hl]; omega

/-- The line behind its spaces. -/
def shifted (x : Indented) : Text where
  lines   := [List.replicate x.indent space ++ x.text]
  single  := fun l hl => by
    rw [List.mem_singleton.mp hl]
    simpa [space, newline] using x.single
  nulFree := fun l hl => by
    rw [List.mem_singleton.mp hl]
    refine NulFree.append (fun b hb => ?_) x.nulFree
    rw [List.eq_of_mem_replicate hb]
    decide
  width   := fun l hl => by
    have hwidth := x.width
    rw [List.mem_singleton.mp hl, List.length_append, List.length_replicate]
    omega

end Indented

/-- Where the first text of a line begins, behind spaces and delimiters. -/
def firstAt (l : Bytes) : Nat := (l.takeWhile fun b => b = space || isStop b).length

/-- This text, up to the delimiter behind it. -/
def firstText (l : Bytes) : Bytes := (l.drop (firstAt l)).takeWhile fun b => !isStop b

/-- The first name or value of a line, if there is one, keeps all its characters: a token ends where it ends, and
    they are the last in its `val`. -/
def FirstKept (l : Bytes) (toks : List Token) : Prop :=
  firstText l ≠ [] → ∃ t ∈ toks, (t.type = .variable ∨ t.type = .value) ∧
    t.index + t.len = firstAt l + (firstText l).length ∧ firstText l <:+ cstr t.val

/-! ## Which characters are lost -/

namespace Front

variable {f g : Front} {p : Bytes}

/-- Two scanners with the same text before them make the same of the slice iff they skip as many spaces. -/
theorem word_eq_iff (hpending : f.pending = g.pending) :
    f.word p = g.word p ↔ (f.run p).length = (g.run p).length := by
  have hle : ∀ f : Front, (f.run p).length ≤ p.length := by
    intro f
    have hsplit := congrArg List.length (f.split p)
    simp only [List.length_append] at hsplit
    omega
  constructor
  · intro h
    have hlen := congrArg List.length h
    rw [f.word_length, g.word_length, hpending] at hlen
    have hf := hle f
    have hg := hle g
    omega
  · intro h
    rw [f.word_eq_drop, g.word_eq_drop, hpending, h]

/-- As long as `tok_start` is 0, the first spaces of a slice are skipped, wherever they are. -/
theorem run_zero (hzero : f.zero = true) (p : Bytes) :
    f.run p = (p.dropWhile (· ≠ space)).takeWhile (· = space) := by
  have hskips : f.skips = true := by rw [skips, hzero, Bool.true_or]
  have hlead : f.lead p = p.takeWhile (· ≠ space) := if_pos hzero
  have hsplit := List.takeWhile_append_dropWhile (p := (· ≠ space)) (l := p)
  have hdrop : p.drop (f.lead p).length = p.dropWhile (· ≠ space) := by
    rw [← hlead] at hsplit
    exact List.append_cancel_left ((List.prefix_iff_eq_append.mp (f.lead_prefix p)).trans hsplit.symm)
  rw [run, if_pos hskips, hdrop]

theorem run_zero_nil (hzero : f.zero = true) : f.run p = [] ↔ space ∉ p := by
  rw [run_zero hzero]
  have hsplit := List.takeWhile_append_dropWhile (p := (· ≠ space)) (l := p)
  constructor
  · intro hrun hmem
    cases hdrop : p.dropWhile (· ≠ space) with
    | nil =>
        have hall := List.dropWhile_eq_nil_iff.mp hdrop space hmem
        simp at hall
    | cons b r =>
        have hnot := List.head?_dropWhile_not (· ≠ space) p
        rw [hdrop] at hrun hnot
        simp at hrun hnot
        exact hrun hnot
  · intro hmem
    have hnil : p.dropWhile (· ≠ space) = [] := by
      apply List.dropWhile_eq_nil_iff.mpr
      intro b hb
      simpa using fun h : b = space => hmem (h ▸ hb)
    rw [hnil]
    rfl

/-- Behind a first token it depends on the delimiter. -/
theorem run_behind (hzero : f.zero = false) (p : Bytes) :
    f.run p = if SkipsBehind f.last then p.takeWhile (· = space) else [] := by
  have hlead : f.lead p = [] := by rw [lead, hzero]; rfl
  rw [run, skips, hzero, hlead, Bool.false_or]
  simp only [decide_eq_true_eq, List.length_nil, List.drop_zero]

/-- Those in front are the first. -/
theorem run_zero_head (hzero : f.zero = true) (hhead : p.head? = some space) : f.run p = p.takeWhile (· = space) := by
  obtain ⟨r, rfl⟩ := List.head?_eq_some_iff.mp hhead
  rw [run_zero hzero, List.dropWhile_cons_of_neg (by simp)]

end Front

theorem takeWhile_space_nil {p : Bytes} (h : p.head? ≠ some space) : p.takeWhile (· = space) = [] := by
  cases p with
  | nil => rfl
  | cons b p =>
      refine List.takeWhile_cons_of_neg ?_
      simpa using fun hb : b = space => h (by rw [hb]; rfl)

/-! ## The first slice, and the one behind a bare delimiter -/

/-- The text begins with a space or has none, or a brace is behind it. -/
def Slice.Steady (s : Slice) : Prop := s.text.head? = some space ∨ space ∉ s.text ∨ isBrace s.stop = true

/-- The text has no space, begins with one behind a `,`, or a brace is behind it. -/
def Slice.SteadyBehind (s : Slice) (d : UInt8) : Prop :=
  d = comma ∧ s.text.head? = some space ∨ space ∉ s.text ∨ isBrace s.stop = true

/-- The first text of a line with these slices stays the same behind spaces. -/
def Steady : List Slice → Prop
  | []            => True
  | [s]           => s.Steady
  | s :: s' :: _  => if s.text = [] ∧ isEnd s.stop = true then s'.SteadyBehind s.stop else s.Steady

namespace Front

variable {s s' : Slice} {n : Nat}

/-- At the beginning of a line there is text unless the slice is all spaces. -/
theorem line_kept (s : Slice) : (line.after s).kept = (isEnd s.stop && s.text.all (· = space)) := by
  simp [after, empty, line, skips]

/-- The text before a brace does not show. -/
theorem token_of_brace {f g : Front} (h : isBrace s.stop = true) (hstop : s'.stop = s.stop) :
    f.token s' = g.token s := by
  simp only [isBrace, Bool.or_eq_true, decide_eq_true_eq] at h
  unfold token
  rcases h with h | h
  · rw [hstop, h]
    rfl
  · rw [hstop, h]
    rfl

/-- **The first slice** gives the same token behind spaces iff it is steady. -/
theorem token_shift (htext : s'.text = List.replicate (n + 1) space ++ s.text) (hstop : s'.stop = s.stop) :
    line.token s' = line.token s ↔ s.Steady := by
  have hhead : s'.text.head? = some space := by rw [htext]; rfl
  have hlexeme : s'.lexeme = s.lexeme := by
    unfold Slice.lexeme
    rw [htext]
    exact List.dropWhile_append_of_pos fun b hb => by simpa using List.eq_of_mem_replicate hb
  have hkept : (line.after s').kept = (line.after s).kept := by
    rw [line_kept, line_kept, hstop, htext, List.all_append]
    simp
  have hword' : line.word s'.text = s.lexeme := by
    rw [← hlexeme]
    refine (@Mark.word_eq_lexeme ⟨0, line, s'⟩).mpr ?_
    show (line.run s'.text).length = 0 + _
    rw [run_zero_head rfl hhead, Nat.zero_add]
  have hexact : line.word s.text = s.lexeme ↔ s.text.head? = some space ∨ space ∉ s.text := by
    rw [@Mark.word_eq_lexeme ⟨0, line, s⟩]
    show (line.run s.text).length = 0 + _ ↔ _
    rw [Nat.zero_add]
    by_cases hs : s.text.head? = some space
    · rw [run_zero_head rfl hs]
      exact ⟨fun _ => .inl hs, fun _ => rfl⟩
    · rw [takeWhile_space_nil hs, List.length_nil, List.length_eq_zero_iff, run_zero_nil rfl]
      exact ⟨.inr, fun h => h.resolve_left hs⟩
  unfold Slice.Steady
  cases hbrace : isBrace s.stop with
  | true => exact ⟨fun _ => .inr (.inr rfl), fun _ => token_of_brace hbrace hstop⟩
  | false =>
      have hbrace' : isBrace s'.stop = false := by rw [hstop, hbrace]
      have htoken := @Mark.token_word ⟨0, line, s⟩ hbrace
      have htoken' := @Mark.token_word ⟨0, line, s'⟩ hbrace'
      rw [show line.token s = _ from htoken, show line.token s' = _ from htoken']
      show (if (line.after s').kept then [] else [(typeOf s'.stop, line.word s'.text)]) =
        (if (line.after s).kept then [] else [(typeOf s.stop, line.word s.text)]) ↔ _
      rw [hkept, hstop, hword']
      cases hk : (line.after s).kept with
      | true =>
          -- there are only spaces
          rw [line_kept, Bool.and_eq_true, List.all_eq_true] at hk
          refine ⟨fun _ => ?_, fun _ => rfl⟩
          cases hp : s.text with
          | nil => exact .inr (.inl List.not_mem_nil)
          | cons b p =>
              have hb := hk.2 b (by rw [hp]; exact List.mem_cons_self)
              exact .inl (by rw [of_decide_eq_true hb]; rfl)
      | false =>
          rw [if_neg Bool.false_ne_true, if_neg Bool.false_ne_true, List.singleton_inj, Prod.mk.injEq, eq_self,
            true_and, eq_comm, hexact]
          simp

/-- How many spaces are skipped behind a bare delimiter. -/
theorem run_bare {d : UInt8} (hd : isEnd d = true) (p : Bytes) :
    ((⟨false, true, d⟩ : Front).run p).length = ((⟨true, true, d⟩ : Front).run p).length ↔
      d = comma ∧ p.head? = some space ∨ space ∉ p := by
  have hskips : SkipsBehind d ↔ d = comma := by
    refine ⟨fun h => ?_, fun h => .inr (.inr h)⟩
    rcases h with rfl | rfl | h
    · cases hd
    · cases hd
    · exact h
  rw [run_behind rfl]
  by_cases hhead : p.head? = some space
  · have hmem : space ∈ p := List.mem_of_mem_head? hhead
    obtain ⟨r, rfl⟩ := List.head?_eq_some_iff.mp hhead
    rw [run_zero_head rfl hhead, if_congr hskips rfl rfl]
    split
    · next hcomma => exact ⟨fun _ => .inl ⟨hcomma, hhead⟩, fun _ => rfl⟩
    · next hcomma =>
      constructor
      · intro h
        simp at h
      · rintro (h | h)
        · exact absurd h.1 hcomma
        · exact absurd hmem h
  · have hnone : (if SkipsBehind d then p.takeWhile (· = space) else []) = [] := by
      rw [takeWhile_space_nil hhead, ite_self]
    rw [hnone, List.length_nil, eq_comm, List.length_eq_zero_iff, run_zero_nil rfl]
    exact ⟨.inr, fun h => h.resolve_left fun h => hhead h.2⟩

/-- **The slice behind a bare delimiter** gives the same token behind spaces iff it is steady. -/
theorem token_bare {d : UInt8} (hd : isEnd d = true) :
    (⟨false, true, d⟩ : Front).token s = (⟨true, true, d⟩ : Front).token s ↔ s.SteadyBehind d := by
  unfold Slice.SteadyBehind
  cases hbrace : isBrace s.stop with
  | true => exact ⟨fun _ => .inr (.inr rfl), fun _ => token_of_brace hbrace rfl⟩
  | false =>
      have hkept : ∀ z, ((⟨z, true, d⟩ : Front).after s).kept = false := by
        intro z
        simp [after, empty]
      have htoken : ∀ z, (⟨z, true, d⟩ : Front).token s = [(typeOf s.stop, (⟨z, true, d⟩ : Front).word s.text)] := by
        intro z
        refine (@Mark.token_word ⟨0, ⟨z, true, d⟩, s⟩ hbrace).trans ?_
        exact if_neg (by simp [Mark.after, hkept])
      have hword := @word_eq_iff ⟨false, true, d⟩ ⟨true, true, d⟩ s.text rfl
      rw [htoken, htoken, List.singleton_inj, Prod.mk.injEq, eq_self, true_and, hword, run_bare hd]
      simp

end Front

/-! ## The whole line -/

/-- The tokens of slices, whatever their positions. -/
def Front.tokens (f : Front) (ss : List Slice) : List (TokenType × Bytes) := (f.marks 0 ss).flatMap Mark.token

theorem Front.marks_tokens (f : Front) (n : Nat) (ss : List Slice) : (f.marks n ss).flatMap Mark.token = f.tokens ss := by
  unfold tokens
  induction ss generalizing f n with
  | nil => rfl
  | cons s ss ih =>
      rw [marks, marks, List.flatMap_cons, List.flatMap_cons, ih, ih _ (0 + _ + 1)]
      rfl

theorem Front.tokens_cons (f : Front) (s : Slice) (ss : List Slice) :
    f.tokens (s :: ss) = f.token s ++ (f.after s).tokens ss := by
  rw [← (f.after s).marks_tokens (0 + s.text.length + 1)]
  rfl

/-- The spaces go to the first slice. -/
theorem cutFrom_append {a got : Bytes} (h : ∀ b ∈ a ++ got, isStop b = false) (hgot : ∀ b ∈ got, isStop b = false)
    {l : Bytes} (hl : ∃ b ∈ l, isStop b = true) :
    ∃ s s' ss, (cutFrom got hgot l).1 = s :: ss ∧ (cutFrom (a ++ got) h l).1 = s' :: ss ∧
      s'.text = a ++ s.text ∧ s'.stop = s.stop := by
  induction l generalizing got with
  | nil =>
      obtain ⟨b, hb, -⟩ := hl
      cases hb
  | cons b l ih =>
      rw [cutFrom, cutFrom]
      by_cases hb : isStop b = true
      · rw [dif_pos hb, dif_pos hb]
        exact ⟨_, _, _, rfl, rfl, rfl, rfl⟩
      · rw [dif_neg hb, dif_neg hb]
        have hl' : ∃ b ∈ l, isStop b = true := by
          obtain ⟨d, hd, hstop⟩ := hl
          rcases List.mem_cons.mp hd with rfl | hd
          · exact absurd hstop hb
          · exact ⟨d, hd, hstop⟩
        have hplain : ∀ d ∈ a ++ (got ++ [b]), isStop d = false := by
          rw [← List.append_assoc]
          exact plain_snoc h hb
        have hrest := ih hplain (plain_snoc hgot hb) hl'
        simpa only [List.append_assoc] using hrest

/-- Text is read up to the next delimiter. -/
theorem cutFrom_plain {a got : Bytes} (h : ∀ b ∈ got ++ a, isStop b = false) (hgot : ∀ b ∈ got, isStop b = false)
    (l : Bytes) : cutFrom got hgot (a ++ l) = cutFrom (got ++ a) h l := by
  induction a generalizing got with
  | nil => simp only [List.nil_append, List.append_nil]
  | cons b a ih =>
      have hb : ¬ isStop b = true := by
        rw [h b (by simp)]
        exact Bool.false_ne_true
      have hplain : ∀ d ∈ got ++ [b] ++ a, isStop d = false := by
        rw [List.append_assoc]
        exact h
      rw [List.cons_append, cutFrom, dif_neg hb, ih hplain (plain_snoc hgot hb)]
      simp only [List.append_assoc, List.singleton_append]

/-- The slices of a line behind spaces. -/
theorem slices_shift (n : Nat) {l : Bytes} (hl : ∃ b ∈ l, isStop b = true) :
    ∃ s s' ss, slices l = s :: ss ∧ slices (List.replicate n space ++ l) = s' :: ss ∧
      s'.text = List.replicate n space ++ s.text ∧ s'.stop = s.stop := by
  have hplain : ∀ b ∈ List.replicate n space ++ [], isStop b = false := by
    intro b hb
    rw [List.append_nil] at hb
    rw [List.eq_of_mem_replicate hb]
    rfl
  have hplain' : ∀ b ∈ [] ++ List.replicate n space, isStop b = false := by
    simpa using hplain
  obtain ⟨s, s', ss, hs, hs', htext, hstop⟩ := cutFrom_append hplain plain_nil hl
  refine ⟨s, s', ss, hs, ?_, htext, hstop⟩
  rw [slices, cutFrom_plain hplain' plain_nil]
  simpa only [List.append_nil, List.nil_append] using hs'

/-- **Spaces in front** of a line leave its tokens as they are iff it is steady. -/
theorem tokens_shift (n : Nat) {l : Bytes} (hl : ∃ b ∈ l, isStop b = true) :
    (marks (List.replicate (n + 1) space ++ l)).flatMap Mark.token = (marks l).flatMap Mark.token ↔
      Steady (slices l) := by
  obtain ⟨s, s', ss, hs, hs', htext, hstop⟩ := slices_shift (n + 1) hl
  have hfirst := Front.token_shift htext hstop
  rw [marks, marks, Front.marks_tokens, Front.marks_tokens, hs, hs', Front.tokens_cons, Front.tokens_cons]
  have hkept : (Front.line.after s').kept = (Front.line.after s).kept := by
    rw [Front.line_kept, Front.line_kept, hstop, htext, List.all_append]
    simp
  have hafter' : Front.line.after s' = ⟨false, (Front.line.after s).kept, s.stop⟩ := by
    rw [← hkept, ← hstop]
    simp [Front.after, htext]
  by_cases hbare : s.text = [] ∧ isEnd s.stop = true
  · -- `tok_start` is 0 behind the delimiter, unless there are spaces before it
    obtain ⟨hnil, hend⟩ := hbare
    have hafter : Front.line.after s = ⟨true, true, s.stop⟩ := by
      simp [Front.after, Front.empty, Front.line, Front.skips, hnil, hend]
    have hsteady : s.Steady := .inr (.inl (by rw [hnil]; exact List.not_mem_nil))
    rw [hafter', hafter, hfirst.mpr hsteady, List.append_right_inj]
    cases ss with
    | nil => exact ⟨fun _ => hsteady, fun _ => rfl⟩
    | cons s₂ ss =>
        have hsame : (⟨false, true, s.stop⟩ : Front).after s₂ = (⟨true, true, s.stop⟩ : Front).after s₂ := by
          simp [Front.after, Front.empty]
        rw [Front.tokens_cons, Front.tokens_cons, hsame, List.append_left_inj, Front.token_bare hend, Steady,
          if_pos ⟨hnil, hend⟩]
  · have hafter : Front.line.after s = ⟨false, (Front.line.after s).kept, s.stop⟩ := by
      have hzero : (Front.line.after s).zero = false := by
        rw [not_and_or, Bool.not_eq_true] at hbare
        rcases hbare with h | h <;> simp [Front.after, Front.line, h]
      rw [← hzero]
      rfl
    rw [hafter', ← hafter, List.append_left_inj, hfirst]
    cases ss with
    | nil => exact Iff.rfl
    | cons s₂ ss => rw [Steady, if_neg hbare]

/-! ## The first text -/

/-- No two end at the same place. -/
theorem marks_pos_inj {l : Bytes} {m m' : Mark} (hm : m ∈ marks l) (hm' : m' ∈ marks l) (h : m.pos = m'.pos) :
    m = m' := by
  have hsorted := (Front.line.marks_sorted 0 (slices l)).1
  have hnodup : ((marks l).map Mark.pos).Nodup := List.pairwise_map.mpr (hsorted.imp fun hlt => Nat.ne_of_lt hlt)
  exact List.inj_on_of_nodup_map hnodup hm hm' h

/-- There is text in the slice. -/
def Mark.hasText (m : Mark) : Bool := !m.slice.lexeme.isEmpty

section FirstText

variable {got l : Bytes} {b : UInt8}

theorem firstAt_spaces (hall : ∀ d ∈ got, d = space) (hb : isStop b = true) (l : Bytes) :
    firstAt (got ++ b :: l) = got.length + 1 + firstAt l ∧ firstText (got ++ b :: l) = firstText l := by
  have hat : firstAt (got ++ b :: l) = got.length + 1 + firstAt l := by
    unfold firstAt
    rw [List.takeWhile_append_of_pos fun d hd => by simp [hall d hd], List.takeWhile_cons_of_pos (by simp [hb]),
      List.length_append, List.length_cons]
    omega
  refine ⟨hat, ?_⟩
  unfold firstText
  rw [hat, Nat.add_assoc, ← List.drop_drop, List.drop_left, Nat.add_comm 1, List.drop_succ_cons]

theorem firstAt_text (s : Slice) (hs : s.lexeme ≠ []) (l : Bytes) :
    firstAt (s.text ++ s.stop :: l) = (s.text.takeWhile (· = space)).length ∧
      firstText (s.text ++ s.stop :: l) = s.lexeme := by
  have hplain : ∀ d ∈ s.lexeme, isStop d = false := (isElement_lexeme hs).plain
  obtain ⟨d, w, hw⟩ := List.exists_cons_of_ne_nil hs
  have hd : ¬ (decide (d = space) || isStop d) = true := by
    have hspace : d ≠ space := by
      intro h
      exact (isElement_lexeme hs).head (by rw [hw, h]; rfl)
    rw [hplain d (by rw [hw]; exact List.mem_cons_self)]
    simpa using hspace
  have hline : s.text ++ s.stop :: l = s.text.takeWhile (· = space) ++ (s.lexeme ++ s.stop :: l) := by
    rw [← List.append_assoc, s.spaces_lexeme]
  have hat : firstAt (s.text ++ s.stop :: l) = (s.text.takeWhile (· = space)).length := by
    unfold firstAt
    rw [hline, List.takeWhile_append_of_pos, hw, List.cons_append,
      List.takeWhile_cons_of_neg (p := fun b => b = space || isStop b) hd, List.append_nil]
    intro d hd
    have hspace := List.mem_takeWhile_imp hd
    simp only [Bool.or_eq_true]
    exact .inl hspace
  refine ⟨hat, ?_⟩
  unfold firstText
  rw [hat, hline, List.drop_left, List.takeWhile_append_of_pos fun d hd => by simp [hplain d hd],
    List.takeWhile_cons_of_neg (by simp [s.cut]), List.append_nil]

/-- The first text of a line is that of its first slice with any. -/
theorem firstText_cut (f : Front) (n : Nat) (hgot : ∀ d ∈ got, isStop d = false)
    (htail : (cutFrom got hgot l).2 = []) :
    ((f.marks n (cutFrom got hgot l).1).find? Mark.hasText = none → firstText (got ++ l) = []) ∧
    ∀ m, (f.marks n (cutFrom got hgot l).1).find? Mark.hasText = some m →
      firstText (got ++ l) = m.slice.lexeme ∧ n + (firstAt (got ++ l) + (firstText (got ++ l)).length) = m.pos := by
  induction l generalizing f n got with
  | nil =>
      have hnil : got = [] := htail
      subst hnil
      exact ⟨fun _ => rfl, fun m hm => by cases hm⟩
  | cons b l ih =>
      rw [cutFrom] at htail ⊢
      by_cases hb : isStop b = true
      · rw [dif_pos hb] at htail ⊢
        by_cases hs : (Slice.mk got b hgot hb).lexeme = []
        · -- the slice has no text
          have hspaces : ∀ d ∈ got, d = space := Slice.lexeme_nil hs
          obtain ⟨hat, htext⟩ := firstAt_spaces hspaces hb l
          obtain ⟨hnone, hsome⟩ := ih (f.after ⟨got, b, hgot, hb⟩) (n + got.length + 1) plain_nil htail
          rw [Front.marks, List.find?_cons_of_neg (by simp [Mark.hasText, hs]), hat, htext]
          refine ⟨hnone, ?_⟩
          intro m hm
          obtain ⟨htext', hpos⟩ := hsome m hm
          refine ⟨htext', ?_⟩
          rw [List.nil_append] at hpos
          omega
        · have htext := firstAt_text ⟨got, b, hgot, hb⟩ hs l
          have hlen := congrArg List.length (Slice.mk got b hgot hb).spaces_lexeme
          rw [List.length_append] at hlen
          rw [Front.marks, List.find?_cons_of_pos (by simpa [Mark.hasText] using hs)]
          refine ⟨fun h => absurd h (Option.some_ne_none _), ?_⟩
          intro m hm
          cases hm
          refine ⟨htext.2, ?_⟩
          rw [show firstAt (got ++ b :: l) = _ from htext.1, show firstText (got ++ b :: l) = _ from htext.2, hlen]
      · rw [dif_neg hb] at htail ⊢
        have hrest := ih f n (plain_snoc hgot hb) htail
        simpa only [List.append_assoc, List.singleton_append] using hrest

/-- Behind a newline there is nothing. -/
theorem tail_newline (l : Bytes) (hgot : ∀ d ∈ got, isStop d = false) : (cutFrom got hgot (l ++ [newline])).2 = [] := by
  induction l generalizing got with
  | nil => rfl
  | cons b l ih =>
      rw [List.cons_append, cutFrom]
      split
      · exact ih plain_nil
      · exact ih _

end FirstText

/-- No brace is behind the text, and no more characters are lost than are before it. -/
def Mark.Whole (m : Mark) : Prop :=
  isBrace m.slice.stop = false ∧
    (m.front.run m.slice.text).length ≤ m.front.pending.length + (m.slice.text.takeWhile (· = space)).length

instance (m : Mark) : Decidable m.Whole := inferInstanceAs (Decidable (_ ∧ _))

section Kept

variable {m : Mark} {l : Bytes}

/-- The text of a slice that is whole is the last in `val`. -/
theorem Mark.lexeme_suffix (h : m.Whole) : m.slice.lexeme <:+ m.front.word m.slice.text := by
  have htext : m.front.pending ++ m.slice.text =
      (m.front.pending ++ m.slice.text.takeWhile (· = space)) ++ m.slice.lexeme := by
    rw [List.append_assoc, m.slice.spaces_lexeme]
  rw [Front.word_eq_drop, htext, List.drop_append_of_le_length]
  · exact List.suffix_append _ _
  · rw [List.length_append]
    exact h.2

/-- A slice that has lost more of it is shorter. -/
theorem Mark.whole_of_suffix (hbrace : isBrace m.slice.stop = false)
    (h : m.slice.lexeme <:+ m.front.word m.slice.text) : m.Whole := by
  refine ⟨hbrace, ?_⟩
  have hlen := h.length_le
  have hrun := congrArg List.length (m.front.split m.slice.text)
  have hspaces := congrArg List.length m.slice.spaces_lexeme
  rw [m.front.word_length] at hlen
  simp only [List.length_append] at hrun hspaces
  omega

/-- The token that ends where a slice with text does. -/
theorem token_at (hnul : NulFree l) (hm : m ∈ marks l) (htext : m.slice.lexeme ≠ []) :
    (∃ t ∈ lexLine l, (t.type = .variable ∨ t.type = .value) ∧ t.index + t.len = m.pos ∧
        m.slice.lexeme <:+ cstr t.val) ↔ m.Whole := by
  have hkept : ¬ m.after.kept = true := by rw [m.not_kept_of_lexeme htext]; exact Bool.false_ne_true
  have hstopAt : ∀ t : Token, t.type = .variable ∨ t.type = .value → stopAt t = t.index + t.len := by
    intro t ht
    apply if_neg
    intro hbracket
    rcases ht with ht | ht <;> rw [ht] at hbracket <;> simp at hbracket
  have hstr : ∀ t ∈ lexLine l, cstr t.val = (bare t).2 := by
    intro t ht
    exact congrArg Prod.snd (IsWord.written (lex_isWord (fun d hd => absurd hd List.not_mem_nil) hnul t ht))
  have hlocated := (lex_located nul l).1
  constructor
  · rintro ⟨t, ht, htype, hpos, hsuffix⟩
    have hmem : located t ∈ (marks l).flatMap Mark.located := by
      rw [← hlocated]
      exact List.mem_map_of_mem ht
    obtain ⟨m', hm', hin⟩ := List.mem_flatMap.mp hmem
    obtain ⟨x, hx, heq⟩ := List.mem_map.mp hin
    rw [located, Prod.mk.injEq, hstopAt t htype, hpos] at heq
    -- it is the token of this slice
    have hsame : m' = m := marks_pos_inj hm' hm heq.1
    subst hsame
    rw [heq.2] at hx
    cases hbrace : isBrace m'.slice.stop with
    | true =>
        obtain ⟨type, htoken, hvar, hval⟩ := Mark.token_brace hbrace
        rw [htoken, List.mem_singleton] at hx
        have htype' : t.type = type := congrArg Prod.fst hx
        rw [htype'] at htype
        exact absurd htype (not_or.mpr ⟨hvar, hval⟩)
    | false =>
        rw [Mark.token_word hbrace, if_neg hkept, List.mem_singleton] at hx
        rw [hstr t ht, hx] at hsuffix
        exact Mark.whole_of_suffix hbrace hsuffix
  · intro hwhole
    have hmem : (m.pos, typeOf m.slice.stop, m.front.word m.slice.text) ∈ (lexLine l).map located := by
      rw [show (lexLine l).map located = _ from hlocated]
      refine List.mem_flatMap.mpr ⟨m, hm, ?_⟩
      rw [Mark.located, Mark.token_word hwhole.1, if_neg hkept]
      exact List.mem_singleton_self _
    obtain ⟨t, ht, heq⟩ := List.mem_map.mp hmem
    rw [located, Prod.mk.injEq] at heq
    have htype : t.type = .variable ∨ t.type = .value := by
      rw [show t.type = typeOf m.slice.stop from congrArg Prod.fst heq.2]
      unfold typeOf
      split
      · exact .inl rfl
      · exact .inr rfl
    refine ⟨t, ht, htype, (hstopAt t htype).symm.trans heq.1, ?_⟩
    rw [hstr t ht, heq.2]
    exact Mark.lexeme_suffix hwhole

/-- **The first text of a line** keeps all its characters iff its slice is whole. -/
theorem firstKept_iff (hnul : NulFree (l ++ [newline])) :
    FirstKept (l ++ [newline]) (noToken :: lexLine (l ++ [newline])) ↔
      ∀ m ∈ (marks (l ++ [newline])).find? Mark.hasText, m.Whole := by
  obtain ⟨hnone, hsome⟩ := @firstText_cut [] (l ++ [newline]) .line 0 plain_nil (tail_newline l plain_nil)
  unfold FirstKept
  cases hfind : (marks (l ++ [newline])).find? Mark.hasText with
  | none => exact ⟨fun _ m hm => absurd hm (by simp), fun _ hne => absurd (hnone hfind) hne⟩
  | some m =>
      obtain ⟨htext, hpos⟩ := hsome m hfind
      rw [List.nil_append, Nat.zero_add] at hpos
      rw [List.nil_append] at htext
      have hne : m.slice.lexeme ≠ [] := by simpa [Mark.hasText] using List.find?_some hfind
      have hm : m ∈ marks (l ++ [newline]) := List.mem_of_find?_eq_some hfind
      have hno : ¬ (noToken.type = .variable ∨ noToken.type = .value) := by decide
      rw [hpos, htext, List.exists_mem_cons_iff]
      simp only [hno, false_and, false_or, Option.mem_some, forall_eq']
      rw [token_at hnul hm hne]
      exact ⟨fun h => h hne, fun h _ => h⟩

end Kept

/-- The tokens of a text fit if their texts do. -/
theorem Text.fits_tokens (a : Text) : a.Fits ↔
    (∀ x ∈ a.marks.flatMap Mark.token, x.2.length ≤ maxTokLen) ∧ 1 + (a.marks.flatMap Mark.token).length ≤ maxTokens := by
  rw [Text.Fits, length_tokens, List.forall_mem_flatMap]
  have hroom : (∀ m ∈ a.marks, ∀ x ∈ m.token, x.2.length ≤ maxTokLen) ↔ ∀ m ∈ a.marks, m.Room maxTokLen :=
    forall₂_congr fun m _ => m.room_iff (by decide)
  rw [hroom]
  exact ⟨fun h => ⟨h.room, h.few⟩, fun h => ⟨h.1, h.2⟩⟩

/-- **Indentation changes nothing**, and the first name or value of the line keeps all its characters, iff there are no
    spaces in front or the line is steady, and its first text is whole. -/
theorem indent_iff (x : Indented) (line line' : Bytes) :
    (∃ t t', loadTokens line (some x.flush.bytes) = .ok t ∧ loadTokens line' (some x.shifted.bytes) = .ok t' ∧
        t'.tokens.map written = t.tokens.map written ∧ FirstKept (x.text ++ [newline]) t.tokens) ↔
      x.flush.Fits ∧ (x.indent = 0 ∨ Steady (slices (x.text ++ [newline]))) ∧
        ∀ m ∈ (marks (x.text ++ [newline])).find? Mark.hasText, m.Whole := by
  have hnul : NulFree (x.text ++ [newline]) := x.nulFree.append (nulFree_singleton (by decide))
  have htokens : x.flush.tokens = lexLine (x.text ++ [newline]) := by simp [Text.tokens, Indented.flush]
  have hmarks : x.flush.marks = marks (x.text ++ [newline]) := by simp [Text.marks, Indented.flush]
  have hmarks' : x.shifted.marks = marks (List.replicate x.indent space ++ (x.text ++ [newline])) := by
    simp [Text.marks, Indented.shifted]
  have hsame : x.shifted.marks.flatMap Mark.token = x.flush.marks.flatMap Mark.token ↔
      x.indent = 0 ∨ Steady (slices (x.text ++ [newline])) := by
    rw [hmarks, hmarks']
    cases x.indent with
    | zero => exact ⟨fun _ => .inl rfl, fun _ => rfl⟩
    | succ n =>
        have hstop : ∃ b ∈ x.text ++ [newline], isStop b = true := ⟨newline, by simp, rfl⟩
        rw [tokens_shift n hstop]
        simp
  rw [← firstKept_iff hnul, ← htokens, ← hsame]
  constructor
  · rintro ⟨t, t', hload, hload', hwritten, hfirst⟩
    obtain ⟨hfit, ht⟩ := (exists_loadTokens x.flush line (· = t)).mp ⟨t, hload, rfl⟩
    obtain ⟨-, ht'⟩ := (exists_loadTokens x.shifted line' (· = t')).mp ⟨t', hload', rfl⟩
    subst ht ht'
    refine ⟨x.flush.fits_iff.mp hfit, ?_, hfirst⟩
    rw [List.map_cons, List.map_cons, List.cons_inj_right, Text.written_tokens, Text.written_tokens] at hwritten
    exact hwritten
  · rintro ⟨hfits, htoks, hfirst⟩
    have hfits' : x.shifted.Fits := by
      rw [Text.fits_tokens, htoks, ← Text.fits_tokens]
      exact hfits
    obtain ⟨t, hload, ht⟩ := (exists_loadTokens x.flush line _).mpr ⟨x.flush.fits_iff.mpr hfits, rfl⟩
    obtain ⟨t', hload', ht'⟩ := (exists_loadTokens x.shifted line' _).mpr ⟨x.shifted.fits_iff.mpr hfits', rfl⟩
    subst ht ht'
    refine ⟨_, _, hload, hload', ?_, hfirst⟩
    rw [List.map_cons, List.map_cons, Text.written_tokens, Text.written_tokens, htoks]

/-- The line `my ip=1`, and one space in front of it. -/
def spacedLine : Indented :=
  ⟨[109, 121, space, 105, 112, equals, 49], 1, by decide, by simp [NulFree, space, equals], by decide⟩

/-- Behind the space the name is `my ip`, and without it `y ip`. -/
theorem indent_lost : ¬ ∃ t t', loadTokens [] (some spacedLine.flush.bytes) = .ok t ∧
    loadTokens [] (some spacedLine.shifted.bytes) = .ok t' ∧ t'.tokens.map written = t.tokens.map written ∧
    FirstKept (spacedLine.text ++ [newline]) t.tokens := by
  rintro ⟨t, t', hload, hload', hwritten, -⟩
  obtain ⟨-, ht⟩ := (exists_loadTokens spacedLine.flush [] (· = t)).mp ⟨t, hload, rfl⟩
  obtain ⟨-, ht'⟩ := (exists_loadTokens spacedLine.shifted [] (· = t')).mp ⟨t', hload', rfl⟩
  subst ht ht'
  revert hwritten
  decide +kernel

end IOSwitch.Tokenizer
