import IOSwitch.Lib.Lists
import IOSwitch.Tokenizer.Cuts

/-!
# `Tokenizer.Slices` — the tokens of a line, slice by slice

The six delimiters cut a line into slices, and every slice ends at most one token. What the slices before have left
behind is a `Front`: whether `tok_start` is still 0, and whether the delimiter before was made into text, as happens to
a `;`, `,` or newline with nothing in front of it. From these and its own text it follows which spaces of a slice are
skipped (`run`), which text is there at its end (`word`) and how the next slice is found (`after`).

`lex_located` says that this is how the scanner reads a line. What follows is about slices alone.

## Contents
- `Slice`, `cutFrom`, `slices` — the cuts.
- `Front`, `Front.word`, `Front.token` — one slice.
- `Mark`, `marks` — all slices of a line, each with what those before it leave behind.
- `InFront`, `lex_text`, `lex_slice`, `lex_cut` — the simulation.
- `Mark.Room`, `len_le_iff`, `length_lex` — how long the texts are, and how many.
-/

namespace IOSwitch.Tokenizer

open Lib

/-! ## The cuts -/

/-- The delimiters that end a value. -/
def isEnd (b : UInt8) : Bool := b = newline || b = semicolon || b = comma

def isBrace (b : UInt8) : Bool := b = openBrace || b = closeBrace

/-- The characters at which a line is cut. -/
def isStop (b : UInt8) : Bool := b = equals || isBrace b || isEnd b

/-- The text between two cuts, and the delimiter behind it. -/
structure Slice where
  text  : Bytes
  stop  : UInt8
  plain : ∀ b ∈ text, isStop b = false
  cut   : isStop stop = true

/-- A text grows by a character that is not a delimiter. -/
theorem plain_snoc {got : Bytes} {b : UInt8} (hgot : ∀ b ∈ got, isStop b = false) (hb : ¬ isStop b = true) :
    ∀ d ∈ got ++ [b], isStop d = false := by
  intro d hd
  rcases List.mem_append.mp hd with hd | hd
  · exact hgot d hd
  · rw [List.mem_singleton.mp hd]
    exact Bool.eq_false_iff.mpr hb

/-- The slices of a text, of which the first begins with `got`, and what is behind the last of them. -/
def cutFrom (got : Bytes) (hgot : ∀ b ∈ got, isStop b = false) : Bytes → List Slice × Bytes
  | []     => ([], got)
  | b :: l =>
      if h : isStop b = true then
        let r := cutFrom [] (fun _ h => absurd h List.not_mem_nil) l
        (⟨got, b, hgot, h⟩ :: r.1, r.2)
      else cutFrom (got ++ [b]) (plain_snoc hgot h) l

theorem plain_nil : ∀ b ∈ ([] : Bytes), isStop b = false := fun _ h => absurd h List.not_mem_nil

def slices (l : Bytes) : List Slice := (cutFrom [] plain_nil l).1

/-- What is behind the last delimiter. -/
def tail (l : Bytes) : Bytes := (cutFrom [] plain_nil l).2

/-! ## One slice -/

/-- What the slices before leave behind: whether `tok_start` is still 0, whether the delimiter before was made into
    text, and which it is. -/
structure Front where
  zero : Bool
  kept : Bool
  last : UInt8
  deriving DecidableEq

namespace Front

/-- The beginning of a line. -/
def line : Front := ⟨true, false, newline⟩

/-- Spaces are skipped in the slice that follows. -/
def skips (f : Front) : Bool := f.zero || decide (SkipsBehind f.last)

/-- The text that is there before it. -/
def pending (f : Front) : Bytes := if f.kept then [f.last] else []

/-- What is before the first space that may be skipped. As long as `tok_start` is 0, that is any space. -/
def lead (f : Front) (p : Bytes) : Bytes := if f.zero then p.takeWhile (· ≠ space) else []

/-- The spaces that are skipped. -/
def run (f : Front) (p : Bytes) : Bytes :=
  if f.skips then (p.drop (f.lead p).length).takeWhile (· = space) else []

/-- What is behind them. -/
def rest (f : Front) (p : Bytes) : Bytes := p.drop ((f.lead p).length + (f.run p).length)

/-- The text at the end of the slice: for every space that is skipped, a character is lost at its front. -/
def word (f : Front) (p : Bytes) : Bytes := (f.pending ++ f.lead p ++ f.run p).drop (f.run p).length ++ f.rest p

/-- There is none. -/
def empty (f : Front) (p : Bytes) : Bool := !f.kept && p.all (· = space) && (f.skips || p.isEmpty)

/-- The skipped spaces go on up to the end. -/
def runsOut (f : Front) (p : Bytes) : Bool := !(f.run p).isEmpty && (f.rest p).isEmpty

/-- What a slice leaves behind. -/
def after (f : Front) (s : Slice) : Front :=
  ⟨f.zero && isEnd s.stop && !f.kept && s.text.isEmpty, isEnd s.stop && f.empty s.text, s.stop⟩

/-- The token it ends. -/
def token (f : Front) (s : Slice) : List (TokenType × Bytes) :=
  if s.stop = equals then [(.variable, f.word s.text)]
  else if s.stop = openBrace then [(.openBracket, [openBrace])]
  else if s.stop = closeBrace then [(.closeBracket, [closeBrace])]
  else if f.empty s.text then [] else [(.value, f.word s.text)]

/-- What all slices leave behind. -/
def afterAll : Front → List Slice → Front
  | f, []      => f
  | f, s :: ss => (f.after s).afterAll ss

end Front

/-- A slice, the position of the delimiter behind it, and what the slices before leave behind. -/
structure Mark where
  pos   : Nat
  front : Front
  slice : Slice

/-- The token that is ended there. -/
def Mark.token (m : Mark) : List (TokenType × Bytes) := m.front.token m.slice

/-- What is left behind. -/
def Mark.after (m : Mark) : Front := m.front.after m.slice

namespace Front

/-- The slices one behind the other, from the position `n` on. -/
def marks : Front → Nat → List Slice → List Mark
  | _, _, []      => []
  | f, n, s :: ss => ⟨n + s.text.length, f, s⟩ :: (f.after s).marks (n + s.text.length + 1) ss

variable {f : Front} {p : Bytes}

theorem lead_prefix (f : Front) (p : Bytes) : f.lead p <+: p := by
  unfold lead
  split
  · exact List.takeWhile_prefix _
  · exact List.nil_prefix

theorem run_prefix (f : Front) (p : Bytes) : f.run p <+: p.drop (f.lead p).length := by
  unfold run
  split
  · exact List.takeWhile_prefix _
  · exact List.nil_prefix

/-- What is behind the lead. -/
theorem drop_lead (f : Front) (p : Bytes) : p.drop (f.lead p).length = f.run p ++ f.rest p := by
  rw [rest, ← List.drop_drop]
  exact (List.prefix_iff_eq_append.mp (f.run_prefix p)).symm

/-- Before, in and behind the skipped spaces. -/
theorem split (f : Front) (p : Bytes) : f.lead p ++ (f.run p ++ f.rest p) = p := by
  rw [← drop_lead]
  exact List.prefix_iff_eq_append.mp (f.lead_prefix p)

/-- The skipped spaces are spaces. -/
theorem run_eq (f : Front) (p : Bytes) : f.run p = List.replicate (f.run p).length space := by
  apply List.eq_replicate_of_mem
  intro b hb
  unfold run at hb
  split at hb
  · simpa using List.mem_takeWhile_imp hb
  · cases hb

/-- There is none before them that would be skipped. -/
theorem lead_ne (f : Front) (p : Bytes) : ∀ b ∈ f.lead p, b ≠ space := by
  intro b hb
  unfold lead at hb
  split at hb
  · simpa using List.mem_takeWhile_imp hb
  · cases hb

/-- Where spaces are skipped, none follows. -/
theorem rest_head (h : f.skips = true) (p : Bytes) : (f.rest p).head? ≠ some space := by
  have hrest : f.rest p = (p.drop (f.lead p).length).dropWhile (· = space) := by
    have hrun : f.run p = (p.drop (f.lead p).length).takeWhile (· = space) := if_pos h
    have hsplit := List.takeWhile_append_dropWhile (p := (· = space)) (l := p.drop (f.lead p).length)
    rw [← hrun] at hsplit
    exact (List.append_cancel_left (hsplit.trans (f.drop_lead p))).symm
  intro hhead
  have hfalse := List.head?_dropWhile_not (· = space) (p.drop (f.lead p).length)
  rw [← hrest, hhead] at hfalse
  simp at hfalse

/-- Where they are not skipped, the text is as it is. -/
theorem word_of_not_skips (h : f.skips = false) : f.run p = [] ∧ f.rest p = p ∧ f.word p = f.pending ++ p := by
  have hzero : f.zero = false := (Bool.or_eq_false_iff.mp h).1
  have hlead : f.lead p = [] := by rw [lead, hzero]; rfl
  have hrun : f.run p = [] := by rw [run, h]; rfl
  have hrest : f.rest p = p := by rw [rest, hlead, hrun]; rfl
  refine ⟨hrun, hrest, ?_⟩
  rw [word, hlead, hrun, hrest, List.append_nil, List.append_nil]
  rfl

/-- As many characters are lost as spaces are skipped, and they are the first that are there. -/
theorem word_eq_drop (f : Front) (p : Bytes) : f.word p = (f.pending ++ p).drop (f.run p).length := by
  have hsplit := f.split p
  have hassoc : f.pending ++ p = (f.pending ++ f.lead p ++ f.run p) ++ f.rest p := by
    simp only [List.append_assoc, hsplit]
  rw [hassoc, List.drop_append_of_le_length, word]
  rw [List.length_append]
  exact Nat.le_add_left _ _

/-- How long the text is. -/
theorem word_length (f : Front) (p : Bytes) :
    (f.word p).length = f.pending.length + p.length - (f.run p).length := by
  have hlen := congrArg List.length (f.split p)
  simp only [word, List.length_append, List.length_drop] at hlen ⊢
  omega

end Front

/-! ## The scanner in a slice -/

/-- A delimiter that is none of these three ends a value. -/
theorem isStop_cases {b : UInt8} (h : isStop b = true) :
    b = equals ∨ b = openBrace ∨ b = closeBrace ∨ (b ≠ equals ∧ b ≠ openBrace ∧ b ≠ closeBrace ∧ isEnd b = true) := by
  by_cases heq : b = equals
  · exact .inl heq
  by_cases hopen : b = openBrace
  · exact .inr (.inl hopen)
  by_cases hclose : b = closeBrace
  · exact .inr (.inr (.inl hclose))
  · refine .inr (.inr (.inr ⟨heq, hopen, hclose, ?_⟩))
    simpa [isStop, isBrace, heq, hopen, hclose] using h

theorem isEnd_iff {b : UInt8} : isEnd b = true ↔ b = newline ∨ b = semicolon ∨ b = comma := by
  unfold isEnd
  simp [or_assoc]

section Plain

variable {c : Cursor} {b : UInt8} {p : Bytes}

/-- A character that is no delimiter goes behind the text. -/
theorem read_plain (hb : isStop b = false) : c.read b = (⟨c.start, c.word ++ [b], b, false⟩, []) := by
  have hnot : ∀ d, isStop d = true → b ≠ d := by
    rintro d hd rfl
    rw [hb] at hd
    cases hd
  have hend : ¬ (b = newline ∨ b = semicolon ∨ b = comma) := by
    rintro (h | h | h)
    · exact hnot newline (by decide) h
    · exact hnot semicolon (by decide) h
    · exact hnot comma (by decide) h
  unfold Cursor.read
  rw [if_neg (hnot equals (by decide)), if_neg (hnot openBrace (by decide)), if_neg (hnot closeBrace (by decide)),
    if_neg fun h => hend h.1]

theorem not_skipsBehind (hb : isStop b = false) : ¬ SkipsBehind b := by
  rintro (rfl | rfl | rfl)
  · cases hb
  · cases hb
  · cases hb

/-- Text in which no space is skipped: there is none, or `tok_start` is not 0 and the text goes on. -/
theorem lex_plain (hp : ∀ b ∈ p, isStop b = false) (hskip : c.skip = false)
    (hstay : (∀ b ∈ p, b ≠ space) ∨ c.start ≠ 0 ∧ ¬ SkipsBehind c.last) :
    (lex c p).2 = [] ∧ (lex c p).1.start = c.start ∧ (lex c p).1.word = c.word ++ p ∧ (lex c p).1.skip = false ∧
      (p = [] → (lex c p).1 = c) := by
  induction p generalizing c with
  | nil => exact ⟨rfl, rfl, (List.append_nil _).symm, hskip, fun _ => rfl⟩
  | cons b p ih =>
      have hb : isStop b = false := hp b List.mem_cons_self
      have hnext : c.next b = (⟨c.start, c.word ++ [b], b, false⟩, []) := by
        rw [← read_plain hb]
        refine if_neg ?_
        rintro ⟨rfl, hskips | hskips⟩
        · rw [hskip] at hskips
          cases hskips
        · rcases hstay with hstay | ⟨hstart, hlast⟩
          · exact hstay space List.mem_cons_self rfl
          · rcases hskips with h | h | h | h
            · exact hlast (.inl h)
            · exact hlast (.inr (.inl h))
            · exact hlast (.inr (.inr h))
            · exact hstart h
      obtain ⟨htoks, hstart, hword, hskip', -⟩ :=
        @ih ⟨c.start, c.word ++ [b], b, false⟩ (fun d hd => hp d (List.mem_cons_of_mem b hd)) rfl
          (hstay.imp (fun h d hd => h d (List.mem_cons_of_mem b hd)) fun h => ⟨h.1, not_skipsBehind hb⟩)
      rw [lex, hnext]
      refine ⟨htoks, hstart, ?_, hskip', fun h => by cases h⟩
      show (lex ⟨c.start, c.word ++ [b], b, false⟩ p).1.word = _
      rw [hword, List.append_assoc, List.singleton_append]

end Plain

/-- The scanner is at the beginning of a slice. -/
structure InFront (c : Cursor) (f : Front) : Prop where
  skip : c.skip = false
  zero : f.zero = true ↔ c.start = 0
  word : c.word = f.pending
  last : f.zero = false → c.last = f.last

/-- It has read the text `p` of a slice. -/
structure InText (c' c : Cursor) (f : Front) (p : Bytes) : Prop where
  start : c'.start = c.start + (f.run p).length
  word  : c'.word = f.word p
  skip  : c'.skip = f.runsOut p

/-- A line begins with a slice. -/
theorem inFront_fresh (last : UInt8) : InFront (.fresh last) .line :=
  ⟨rfl, ⟨fun _ => rfl, fun _ => rfl⟩, rfl, fun h => by cases h⟩

section Simulation

variable {c : Cursor} {f : Front} {p l got : Bytes}

/-- Behind the lead the scanner skips spaces, if it does so in this slice. -/
theorem InFront.skips (h : InFront c f) (hskips : f.skips = true) {c₁ : Cursor} (hstart : c₁.start = c.start)
    (hsame : f.lead p = [] → c₁ = c) : c₁.Skips := by
  by_cases hzero : f.zero = true
  · exact .inr (.inr (.inr (hstart.trans (h.zero.mp hzero))))
  · have hfalse : f.zero = false := Bool.eq_false_iff.mpr hzero
    have hlead : f.lead p = [] := by rw [Front.lead, hfalse]; rfl
    have hbehind : SkipsBehind f.last := by
      unfold Front.skips at hskips
      rw [Bool.or_eq_true] at hskips
      exact of_decide_eq_true (hskips.resolve_left hzero)
    rw [hsame hlead]
    rw [← h.last hfalse] at hbehind
    rcases hbehind with h | h | h
    · exact .inl h
    · exact .inr (.inl h)
    · exact .inr (.inr (.inl h))

/-- Text behind skipped spaces. -/
theorem lex_behind (hp : ∀ b ∈ p, isStop b = false) (hhead : p.head? ≠ some space) (hstart : p ≠ [] → c.start ≠ 0) :
    (lex c p).2 = [] ∧ (lex c p).1.start = c.start ∧ (lex c p).1.word = c.word ++ p ∧
      (lex c p).1.skip = (c.skip && p.isEmpty) := by
  cases p with
  | nil => exact ⟨rfl, rfl, (List.append_nil _).symm, (Bool.and_true _).symm⟩
  | cons b p =>
      have hb : isStop b = false := hp b List.mem_cons_self
      have hspace : b ≠ space := fun h => hhead (by rw [h]; rfl)
      obtain ⟨htoks, hstart', hword, hskip, -⟩ :=
        @lex_plain ⟨c.start, c.word ++ [b], b, false⟩ p (fun d hd => hp d (List.mem_cons_of_mem b hd)) rfl
          (.inr ⟨hstart (by simp), not_skipsBehind hb⟩)
      rw [lex, c.next_of_ne hspace, read_plain hb]
      refine ⟨htoks, hstart', ?_, ?_⟩
      · show (lex ⟨c.start, c.word ++ [b], b, false⟩ p).1.word = _
        rw [hword, List.append_assoc, List.singleton_append]
      · rw [List.isEmpty_cons, Bool.and_false]
        exact hskip

/-- As long as `tok_start` is 0, text ends at its first space or not at all. -/
theorem Front.rest_nil (hzero : f.zero = true) (hrun : f.run p = []) : f.rest p = [] := by
  have hskips : f.skips = true := by rw [Front.skips, hzero, Bool.true_or]
  have hdrop : p.drop (f.lead p).length = p.dropWhile (· ≠ space) := by
    have hlead : f.lead p = p.takeWhile (· ≠ space) := if_pos hzero
    have hsplit := List.takeWhile_append_dropWhile (p := (· ≠ space)) (l := p)
    rw [← hlead] at hsplit
    exact List.append_cancel_left ((List.prefix_iff_eq_append.mp (f.lead_prefix p)).trans hsplit.symm)
  have hrest : f.rest p = p.dropWhile (· ≠ space) := by
    rw [← hdrop, f.drop_lead, hrun, List.nil_append]
  have hhead := f.rest_head hskips p
  cases hp : f.rest p with
  | nil => rfl
  | cons b r =>
      -- the first character behind the lead is a space
      have hnot := List.head?_dropWhile_not (· ≠ space) p
      rw [← hrest, hp] at hnot
      rw [hp] at hhead
      simp at hnot hhead
      exact absurd hnot hhead

/-- **The text of a slice** is put behind what is there, less the characters that the skipped spaces cost. -/
theorem lex_text (h : InFront c f) (hp : ∀ b ∈ p, isStop b = false) :
    (lex c p).2 = [] ∧ InText (lex c p).1 c f p := by
  have hsplit := f.split p
  have hleadplain : ∀ b ∈ f.lead p, isStop b = false := fun b hb => hp b ((f.lead_prefix p).subset hb)
  have hrestplain : ∀ b ∈ f.rest p, isStop b = false := by
    intro b hb
    refine hp b ?_
    rw [← hsplit]
    exact List.mem_append_right _ (List.mem_append_right _ hb)
  cases hskips : f.skips with
  | false =>
      obtain ⟨hrun, hrest, hword⟩ := @Front.word_of_not_skips f p hskips
      have hzero : f.zero = false := (Bool.or_eq_false_iff.mp hskips).1
      have hbehind : ¬ SkipsBehind c.last := by
        rw [h.last hzero]
        exact of_decide_eq_false (Bool.or_eq_false_iff.mp hskips).2
      have hstart : c.start ≠ 0 := fun h0 => by rw [h.zero.mpr h0] at hzero; cases hzero
      obtain ⟨htoks, hstart', hword', hskip', -⟩ := lex_plain hp h.skip (.inr ⟨hstart, hbehind⟩)
      refine ⟨htoks, ?_, ?_, ?_⟩
      · rw [hstart', hrun]
        rfl
      · rw [hword', hword, h.word]
      · rw [hskip', Front.runsOut, hrun]
        rfl
  | true =>
      obtain ⟨htoks, hstart, hword, hskip, hsame⟩ := lex_plain hleadplain h.skip (.inl (f.lead_ne p))
      have hc₁ : (lex c (f.lead p)).1.Skips := h.skips hskips hstart hsame
      have hlex : lex c p = lex c (f.lead p ++ (f.run p ++ f.rest p)) := by rw [hsplit]
      rw [lex_append, htoks, List.nil_append, lex_append] at hlex
      generalize (lex c (f.lead p)).1 = c₁ at hstart hword hskip hc₁ hlex
      have hhead := f.rest_head hskips p
      cases hk : (f.run p).length with
      | zero =>
          have hrun : f.run p = [] := List.length_eq_zero_iff.mp hk
          have hpos : f.rest p ≠ [] → c₁.start ≠ 0 := by
            intro hne h0
            exact hne (Front.rest_nil (h.zero.mpr (hstart.symm.trans h0)) hrun)
          obtain ⟨htoks', hstart', hword', hskip'⟩ := lex_behind hrestplain hhead hpos
          rw [hlex, hrun]
          refine ⟨htoks', ?_, ?_, ?_⟩
          · show (lex c₁ (f.rest p)).1.start = _
            rw [hstart', hstart, hrun]
            rfl
          · show (lex c₁ (f.rest p)).1.word = _
            rw [hword', hword, h.word, Front.word, hrun, List.append_nil]
            rfl
          · show (lex c₁ (f.rest p)).1.skip = _
            rw [hskip', hskip, Front.runsOut, hrun]
            rfl
      | succ k =>
          have hrun : f.run p = List.replicate (k + 1) space := by rw [f.run_eq, hk]
          obtain ⟨htoks', hstart', hword', hskip'⟩ :=
            @lex_behind ⟨c₁.start + (k + 1), (c₁.word ++ List.replicate (k + 1) space).drop (k + 1), c₁.last, true⟩ _
              hrestplain hhead fun _ => Nat.succ_ne_zero _
          rw [hlex, hrun, lex_spaces (.inr hc₁)]
          refine ⟨htoks', ?_, ?_, ?_⟩
          · show (lex _ (f.rest p)).1.start = _
            rw [hstart', hk, hstart]
          · show (lex _ (f.rest p)).1.word = _
            rw [hword', Front.word, hk, ← hrun, hword, h.word]
          · show (lex _ (f.rest p)).1.skip = _
            rw [hskip', Front.runsOut, hrun]
            rfl

/-! ## All slices of a line -/

/-- A token's type and its text. -/
def bare (t : Token) : TokenType × Bytes := (t.type, t.val.take t.len)

/-- The position of the delimiter that has ended a token. -/
def stopAt (t : Token) : Nat := if t.type = .openBracket ∨ t.type = .closeBracket then t.index else t.index + t.len

/-- A token, where it ends. -/
def located (t : Token) : Nat × TokenType × Bytes := (stopAt t, bare t)

theorem bare_tokenOf (type : TokenType) (index : Nat) (w : Bytes) : bare (tokenOf type index w) = (type, w) :=
  congrArg (Prod.mk type) List.take_left

/-- Where spaces are skipped, all of them are, if there is nothing else. -/
theorem Front.run_all (hskips : f.skips = true) (hall : ∀ b ∈ p, b = space) : f.run p = p := by
  have hlead : f.lead p = [] := by
    unfold Front.lead
    split
    · cases p with
      | nil => rfl
      | cons b p => rw [hall b List.mem_cons_self]; rfl
    · rfl
  unfold Front.run
  rw [if_pos hskips, hlead, List.length_nil, List.drop_zero]
  exact List.takeWhile_eq_self_iff.mpr fun b hb => by simpa using hall b hb

/-- When there is no text at the end of a slice. -/
theorem Front.word_nil (f : Front) (p : Bytes) : f.word p = [] ↔ f.empty p = true := by
  have hlen := congrArg List.length (f.split p)
  rw [List.length_append, List.length_append] at hlen
  have hempty : f.empty p = true ↔ f.kept = false ∧ (∀ b ∈ p, b = space) ∧ (f.skips = true ∨ p = []) := by
    unfold Front.empty
    simp [and_assoc]
  have hpending : f.pending.length = 0 ↔ f.kept = false := by
    unfold Front.pending
    cases f.kept <;> simp
  rw [← List.length_eq_zero_iff, f.word_length, hempty, ← hpending]
  constructor
  · intro h
    -- all of the slice is skipped
    have hall : p.length = (f.run p).length := by omega
    have hrun : f.run p = p := by
      have hlead : f.lead p = [] := List.length_eq_zero_iff.mp (by omega)
      have hrest : f.rest p = [] := List.length_eq_zero_iff.mp (by omega)
      have hsplit := f.split p
      rwa [hlead, hrest, List.nil_append, List.append_nil] at hsplit
    refine ⟨by omega, fun b hb => ?_, ?_⟩
    · rw [← hrun, f.run_eq] at hb
      exact List.eq_of_mem_replicate hb
    · by_contra hno
      rw [not_or, Bool.not_eq_true] at hno
      have hnone := (@word_of_not_skips f p hno.1).1
      rw [hnone] at hrun
      exact hno.2 hrun.symm
  · rintro ⟨hkept, hall, hskips | hnil⟩
    · rw [Front.run_all hskips hall, hkept]
      omega
    · rw [hnil, hkept]
      simp

theorem located_word {type : TokenType} (h : type = .variable ∨ type = .value) (index : Nat) (w : Bytes) :
    located (tokenOf type index w) = (index + w.length, type, w) := by
  have hstop : stopAt (tokenOf type index w) = index + w.length := by
    rcases h with rfl | rfl <;> rfl
  rw [located, hstop, bare_tokenOf]

/-- Behind a token nothing is left of the slice. -/
theorem inFront_behind {s : Slice} (c' : Cursor) (hno : ¬ (isEnd s.stop = true ∧ f.empty s.text = true)) :
    InFront (c'.behind s.stop) (f.after s) := by
  have hkept : (f.after s).kept = false := by
    rw [← Bool.not_eq_true]
    exact fun h => hno (by simpa [Front.after] using h)
  have hzero : (f.after s).zero = false := by
    rw [← Bool.not_eq_true]
    intro h
    refine hno ?_
    simp only [Front.after, Bool.and_eq_true, Bool.not_eq_true', List.isEmpty_iff] at h
    obtain ⟨⟨⟨-, hend⟩, hkept⟩, htext⟩ := h
    exact ⟨hend, by simp [Front.empty, hkept, htext]⟩
  refine ⟨rfl, ?_, ?_, fun _ => rfl⟩
  · rw [hzero]
    exact ⟨fun h => absurd h Bool.false_ne_true, fun h => absurd h (Nat.succ_ne_zero _)⟩
  · rw [Front.pending, hkept]
    rfl

/-- How far the scanner is behind the text of a slice. -/
theorem pos_text {c' : Cursor} (h : InFront c f) (htext : InText c' c f p) : c'.pos = c.pos + p.length := by
  have hrun := congrArg List.length (f.split p)
  have hword := f.word_length p
  simp only [List.length_append] at hrun
  unfold Cursor.pos
  rw [htext.start, htext.word, h.word, hword]
  omega

/-- **A slice** ends its token and leaves the scanner in front of the next. -/
theorem lex_slice (h : InFront c f) (s : Slice) :
    (lex c (s.text ++ [s.stop])).2.map located = (f.token s).map (c.pos + s.text.length, ·) ∧
      InFront (lex c (s.text ++ [s.stop])).1 (f.after s) ∧
      (lex c (s.text ++ [s.stop])).1.pos = c.pos + s.text.length + 1 := by
  obtain ⟨htoks, htext⟩ := lex_text h s.plain
  have hpos := pos_text h htext
  obtain ⟨hstart, hword, -⟩ := htext
  have hspace : s.stop ≠ space := by
    intro hs
    have hcut := s.cut
    rw [hs] at hcut
    cases hcut
  rw [lex_append, htoks, List.nil_append, ← hpos]
  generalize (lex c s.text).1 = c' at hstart hword
  show ((c'.next s.stop).2 ++ []).map located = _ ∧ InFront (c'.next s.stop).1 _ ∧ (c'.next s.stop).1.pos = _
  rw [List.append_nil, c'.next_of_ne hspace]
  unfold Cursor.read Front.token
  rcases isStop_cases s.cut with heq | hopen | hclose | ⟨hne, hnopen, hnclose, hend⟩
  · rw [if_pos heq, if_pos heq]
    refine ⟨?_, inFront_behind c' fun h => ?_, rfl⟩
    · rw [List.map_singleton, List.map_singleton, located_word (.inl rfl), ← hword]
      rfl
    · rw [heq] at h
      exact absurd h.1 (by decide)
  · have hne : s.stop ≠ equals := by rw [hopen]; decide
    rw [if_neg hne, if_neg hne, if_pos hopen, if_pos hopen]
    refine ⟨rfl, inFront_behind c' fun h => ?_, rfl⟩
    rw [hopen] at h
    exact absurd h.1 (by decide)
  · have hne : s.stop ≠ equals := by rw [hclose]; decide
    have hnopen : s.stop ≠ openBrace := by rw [hclose]; decide
    rw [if_neg hne, if_neg hne, if_neg hnopen, if_neg hnopen, if_pos hclose, if_pos hclose]
    refine ⟨rfl, inFront_behind c' fun h => ?_, rfl⟩
    rw [hclose] at h
    exact absurd h.1 (by decide)
  · rw [if_neg hne, if_neg hne, if_neg hnopen, if_neg hnopen, if_neg hnclose, if_neg hnclose]
    by_cases hempty : f.empty s.text = true
    · -- there is no text, and the delimiter becomes some
      have hnil : c'.word = [] := by rw [hword]; exact (f.word_nil s.text).mpr hempty
      rw [if_neg (fun h => h.2 hnil), if_pos hempty]
      refine ⟨rfl, ⟨rfl, ?_, ?_, fun _ => rfl⟩, ?_⟩
      · show (f.zero && isEnd s.stop && !f.kept && s.text.isEmpty) = true ↔ c'.start = 0
        simp only [Front.empty, Bool.and_eq_true, Bool.or_eq_true, Bool.not_eq_true', List.isEmpty_iff] at hempty
        obtain ⟨⟨hkept, hall⟩, hskips⟩ := hempty
        simp only [hend, hkept, Bool.and_true, Bool.not_false, Bool.and_eq_true, List.isEmpty_iff]
        rw [hstart, h.zero, Nat.add_eq_zero_iff]
        refine and_congr_right fun h0 => ?_
        have hskips' : f.skips = true := by rw [Front.skips, h.zero.mpr h0, Bool.true_or]
        rw [Front.run_all hskips' (by simpa using hall), List.length_eq_zero_iff]
      · show c'.word ++ [s.stop] = _
        have hkept : (f.after s).kept = true := by rw [Front.after, hend, hempty]; rfl
        rw [hnil, Front.pending, hkept]
        rfl
      · simp [Cursor.pos, Nat.add_assoc]
    · have hne' : c'.word ≠ [] := by
        rw [hword]
        exact fun h => hempty ((f.word_nil s.text).mp h)
      rw [if_pos ⟨isEnd_iff.mp hend, hne'⟩, if_neg hempty]
      refine ⟨?_, inFront_behind c' fun h => hempty h.2, rfl⟩
      rw [List.map_singleton, List.map_singleton, located_word (.inr rfl), ← hword]
      rfl

/-- The token of a mark, where it ends. -/
def Mark.located (m : Mark) : List (Nat × TokenType × Bytes) := m.token.map (m.pos, ·)

/-- **All slices**, and the text behind the last of them. Here `got` has been read of the first. -/
theorem lex_cut (h : InFront c f) (hgot : ∀ b ∈ got, isStop b = false) (l : Bytes) :
    (lex c (got ++ l)).2.map located = (f.marks c.pos (cutFrom got hgot l).1).flatMap Mark.located ∧
      (lex c (got ++ l)).1.skip = (f.afterAll (cutFrom got hgot l).1).runsOut (cutFrom got hgot l).2 := by
  induction l generalizing c f got with
  | nil =>
      obtain ⟨htoks, htext⟩ := lex_text h hgot
      rw [List.append_nil, htoks]
      exact ⟨rfl, htext.skip⟩
  | cons b l ih =>
      rw [cutFrom]
      by_cases hb : isStop b = true
      · obtain ⟨htoks, hfront, hpos⟩ := lex_slice h ⟨got, b, hgot, hb⟩
        obtain ⟨hrest, hskip⟩ := ih hfront plain_nil
        have hline : got ++ b :: l = (got ++ [b]) ++ ([] ++ l) := by simp
        rw [dif_pos hb, hline, lex_append, List.map_append, hrest, htoks, hpos]
        exact ⟨rfl, hskip⟩
      · have hline : got ++ b :: l = (got ++ [b]) ++ l := by simp
        rw [dif_neg hb, hline]
        exact ih h (plain_snoc hgot hb)

/-- The slices of a line, from its beginning. -/
def marks (l : Bytes) : List Mark := Front.line.marks 0 (slices l)

/-- The line ends while spaces are skipped. -/
def runsOut (l : Bytes) : Bool := (Front.line.afterAll (slices l)).runsOut (tail l)

/-- **A line** is read slice by slice. -/
theorem lex_located (last : UInt8) (l : Bytes) :
    (lex (.fresh last) l).2.map located = (marks l).flatMap Mark.located ∧ (lex (.fresh last) l).1.skip = runsOut l :=
  lex_cut (inFront_fresh last) plain_nil l

/-- The tokens alone. -/
theorem lex_slices (last : UInt8) (l : Bytes) : (lex (.fresh last) l).2.map bare = (marks l).flatMap Mark.token := by
  have hall := congrArg (List.map Prod.snd) (lex_located last l).1
  rw [List.map_map, List.map_flatMap] at hall
  refine hall.trans (List.flatMap_congr fun m _ => ?_)
  rw [Mark.located, List.map_map]
  exact List.map_id _

end Simulation

/-- The slices stand one behind the other. -/
theorem Front.marks_sorted (f : Front) (n : Nat) (ss : List Slice) :
    (f.marks n ss).Pairwise (fun a b => a.pos < b.pos) ∧ ∀ m ∈ f.marks n ss, n ≤ m.pos := by
  induction ss generalizing f n with
  | nil => exact ⟨.nil, fun m hm => absurd hm List.not_mem_nil⟩
  | cons s ss ih =>
      obtain ⟨hsorted, hbehind⟩ := ih (f.after s) (n + s.text.length + 1)
      refine ⟨.cons (fun m hm => ?_) hsorted, fun m hm => ?_⟩
      · have hpos := hbehind m hm
        show n + s.text.length < m.pos
        omega
      · rcases List.mem_cons.mp hm with rfl | hm
        · exact Nat.le_add_right n _
        · have hpos := hbehind m hm
          omega

/-! ## How long the texts are, and how many -/

/-- The type of the token that a delimiter ends, if it is no brace. -/
def typeOf (b : UInt8) : TokenType := if b = equals then .variable else .value

namespace Mark

/-- The text between two delimiters has at most `n` bytes, less the skipped spaces, with a delimiter that was made
    into text. -/
def Room (n : Nat) (m : Mark) : Prop :=
  isBrace m.slice.stop = true ∨ m.front.pending.length + m.slice.text.length ≤ n + (m.front.run m.slice.text).length

instance (n : Nat) (m : Mark) : Decidable (m.Room n) := inferInstanceAs (Decidable (_ ∨ _))

variable {m : Mark}

/-- A brace is its own text. -/
theorem token_brace (h : isBrace m.slice.stop = true) :
    ∃ type, m.token = [(type, [m.slice.stop])] ∧ type ≠ .variable ∧ type ≠ .value := by
  unfold token Front.token
  simp only [isBrace, Bool.or_eq_true, decide_eq_true_eq] at h
  rcases h with h | h
  · exact ⟨.openBracket, by rw [h]; rfl, by decide, by decide⟩
  · exact ⟨.closeBracket, by rw [h]; rfl, by decide, by decide⟩

/-- Any other delimiter ends what is before it, or is made into text itself. -/
theorem token_word (h : isBrace m.slice.stop = false) :
    m.token = if m.after.kept then [] else [(typeOf m.slice.stop, m.front.word m.slice.text)] := by
  have hopen : m.slice.stop ≠ openBrace := by
    intro heq
    rw [heq] at h
    cases h
  have hclose : m.slice.stop ≠ closeBrace := by
    intro heq
    rw [heq] at h
    cases h
  unfold token Front.token after Front.after typeOf
  by_cases heq : m.slice.stop = equals
  · rw [if_pos heq, if_pos heq, heq]
    rfl
  · have hend : isEnd m.slice.stop = true := by
      have hcut := m.slice.cut
      rw [isStop, h, Bool.or_false] at hcut
      simpa [heq] using hcut
    rw [if_neg heq, if_neg hopen, if_neg hclose, if_neg heq, hend, Bool.true_and]

/-- A delimiter that is made into text has none before it. -/
theorem word_of_kept (h : m.after.kept = true) : m.front.word m.slice.text = [] := by
  unfold after Front.after at h
  rw [Bool.and_eq_true] at h
  exact (m.front.word_nil m.slice.text).mpr h.2

/-- Such a delimiter is no brace. -/
theorem not_brace_of_kept (h : m.after.kept = true) : isBrace m.slice.stop = false := by
  unfold after Front.after at h
  rw [Bool.and_eq_true] at h
  rw [← Bool.not_eq_true]
  intro hbrace
  simp only [isBrace, Bool.or_eq_true, decide_eq_true_eq] at hbrace
  rcases hbrace with hstop | hstop
  · rw [hstop] at h
    exact absurd h.1 (by decide)
  · rw [hstop] at h
    exact absurd h.1 (by decide)

/-- A slice gives one token, unless its delimiter is made into text. -/
theorem length_token (m : Mark) : m.token.length = if m.after.kept then 0 else 1 := by
  cases hbrace : isBrace m.slice.stop with
  | true =>
      obtain ⟨type, htoken, -⟩ := token_brace hbrace
      have hkept : ¬ m.after.kept = true := by
        intro h
        rw [not_brace_of_kept h] at hbrace
        cases hbrace
      rw [htoken, if_neg hkept]
      rfl
  | false =>
      rw [token_word hbrace]
      split <;> rfl

/-- The texts have room if the slices do. -/
theorem room_iff {n : Nat} (hn : 1 ≤ n) (m : Mark) : (∀ x ∈ m.token, x.2.length ≤ n) ↔ m.Room n := by
  have hlen := congrArg List.length (m.front.split m.slice.text)
  have hword := m.front.word_length m.slice.text
  simp only [List.length_append] at hlen
  unfold Room
  cases hbrace : isBrace m.slice.stop with
  | true =>
      obtain ⟨type, htoken, -⟩ := token_brace hbrace
      rw [htoken, List.forall_mem_singleton]
      exact ⟨fun _ => .inl rfl, fun _ => hn⟩
  | false =>
      rw [token_word hbrace]
      split
      · next hkept =>
        -- there is no text
        rw [word_of_kept hkept, List.length_nil] at hword
        exact ⟨fun _ => .inr (by omega), fun _ x hx => absurd hx List.not_mem_nil⟩
      · rw [List.forall_mem_singleton]
        constructor
        · intro h
          have hle : (m.front.word m.slice.text).length ≤ n := h
          exact .inr (by omega)
        · intro h
          have hle := h.resolve_left Bool.false_ne_true
          show (m.front.word m.slice.text).length ≤ n
          omega

end Mark

/-- The number of tokens: one for each delimiter that is not made into text. -/
theorem length_tokens (ms : List Mark) : (ms.flatMap Mark.token).length = ms.countP fun m => !m.after.kept := by
  induction ms with
  | nil => rfl
  | cons m ms ih =>
      rw [List.flatMap_cons, List.length_append, List.countP_cons, ih, m.length_token, Nat.add_comm]
      cases m.after.kept <;> rfl

/-- Every token is made of its text. -/
theorem lex_tokenOf {c : Cursor} {l : Bytes} : ∀ t ∈ (lex c l).2, ∃ type index w, t = tokenOf type index w := by
  induction l generalizing c with
  | nil =>
      intro t ht
      cases ht
  | cons b l ih =>
      intro t ht
      rcases List.mem_append.mp ht with ht | ht
      · unfold Cursor.next Cursor.read at ht
        split_ifs at ht <;> simp at ht <;> exact ⟨_, _, _, ht⟩
      · exact ih t ht

theorem bare_len {t : Token} (h : ∃ type index w, t = tokenOf type index w) : (bare t).2.length = t.len := by
  obtain ⟨type, index, w, rfl⟩ := h
  rw [bare_tokenOf]
  rfl

/-- **The texts of a line fit** if its slices leave room for them. -/
theorem len_le_iff {n : Nat} (hn : 1 ≤ n) (last : UInt8) (l : Bytes) :
    (∀ t ∈ (lex (.fresh last) l).2, t.len ≤ n) ↔ ∀ m ∈ marks l, m.Room n := by
  have hbare : (∀ t ∈ (lex (.fresh last) l).2, t.len ≤ n) ↔ ∀ x ∈ (marks l).flatMap Mark.token, x.2.length ≤ n := by
    rw [← lex_slices last l, List.forall_mem_map]
    apply forall₂_congr
    intro t ht
    rw [bare_len (lex_tokenOf t ht)]
  rw [hbare]
  constructor
  · intro h m hm
    exact (m.room_iff hn).mp fun x hx => h x (List.mem_flatMap.mpr ⟨m, hm, hx⟩)
  · intro h x hx
    obtain ⟨m, hm, hx⟩ := List.mem_flatMap.mp hx
    exact (m.room_iff hn).mpr (h m hm) x hx

/-- The number of its tokens. -/
theorem length_lex (last : UInt8) (l : Bytes) :
    (lex (.fresh last) l).2.length = (marks l).countP fun m => !m.after.kept := by
  rw [← length_tokens, ← lex_slices last l, List.length_map]

/-- Every text has room in `n` bytes, and there is a slot for every token behind the first. -/
structure FitIn (n : Nat) (ms : List Mark) : Prop where
  room : ∀ m ∈ ms, m.Room n
  few  : 1 + (ms.countP fun m => !m.after.kept) ≤ maxTokens

/-- **The tokens of lines fit** if their slices do. -/
theorem fitIn_iff {n : Nat} (hn : 1 ≤ n) (ls : List Bytes) :
    FitIn n (ls.flatMap marks) ↔
      1 + (ls.flatMap lexLine).length ≤ maxTokens ∧ ∀ t ∈ ls.flatMap lexLine, t.len ≤ n := by
  have hcount : (ls.flatMap lexLine).length = (ls.flatMap marks).countP fun m => !m.after.kept := by
    induction ls with
    | nil => rfl
    | cons l ls ih =>
        rw [List.flatMap_cons, List.flatMap_cons, List.length_append, List.countP_append, ih]
        exact congrArg (· + _) (length_lex nul l)
  have hroom : (∀ t ∈ ls.flatMap lexLine, t.len ≤ n) ↔ ∀ m ∈ ls.flatMap marks, m.Room n := by
    rw [List.forall_mem_flatMap, List.forall_mem_flatMap]
    exact forall₂_congr fun l _ => len_le_iff hn nul l
  rw [hcount, hroom]
  exact ⟨fun h => ⟨h.few, h.room⟩, fun h => ⟨h.2, h.1⟩⟩

end IOSwitch.Tokenizer
