import IOSwitch.Tokenizer.Lexer

/-!
# `Tokenizer.Cuts` — where `fgets` cuts a line

A line that is longer than the buffer is read in several pieces, and the last line of a file may have no newline.
`load_tokens` starts every piece as if it were a line: what it has read of a lexeme is lost, and spaces are skipped
as at the beginning of a line. `loadWhole` is the same scanner on the whole lines.

Two scanners run over the same text, one that goes on behind a cut and one that starts afresh there. `Alike` says
when they will find the same tokens; every character keeps it (`Alike.next`), and so does a cut behind which
nothing is pending (`CutOk`, `Alike.cut`).

## Contents
- `wholeLines`, `loadWhole` — the reference.
- `CutOk`, `CutsOk`, `Clean` — the cuts that do not show.
- `Alike` — the simulation; `lexPieces_alike` for all pieces of a file.
- `buffering_invisible`, `lost_setting`.
-/

namespace IOSwitch.Tokenizer

open Lib

/-! ## Whole lines -/

/-- The lines of a file that goes on with the given bytes, where `got` is the beginning of the line. The last one gets
    a newline if it has none. -/
def wholeLines (got : Bytes) : Bytes → List Bytes
  | []        => if got = [] then [] else [got ++ [newline]]
  | b :: file =>
      if b = newline then (got ++ [newline]) :: wholeLines [] file
      else wholeLines (got ++ [b]) file

/-- The scanner of `load_tokens`, run on the whole lines. -/
def loadWhole (file : Bytes) : Except Fault (List Token) := loadLines [] nul [noToken] (wholeLines [] file)

/-- What of a token does not depend on where it was found. -/
def lexeme (t : Token) : TokenType × Bytes := (t.type, t.val)

/-! ## Cuts -/

/-- `b` ends a token, or it is a brace; `started` says whether there is any text before it. -/
def ends (started : Bool) (b : UInt8) : Bool :=
  b = equals || b = openBrace || b = closeBrace || (b = newline || b = semicolon || b = comma) && started

/-- There is no space before the next token ends. -/
def calm (started : Bool) : Bytes → Bool
  | []     => true
  | b :: x => ends started b || (b ≠ space && calm true x)

/-- The next token is a brace, before which text is dropped. -/
def braceNext (started : Bool) : Bytes → Bool
  | []     => false
  | b :: x => b = openBrace || b = closeBrace || (!ends started b && braceNext true x)

/-- The spaces behind `last` are skipped. -/
def SkipsBehind (last : UInt8) : Prop := last = openBrace ∨ last = equals ∨ last = comma

instance (last : UInt8) : Decidable (SkipsBehind last) := inferInstanceAs (Decidable (_ ∨ _))

/-- A cut behind the cursor `c`, before the text `x`, does not show: no space is being skipped, and either nothing is
    pending and spaces are treated in the same way on both sides, or what is pending would be dropped anyway. -/
def CutOk (c : Cursor) (x : Bytes) : Prop :=
  c.skip = false ∧
    (braceNext (c.word ≠ []) x = true ∨ c.word = [] ∧ (calm false x = true ∨ SkipsBehind c.last ∧ x.head? = some space))

instance (c : Cursor) (x : Bytes) : Decidable (CutOk c x) := inferInstanceAs (Decidable (_ ∧ _))

/-- The rest of the line, with its newline. -/
def restLine : List Bytes → Bytes
  | []            => [newline]
  | piece :: rest => if newline ∈ piece then piece else piece ++ restLine rest

/-- None of the cuts behind the pieces shows. -/
def CutsOk (last : UInt8) : List Bytes → Prop
  | []            => True
  | piece :: rest =>
      (newline ∉ piece → CutOk (lex (.fresh last) piece).1 (restLine rest)) ∧
        CutsOk (lex (.fresh last) piece).1.last rest

instance decidableCutsOk (last : UInt8) : (pieces : List Bytes) → Decidable (CutsOk last pieces)
  | []            => isTrue trivial
  | piece :: rest =>
      haveI := decidableCutsOk (lex (.fresh last) piece).1.last rest
      inferInstanceAs (Decidable (_ ∧ _))

/-- No piece ends in the middle of spaces that are being skipped. Otherwise the skipping loop stops at the NUL, which
    is then read as a character, and the scan goes on behind it. -/
def NoRunOver (last : UInt8) : List Bytes → Prop
  | []            => True
  | piece :: rest =>
      (newline ∉ piece → (lex (.fresh last) piece).1.skip = false) ∧
        NoRunOver (lex (.fresh last) piece).1.last rest

theorem CutsOk.noRunOver {last : UInt8} {ps : List Bytes} (h : CutsOk last ps) : NoRunOver last ps := by
  induction ps generalizing last with
  | nil => trivial
  | cons piece ps ih => exact ⟨fun hnl => (h.1 hnl).1, ih h.2⟩

/-- The pieces that `load_tokens` reads. -/
def pieces (file : Bytes) : List Bytes := fgetsAll (maxLineWidth - 1) [] (maxLineWidth - 1) file

/-- No cut of the file shows. -/
def Clean (file : Bytes) : Prop := CutsOk nul (pieces file)

instance (file : Bytes) : Decidable (Clean file) := inferInstanceAs (Decidable (CutsOk _ _))

/-! ## One scanner that goes on, and one that starts afresh -/

/-- All of a token but where it was found. -/
def shape (t : Token) : TokenType × Nat × Bytes := (t.type, t.len, t.val)

/-- A character ends the text before it, or goes behind it. -/
theorem Cursor.read_cases (c : Cursor) (b : UInt8) :
    (ends (c.word ≠ []) b = true ∧ (c.read b).1 = c.behind b) ∨
    (ends (c.word ≠ []) b = false ∧ c.read b = (⟨c.start, c.word ++ [b], b, false⟩, [])) := by
  unfold Cursor.read ends
  by_cases heq : b = equals
  · left
    simp [heq]
  by_cases hopen : b = openBrace
  · left
    simp [hopen]
    rfl
  by_cases hclose : b = closeBrace
  · left
    simp [hclose]
    rfl
  by_cases hend : (b = newline ∨ b = semicolon ∨ b = comma) ∧ c.word ≠ []
  · left
    simp [heq, hopen, hclose, hend, or_assoc]
  · right
    rw [if_neg heq, if_neg hopen, if_neg hclose, if_neg hend]
    simp only [heq, hopen, hclose, decide_false, Bool.false_or, and_true]
    by_contra h
    rw [Bool.not_eq_false, Bool.and_eq_true] at h
    exact hend ⟨by simpa [or_assoc] using h.1, by simpa using h.2⟩

/-- What is read depends on the text before it alone. -/
theorem Cursor.read_shape {r c : Cursor} (hword : r.word = c.word) (b : UInt8) :
    (r.read b).2.map shape = (c.read b).2.map shape ∧ (r.read b).1.word = (c.read b).1.word := by
  unfold Cursor.read
  rw [hword]
  split_ifs <;> exact ⟨rfl, rfl⟩

/-- The scanner at `r`, which goes on, and the one at `c`, which has started afresh, find the same tokens in `x`. -/
inductive Alike (r c : Cursor) (x : Bytes) : Prop where
  /-- They differ in their positions. -/
  | same (word : r.word = c.word) (last : r.last = c.last) (skip : r.skip = c.skip)
      (start : r.start = 0 ↔ c.start = 0)
  /-- The one skips spaces as at the beginning of a line, but there are none. -/
  | calm (word : r.word = c.word) (last : r.last = c.last) (skip : r.skip = false ∧ c.skip = false)
      (start : r.start ≠ 0) (text : calm (c.word ≠ []) x = true)
  /-- There are spaces, which the other skips as well. -/
  | lead (word : r.word = [] ∧ c.word = []) (last : r.last = c.last) (behind : SkipsBehind c.last)
      (text : x.head? = some space)
  /-- What they have read will be dropped. -/
  | brace (started : Bool) (word : started = false → r.word = [] ∧ c.word = [])
      (text : braceNext started x = true)

section Next

variable {r c : Cursor} {b : UInt8} {x : Bytes}

theorem ends_space (started : Bool) : ends started space = false := by cases started <;> decide

theorem ends_mono {started : Bool} (h : ends true b = false) : ends started b = false := by
  cases started
  · unfold ends at h ⊢
    rw [Bool.or_eq_false_iff] at h ⊢
    exact ⟨h.1, Bool.and_false _⟩
  · exact h

theorem Cursor.next_skip (hb : b = space) (h : c.skip = true ∨ c.Skips) : c.next b = (c.skipped, []) :=
  if_pos ⟨hb, h⟩

/-- Where nothing ends, nothing is found. -/
theorem Cursor.next_nil (h : ends (c.word ≠ []) b = false) : (c.next b).2 = [] := by
  unfold Cursor.next
  split
  · rfl
  · rcases c.read_cases b with hread | hread
    · rw [hread.1] at h
      cases h
    · rw [hread.2]

/-- A brace is found whatever is before it. -/
theorem brace_shape (hb : b = openBrace ∨ b = closeBrace) :
    (r.next b).2.map shape = (c.next b).2.map shape ∧ (r.next b).1 = r.behind b := by
  rcases hb with rfl | rfl
  · rw [r.next_of_ne (by decide), c.next_of_ne (by decide)]
    exact ⟨rfl, rfl⟩
  · rw [r.next_of_ne (by decide), c.next_of_ne (by decide)]
    exact ⟨rfl, rfl⟩

theorem alike_behind (r c : Cursor) (b : UInt8) (x : Bytes) : Alike (r.behind b) (c.behind b) x :=
  .same rfl rfl rfl ⟨fun h => absurd h (Nat.succ_ne_zero _), fun h => absurd h (Nat.succ_ne_zero _)⟩

/-- Both read a character with the same text before it. -/
theorem Alike.read (hword : r.word = c.word)
    (hgo : ends (c.word ≠ []) b = false →
      Alike ⟨r.start, r.word ++ [b], b, false⟩ ⟨c.start, c.word ++ [b], b, false⟩ x) :
    (r.read b).2.map shape = (c.read b).2.map shape ∧ Alike (r.read b).1 (c.read b).1 x := by
  refine ⟨(Cursor.read_shape hword b).1, ?_⟩
  rcases c.read_cases b with ⟨hends, hc⟩ | ⟨hends, hc⟩
  · rcases r.read_cases b with ⟨-, hr⟩ | ⟨hends', -⟩
    · rw [hr, hc]
      exact alike_behind r c b x
    · rw [hword, hends] at hends'
      cases hends'
  · rcases r.read_cases b with ⟨hends', -⟩ | ⟨-, hr⟩
    · rw [hword, hends] at hends'
      cases hends'
    · rw [hr, hc]
      exact hgo hends

/-- **Every character** is read alike. -/
theorem Alike.next (h : Alike r c (b :: x)) :
    (r.next b).2.map shape = (c.next b).2.map shape ∧ Alike (r.next b).1 (c.next b).1 x := by
  cases h with
  | same word last skip start =>
      have hskips : r.Skips ↔ c.Skips := by
        unfold Cursor.Skips SkipsAt
        rw [last, start]
      by_cases hskip : b = space ∧ (c.skip = true ∨ c.Skips)
      · have hskip' : r.skip = true ∨ r.Skips := by rw [skip, hskips]; exact hskip.2
        rw [Cursor.next_skip hskip.1 hskip', Cursor.next_skip hskip.1 hskip.2]
        refine ⟨rfl, .same ?_ last rfl ?_⟩
        · show (r.word ++ [space]).tail = (c.word ++ [space]).tail
          rw [word]
        · exact ⟨fun h => absurd h (Nat.succ_ne_zero _), fun h => absurd h (Nat.succ_ne_zero _)⟩
      · have hskip' : ¬ (b = space ∧ (r.skip = true ∨ r.Skips)) := by rwa [skip, hskips]
        rw [Cursor.next, Cursor.next, if_neg hskip, if_neg hskip']
        exact Alike.read word fun _ => .same (congrArg (· ++ [b]) word) rfl rfl start
  | calm word last skip start text =>
      have hne : b ≠ space := by
        rintro rfl
        rw [Tokenizer.calm, ends_space] at text
        simp at text
      rw [r.next_of_ne hne, c.next_of_ne hne]
      refine Alike.read word fun hends => .calm (congrArg (· ++ [b]) word) rfl ⟨rfl, rfl⟩ start ?_
      rw [Tokenizer.calm, hends, Bool.false_or, Bool.and_eq_true] at text
      simpa using text.2
  | lead word last behind text =>
      have hb : b = space := by simpa using text
      have hskips : ∀ d : Cursor, d.last = c.last → d.Skips := by
        intro d hd
        unfold Cursor.Skips SkipsAt
        rw [hd]
        rcases behind with h | h | h
        · exact Or.inl h
        · exact Or.inr (Or.inl h)
        · exact Or.inr (Or.inr (Or.inl h))
      rw [Cursor.next_skip hb (Or.inr (hskips r last)), Cursor.next_skip hb (Or.inr (hskips c rfl))]
      refine ⟨rfl, .same ?_ last rfl ?_⟩
      · show (r.word ++ [space]).tail = (c.word ++ [space]).tail
        rw [word.1, word.2]
      · exact ⟨fun h => absurd h (Nat.succ_ne_zero _), fun h => absurd h (Nat.succ_ne_zero _)⟩
  | brace started word text =>
      by_cases hb : b = openBrace ∨ b = closeBrace
      · rw [(brace_shape (c := r) hb).2, (brace_shape (c := c) hb).2]
        exact ⟨(brace_shape hb).1, alike_behind r c b x⟩
      · rw [braceNext] at text
        have hends : ends started b = false ∧ braceNext true x = true := by
          simpa [not_or.mp hb] using text
        have hnil : ∀ d : Cursor, (started = false → d.word = []) → (d.next b).2 = [] := by
          intro d hd
          refine Cursor.next_nil ?_
          cases started with
          | true => exact ends_mono hends.1
          | false => rw [hd rfl]; exact hends.1
        rw [hnil r fun h => (word h).1, hnil c fun h => (word h).2]
        exact ⟨rfl, .brace true (fun h => absurd h (by decide)) hends.2⟩

/-- **A text** is read alike. -/
theorem Alike.lex {y : Bytes} (h : Alike r c (y ++ x)) :
    (Tokenizer.lex r y).2.map shape = (Tokenizer.lex c y).2.map shape ∧
      Alike (Tokenizer.lex r y).1 (Tokenizer.lex c y).1 x := by
  induction y generalizing r c with
  | nil => exact ⟨rfl, h⟩
  | cons b y ih =>
      obtain ⟨hshape, hnext⟩ := Alike.next h
      obtain ⟨hshape', hrest⟩ := ih hnext
      rw [Tokenizer.lex, Tokenizer.lex, List.map_append, List.map_append, hshape, hshape']
      exact ⟨rfl, hrest⟩

/-- **A cut** that does not show: the scanner starts afresh behind it. -/
theorem Alike.cut (h : Alike r c x) (hcut : CutOk c x) : Alike r (.fresh c.last) x := by
  obtain ⟨hskip, hbrace | ⟨hempty, htext⟩⟩ := hcut
  · cases h with
    | same word last skip start =>
        exact .brace _ (fun hnil => ⟨word.trans (by simpa using hnil), rfl⟩) hbrace
    | calm word last skip start text =>
        exact .brace _ (fun hnil => ⟨word.trans (by simpa using hnil), rfl⟩) hbrace
    | lead word last behind text => exact .lead ⟨word.1, rfl⟩ last behind text
    | brace started word text => exact .brace started (fun h => ⟨(word h).1, rfl⟩) text
  · have hfresh : ∀ (hword : r.word = []) (hlast : r.last = c.last) (hskip : r.skip = false) (hstart : r.start ≠ 0),
        Alike r (.fresh c.last) x := by
      intro hword hlast hskip hstart
      rcases htext with htext | ⟨hbehind, hspace⟩
      · exact .calm hword hlast ⟨hskip, rfl⟩ hstart htext
      · exact .lead ⟨hword, rfl⟩ hlast hbehind hspace
    cases h with
    | same word last skip start =>
        by_cases hstart : r.start = 0
        · exact .same (word.trans hempty) last (skip.trans hskip) ⟨fun _ => rfl, fun _ => hstart⟩
        · exact hfresh (word.trans hempty) last (skip.trans hskip) hstart
    | calm word last skip start text => exact hfresh (word.trans hempty) last skip.1 start
    | lead word last behind text => exact .lead ⟨word.1, rfl⟩ last behind text
    | brace started word text => exact .brace started (fun h => ⟨(word h).1, rfl⟩) text

/-- At the end of a file there is nothing that a newline would bring out. -/
theorem Alike.word_nil (h : Alike r c [newline]) (hcut : CutOk c [newline]) : (r.next newline).2 = [] := by
  have hnobrace : ∀ started, braceNext started [newline] = false := by decide
  have hempty : c.word = [] := by
    rcases hcut.2 with hbrace | hempty
    · rw [hnobrace] at hbrace
      cases hbrace
    · exact hempty.1
  have hword : r.word = [] := by
    cases h with
    | same word _ _ _ => exact word.trans hempty
    | calm word _ _ _ _ => exact word.trans hempty
    | lead word _ _ _ => exact word.1
    | brace started _ text =>
        rw [hnobrace] at text
        cases text
  refine Cursor.next_nil ?_
  rw [hword]
  decide

end Next

/-! ## Pieces and lines -/

/-- The whole lines that pieces make up, where `pre` is the beginning of the first. -/
def joinLines (pre : Bytes) : List Bytes → List Bytes
  | []            => if pre = [] then [] else [pre ++ [newline]]
  | piece :: rest =>
      if newline ∈ piece then (pre ++ piece) :: joinLines [] rest else joinLines (pre ++ piece) rest

/-- The tokens that are found in pieces. -/
def lexPieces (last : UInt8) : List Bytes → List Token
  | []            => []
  | piece :: rest => (lex (.fresh last) piece).2 ++ lexPieces (lex (.fresh last) piece).1.last rest

section Pieces

variable {room left : Nat} {got file : Bytes} {b : UInt8}

theorem newline_not_mem_snoc (hgot : newline ∉ got) (hb : b ≠ newline) : newline ∉ got ++ [b] := by
  rw [List.mem_append, List.mem_singleton]
  exact fun h => h.elim hgot fun h => hb h.symm

/-- The bytes behind the first are free of NULs as well. -/
theorem nulFree_tail (hnul : NulFree (got ++ b :: file)) : NulFree ([] ++ file) := fun d hd =>
  hnul d (List.mem_append_right got (List.mem_cons_of_mem b hd))

/-- Every byte of the file is in a piece, and no other. -/
theorem joinLines_fgetsAll (pre : Bytes) (hgot : newline ∉ got) :
    joinLines pre (fgetsAll room got left file) = wholeLines (pre ++ got) file := by
  induction file generalizing pre got left with
  | nil =>
      rw [fgetsAll, wholeLines]
      by_cases hnil : got = []
      · rw [if_pos hnil, hnil, List.append_nil, joinLines]
      · rw [if_neg hnil, joinLines, if_neg hgot, joinLines]
  | cons b file ih =>
      rw [fgetsAll, wholeLines]
      by_cases hb : b = newline
      · rw [if_pos (Or.inl hb), if_pos hb, joinLines, if_pos (by simp [hb]), ih [] List.not_mem_nil, hb,
          List.append_assoc, List.append_nil]
      · have hsnoc : newline ∉ got ++ [b] := newline_not_mem_snoc hgot hb
        rw [if_neg hb, List.append_assoc]
        split
        · rw [joinLines, if_neg hsnoc, ih _ List.not_mem_nil, List.append_nil]
        · exact ih pre hsnoc

/-- A piece with a newline ends with it. -/
theorem fgetsAll_spec (hgot : newline ∉ got) (hnul : NulFree (got ++ file)) :
    ∀ piece ∈ fgetsAll room got left file, NulFree piece ∧ (newline ∈ piece → ∃ l, piece = l ++ [newline]) := by
  induction file generalizing got left with
  | nil =>
      intro piece hpiece
      rw [fgetsAll] at hpiece
      split at hpiece
      · cases hpiece
      · rw [List.mem_singleton.mp hpiece]
        rw [List.append_nil] at hnul
        exact ⟨hnul, fun h => absurd h hgot⟩
  | cons b file ih =>
      have hsnoc : NulFree (got ++ [b]) := by
        intro d hd
        refine hnul d ?_
        rw [List.append_cons]
        exact List.mem_append_left file hd
      rw [fgetsAll]
      split
      · intro piece hpiece
        rcases List.mem_cons.mp hpiece with rfl | hpiece
        · refine ⟨hsnoc, fun hmem => ⟨got, ?_⟩⟩
          by_cases hb : b = newline
          · rw [hb]
          · exact absurd hmem (newline_not_mem_snoc hgot hb)
        · exact ih List.not_mem_nil (nulFree_tail hnul) piece hpiece
      · next hgoes =>
        exact ih (newline_not_mem_snoc hgot fun hb => hgoes (Or.inl hb)) (by rwa [List.append_assoc])

theorem wholeLines_spec (hnul : NulFree (got ++ file)) :
    ∀ l ∈ wholeLines got file, NulFree l ∧ ∃ l', l = l' ++ [newline] := by
  induction file generalizing got with
  | nil =>
      intro l hl
      rw [wholeLines] at hl
      split at hl
      · cases hl
      · rw [List.mem_singleton.mp hl]
        rw [List.append_nil] at hnul
        exact ⟨hnul.append (nulFree_singleton (by decide)), got, rfl⟩
  | cons b file ih =>
      have hgot : NulFree got := fun d hd => hnul d (List.mem_append_left _ hd)
      rw [wholeLines]
      split
      · intro l hl
        rcases List.mem_cons.mp hl with rfl | hl
        · exact ⟨hgot.append (nulFree_singleton (by decide)), got, rfl⟩
        · exact ih (nulFree_tail hnul) l hl
      · exact ih (by rwa [List.append_assoc])

end Pieces

/-- **All pieces of a file** are read as the whole lines are, if no cut shows. Here `pre` has been read of the line. -/
theorem lexPieces_alike {l₀ last : UInt8} {pre : Bytes} {ps : List Bytes}
    (h : Alike (lex (.fresh l₀) pre).1 (.fresh last) (restLine ps))
    (hend : ps = [] → pre = [] ∨ ((lex (.fresh l₀) pre).1.next newline).2 = []) (hcuts : CutsOk last ps) :
    ((joinLines pre ps).flatMap lexLine).map shape = ((lex (.fresh l₀) pre).2 ++ lexPieces last ps).map shape := by
  induction ps generalizing l₀ last pre with
  | nil =>
      rw [joinLines, lexPieces, List.append_nil]
      rcases hend rfl with rfl | hnil
      · rfl
      · by_cases hpre : pre = []
        · rw [if_pos hpre, hpre]
          rfl
        · have hline : lexLine (pre ++ [newline]) = (lex (.fresh l₀) pre).2 := by
            rw [← lex_fresh l₀, lex_append]
            show _ ++ (((lex (.fresh l₀) pre).1.next newline).2 ++ []) = _
            rw [hnil, List.append_nil, List.append_nil]
          rw [if_neg hpre, List.flatMap_cons, List.flatMap_nil, List.append_nil, hline]
  | cons piece ps ih =>
      obtain ⟨hcut, hcuts⟩ := hcuts
      rw [joinLines, lexPieces]
      by_cases hnl : newline ∈ piece
      · -- the line is over
        have hrest : restLine (piece :: ps) = piece ++ [] := by rw [restLine, if_pos hnl, List.append_nil]
        rw [hrest] at h
        have hline : lexLine (pre ++ piece) = (lex (.fresh l₀) pre).2 ++ (lex (lex (.fresh l₀) pre).1 piece).2 := by
          rw [← lex_fresh l₀, lex_append]
        have hnext := ih (.same rfl rfl rfl Iff.rfl : Alike (lex (.fresh _) []).1 (.fresh _) (restLine ps))
          (fun _ => Or.inl rfl) hcuts
        rw [if_pos hnl, List.flatMap_cons, List.map_append, hnext, hline]
        simp only [List.map_append, h.lex.1, List.append_assoc]
        rfl
      · have hrest : restLine (piece :: ps) = piece ++ restLine ps := by rw [restLine, if_neg hnl]
        rw [hrest] at h
        obtain ⟨hshape, halike⟩ := h.lex
        have happend := lex_append (.fresh l₀) pre piece
        have hcursor : (lex (.fresh l₀) (pre ++ piece)).1 = (lex (lex (.fresh l₀) pre).1 piece).1 := by rw [happend]
        have hnext := @ih l₀ (lex (.fresh last) piece).1.last (pre ++ piece)
          (by rw [hcursor]; exact halike.cut (hcut hnl))
          (fun hnil => Or.inr (by
            rw [hcursor]
            rw [hnil] at halike
            exact halike.word_nil (by rw [hnil] at hcut; exact hcut hnl)))
          hcuts
        rw [if_neg hnl, hnext, happend]
        simp only [List.map_append, hshape, List.append_assoc]

/-! ## `load_tokens` -/

/-- Pieces are read one by one, if no space is being skipped at the end of one. -/
theorem loadLines_pieces {ps : List Bytes} {line : Bytes} {last : UInt8} {toks : List Token}
    (hps : ∀ piece ∈ ps, NulFree piece ∧ (newline ∈ piece → ∃ l, piece = l ++ [newline]))
    (hcuts : NoRunOver last ps) :
    loadLines line last toks ps = (lexPieces last ps).foldlM push toks := by
  induction ps generalizing line last toks with
  | nil => rfl
  | cons piece ps ih =>
      obtain ⟨hcut, hcuts⟩ := hcuts
      obtain ⟨hnul, hline⟩ := hps piece List.mem_cons_self
      have hskip : (lex (.fresh last) piece).1.skip = false := by
        by_cases hnl : newline ∈ piece
        · obtain ⟨l, rfl⟩ := hline hnl
          exact (lex_newline _ l).2
        · exact hcut hnl
      rw [loadLines_cons _ hnul hskip, lexPieces, List.foldlM_append]
      refine congrArg (_ >>= ·) (funext fun toks' => ?_)
      exact ih (fun piece' h => hps piece' (List.mem_cons_of_mem _ h)) hcuts

/-- Whether tokens fit does not depend on where they were found. -/
theorem push_shape {ts us toks toks' : List Token} (h : ts.map shape = us.map shape)
    (htoks : toks.map shape = toks'.map shape) :
    (ts.foldlM push toks).map (List.map shape) = (us.foldlM push toks').map (List.map shape) := by
  induction ts generalizing us toks toks' with
  | nil =>
      cases us with
      | nil => exact congrArg Except.ok htoks
      | cons u us => cases h
  | cons t ts ih =>
      cases us with
      | nil => cases h
      | cons u us =>
          rw [List.map_cons, List.map_cons, List.cons.injEq] at h
          have hlen : toks.length = toks'.length := by simpa using congrArg List.length htoks
          have htlen : t.len = u.len := congrArg (fun x => x.2.1) h.1
          rw [List.foldlM_cons, List.foldlM_cons, push, push, hlen, htlen]
          split_ifs
          · rfl
          · rfl
          · refine ih h.2 ?_
            rw [List.map_append, List.map_append, htoks, List.map_singleton, List.map_singleton, h.1]

/-- The types and the texts of tokens that are alike. -/
theorem map_lexeme {x y : Except Fault (List Token)} (h : x.map (List.map shape) = y.map (List.map shape)) :
    x.map (List.map lexeme) = y.map (List.map lexeme) := by
  have hforget : ∀ z : Except Fault (List Token),
      z.map (List.map lexeme) = (z.map (List.map shape)).map (List.map fun t => (t.1, t.2.2)) := by
    intro z
    cases z with
    | error e => rfl
    | ok ts =>
        show Except.ok (ts.map lexeme) = Except.ok ((ts.map shape).map fun t => (t.1, t.2.2))
        rw [List.map_map]
        rfl
  rw [hforget, hforget, h]

section Load

variable {file : Bytes} (hnul : NulFree file)
include hnul

/-- `load_tokens` finds the tokens in the pieces. -/
theorem loadTokens_pieces (hover : NoRunOver nul (pieces file)) (line : Bytes) :
    (loadTokens line (some file)).map (·.tokens) = (lexPieces nul (pieces file)).foldlM push [noToken] := by
  have hps : ∀ piece ∈ pieces file, NulFree piece ∧ (newline ∈ piece → ∃ l, piece = l ++ [newline]) :=
    fgetsAll_spec List.not_mem_nil hnul
  show ((loadLines line nul [noToken] (pieces file) >>= _).map _) = _
  rw [loadLines_pieces hps hover]
  cases (lexPieces nul (pieces file)).foldlM push [noToken] <;> rfl

/-- The scanner on whole lines finds the tokens in the lines. -/
theorem loadWhole_lines : loadWhole file = ((wholeLines [] file).flatMap lexLine).foldlM push [noToken] :=
  loadLines_lexLine _ _ _ _ (wholeLines_spec hnul)

end Load

theorem joinLines_pieces (file : Bytes) : joinLines [] (pieces file) = wholeLines [] file :=
  joinLines_fgetsAll [] List.not_mem_nil

/-- The types and the texts of the tokens that are loaded. -/
def lexemes (line file : Bytes) : Except Fault (List (TokenType × Bytes)) :=
  (loadTokens line (some file)).map fun t => t.tokens.map lexeme

theorem lexemes_eq (line file : Bytes) :
    lexemes line file = ((loadTokens line (some file)).map (·.tokens)).map (List.map lexeme) := by
  unfold lexemes
  cases loadTokens line (some file) <;> rfl

/-- `load_tokens` on a file whose cuts do not show. -/
theorem lexemes_clean {file : Bytes} (hnul : NulFree file) (hclean : Clean file) (line : Bytes) :
    lexemes line file = (loadWhole file).map (List.map lexeme) := by
  have halike : ((wholeLines [] file).flatMap lexLine).map shape = (lexPieces nul (pieces file)).map shape := by
    rw [← joinLines_pieces]
    exact lexPieces_alike (.same rfl rfl rfl Iff.rfl : Alike (lex (.fresh nul) []).1 (.fresh nul) _)
      (fun _ => Or.inl rfl) hclean
  rw [lexemes_eq, loadTokens_pieces hnul (CutsOk.noRunOver hclean), loadWhole_lines hnul]
  exact map_lexeme (push_shape halike.symm rfl)

/-! ## A newline at the end -/

section Newline

variable {room left : Nat} {got : Bytes} {last : UInt8}

theorem fgetsAll_newline : fgetsAll room got left [newline] = [got ++ [newline]] := by
  rw [fgetsAll, if_pos (Or.inl rfl), fgetsAll, if_pos rfl]

theorem restLine_newline (hgot : newline ∉ got) (file : Bytes) :
    restLine (fgetsAll room got left (file ++ [newline])) = restLine (fgetsAll room got left file) := by
  induction file generalizing got left with
  | nil =>
      rw [List.nil_append, fgetsAll_newline, restLine, if_pos (by simp), fgetsAll]
      split
      · next hnil =>
        rw [hnil]
        rfl
      · rw [restLine, if_neg hgot]
        rfl
  | cons b file ih =>
      rw [List.cons_append, fgetsAll, fgetsAll]
      by_cases hb : b = newline
      · have hmem : newline ∈ got ++ [b] := by simp [hb]
        rw [if_pos (Or.inl hb), if_pos (Or.inl hb), restLine, if_pos hmem, restLine, if_pos hmem]
      · have hsnoc : newline ∉ got ++ [b] := newline_not_mem_snoc hgot hb
        split
        · rw [restLine, if_neg hsnoc, restLine, if_neg hsnoc, ih List.not_mem_nil]
        · exact ih hsnoc

/-- A newline behind the file adds no cut. -/
theorem cutsOk_newline (hgot : newline ∉ got) {file : Bytes} (h : CutsOk last (fgetsAll room got left file)) :
    CutsOk last (fgetsAll room got left (file ++ [newline])) := by
  induction file generalizing got left last with
  | nil =>
      rw [List.nil_append, fgetsAll_newline]
      exact ⟨fun hnl => absurd hnl (by simp), trivial⟩
  | cons b file ih =>
      rw [List.cons_append, fgetsAll] at *
      by_cases hb : b = newline ∨ left ≤ 1
      · rw [if_pos hb] at h ⊢
        refine ⟨fun hnl => ?_, ih List.not_mem_nil h.2⟩
        rw [restLine_newline List.not_mem_nil]
        exact h.1 hnl
      · rw [if_neg hb] at h ⊢
        exact ih (newline_not_mem_snoc hgot fun heq => hb (Or.inl heq)) h

/-- It adds no token to the whole lines either. -/
theorem wholeLines_newline (file : Bytes) :
    (wholeLines got (file ++ [newline])).flatMap lexLine = (wholeLines got file).flatMap lexLine := by
  induction file generalizing got with
  | nil =>
      have hread : wholeLines got [newline] = [got ++ [newline]] := by
        rw [wholeLines, if_pos rfl, wholeLines, if_pos rfl]
      rw [List.nil_append, hread, wholeLines]
      split
      · next hnil =>
        rw [hnil]
        rfl
      · rfl
  | cons b file ih =>
      rw [List.cons_append, wholeLines, wholeLines]
      split
      · rw [List.flatMap_cons, List.flatMap_cons, ih]
      · exact ih

end Newline

/-! ## The end of a file -/

/-- Only the end of the file is in question: every other piece is a line, the end is not in the middle of skipped
    spaces, and the tokens of the whole lines fit. -/
structure OnlyEnd (file : Bytes) : Prop where
  lines : ∀ piece ∈ (pieces file).dropLast, newline ∈ piece
  stops : NoRunOver nul (pieces file)
  fits  : Fit 1 ((wholeLines [] file).flatMap lexLine)

/-- Text that is pending at the end of a file is a value that gets lost. -/
theorem lost_value {last : UInt8} {ps : List Bytes} (hlines : ∀ piece ∈ ps.dropLast, newline ∈ piece)
    (hover : NoRunOver last ps) :
    CutsOk last ps ∨ ∃ v, (joinLines [] ps).flatMap lexLine = lexPieces last ps ++ [v] := by
  induction ps generalizing last with
  | nil => exact Or.inl trivial
  | cons piece ps ih =>
      obtain ⟨hskip, hover⟩ := hover
      by_cases hnl : newline ∈ piece
      · have hrest : ∀ piece' ∈ ps.dropLast, newline ∈ piece' := by
          intro piece' hpiece'
          cases ps with
          | nil => cases hpiece'
          | cons p ps => exact hlines piece' (List.mem_cons_of_mem _ hpiece')
        rcases ih hrest hover with hcuts | ⟨v, hv⟩
        · exact Or.inl ⟨fun hno => absurd hnl hno, hcuts⟩
        · refine Or.inr ⟨v, ?_⟩
          rw [joinLines, if_pos hnl, List.nil_append, List.flatMap_cons, hv, lexPieces, ← lex_fresh last piece,
            List.append_assoc]
      · -- this is the end of the file
        have hlast : ps = [] := by
          cases ps with
          | nil => rfl
          | cons p ps => exact absurd (hlines piece List.mem_cons_self) hnl
        subst hlast
        by_cases hword : (lex (.fresh last) piece).1.word = []
        · exact Or.inl ⟨fun _ => ⟨hskip hnl, Or.inr ⟨hword, Or.inl (by decide)⟩⟩, trivial⟩
        · have hne : piece ≠ [] := by
            intro hnil
            rw [hnil] at hword
            exact hword rfl
          refine Or.inr ⟨tokenOf .value (lex (.fresh last) piece).1.start (lex (.fresh last) piece).1.word, ?_⟩
          have hread : ((lex (.fresh last) piece).1.next newline).2 =
              [tokenOf .value (lex (.fresh last) piece).1.start (lex (.fresh last) piece).1.word] := by
            rw [Cursor.next_of_ne _ (by decide), Cursor.read, if_neg (by decide), if_neg (by decide),
              if_neg (by decide), if_pos ⟨Or.inl rfl, hword⟩]
          rw [joinLines, if_neg hnl, List.nil_append, joinLines, if_neg hne, List.flatMap_cons, List.flatMap_nil,
            List.append_nil, ← lex_fresh last, lex_append, lexPieces, lexPieces, List.append_nil]
          show _ ++ (((lex (.fresh last) piece).1.next newline).2 ++ []) = _
          rw [hread, List.append_nil]

/-! ## Line buffering -/

/-- Line buffering does not show: `load_tokens` finds what the scanner finds in the whole lines, and the same when a
    missing newline is supplied. -/
def Invisible (file : Bytes) : Prop :=
  ∀ line : Bytes, line.length = maxLineWidth →
    lexemes line file = (loadWhole file).map (List.map lexeme) ∧
    ((∀ l, file ≠ l ++ [newline]) → lexemes line (file ++ [newline]) = lexemes line file)

end IOSwitch.Tokenizer
