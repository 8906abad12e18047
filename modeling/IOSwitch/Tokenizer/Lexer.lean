import IOSwitch.Tokenizer.Scan

/-!
# `Tokenizer.Lexer` — the scan of a line as an automaton over its characters

`load_tokens` scans with positions in the line buffer and an inner loop over spaces. `lex` reads the same text one
character at a time: its `Cursor` holds the text of the token being read and whether spaces are being skipped, and
it knows no limits. `scan_lex` says that the scan of a line is the run of this automaton over it, followed by
putting its tokens behind the others (`push`), as long as no space is skipped at its very end.

## Contents
- `Cursor`, `Cursor.next`, `lex` — the automaton.
- `Fit`, `push_fit` — the limits.
- `At`, `scan_read`, `scan_lex` — the simulation.
- `loadLines_cons` — a string that `fgets` has stored.
- `lexLine`, `lex_fresh` — a line from its beginning, for which the character before is of no account.
- `loadLines_lexLine` — lines that end with a newline.
-/

namespace IOSwitch.Tokenizer

open Lib

/-! ## The automaton -/

/-- Where the token being read starts, its text so far, the character before and whether spaces are skipped. -/
structure Cursor where
  start : Nat
  word  : Bytes
  last  : UInt8
  skip  : Bool
  deriving DecidableEq

namespace Cursor

/-- The position of the next character. -/
def pos (c : Cursor) : Nat := c.start + c.word.length

/-- A space is skipped here. -/
def Skips (c : Cursor) : Prop := SkipsAt c.start c.last

instance (c : Cursor) : Decidable c.Skips := inferInstanceAs (Decidable (SkipsAt _ _))

/-- The cursor behind a delimiter that has ended a token. -/
def behind (c : Cursor) (b : UInt8) : Cursor := ⟨c.pos + 1, [], b, false⟩

/-- A character that is not skipped: the cursor behind it and the token it ends. -/
def read (c : Cursor) (b : UInt8) : Cursor × List Token :=
  if b = equals then (c.behind b, [tokenOf .variable c.start c.word])
  else if b = openBrace then (c.behind b, [tokenOf .openBracket c.pos [openBrace]])
  else if b = closeBrace then (c.behind b, [tokenOf .closeBracket c.pos [closeBrace]])
  else if (b = newline ∨ b = semicolon ∨ b = comma) ∧ c.word ≠ [] then
    (c.behind b, [tokenOf .value c.start c.word])
  else (⟨c.start, c.word ++ [b], b, false⟩, [])

/-- A space that is skipped. It moves the start of the token along, also when that has a first character. -/
def skipped (c : Cursor) : Cursor := ⟨c.start + 1, (c.word ++ [space]).tail, c.last, true⟩

/-- One character. -/
def next (c : Cursor) (b : UInt8) : Cursor × List Token :=
  if b = space ∧ (c.skip = true ∨ c.Skips) then (c.skipped, []) else c.read b

theorem next_of_ne (c : Cursor) {b : UInt8} (h : b ≠ space) : c.next b = c.read b := if_neg fun hb => h hb.1

/-- A character that is read is the one before the next. -/
theorem read_last (c : Cursor) (b : UInt8) : (c.read b).1.last = b ∧ (c.read b).1.skip = false := by
  unfold read
  split_ifs <;> exact ⟨rfl, rfl⟩

end Cursor

/-- A text: the cursor behind it and its tokens. -/
def lex : Cursor → Bytes → Cursor × List Token
  | c, []      => (c, [])
  | c, b :: bs => ((lex (c.next b).1 bs).1, (c.next b).2 ++ (lex (c.next b).1 bs).2)

theorem lex_append (c : Cursor) (a b : Bytes) :
    lex c (a ++ b) = ((lex (lex c a).1 b).1, (lex c a).2 ++ (lex (lex c a).1 b).2) := by
  induction a generalizing c with
  | nil => rfl
  | cons x a ih =>
      rw [List.cons_append, lex, lex, ih]
      simp

/-- A run of spaces where they are skipped. -/
theorem lex_spaces {c : Cursor} (hskip : c.skip = true ∨ c.Skips) (k : Nat) :
    lex c (List.replicate (k + 1) space) =
      (⟨c.start + (k + 1), (c.word ++ List.replicate (k + 1) space).drop (k + 1), c.last, true⟩, []) := by
  induction k generalizing c with
  | zero =>
      have hnext : c.next space = (c.skipped, []) := if_pos ⟨rfl, hskip⟩
      simp [lex, hnext, Cursor.skipped]
  | succ k ih =>
      have hnext : c.next space = (c.skipped, []) := if_pos ⟨rfl, hskip⟩
      have hrest := ih (c := c.skipped) (Or.inl rfl)
      rw [List.replicate_succ, lex, hnext, hrest]
      have hword : ((c.word ++ [space]).tail ++ List.replicate (k + 1) space).drop (k + 1) =
          (c.word ++ space :: List.replicate (k + 1) space).drop (k + 1 + 1) := by
        cases c.word <;> simp
      simp [Cursor.skipped, hword, Nat.add_assoc, Nat.add_comm 1]

/-- The tokens fit into the array behind `n` others, and their texts into `val`. -/
def Fit (n : Nat) (ts : List Token) : Prop := n + ts.length ≤ maxTokens ∧ ∀ t ∈ ts, t.len ≤ maxTokLen

/-- Tokens that fit are put behind the others. -/
theorem push_fit {toks ts : List Token} (h : Fit toks.length ts) : ts.foldlM push toks = .ok (toks ++ ts) := by
  induction ts generalizing toks with
  | nil => rw [List.append_nil]; rfl
  | cons t ts ih =>
      obtain ⟨hroom, hlen⟩ := h
      rw [List.length_cons] at hroom
      have hpush : push toks t = .ok (toks ++ [t]) := by
        rw [push, if_neg (by omega), if_neg (Nat.not_lt.mpr (hlen t List.mem_cons_self))]
      have hrest : Fit (toks ++ [t]).length ts := by
        refine ⟨?_, fun t' ht' => hlen t' (List.mem_cons_of_mem t ht')⟩
        rw [List.length_append, List.length_singleton]
        omega
      rw [List.foldlM_cons, hpush]
      show ts.foldlM push (toks ++ [t]) = _
      rw [ih hrest, List.append_assoc, List.singleton_append]

/-! ## The simulation -/

/-- The cursor behind the text `done` of a line. -/
structure At (c : Cursor) (done : Bytes) : Prop where
  word  : c.word = done.drop c.start
  start : c.start ≤ done.length

namespace At

variable {c : Cursor} {done : Bytes} {b : UInt8}

theorem pos (h : At c done) : c.pos = done.length := by
  unfold Cursor.pos
  rw [h.word, List.length_drop]
  have hstart := h.start
  omega

/-- What is before the word, and the word. -/
theorem split (h : At c done) : done = done.take c.start ++ c.word ∧ (done.take c.start).length = c.start := by
  rw [h.word, List.take_append_drop, List.length_take]
  exact ⟨rfl, Nat.min_eq_left h.start⟩

theorem read (h : At c done) : At (c.read b).1 (done ++ [b]) := by
  have hbehind : At (c.behind b) (done ++ [b]) := by
    constructor
    · simp [Cursor.behind, h.pos]
    · simp [Cursor.behind, h.pos]
  unfold Cursor.read
  split_ifs
  · exact hbehind
  · exact hbehind
  · exact hbehind
  · exact hbehind
  · constructor
    · rw [h.word, List.drop_append_of_le_length h.start]
    · have hstart := h.start
      simp
      omega

end At

section Simulation

variable {c : Cursor} {done rest : Bytes} {b x : UInt8} {toks : List Token} {fuel : Nat}

/-- A token as it is stored. -/
def stored (buf : Bytes) (t : Token) : Token := storedAt buf t.type t.index t.len

/-- The token that a character ends is stored behind the others, whatever its text is. -/
theorem addAt_stored (hc : At c done) :
    addAt (done ++ b :: x :: rest) (stateAt done (b :: x :: rest) c.start c.last toks) =
      ((c.read b).2.map (stored (done ++ b :: x :: rest))).foldlM push toks >>= fun toks' =>
        .ok ⟨done.length, (c.read b).1.start, b, c.last, toks'⟩ := by
  have hpos := hc.pos
  have hlen : done.length - c.start = c.word.length := by rw [hc.word, List.length_drop]
  -- a token of the word, and one of a brace
  have hadd : ∀ t : Token, Scan.add (done ++ b :: x :: rest) (stateAt done (b :: x :: rest) c.start c.last toks) t.type
        t.index t.len =
      ([t].map (stored (done ++ b :: x :: rest))).foldlM push toks >>= fun toks' =>
        .ok ⟨done.length, c.pos + 1, b, c.last, toks'⟩ := by
    intro t
    rw [add_stored, List.map_singleton, List.foldlM_cons, hpos]
    simp only [List.foldlM_nil, bind_pure]
    rfl
  have hword : ∀ type, Scan.add (done ++ b :: x :: rest) (stateAt done (b :: x :: rest) c.start c.last toks) type
        c.start (done.length - c.start) =
      ([tokenOf type c.start c.word].map (stored (done ++ b :: x :: rest))).foldlM push toks >>= fun toks' =>
        .ok ⟨done.length, c.pos + 1, b, c.last, toks'⟩ := by
    intro type
    rw [hlen]
    exact hadd (tokenOf type c.start c.word)
  have hbrace : ∀ type, Scan.add (done ++ b :: x :: rest) (stateAt done (b :: x :: rest) c.start c.last toks) type
        done.length 1 =
      ([tokenOf type c.pos [b]].map (stored (done ++ b :: x :: rest))).foldlM push toks >>= fun toks' =>
        .ok ⟨done.length, c.pos + 1, b, c.last, toks'⟩ := by
    intro type
    have hbracket := hadd (tokenOf type c.pos [b])
    rwa [show (tokenOf type c.pos [b]).index = done.length from hpos] at hbracket
  unfold Cursor.read addAt
  show (if b = equals then _ else if b = openBrace then _ else if b = closeBrace then _
    else if b = newline ∨ b = semicolon ∨ b = comma then if 0 < done.length - c.start then _ else _ else _) = _
  by_cases heq : b = equals
  · simp only [if_pos heq]
    exact hword .variable
  simp only [if_neg heq]
  by_cases hopen : b = openBrace
  · subst hopen
    exact hbrace .openBracket
  simp only [if_neg hopen]
  by_cases hclose : b = closeBrace
  · subst hclose
    exact hbrace .closeBracket
  simp only [if_neg hclose]
  by_cases hend : b = newline ∨ b = semicolon ∨ b = comma
  · by_cases hempty : c.word = []
    · rw [if_pos hend, if_neg, if_neg]
      · rfl
      · exact fun h => h.2 hempty
      · rw [hlen, hempty]
        exact Nat.lt_irrefl 0
    · have hpos' : 0 < done.length - c.start := by
        rw [hlen]
        exact List.length_pos_iff.mpr hempty
      rw [if_pos hend, if_pos hpos', if_pos ⟨hend, hempty⟩]
      exact hword .value
  · rw [if_neg hend, if_neg fun h => hend h.1]
    rfl

/-- A token that a character ends has its text in the line. -/
theorem read_text (hc : At c done) (rest : Bytes) :
    ∀ t ∈ (c.read b).2, ∃ pre w post, done ++ b :: rest = pre ++ (w ++ post) ∧ t = tokenOf t.type pre.length w ∧
      (∀ d ∈ w, d ∈ done ++ [b]) := by
  obtain ⟨hsplit, hstart⟩ := hc.split
  have hword : ∀ type, ∃ pre w post, done ++ b :: rest = pre ++ (w ++ post) ∧
      tokenOf type c.start c.word = tokenOf type pre.length w ∧ ∀ d ∈ w, d ∈ done ++ [b] := by
    intro type
    refine ⟨done.take c.start, c.word, b :: rest, ?_, by rw [hstart], fun d hd => ?_⟩
    · rw [← List.append_assoc, ← hsplit]
    · rw [hsplit]
      exact List.mem_append_left _ (List.mem_append_right _ hd)
  have hbrace : ∀ type, ∃ pre w post, done ++ b :: rest = pre ++ (w ++ post) ∧
      tokenOf type c.pos [b] = tokenOf type pre.length w ∧ ∀ d ∈ w, d ∈ done ++ [b] := by
    intro type
    exact ⟨done, [b], rest, rfl, by rw [hc.pos], fun d hd => List.mem_append_right _ hd⟩
  intro t ht
  unfold Cursor.read at ht
  split_ifs at ht with heq hopen hclose hend
  · rw [List.mem_singleton.mp ht]
    exact hword .variable
  · rw [List.mem_singleton.mp ht, ← hopen]
    exact hbrace .openBracket
  · rw [List.mem_singleton.mp ht, ← hclose]
    exact hbrace .closeBracket
  · rw [List.mem_singleton.mp ht]
    exact hword .value
  · cases ht

/-- The token that a character ends is put behind the others. -/
theorem addAt_read (hc : At c done) (hnul : NulFree (done ++ [b])) :
    addAt (done ++ b :: x :: rest) (stateAt done (b :: x :: rest) c.start c.last toks) =
      (c.read b).2.foldlM push toks >>= fun toks' => .ok ⟨done.length, (c.read b).1.start, b, c.last, toks'⟩ := by
  have hsame : (c.read b).2.map (stored (done ++ b :: x :: rest)) = (c.read b).2 := by
    refine (List.map_congr_left fun t ht => ?_).trans (List.map_id _)
    obtain ⟨pre, w, post, hline, heq, hmem⟩ := read_text hc (x :: rest) t ht
    rw [heq, stored, hline]
    exact storedAt_word (fun d hd => hnul d (hmem d hd)) t.type pre post
  rw [addAt_stored hc, hsame]

/-- **One character** that is not skipped. -/
theorem scan_read (hc : At c done) (hnul : NulFree (done ++ [b])) (hstay : b ≠ space ∨ ¬ c.Skips) :
    scanRest (fuel + 1) done (b :: x :: rest) c.start c.last toks =
      (c.read b).2.foldlM push toks >>= fun toks' =>
        scanRest fuel (done ++ [b]) (x :: rest) (c.read b).1.start b toks' := by
  have hb : b ≠ nul := hnul b (List.mem_append_right _ (List.mem_singleton_self b))
  exact scan_step hstay hb (addAt_read hc hnul)

/-- The spaces at the beginning of a text. -/
theorem spaces_split (rest : Bytes) :
    ∃ k r, rest = List.replicate k space ++ r ∧ r.head? ≠ some space := by
  induction rest with
  | nil => exact ⟨0, [], rfl, by simp⟩
  | cons b rest ih =>
      by_cases hb : b = space
      · obtain ⟨k, r, hrest, hr⟩ := ih
        exact ⟨k + 1, r, by rw [hb, hrest]; rfl, hr⟩
      · exact ⟨0, b :: rest, rfl, by simpa using hb⟩

/-- The cursor behind skipped spaces. -/
theorem At.spaces (hc : At c done) (k : Nat) :
    At ⟨c.start + k, (c.word ++ List.replicate k space).drop k, c.last, true⟩ (done ++ List.replicate k space) := by
  have hstart := hc.start
  constructor
  · show (c.word ++ List.replicate k space).drop k = _
    rw [hc.word, ← List.drop_drop, List.drop_append_of_le_length hstart]
  · show c.start + k ≤ _
    rw [List.length_append, List.length_replicate]
    omega

/-- **A line** is read as the automaton reads it, and its tokens are put behind the others, when the text ends with
    no space being skipped. Behind skipped spaces (`hready`) there has to be a character that ends them. -/
theorem scan_lex (fuel : Nat) (stale : Bytes) (toks : List Token) (hc : At c done)
    (hready : c.skip = false ∨ ∃ b r, rest = b :: r ∧ b ≠ space) (hnul : NulFree (done ++ rest))
    (hend : (lex c rest).1.skip = false) (hfuel : rest.length < fuel) :
    scanRest fuel done (rest ++ nul :: stale) c.start c.last toks =
      (lex c rest).2.foldlM push toks >>= fun toks' =>
        .ok (stateAt (done ++ rest) (nul :: stale) (lex c rest).1.start (lex c rest).1.last toks') := by
  induction hn : rest.length using Nat.strong_induction_on generalizing c done rest toks fuel with
  | _ n ih =>
    subst hn
    obtain ⟨fuel, rfl⟩ : ∃ m, fuel = m + 1 := ⟨fuel - 1, by omega⟩
    match rest with
    | [] =>
        rw [List.nil_append, List.append_nil, scanRest, scanLine,
          if_pos (show (stateAt done (nul :: stale) c.start c.last toks).cur = nul from rfl)]
        rfl
    | b :: rest =>
        by_cases hskip : b = space ∧ c.Skips
        · -- a run of spaces; the text does not end in it
          obtain ⟨k, r, hrun, hr⟩ := spaces_split rest
          have hrest : b :: rest = List.replicate (k + 1) space ++ r := by rw [hskip.1, hrun]; rfl
          rw [hrest] at hnul hend hfuel ih ⊢
          rw [lex_append, lex_spaces (Or.inr hskip.2)] at hend ⊢
          cases r with
          | nil => cases hend
          | cons d r =>
              have hd : d ≠ space := fun h => hr (by rw [h]; rfl)
              have hdnul : d ≠ nul := hnul d (by simp)
              rw [List.append_assoc, List.cons_append, scan_spaces hskip.2 hd hdnul, ← List.append_assoc]
              exact ih _ (by simp) _ _ (hc.spaces (k + 1)) (Or.inr ⟨d, r, rfl, hd⟩)
                (by rwa [List.append_assoc]) hend (by simp at hfuel ⊢; omega) rfl
        · have hnext : c.next b = c.read b := by
            apply if_neg
            intro h
            rcases h.2 with hs | hs
            · rcases hready with hready | ⟨b', r, hb', hne⟩
              · rw [hready] at hs
                cases hs
              · cases hb'
                exact hne h.1
            · exact hskip ⟨h.1, hs⟩
          have hnul' : NulFree (done ++ [b] ++ rest) := by rwa [List.append_assoc]
          have hb : NulFree (done ++ [b]) := fun d hd => hnul' d (List.mem_append_left _ hd)
          have hstay : b ≠ space ∨ ¬ c.Skips := not_and_or.mp hskip
          rw [lex, hnext] at hend ⊢
          obtain ⟨hlast, hnoskip⟩ := c.read_last b
          have hread : scanRest (fuel + 1) done (b :: rest ++ nul :: stale) c.start c.last toks =
              (c.read b).2.foldlM push toks >>= fun toks' =>
                scanRest fuel (done ++ [b]) (rest ++ nul :: stale) (c.read b).1.start b toks' := by
            cases rest with
            | nil => exact scan_read hc hb hstay
            | cons d rest => exact scan_read hc hb hstay
          rw [hread, List.foldlM_append, bind_assoc]
          refine congrArg (_ >>= ·) (funext fun toks' => ?_)
          have hrest := ih rest.length (by simp) fuel toks' hc.read (Or.inl hnoskip) hnul' hend
            (by simp at hfuel; omega) rfl
          rw [hlast, List.append_assoc] at hrest
          exact hrest

end Simulation

/-! ## A line from its beginning -/

/-- The cursor at the beginning of a line. -/
def Cursor.fresh (last : UInt8) : Cursor := ⟨0, [], last, false⟩

/-- **A string that `fgets` has stored** is read as the automaton reads it, whatever is in the buffer. -/
theorem loadLines_cons {got line : Bytes} {last : UInt8} {toks : List Token} (rest : List Bytes) (hnul : NulFree got)
    (hend : (lex (.fresh last) got).1.skip = false) :
    loadLines line last toks (got :: rest) =
      (lex (.fresh last) got).2.foldlM push toks >>= fun toks' =>
        loadLines (overlay line (got ++ [nul])) (lex (.fresh last) got).1.last toks' rest := by
  let stale := line.drop (got ++ [nul]).length
  have hline : overlay line (got ++ [nul]) = got ++ nul :: stale := by
    show got ++ [nul] ++ stale = _
    rw [List.append_assoc]
    rfl
  have hchar : charAt (got ++ nul :: stale) 0 = .ok ((got ++ nul :: stale).headD nul) := by
    cases got <;> rfl
  -- the line is scanned with the bytes of earlier lines behind its NUL
  have hscan := @scan_lex (.fresh last) [] got (got ++ nul :: stale).length stale toks ⟨rfl, Nat.le_refl 0⟩
    (Or.inl rfl) hnul hend (by simp)
  rw [loadLines]
  show (charAt (overlay line (got ++ [nul])) 0 >>= _) = _
  rw [hline, hchar]
  show (scanRest (got ++ nul :: stale).length [] (got ++ nul :: stale) 0 last toks >>= _) = _
  rw [show scanRest _ [] _ 0 last toks = _ from hscan, bind_assoc]
  rfl

/-- The tokens of a line. -/
def lexLine (l : Bytes) : List Token := (lex (.fresh nul) l).2

/-- As long as spaces are skipped it does not matter which character was read before. -/
theorem lex_last {c : Cursor} (x : UInt8) (h : c.skip = true ∨ c.start = 0) (l : Bytes) :
    (lex { c with last := x } l).2 = (lex c l).2 := by
  induction l generalizing c with
  | nil => rfl
  | cons b l ih =>
      have hskips : ∀ y, c.skip = true ∨ ({ c with last := y } : Cursor).Skips :=
        fun _ => h.imp_right fun h => .inr (.inr (.inr h))
      rw [lex, lex]
      by_cases hb : b = space
      · have hnext : c.next b = (c.skipped, []) := if_pos ⟨hb, hskips c.last⟩
        have hnext' : ({ c with last := x } : Cursor).next b = ({ c.skipped with last := x }, []) :=
          if_pos ⟨hb, hskips x⟩
        rw [hnext, hnext']
        exact ih (c := c.skipped) (Or.inl rfl)
      · rw [Cursor.next_of_ne _ hb, Cursor.next_of_ne _ hb]
        rfl

/-- The character before a line is of no account for its tokens. -/
theorem lex_fresh (last : UInt8) (l : Bytes) : (lex (.fresh last) l).2 = lexLine l :=
  lex_last (c := .fresh nul) last (Or.inr rfl) l

/-- A line ends with its newline. -/
theorem lex_newline (c : Cursor) (l : Bytes) :
    (lex c (l ++ [newline])).1.last = newline ∧ (lex c (l ++ [newline])).1.skip = false := by
  rw [lex_append]
  show ((lex c l).1.next newline).1.last = _ ∧ ((lex c l).1.next newline).1.skip = _
  rw [Cursor.next_of_ne _ (by decide)]
  exact Cursor.read_last _ _

/-- **Lines** are read one by one, whatever the buffer holds and whatever was read before. -/
theorem loadLines_lexLine (ls : List Bytes) (line : Bytes) (last : UInt8) (toks : List Token)
    (hls : ∀ l ∈ ls, NulFree l ∧ ∃ l', l = l' ++ [newline]) :
    loadLines line last toks ls = (ls.flatMap lexLine).foldlM push toks := by
  induction ls generalizing line last toks with
  | nil => rfl
  | cons l ls ih =>
      obtain ⟨hnul, l', rfl⟩ := hls l List.mem_cons_self
      obtain ⟨hlast, hskip⟩ := lex_newline (.fresh last) l'
      rw [loadLines_cons _ hnul hskip, lex_fresh, hlast, List.flatMap_cons, List.foldlM_append]
      refine congrArg (_ >>= ·) (funext fun toks' => ?_)
      exact ih _ _ _ fun l hl => hls l (List.mem_cons_of_mem _ hl)

end IOSwitch.Tokenizer
