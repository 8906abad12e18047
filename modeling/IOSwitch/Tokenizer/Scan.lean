import IOSwitch.Tokenizer.Load

/-!
# `Tokenizer.Scan` — the scan of a line, seen from the cursor

The scanner works with positions in the line buffer. Here a line is split at the cursor into what is behind it
and what is ahead (`scanRest`), and each kind of text ahead has one lemma: spaces (`scan_spaces`), a word
(`scan_word`), and the delimiters, with the token they end. The text behind the line never matters.
-/

namespace IOSwitch.Tokenizer

open Lib

/-- A character that is neither a space nor a delimiter nor NUL. -/
def Plain (b : UInt8) : Prop :=
  b ∉ [nul, newline, space, comma, semicolon, equals, openBrace, closeBrace]

instance (b : UInt8) : Decidable (Plain b) := inferInstanceAs (Decidable (_ ∉ _))

theorem Plain.ne {b c : UInt8} (h : Plain b)
    (hc : c ∈ [nul, newline, space, comma, semicolon, equals, openBrace, closeBrace]) : b ≠ c := by
  rintro rfl
  exact h hc

/-- The token with the text `w`, found at `index`. -/
def tokenOf (type : TokenType) (index : Nat) (w : Bytes) : Token :=
  ⟨index, w.length, type, w ++ List.replicate (maxTokLen - w.length) 0⟩

theorem text_tokenOf {type : TokenType} {index : Nat} {w : Bytes} (hnul : NulFree w) (hlen : w.length < maxTokLen) :
    text (tokenOf type index w) = .ok w := by
  obtain ⟨k, hk⟩ : ∃ k, maxTokLen - w.length = k + 1 := ⟨maxTokLen - w.length - 1, by omega⟩
  have hval : (tokenOf type index w).val = w ++ 0 :: List.replicate k 0 := by
    rw [tokenOf, hk, List.replicate_succ]
  rw [text, hval, if_pos (by simp [nul]), cstr_nul hnul]

/-! ## The cursor -/

/-- The scanner between `done` and `rest`. -/
def stateAt (done rest : Bytes) (tokStart : Nat) (last : UInt8) (tokens : List Token) : Scan :=
  ⟨done.length, tokStart, rest.headD nul, last, tokens⟩

theorem stateAt_snoc (done rest : Bytes) (b : UInt8) (tokStart : Nat) (last : UInt8) (tokens : List Token) :
    stateAt (done ++ [b]) rest tokStart last tokens = ⟨done.length + 1, tokStart, rest.headD nul, last, tokens⟩ := by
  rw [stateAt, List.length_append, List.length_singleton]

/-- The scan goes on from there. -/
def scanRest (fuel : Nat) (done rest : Bytes) (tokStart : Nat) (last : UInt8) (tokens : List Token) :
    Except Fault Scan :=
  scanLine (done ++ rest) fuel (stateAt done rest tokStart last tokens)

variable {done rest pre w : Bytes} {b c last : UInt8} {ts k fuel : Nat} {toks : List Token}

theorem charAt_next (done : Bytes) (b c : UInt8) (rest : Bytes) :
    charAt (done ++ b :: c :: rest) (done.length + 1) = .ok c := by
  have hget : (done ++ b :: c :: rest)[done.length + 1]? = some c := by
    rw [List.getElem?_append_right (Nat.le_add_right _ _), Nat.add_sub_cancel_left]
    rfl
  rw [charAt, hget]

/-! ## Spaces -/

theorem skipSpaces_stop {line : Bytes} {s : Scan} (hcur : s.cur ≠ space) (hfuel : 0 < fuel) :
    skipSpaces line fuel s = .ok s := by
  obtain ⟨n, rfl⟩ : ∃ n, fuel = n + 1 := ⟨fuel - 1, by omega⟩
  rw [skipSpaces, if_neg hcur]

/-- A run of spaces is skipped, and `tok_start` moves along. -/
theorem skipSpaces_run (hb : b ≠ space) (hfuel : k < fuel) :
    skipSpaces (done ++ (List.replicate k space ++ b :: rest)) fuel
        (stateAt done (List.replicate k space ++ b :: rest) ts last toks) =
      .ok (stateAt (done ++ List.replicate k space) (b :: rest) (ts + k) last toks) := by
  induction k generalizing done ts fuel with
  | zero => rw [List.replicate_zero, List.append_nil]; exact skipSpaces_stop hb hfuel
  | succ k ih =>
      obtain ⟨n, rfl⟩ : ∃ n, fuel = n + 1 := ⟨fuel - 1, by omega⟩
      have hnext : charAt (done ++ (List.replicate (k + 1) space ++ b :: rest)) (done.length + 1) =
          .ok ((List.replicate k space ++ b :: rest).headD nul) := by
        cases k with
        | zero => exact charAt_next done space b rest
        | succ k => exact charAt_next done space space _
      -- the first space goes behind the cursor
      have hsplit : done ++ (List.replicate (k + 1) space ++ b :: rest) =
          (done ++ [space]) ++ (List.replicate k space ++ b :: rest) := by
        rw [List.replicate_succ, List.cons_append, List.append_assoc, List.singleton_append]
      have hdone : done ++ List.replicate (k + 1) space = (done ++ [space]) ++ List.replicate k space := by
        rw [List.replicate_succ, List.append_assoc, List.singleton_append]
      rw [skipSpaces, if_pos (show (stateAt done (List.replicate (k + 1) space ++ b :: rest) ts last toks).cur = space
        from rfl)]
      show (charAt (done ++ (List.replicate (k + 1) space ++ b :: rest)) (done.length + 1) >>= _) = _
      rw [hnext, hsplit, hdone]
      have hrest : skipSpaces (done ++ [space] ++ (List.replicate k space ++ b :: rest)) n
          (stateAt (done ++ [space]) (List.replicate k space ++ b :: rest) (ts + 1) last toks) =
          .ok (stateAt (done ++ [space] ++ List.replicate k space) (b :: rest) (ts + 1 + k) last toks) :=
        ih (by omega)
      rw [Nat.add_assoc, Nat.add_comm 1 k] at hrest
      rw [← hrest, stateAt_snoc]
      rfl

/-- Where spaces are skipped: at the beginning of a line and behind `{`, `=` and `,`. -/
def SkipsAt (ts : Nat) (last : UInt8) : Prop := last = openBrace ∨ last = equals ∨ last = comma ∨ ts = 0

instance (ts : Nat) (last : UInt8) : Decidable (SkipsAt ts last) := inferInstanceAs (Decidable (_ ∨ _))

/-- Without a space at the cursor nothing is skipped. -/
theorem skipBefore_stop (hb : b ≠ space ∨ ¬ SkipsAt ts last) :
    skipBefore (done ++ b :: rest) (stateAt done (b :: rest) ts last toks) =
      .ok (stateAt done (b :: rest) ts last toks) := by
  unfold skipBefore
  split
  · next hskip =>
    refine skipSpaces_stop (hb.resolve_right fun hno => hno hskip) ?_
    show 0 < (done ++ b :: rest).length - done.length
    rw [List.length_append, List.length_cons]
    omega
  · rfl

/-- **Spaces** are skipped where they are to be. -/
theorem scan_spaces (hskip : SkipsAt ts last) (hb : b ≠ space)
    (hnul : b ≠ nul) :
    scanRest (fuel + 1) done (List.replicate k space ++ b :: rest) ts last toks =
      scanRest (fuel + 1) (done ++ List.replicate k space) (b :: rest) (ts + k) last toks := by
  cases k with
  | zero => rw [List.replicate_zero, List.append_nil]; rfl
  | succ k =>
      have hbefore : skipBefore (done ++ (List.replicate (k + 1) space ++ b :: rest))
          (stateAt done (List.replicate (k + 1) space ++ b :: rest) ts last toks) =
          .ok (stateAt (done ++ List.replicate (k + 1) space) (b :: rest) (ts + (k + 1)) last toks) := by
        -- the rounds given to `skipSpaces` are the bytes ahead, which are more than the spaces
        have hroom : k + 1 < (done ++ (List.replicate (k + 1) space ++ b :: rest)).length - done.length := by
          rw [List.length_append, List.length_append, List.length_replicate, List.length_cons]
          omega
        exact (if_pos hskip).trans (skipSpaces_run hb hroom)
      have hline : done ++ (List.replicate (k + 1) space ++ b :: rest) =
          (done ++ List.replicate (k + 1) space) ++ b :: rest := (List.append_assoc _ _ _).symm
      have hcur : ¬ (stateAt done (List.replicate (k + 1) space ++ b :: rest) ts last toks).cur = nul :=
        (by decide : ¬ space = nul)
      have hcur' : ¬ (stateAt (done ++ List.replicate (k + 1) space) (b :: rest) (ts + (k + 1)) last toks).cur = nul :=
        hnul
      rw [scanRest, scanRest, scanLine, scanLine, if_neg hcur, if_neg hcur', scanChar, scanChar, hbefore, hline,
        skipBefore_stop (Or.inl hb)]

/-! ## One character -/

/-- A character that is not skipped, and the tokens that are there behind it. -/
theorem scan_step {ts' : Nat} {added : Except Fault (List Token)} (hb : b ≠ space ∨ ¬ SkipsAt ts last)
    (hnul : b ≠ nul)
    (hadd : addAt (done ++ b :: c :: rest) (stateAt done (b :: c :: rest) ts last toks) =
      added >>= fun toks' => .ok ⟨done.length, ts', b, last, toks'⟩) :
    scanRest (fuel + 1) done (b :: c :: rest) ts last toks =
      added >>= fun toks' => scanRest fuel (done ++ [b]) (c :: rest) ts' b toks' := by
  rw [scanRest, scanLine, if_neg (show ¬ (stateAt done (b :: c :: rest) ts last toks).cur = nul from hnul), scanChar,
    skipBefore_stop hb]
  show ((addAt (done ++ b :: c :: rest) (stateAt done (b :: c :: rest) ts last toks) >>= _) >>= _) = _
  rw [hadd]
  cases added with
  | error e => rfl
  | ok toks' =>
      show ((charAt (done ++ b :: c :: rest) (done.length + 1) >>= _) >>= _) = _
      rw [charAt_next]
      show scanLine (done ++ b :: c :: rest) fuel _ = scanRest fuel (done ++ [b]) (c :: rest) ts' b toks'
      rw [scanRest, stateAt_snoc, List.append_assoc, List.singleton_append]
      rfl

/-- The same, for a character whose token fits. -/
theorem scan_char {ts' : Nat} {toks' : List Token} (hb : b ≠ space ∨ ¬ SkipsAt ts last) (hnul : b ≠ nul)
    (hadd : addAt (done ++ b :: c :: rest) (stateAt done (b :: c :: rest) ts last toks) =
      .ok ⟨done.length, ts', b, last, toks'⟩) :
    scanRest (fuel + 1) done (b :: c :: rest) ts last toks = scanRest fuel (done ++ [b]) (c :: rest) ts' b toks' :=
  @scan_step done rest b c last ts fuel toks ts' (.ok toks') hb hnul hadd

theorem scan_plain (hb : Plain b) :
    scanRest (fuel + 1) done (b :: c :: rest) ts last toks = scanRest fuel (done ++ [b]) (c :: rest) ts b toks := by
  refine scan_char (Or.inl (hb.ne (by decide))) (hb.ne (by decide)) ?_
  have hdelim : ¬ (b = newline ∨ b = semicolon ∨ b = comma) := by
    rintro (h | h | h) <;> exact hb.ne (by decide) h
  show (if b = equals then _ else if b = openBrace then _ else if b = closeBrace then _
    else if b = newline ∨ b = semicolon ∨ b = comma then _ else _) = _
  rw [if_neg (hb.ne (by decide)), if_neg (hb.ne (by decide)), if_neg (hb.ne (by decide)), if_neg hdelim]
  rfl

/-- **A word** is passed over. -/
theorem scan_word (hw : ∀ b ∈ w, Plain b) :
    ∃ last', scanRest (fuel + w.length) done (w ++ c :: rest) ts last toks =
      scanRest fuel (done ++ w) (c :: rest) ts last' toks := by
  induction w generalizing done last with
  | nil => exact ⟨last, by rw [List.append_nil]; rfl⟩
  | cons b w ih =>
      have hb : Plain b := hw b List.mem_cons_self
      obtain ⟨last', hrest⟩ : ∃ last', scanRest (fuel + w.length) (done ++ [b]) (w ++ c :: rest) ts b toks =
          scanRest fuel (done ++ [b] ++ w) (c :: rest) ts last' toks :=
        ih fun d hd => hw d (List.mem_cons_of_mem b hd)
      refine ⟨last', ?_⟩
      rw [List.append_assoc, List.singleton_append] at hrest
      rw [← hrest, List.length_cons, ← Nat.add_assoc]
      cases w with
      | nil => exact scan_plain hb
      | cons d w => exact scan_plain hb

/-! ## Tokens

From here on the cursor is where a token would start. -/

/-- The scan goes on from there, with `tok_start` at the cursor. -/
abbrev scanFresh (fuel : Nat) (done rest : Bytes) (last : UInt8) (tokens : List Token) : Except Fault Scan :=
  scanRest fuel done rest done.length last tokens

/-- A token is put behind the others, if there is room for it and its text. -/
def push (toks : List Token) (t : Token) : Except Fault (List Token) :=
  if maxTokens ≤ toks.length then .error .tooManyTokens
  else if maxTokLen < t.len then .error .valOverflow
  else .ok (toks ++ [t])

/-- What is written for `len` bytes of the buffer at `index`. -/
def storedAt (buf : Bytes) (type : TokenType) (index len : Nat) : Token :=
  ⟨index, len, type, strncpy (List.replicate maxTokLen 0) (buf.drop index) len⟩

/-- It is written into the next slot. -/
theorem add_stored (buf : Bytes) (s : Scan) (type : TokenType) (index len : Nat) :
    s.add buf type index len =
      push s.tokens (storedAt buf type index len) >>= fun toks => .ok { s with tokens := toks, tokStart := s.idx + 1 } := by
  unfold Scan.add push
  rw [show (storedAt buf type index len).len = len from rfl]
  split_ifs <;> rfl

/-- A text free of NULs is stored as it is. -/
theorem storedAt_word (hnul : NulFree w) (type : TokenType) (pre rest : Bytes) :
    storedAt (pre ++ (w ++ rest)) type pre.length w.length = tokenOf type pre.length w := by
  rw [storedAt, List.drop_left, strncpy_zeros hnul]
  rfl

/-- A text is written into the next slot. -/
theorem add_push {s : Scan} {type : TokenType} (hnul : NulFree w) :
    s.add (pre ++ (w ++ rest)) type pre.length w.length =
      push s.tokens (tokenOf type pre.length w) >>= fun toks =>
        .ok { s with tokens := toks, tokStart := s.idx + 1 } := by
  rw [add_stored, storedAt_word hnul]

theorem add_word {s : Scan} {type : TokenType} (hnul : NulFree w) (hlen : w.length ≤ maxTokLen)
    (hroom : s.tokens.length < maxTokens) :
    s.add (pre ++ (w ++ rest)) type pre.length w.length =
      .ok { s with tokens := s.tokens ++ [tokenOf type pre.length w], tokStart := s.idx + 1 } := by
  rw [add_push hnul, push, if_neg (Nat.not_le.mpr hroom)]
  exact congrArg (· >>= _) (if_neg (Nat.not_lt.mpr hlen))

theorem plain_nulFree (hw : ∀ b ∈ w, Plain b) : NulFree w := fun b hb => (hw b hb).ne (by decide)

theorem nulFree_singleton (hb : b ≠ nul) : NulFree [b] := by
  intro d hd
  rw [List.mem_singleton.mp hd]
  exact hb

theorem fresh_spaces (hskip : last = openBrace ∨ last = equals ∨ last = comma ∨ done = []) (hb : b ≠ space)
    (hnul : b ≠ nul) :
    scanFresh (fuel + 1) done (List.replicate k space ++ b :: rest) last toks =
      scanFresh (fuel + 1) (done ++ List.replicate k space) (b :: rest) last toks := by
  have hskip' : last = openBrace ∨ last = equals ∨ last = comma ∨ done.length = 0 :=
    hskip.imp_right (Or.imp_right (Or.imp_right fun h => by rw [h]; rfl))
  rw [scanFresh, scan_spaces hskip' hb hnul, scanFresh, List.length_append, List.length_replicate]

section Token

variable (hw : ∀ b ∈ w, Plain b) (hlen : w.length < maxTokLen) (hroom : toks.length < maxTokens)
include hw hlen hroom

/-- A word that ends at `b`, which makes it a token. -/
theorem fresh_word {type : TokenType} (hb : b ≠ space) (hnul : b ≠ nul)
    (hadd : ∀ last, addAt (done ++ (w ++ b :: c :: rest)) ⟨(done ++ w).length, done.length, b, last, toks⟩ =
      Scan.add (done ++ (w ++ b :: c :: rest)) ⟨(done ++ w).length, done.length, b, last, toks⟩ type done.length
        w.length) :
    scanFresh (fuel + (w.length + 1)) done (w ++ b :: c :: rest) last toks =
      scanFresh fuel (done ++ w ++ [b]) (c :: rest) b (toks ++ [tokenOf type done.length w]) := by
  obtain ⟨last', hword⟩ : ∃ last', scanRest (fuel + 1 + w.length) done (w ++ b :: c :: rest) done.length last toks =
      scanRest (fuel + 1) (done ++ w) (b :: c :: rest) done.length last' toks := scan_word hw
  have hline : done ++ w ++ b :: c :: rest = done ++ (w ++ b :: c :: rest) := List.append_assoc _ _ _
  have hsnoc : (done ++ w ++ [b]).length = (done ++ w).length + 1 := by
    rw [List.length_append, List.length_singleton]
  have hend : addAt (done ++ w ++ b :: c :: rest) (stateAt (done ++ w) (b :: c :: rest) done.length last' toks) =
      .ok ⟨(done ++ w).length, (done ++ w ++ [b]).length, b, last', toks ++ [tokenOf type done.length w]⟩ := by
    rw [hline, hsnoc]
    exact (hadd last').trans (add_word (plain_nulFree hw) hlen.le hroom)
  have hfuel : fuel + (w.length + 1) = fuel + 1 + w.length := by omega
  rw [scanFresh, hfuel, hword]
  exact scan_char (Or.inl hb) hnul hend

/-- **A name** ends at `=`. -/
theorem fresh_variable :
    scanFresh (fuel + (w.length + 1)) done (w ++ equals :: c :: rest) last toks =
      scanFresh fuel (done ++ w ++ [equals]) (c :: rest) equals (toks ++ [tokenOf .variable done.length w]) := by
  apply fresh_word hw hlen hroom (by decide) (by decide)
  intro last
  rw [addAt, if_pos rfl]
  simp only [List.length_append, Nat.add_sub_cancel_left]

/-- **A value** ends at a comma or a newline. -/
theorem fresh_value (hne : w ≠ []) (hb : b = comma ∨ b = newline) :
    scanFresh (fuel + (w.length + 1)) done (w ++ b :: c :: rest) last toks =
      scanFresh fuel (done ++ w ++ [b]) (c :: rest) b (toks ++ [tokenOf .value done.length w]) := by
  have hpos : 0 < w.length := List.length_pos_iff.mpr hne
  rcases hb with rfl | rfl
  · apply fresh_word hw hlen hroom (by decide) (by decide)
    intro last
    simp only [addAt, List.length_append, Nat.add_sub_cancel_left, hpos, if_true]
    rfl
  · apply fresh_word hw hlen hroom (by decide) (by decide)
    intro last
    simp only [addAt, List.length_append, Nat.add_sub_cancel_left, hpos, if_true]
    rfl

end Token

/-- **A brace** is a token of its own. -/
theorem fresh_open (hroom : toks.length < maxTokens) :
    scanFresh (fuel + 1) done (openBrace :: c :: rest) last toks =
      scanFresh fuel (done ++ [openBrace]) (c :: rest) openBrace
        (toks ++ [tokenOf .openBracket done.length [openBrace]]) := by
  refine scan_char (Or.inl (by decide)) (by decide) ?_
  have hadd := @add_word (c :: rest) done [openBrace] (stateAt done (openBrace :: c :: rest) done.length last toks)
    .openBracket (nulFree_singleton (by decide)) (by decide) hroom
  rw [List.length_append, List.length_singleton]
  exact hadd

theorem fresh_close (hroom : toks.length < maxTokens) :
    scanFresh (fuel + 1) done (closeBrace :: c :: rest) last toks =
      scanFresh fuel (done ++ [closeBrace]) (c :: rest) closeBrace
        (toks ++ [tokenOf .closeBracket done.length [closeBrace]]) := by
  refine scan_char (Or.inl (by decide)) (by decide) ?_
  have hadd := @add_word (c :: rest) done [closeBrace] (stateAt done (closeBrace :: c :: rest) done.length last toks)
    .closeBracket (nulFree_singleton (by decide)) (by decide) hroom
  rw [List.length_append, List.length_singleton]
  exact hadd

/-- **The end of a line** with nothing before it is no token, and the scan of the line is over. -/
theorem fresh_newline :
    ∃ s, scanFresh (fuel + 2) done (newline :: nul :: rest) last toks = .ok s ∧ s.last = newline ∧
      s.tokens = toks := by
  refine ⟨stateAt (done ++ [newline]) (nul :: rest) done.length newline toks, ?_, rfl, rfl⟩
  have hadd : addAt (done ++ newline :: nul :: rest) (stateAt done (newline :: nul :: rest) done.length last toks) =
      .ok ⟨done.length, done.length, newline, last, toks⟩ := by
    show (if 0 < done.length - done.length then _ else _) = _
    rw [if_neg (by omega)]
    rfl
  rw [scanFresh, scan_char (Or.inl (by decide)) (by decide) hadd, scanRest, scanLine,
    if_pos (show (stateAt (done ++ [newline]) (nul :: rest) done.length newline toks).cur = nul from rfl)]

theorem fresh_end :
    ∃ s, scanFresh (fuel + 1) done (nul :: rest) last toks = .ok s ∧ s.last = last ∧ s.tokens = toks := by
  refine ⟨stateAt done (nul :: rest) done.length last toks, ?_, rfl, rfl⟩
  rw [scanFresh, scanRest, scanLine,
    if_pos (show (stateAt done (nul :: rest) done.length last toks).cur = nul from rfl)]

end IOSwitch.Tokenizer
