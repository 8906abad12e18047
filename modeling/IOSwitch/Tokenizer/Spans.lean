import IOSwitch.Lib.Lts
import IOSwitch.Tokenizer.Reach

/-!
# `Tokenizer.Spans` — where the tokens of a line lie

The loop of `load_tokens` moves two cursors over a line, `idx` and `tok_start`. `LoopStep` takes it apart into its
tests and single steps, so that it can be said of every moment that `tok_start` is not behind `idx`; a step that looks
at a character shows its position. `run_of_scanLine` says that `scanLine` is a run of these steps.

One invariant (`LoopInv`) relates both cursors, the positions that have been looked at and the tokens so far: every
token starts in front of `tok_start` and ends there at the latest. From it `line_scanned` has that each delimiter gives
its token, where it is, and that the spans lie one behind the other; `token_spans` is the same for whole files.

## Contents
- `LoopStep`, `run_of_scanLine` — the loop step by step.
- `Visited`, `Spans` — what is to be said of a line.
- `addAt_cases` — what a round can add.
- `loopInv_step`, `loopInv_run` — the invariant.
- `line_scanned`, `token_spans`.
-/

namespace IOSwitch.Tokenizer

open Lib

/-! ## The loop step by step -/

/-- A place in the loop: the test of the outer loop, that of the loop over spaces, and the branches behind both. -/
inductive LoopAt where
  | outer | spaces | look
  deriving DecidableEq

structure LoopState where
  pc   : LoopAt
  scan : Scan
  deriving DecidableEq

/-- One step. A character that the branches look at is shown by its position. -/
inductive LoopStep (buf : Bytes) : LoopState → Option Nat → LoopState → Prop where
  | enter {s : Scan} (hcur : s.cur ≠ nul) (hskip : SkipsAt s.tokStart s.last) :
      LoopStep buf ⟨.outer, s⟩ none ⟨.spaces, s⟩
  | pass {s : Scan} (hcur : s.cur ≠ nul) (hskip : ¬ SkipsAt s.tokStart s.last) :
      LoopStep buf ⟨.outer, s⟩ none ⟨.look, s⟩
  | space {s : Scan} {cur : UInt8} (hcur : s.cur = space) (hnext : charAt buf (s.idx + 1) = .ok cur) :
      LoopStep buf ⟨.spaces, s⟩ none
        ⟨.spaces, { s with idx := s.idx + 1, tokStart := s.tokStart + 1, cur := cur }⟩
  | leave {s : Scan} (hcur : s.cur ≠ space) : LoopStep buf ⟨.spaces, s⟩ none ⟨.look, s⟩
  | look {s w : Scan} {cur : UInt8} (hadd : addAt buf s = .ok w) (hnext : charAt buf (w.idx + 1) = .ok cur) :
      LoopStep buf ⟨.look, s⟩ (some s.idx) ⟨.outer, { w with idx := w.idx + 1, last := w.cur, cur := cur }⟩

section Runs

variable {buf : Bytes} {fuel : Nat} {s s' : Scan}

theorem run_of_skipSpaces (h : skipSpaces buf fuel s = .ok s') :
    ∃ tr, Run (LoopStep buf) ⟨.spaces, s⟩ tr ⟨.look, s'⟩ := by
  induction fuel generalizing s with
  | zero => cases h
  | succ fuel ih =>
      rw [skipSpaces] at h
      split at h
      · next hcur =>
        obtain ⟨cur, hnext, hrest⟩ := exists_of_bind_ok h
        obtain ⟨tr, hrun⟩ := ih hrest
        exact ⟨none :: tr, Run.cons (.space hcur hnext) hrun⟩
      · next hcur =>
        cases h
        exact ⟨[none], Run.single (.leave hcur)⟩

theorem run_of_scanChar (hcur : s.cur ≠ nul) (h : scanChar buf s = .ok s') :
    ∃ tr, Run (LoopStep buf) ⟨.outer, s⟩ tr ⟨.outer, s'⟩ := by
  obtain ⟨v, hskip, h⟩ := exists_of_bind_ok h
  obtain ⟨w, hadd, h⟩ := exists_of_bind_ok h
  obtain ⟨cur, hnext, h⟩ := exists_of_bind_ok h
  cases h
  have hlook : LoopStep buf ⟨.look, v⟩ (some v.idx) ⟨.outer, _⟩ := .look hadd hnext
  unfold skipBefore at hskip
  split at hskip
  · next hskips =>
    obtain ⟨tr, hrun⟩ := run_of_skipSpaces hskip
    exact ⟨_, Run.cons (.enter hcur hskips) (hrun.snoc hlook)⟩
  · next hskips =>
    cases hskip
    exact ⟨_, Run.cons (.pass hcur hskips) (Run.single hlook)⟩

/-- **The scan of a line** is a run of the loop, up to a NUL. -/
theorem run_of_scanLine (h : scanLine buf fuel s = .ok s') :
    s'.cur = nul ∧ ∃ tr, Run (LoopStep buf) ⟨.outer, s⟩ tr ⟨.outer, s'⟩ := by
  induction fuel generalizing s with
  | zero => cases h
  | succ fuel ih =>
      rw [scanLine] at h
      split at h
      · next hcur =>
        cases h
        exact ⟨hcur, [], Run.nil⟩
      · next hcur =>
        obtain ⟨v, hround, hrest⟩ := exists_of_bind_ok h
        obtain ⟨tr, hrun⟩ := run_of_scanChar hcur hround
        obtain ⟨hnul, tr', hrun'⟩ := ih hrest
        exact ⟨hnul, tr ++ tr', hrun.append hrun'⟩

end Runs

/-! ## What is to be said of a line -/

/-- The positions of a character. -/
def positions (l : Bytes) (b : UInt8) : List Nat := (List.range l.length).filter fun i => l[i]? = some b

/-- The positions looked at: each once and in order, and no character but spaces is left out. -/
structure Visited (l : Bytes) (ps : List Nat) : Prop where
  sorted : ps.Pairwise (· < ·)
  inside : ∀ i ∈ ps, i < l.length
  all    : ∀ i b, l[i]? = some b → b ≠ space → i ∈ ps

/-- The tokens of a text: one `TOK_VARIABLE` for each `=`, ending at it, one bracket for each brace, on it, values that
    are not empty and end at a newline, `;` or `,`, and no others; inside the text and one behind the other. -/
structure Spans (l : Bytes) (ts : List Token) : Prop where
  names  : (ts.filter (·.type = .variable)).map (fun t => t.index + t.len) = positions l equals
  opens  : (ts.filter (·.type = .openBracket)).map (·.index) = positions l openBrace
  closes : (ts.filter (·.type = .closeBracket)).map (·.index) = positions l closeBrace
  braces : ∀ t ∈ ts, t.type = .openBracket ∨ t.type = .closeBracket → t.len = 1
  values : ∀ t ∈ ts, t.type = .value → 0 < t.len ∧ ∃ b, l[t.index + t.len]? = some b ∧ isEnd b = true
  kinds  : ∀ t ∈ ts, t.type ≠ .none
  inside : ∀ t ∈ ts, t.index + t.len ≤ l.length
  sorted : ts.Pairwise fun t u => t.index < u.index ∧ t.index + t.len ≤ u.index
  few    : ts.length ≤ l.countP isStop

/-- `t` is the token that the delimiter `b` ends, in the position `i`. -/
inductive Ends (i : Nat) : UInt8 → Token → Prop where
  | name {t : Token} (htype : t.type = .variable) (hstop : t.index + t.len = i) : Ends i equals t
  | opens {t : Token} (htype : t.type = .openBracket) (hat : t.index = i) (hlen : t.len = 1) : Ends i openBrace t
  | closes {t : Token} (htype : t.type = .closeBracket) (hat : t.index = i) (hlen : t.len = 1) : Ends i closeBrace t
  | value {t : Token} {b : UInt8} (hend : isEnd b = true) (htype : t.type = .value) (hstop : t.index + t.len = i)
      (hlen : 0 < t.len) : Ends i b t

section Ends

variable {i : Nat} {b : UInt8} {t : Token}

/-- The type of the token tells which delimiter it is. -/
theorem Ends.type_iff (h : Ends i b t) : (t.type = .variable ↔ b = equals) ∧ (t.type = .openBracket ↔ b = openBrace) ∧
    (t.type = .closeBracket ↔ b = closeBrace) := by
  cases h with
  | name htype => rw [htype]; decide
  | opens htype => rw [htype]; decide
  | closes htype => rw [htype]; decide
  | value hend htype =>
      have hne : ∀ d, isEnd d = false → b ≠ d := by
        rintro d hd rfl
        rw [hd] at hend
        cases hend
      rw [htype]
      exact ⟨iff_of_false (by decide) (hne equals rfl), iff_of_false (by decide) (hne openBrace rfl),
        iff_of_false (by decide) (hne closeBrace rfl)⟩

/-- Where it marks its delimiter. -/
theorem Ends.at (h : Ends i b t) : (t.type = .variable → t.index + t.len = i) ∧ (t.type = .openBracket → t.index = i) ∧
    (t.type = .closeBracket → t.index = i) := by
  cases h with
  | name htype hstop => simp [htype, hstop]
  | opens htype hat => simp [htype, hat]
  | closes htype hat => simp [htype, hat]
  | value _ htype => simp [htype]

/-- The token does not reach behind its delimiter. -/
theorem Ends.bound (h : Ends i b t) : t.index < i + 1 ∧ t.index + t.len ≤ i + 1 := by
  cases h with
  | name _ hstop => omega
  | opens _ hat hlen => omega
  | closes _ hat hlen => omega
  | value _ _ hstop => omega

end Ends

section Snoc

variable {l : Bytes} {b : UInt8} {ps : List Nat} {ts : List Token} {t : Token}

theorem positions_snoc (l : Bytes) (b d : UInt8) :
    positions (l ++ [b]) d = positions l d ++ if b = d then [l.length] else [] := by
  unfold positions
  rw [List.length_append, List.length_singleton, List.range_succ, List.filter_append]
  congr 1
  · apply List.filter_congr
    intro i hi
    rw [List.getElem?_append_left (List.mem_range.mp hi)]
  · by_cases hb : b = d <;> simp [hb]

theorem Visited.nil : Visited [] [] where
  sorted := .nil
  inside i hi := absurd hi List.not_mem_nil
  all i b hb := by simp at hb

theorem Spans.nil : Spans [] [] where
  names := rfl
  opens := rfl
  closes := rfl
  braces _ ht := absurd ht List.not_mem_nil
  values _ ht := absurd ht List.not_mem_nil
  kinds _ ht := absurd ht List.not_mem_nil
  inside _ ht := absurd ht List.not_mem_nil
  sorted := .nil
  few := Nat.le_refl 0

/-- A character is looked at. -/
theorem Visited.look (h : Visited l ps) (b : UInt8) : Visited (l ++ [b]) (ps ++ [l.length]) where
  sorted := by
    rw [List.pairwise_append]
    refine ⟨h.sorted, List.pairwise_singleton _ _, ?_⟩
    intro i hi j hj
    rw [List.mem_singleton.mp hj]
    exact h.inside i hi
  inside i hi := by
    rw [List.length_append, List.length_singleton]
    rcases List.mem_append.mp hi with hi | hi
    · exact Nat.lt_succ_of_lt (h.inside i hi)
    · rw [List.mem_singleton.mp hi]
      exact Nat.lt_succ_self _
  all i d hd hne := by
    rcases getElem?_append_cases hd with hd | ⟨hi, hd⟩
    · exact List.mem_append_left _ (h.all i d hd hne)
    · have hlt := (List.getElem?_eq_some_iff.mp hd).1
      rw [List.length_singleton] at hlt
      obtain rfl : i = l.length := by omega
      exact List.mem_append_right _ (List.mem_singleton_self _)

/-- A space is skipped. -/
theorem Visited.skip (h : Visited l ps) : Visited (l ++ [space]) ps where
  sorted := h.sorted
  inside i hi := by
    rw [List.length_append, List.length_singleton]
    exact Nat.lt_succ_of_lt (h.inside i hi)
  all i d hd hne := by
    rcases getElem?_append_cases hd with hd | ⟨hi, hd⟩
    · exact h.all i d hd hne
    · exact absurd (List.mem_singleton.mp (List.mem_of_getElem? hd)) hne

/-- A token in front of which the others end keeps the list in order with what it marks. -/
theorem marks_snoc {type : TokenType} {d : UInt8} {f : Token → Nat}
    (h : (ts.filter (·.type = type)).map f = positions l d) (htype : t.type = type ↔ b = d)
    (hat : t.type = type → f t = l.length) :
    ((ts ++ [t]).filter (·.type = type)).map f = positions (l ++ [b]) d := by
  rw [List.filter_append, List.map_append, h, positions_snoc]
  refine congrArg _ ?_
  by_cases hb : b = d
  · have ht := htype.mpr hb
    simp [hb, ht, hat ht]
  · have ht : t.type ≠ type := fun ht => hb (htype.mp ht)
    simp [hb, ht]

/-- The character in front of which a text ends has left all spans where they were. -/
theorem Spans.values_snoc (h : Spans l ts) (b : UInt8) :
    ∀ t ∈ ts, t.type = .value → 0 < t.len ∧ ∃ d, (l ++ [b])[t.index + t.len]? = some d ∧ isEnd d = true := by
  intro t ht htype
  obtain ⟨hlen, d, hd, hend⟩ := h.values t ht htype
  have hin : t.index + t.len < l.length := (List.getElem?_eq_some_iff.mp hd).1
  exact ⟨hlen, d, by rwa [List.getElem?_append_left hin], hend⟩

/-- A character that ends no token. -/
theorem Spans.plain (h : Spans l ts) (hb : b ≠ equals ∧ b ≠ openBrace ∧ b ≠ closeBrace) : Spans (l ++ [b]) ts where
  names := by rw [positions_snoc, if_neg hb.1, List.append_nil, h.names]
  opens := by rw [positions_snoc, if_neg hb.2.1, List.append_nil, h.opens]
  closes := by rw [positions_snoc, if_neg hb.2.2, List.append_nil, h.closes]
  braces := h.braces
  values := h.values_snoc b
  kinds := h.kinds
  inside t ht := by
    rw [List.length_append]
    exact Nat.le_add_right_of_le (h.inside t ht)
  sorted := h.sorted
  few := by
    rw [List.countP_append]
    exact Nat.le_add_right_of_le h.few

/-- A delimiter that ends a token behind the others. -/
theorem Spans.add (h : Spans l ts) (hends : Ends l.length b t)
    (hbehind : ∀ u ∈ ts, u.index < t.index ∧ u.index + u.len ≤ t.index) : Spans (l ++ [b]) (ts ++ [t]) where
  names := marks_snoc h.names hends.type_iff.1 hends.at.1
  opens := marks_snoc h.opens hends.type_iff.2.1 hends.at.2.1
  closes := marks_snoc h.closes hends.type_iff.2.2 hends.at.2.2
  braces := by
    rw [List.forall_mem_append, List.forall_mem_singleton]
    refine ⟨h.braces, ?_⟩
    cases hends with
    | name htype => simp [htype]
    | opens _ _ hlen => exact fun _ => hlen
    | closes _ _ hlen => exact fun _ => hlen
    | value _ htype => simp [htype]
  values := by
    rw [List.forall_mem_append, List.forall_mem_singleton]
    refine ⟨h.values_snoc b, ?_⟩
    cases hends with
    | name htype => simp [htype]
    | opens htype => simp [htype]
    | closes htype => simp [htype]
    | value hend _ hstop hlen =>
        intro _
        exact ⟨hlen, b, by rw [hstop, List.getElem?_concat_length], hend⟩
  kinds := by
    rw [List.forall_mem_append, List.forall_mem_singleton]
    refine ⟨h.kinds, ?_⟩
    cases hends with
    | name htype => simp [htype]
    | opens htype => simp [htype]
    | closes htype => simp [htype]
    | value _ htype => simp [htype]
  inside := by
    rw [List.forall_mem_append, List.forall_mem_singleton, List.length_append, List.length_singleton]
    exact ⟨fun u hu => Nat.le_succ_of_le (h.inside u hu), hends.bound.2⟩
  sorted := by
    rw [List.pairwise_append]
    refine ⟨h.sorted, List.pairwise_singleton _ _, ?_⟩
    intro u hu v hv
    rw [List.mem_singleton.mp hv]
    exact hbehind u hu
  few := by
    have hstop : isStop b = true := by
      cases hends with
      | name => decide
      | opens => decide
      | closes => decide
      | value hend => rw [isStop, hend, Bool.or_true]
    have hfew := h.few
    rw [List.countP_append, List.countP_cons_of_pos hstop, List.length_append]
    simp
    omega

end Snoc

/-! ## What a round adds -/

section Round

variable {buf : Bytes} {s w : Scan}

theorem Scan.add_eq {type : TokenType} {index len : Nat} (h : s.add buf type index len = .ok w) :
    ∃ val, w = { s with tokens := s.tokens ++ [⟨index, len, type, val⟩], tokStart := s.idx + 1 } := by
  unfold Scan.add at h
  split_ifs at h
  cases h
  exact ⟨_, rfl⟩

/-- The character looked at ends a token that starts at `tok_start` or behind it, or it is no delimiter. -/
theorem addAt_cases (hstart : s.tokStart ≤ s.idx) (h : addAt buf s = .ok w) :
    (w = s ∧ s.cur ≠ equals ∧ s.cur ≠ openBrace ∧ s.cur ≠ closeBrace) ∨
      ∃ t, w = { s with tokens := s.tokens ++ [t], tokStart := s.idx + 1 } ∧ Ends s.idx s.cur t ∧
        s.tokStart ≤ t.index := by
  unfold addAt at h
  split at h
  · next heq =>
    obtain ⟨val, hw⟩ := Scan.add_eq h
    refine .inr ⟨_, hw, ?_, Nat.le_refl _⟩
    rw [heq]
    exact .name rfl (Nat.add_sub_of_le hstart)
  · next hne =>
    split at h
    · next hopen =>
      obtain ⟨val, hw⟩ := Scan.add_eq h
      refine .inr ⟨_, hw, ?_, hstart⟩
      rw [hopen]
      exact .opens rfl rfl rfl
    · next hnopen =>
      split at h
      · next hclose =>
        obtain ⟨val, hw⟩ := Scan.add_eq h
        refine .inr ⟨_, hw, ?_, hstart⟩
        rw [hclose]
        exact .closes rfl rfl rfl
      · next hnclose =>
        split at h
        · next hend =>
          split at h
          · next hlen =>
            obtain ⟨val, hw⟩ := Scan.add_eq h
            exact .inr ⟨_, hw, .value (isEnd_iff.mpr hend) rfl (Nat.add_sub_of_le hstart) hlen, Nat.le_refl _⟩
          · cases h
            exact .inl ⟨rfl, hne, hnopen, hnclose⟩
        · cases h
          exact .inl ⟨rfl, hne, hnopen, hnclose⟩

end Round

/-! ## The invariant -/

/-- What holds throughout the loop over the line `l`, which ends with a newline and has `nul :: stale` behind it in the
    buffer; the tokens of earlier lines are `toks`. -/
structure LoopInv (l stale : Bytes) (toks : List Token) (tr : List (Option Nat)) (c : LoopState) : Prop where
  cur     : (l ++ nul :: stale)[c.scan.idx]? = some c.scan.cur
  idx     : c.scan.idx ≤ l.length
  within  : c.pc ≠ .outer → c.scan.idx < l.length
  start   : c.scan.tokStart ≤ c.scan.idx
  visited : Visited (l.take c.scan.idx) (tr.filterMap id)
  tokens  : ∃ ts, c.scan.tokens = toks ++ ts ∧ Spans (l.take c.scan.idx) ts ∧
    ∀ t ∈ ts, t.index < c.scan.tokStart ∧ t.index + t.len ≤ c.scan.tokStart

section Invariant

variable {l stale : Bytes} {toks : List Token} {tr : List (Option Nat)} {c c' : LoopState} {e : Option Nat}

theorem loopInv_start (cur last : UInt8) (hcur : (l ++ nul :: stale)[0]? = some cur) :
    LoopInv l stale toks [] ⟨.outer, ⟨0, 0, cur, last, toks⟩⟩ where
  cur := hcur
  idx := Nat.zero_le _
  within h := absurd rfl h
  start := Nat.le_refl 0
  visited := Visited.nil
  tokens := ⟨[], (List.append_nil toks).symm, Spans.nil, fun _ ht => absurd ht List.not_mem_nil⟩

/-- The character at the cursor is the next of the line. -/
theorem take_succ_of_cur {i : Nat} {b : UInt8} (h : (l ++ nul :: stale)[i]? = some b) (hi : i < l.length) :
    l.take (i + 1) = l.take i ++ [b] ∧ (l.take i).length = i := by
  rw [List.getElem?_append_left hi] at h
  obtain ⟨-, rfl⟩ := List.getElem?_eq_some_iff.mp h
  exact ⟨List.take_succ_eq_append_getElem hi, List.length_take_of_le (Nat.le_of_lt hi)⟩

theorem charAt_ok {buf : Bytes} {i : Nat} {b : UInt8} (h : charAt buf i = .ok b) : buf[i]? = some b := by
  unfold charAt at h
  split at h
  · next hb =>
    cases h
    exact hb
  · cases h

/-- A character that is no NUL is one of the line. -/
theorem lt_of_cur {i : Nat} {b : UInt8} (h : (l ++ nul :: stale)[i]? = some b) (hi : i ≤ l.length) (hb : b ≠ nul) :
    i < l.length := by
  apply Nat.lt_of_le_of_ne hi
  rintro rfl
  rw [List.getElem?_append_right (Nat.le_refl _), Nat.sub_self] at h
  exact hb (Option.some.inj h).symm

/-- A space is not the last character of a line. -/
theorem succ_lt_of_space {i : Nat} (hlast : l.getLast? = some newline) (h : (l ++ nul :: stale)[i]? = some space)
    (hi : i < l.length) : i + 1 < l.length := by
  apply Nat.lt_of_le_of_ne hi
  intro heq
  rw [List.getElem?_append_left hi] at h
  rw [List.getLast?_eq_getElem?, ← heq, Nat.succ_sub_one, h] at hlast
  exact absurd hlast (by decide)

/-- **One step** keeps the invariant. -/
theorem loopInv_step (hlast : l.getLast? = some newline) (h : LoopInv l stale toks tr c)
    (hstep : LoopStep (l ++ nul :: stale) c e c') : LoopInv l stale toks (tr ++ [e]) c' := by
  have hsilent : (tr ++ [none]).filterMap id = tr.filterMap id := by simp
  obtain ⟨hcur, hidx, hwithin, hstart, hvisited, ts, htoks, hspans, hbehind⟩ := h
  cases hstep with
  | @enter s hne hskip =>
      exact ⟨hcur, hidx, fun _ => lt_of_cur hcur hidx hne, hstart, by rwa [hsilent], ts, htoks, hspans, hbehind⟩
  | @pass s hne hskip =>
      exact ⟨hcur, hidx, fun _ => lt_of_cur hcur hidx hne, hstart, by rwa [hsilent], ts, htoks, hspans, hbehind⟩
  | @leave s hne =>
      have hin : s.idx < l.length := hwithin (show LoopAt.spaces ≠ LoopAt.outer by decide)
      exact ⟨hcur, hidx, fun _ => hin, hstart, by rwa [hsilent], ts, htoks, hspans, hbehind⟩
  | @space s cur hspace hnext =>
      have hin : s.idx < l.length := hwithin (show LoopAt.spaces ≠ LoopAt.outer by decide)
      have hcur' : (l ++ nul :: stale)[s.idx]? = some space := hcur.trans (congrArg some hspace)
      obtain ⟨htake, hlen⟩ := take_succ_of_cur hcur' hin
      have hnextin := succ_lt_of_space hlast hcur' hin
      refine ⟨charAt_ok hnext, Nat.le_of_lt hnextin, fun _ => hnextin, Nat.succ_le_succ hstart, ?_, ts, htoks, ?_, ?_⟩
      · show Visited (l.take (s.idx + 1)) _
        rw [htake, hsilent]
        exact hvisited.skip
      · show Spans (l.take (s.idx + 1)) ts
        rw [htake]
        exact hspans.plain (by decide)
      · intro t ht
        obtain ⟨hindex, hstop⟩ := hbehind t ht
        exact ⟨Nat.lt_succ_of_lt hindex, Nat.le_succ_of_le hstop⟩
  | @look s w cur hadd hnext =>
      have hin : s.idx < l.length := hwithin (show LoopAt.look ≠ LoopAt.outer by decide)
      obtain ⟨htake, hlen⟩ := take_succ_of_cur hcur hin
      have hw : w.idx = s.idx := addAt_idx hadd
      have hvisited' : Visited (l.take (s.idx + 1)) ((tr ++ [some s.idx]).filterMap id) := by
        have hlook := hvisited.look s.cur
        rw [hlen] at hlook
        rw [htake, List.filterMap_append]
        exact hlook
      rw [hw] at hnext ⊢
      have hcur' := charAt_ok hnext
      have hle : s.tokStart ≤ s.idx := hstart
      rcases addAt_cases hle hadd with ⟨rfl, hplain⟩ | ⟨t, rfl, hends, hat⟩
      · refine ⟨hcur', hin, fun h => absurd rfl h, Nat.le_succ_of_le hle, hvisited', ts, htoks, ?_, hbehind⟩
        show Spans (l.take (w.idx + 1)) ts
        rw [htake]
        exact hspans.plain hplain
      · refine ⟨hcur', hin, fun h => absurd rfl h, Nat.le_refl _, hvisited', ts ++ [t], ?_, ?_, ?_⟩
        · show s.tokens ++ [t] = _
          rw [show s.tokens = toks ++ ts from htoks, List.append_assoc]
        · show Spans (l.take (s.idx + 1)) _
          rw [htake]
          apply hspans.add
          · rwa [hlen]
          · intro u hu
            obtain ⟨hindex, hstop⟩ := hbehind u hu
            exact ⟨Nat.lt_of_lt_of_le hindex hat, Nat.le_trans hstop hat⟩
        · show ∀ u ∈ ts ++ [t], u.index < s.idx + 1 ∧ u.index + u.len ≤ s.idx + 1
          rw [List.forall_mem_append, List.forall_mem_singleton]
          constructor
          · intro u hu
            obtain ⟨hindex, hstop⟩ := hbehind u hu
            exact ⟨Nat.lt_succ_of_lt (Nat.lt_of_lt_of_le hindex hle), Nat.le_succ_of_le (Nat.le_trans hstop hle)⟩
          · exact hends.bound

/-- **The invariant** holds throughout the loop. -/
theorem loopInv_run (hlast : l.getLast? = some newline) {cur last : UInt8}
    (hcur : (l ++ nul :: stale)[0]? = some cur)
    (hrun : Run (LoopStep (l ++ nul :: stale)) ⟨.outer, ⟨0, 0, cur, last, toks⟩⟩ tr c) :
    LoopInv l stale toks tr c :=
  hrun.history (loopInv_start cur last hcur) fun _ _ _ _ h hs => loopInv_step hlast h hs

end Invariant

/-! ## Lines and files -/

/-- The scan of the string `got` in `buf` is as it should be: at every moment of its loop `tok_start` is not behind
    `idx`, it goes over the string once, up to its NUL, and the tokens it adds are the spans of the string. -/
structure Scanned (buf got : Bytes) (last : UInt8) (tokens : List Token) (s : Scan) : Prop where
  ordered : ∀ cur tr c, charAt buf 0 = .ok cur →
    Run (LoopStep buf) ⟨.outer, ⟨0, 0, cur, last, tokens⟩⟩ tr c → c.scan.tokStart ≤ c.scan.idx
  visits  : ∃ cur tr, charAt buf 0 = .ok cur ∧
    Run (LoopStep buf) ⟨.outer, ⟨0, 0, cur, last, tokens⟩⟩ tr ⟨.outer, s⟩ ∧ Visited got (tr.filterMap id)
  ends    : s.cur = nul ∧ s.idx = got.length
  spans   : ∃ ts, s.tokens = tokens ++ ts ∧ Spans got ts

section Lines

variable {l line : Bytes} {last : UInt8} {toks : List Token}

/-- A line that fits is scanned to its end. -/
theorem scanChunk_line (stale : Bytes) (hnul : NulFree l) (hfit : Fit toks.length (lexLine (l ++ [newline]))) :
    ∃ s, scanChunk (l ++ [newline] ++ nul :: stale) last toks = .ok s ∧ s.tokens = toks ++ lexLine (l ++ [newline]) := by
  have hline : NulFree (l ++ [newline]) := hnul.append (nulFree_singleton (by decide))
  have hend := (lex_newline (.fresh last) l).2
  have hscan := @scan_lex (.fresh last) [] (l ++ [newline]) (l ++ [newline] ++ nul :: stale).length stale toks
    ⟨rfl, Nat.le_refl 0⟩ (.inl rfl) hline hend (by simp)
  rw [lex_fresh, push_fit hfit] at hscan
  have hcur : charAt (l ++ [newline] ++ nul :: stale) 0 = .ok ((l ++ [newline] ++ nul :: stale).headD nul) := by
    cases l <;> rfl
  refine ⟨stateAt (l ++ [newline]) (nul :: stale) (lex (.fresh last) (l ++ [newline])).1.start
    (lex (.fresh last) (l ++ [newline])).1.last (toks ++ lexLine (l ++ [newline])), ?_, rfl⟩
  rw [scanChunk, hcur]
  exact hscan

/-- **A line** is scanned as it should be, whatever is behind it in the buffer. -/
theorem line_scanned (stale : Bytes) (hnul : NulFree l) (hfit : Fit toks.length (lexLine (l ++ [newline]))) :
    ∃ s, scanChunk (l ++ [newline] ++ nul :: stale) last toks = .ok s ∧ s.tokens = toks ++ lexLine (l ++ [newline]) ∧
      Scanned (l ++ [newline] ++ nul :: stale) (l ++ [newline]) last toks s := by
  obtain ⟨s, hscan, htoks⟩ := @scanChunk_line l last toks stale hnul hfit
  have hlast : (l ++ [newline]).getLast? = some newline := List.getLast?_concat
  obtain ⟨cur, hcur, hloop⟩ := exists_of_bind_ok hscan
  obtain ⟨hend, tr, hrun⟩ := run_of_scanLine hloop
  have hinv := loopInv_run hlast (charAt_ok hcur) hrun
  have hidx : s.idx = (l ++ [newline]).length := by
    apply Nat.le_antisymm hinv.idx
    apply Nat.le_of_not_lt
    intro hlt
    -- there is no NUL before the end of the line
    have hin := hinv.cur
    rw [List.getElem?_append_left hlt] at hin
    have hline : NulFree (l ++ [newline]) := hnul.append (nulFree_singleton (by decide))
    exact hline s.cur (List.mem_of_getElem? hin) hend
  refine ⟨s, hscan, htoks, ⟨?_, ⟨cur, tr, hcur, hrun, ?_⟩, ⟨hend, hidx⟩, ?_⟩⟩
  · intro cur tr c hcur hrun
    exact (loopInv_run hlast (charAt_ok hcur) hrun).start
  · have hvisited := hinv.visited
    rwa [show LoopState.scan ⟨.outer, s⟩ = s from rfl, hidx, List.take_length] at hvisited
  · obtain ⟨ts, hts, hspans, -⟩ := hinv.tokens
    rw [show LoopState.scan ⟨.outer, s⟩ = s from rfl, hidx, List.take_length] at hspans
    exact ⟨ts, hts, hspans⟩

/-- All lines are. -/
theorem everyScan_scanned (ls : List Bytes) (hnul : ∀ l ∈ ls, NulFree l)
    (hfit : Fit toks.length ((ls.map (· ++ [newline])).flatMap lexLine)) :
    EveryScan Scanned line last toks (ls.map (· ++ [newline])) := by
  induction ls generalizing line last toks with
  | nil => trivial
  | cons l ls ih =>
      rw [List.map_cons, List.flatMap_cons] at hfit
      obtain ⟨hmany, hshort⟩ := hfit
      rw [List.length_append] at hmany
      have hfirst : Fit toks.length (lexLine (l ++ [newline])) :=
        ⟨by omega, fun t ht => hshort t (List.mem_append_left _ ht)⟩
      have hbuf : overlay line (l ++ [newline] ++ [nul]) =
          l ++ [newline] ++ nul :: line.drop (l ++ [newline] ++ [nul]).length := by
        rw [overlay, List.append_assoc _ [nul], List.singleton_append]
      obtain ⟨s, hscan, htoks, hscanned⟩ :=
        @line_scanned l last toks (line.drop (l ++ [newline] ++ [nul]).length) (hnul l List.mem_cons_self) hfirst
      rw [← hbuf] at hscan hscanned
      refine ⟨s, hscan, hscanned, ih (fun l' hl' => hnul l' (List.mem_cons_of_mem l hl')) ?_⟩
      rw [htoks, List.length_append]
      exact ⟨by omega, fun t ht => hshort t (List.mem_append_right _ ht)⟩

/-- The tokens of a line, by themselves. -/
theorem lexLine_spans (hnul : NulFree l) (hfit : Fit 0 (lexLine (l ++ [newline]))) :
    Spans (l ++ [newline]) (lexLine (l ++ [newline])) := by
  obtain ⟨s, -, htoks, hscanned⟩ := @line_scanned l nul [] [] hnul hfit
  obtain ⟨ts, hts, hspans⟩ := hscanned.spans
  rw [hts, List.nil_append, List.nil_append] at htoks
  rwa [htoks] at hspans

/-- There are no more tokens than delimiters. -/
theorem length_tokens_le (ls : List Bytes) (hnul : ∀ l ∈ ls, NulFree l)
    (hfit : Fit 0 ((ls.map (· ++ [newline])).flatMap lexLine)) :
    ((ls.map (· ++ [newline])).flatMap lexLine).length ≤ (ls.flatMap (· ++ [newline])).countP isStop := by
  induction ls with
  | nil => exact Nat.le_refl 0
  | cons l ls ih =>
      rw [List.map_cons, List.flatMap_cons] at hfit ⊢
      obtain ⟨hmany, hshort⟩ := hfit
      rw [List.length_append] at hmany
      have hline : Spans (l ++ [newline]) (lexLine (l ++ [newline])) :=
        lexLine_spans (hnul l List.mem_cons_self) ⟨by omega, fun t ht => hshort t (List.mem_append_left _ ht)⟩
      have hrest := ih (fun l' hl' => hnul l' (List.mem_cons_of_mem l hl'))
        ⟨by omega, fun t ht => hshort t (List.mem_append_right _ ht)⟩
      rw [List.length_append, List.flatMap_cons, List.countP_append]
      exact Nat.add_le_add hline.few hrest

end Lines

/-- **The tokens of a file** whose lines end with a newline. In the scan of each line the two cursors stay in order,
    every character but spaces is looked at once, and the tokens are the spans of the line: one for each `=` and each
    brace, values that are not empty, one behind the other, so that no length is negative. Behind `TOK_NONE` there
    are no more of them than the file has delimiters. -/
theorem token_spans (t : Text) (hlen : ∀ tok ∈ t.tokens, tok.len < maxTokLen) (hfew : t.tokens.length < maxTokens)
    (line : Bytes) :
    loadTokens line (some t.bytes) = .ok ⟨noToken :: t.tokens⟩ ∧
    fgetsAll (maxLineWidth - 1) [] (maxLineWidth - 1) t.bytes = t.lines.map (· ++ [newline]) ∧
    EveryScan Scanned line nul [noToken] (t.lines.map (· ++ [newline])) ∧
    (noToken :: t.tokens).length ≤ 1 + t.bytes.countP isStop := by
  have hflat : t.tokens = (t.lines.map (· ++ [newline])).flatMap lexLine := by
    rw [List.flatMap_map]
    rfl
  have hfit : Fit 1 t.tokens := ⟨by omega, fun tok htok => (hlen tok htok).le⟩
  refine ⟨loadTokens_text t line hfit, ?_, ?_, ?_⟩
  · exact fgetsAll_lines t.lines fun l hl => ⟨t.single l hl, t.width l hl⟩
  · apply everyScan_scanned t.lines t.nulFree
    rwa [← hflat]
  · have hcount := length_tokens_le t.lines t.nulFree (by rw [← hflat]; exact ⟨by omega, hfit.2⟩)
    rw [← hflat] at hcount
    rw [List.length_cons, Nat.add_comm 1]
    exact Nat.succ_le_succ hcount

/-- The lines ` a b= =};,c` and `{`, in which spaces are skipped inside a name and a name is empty. -/
def crowdedText : Text :=
  ⟨[[space, 97, space, 98, equals, space, equals, closeBrace, semicolon, comma, 99], [openBrace]], by decide,
    by simp [NulFree, space, equals, closeBrace, semicolon, comma, openBrace], by decide⟩

/-- Six tokens for eight delimiters. -/
theorem token_spans_crowded : crowdedText.tokens.length = 6 ∧ crowdedText.bytes.countP isStop = 8 ∧
    EveryScan Scanned [] nul [noToken] (crowdedText.lines.map (· ++ [newline])) :=
  ⟨by decide, by decide, (token_spans crowdedText (by decide) (by decide) []).2.2.1⟩

end IOSwitch.Tokenizer
