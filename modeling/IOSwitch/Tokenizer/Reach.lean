import IOSwitch.Tokenizer.Append
import IOSwitch.Tokenizer.Slices

/-!
# `Tokenizer.Reach` — how far the scanner reads

The outer loop of `load_tokens` stops at a NUL, the inner loop over spaces does not: it leaves the index on whatever
ends the spaces, and the rest of the round moves on. So where a string ends in skipped spaces its NUL is read like any
other character, and the scan goes on over what earlier lines have left in the buffer. `reach` is the text that is read
in this way, and `scan_ok_iff` says so.

A scan that stays inside finds what it would find if the buffer ended with the NUL (`EndsAtNul`). `inside_iff` says
for which files all scans do.

## Contents
- `readFrom`, `reach` — the text that is read.
- `round_cases`, `scan_round`, `scan_ok_iff` — one round, and the whole scan.
- `scanChunk`, `EveryScan` — the strings that `fgets` stores, one after the other.
- `EndsAtNul`, `inside_iff`.
-/

namespace IOSwitch.Tokenizer

open Lib

/-- What is read of a buffer from `rest` on, where `done` is before it: up to the first NUL at which no spaces are
    being skipped. -/
def readFrom (done : Bytes) : Bytes → Option Bytes
  | []        => none
  | b :: rest => if b = nul ∧ runsOut done = false then some [] else (readFrom (done ++ [b]) rest).map (b :: ·)

/-- What is read of a buffer. -/
def reach (buf : Bytes) : Option Bytes := readFrom [] buf

section Read

variable {done rest a w : Bytes}

/-- Text without a NUL is read. -/
theorem readFrom_append (ha : NulFree a) : readFrom done (a ++ rest) = (readFrom (done ++ a) rest).map (a ++ ·) := by
  induction a generalizing done with
  | nil => simp
  | cons b a ih =>
      have hb : ¬ (b = nul ∧ runsOut done = false) := fun h => ha b List.mem_cons_self h.1
      rw [List.cons_append, readFrom, if_neg hb, ih fun d hd => ha d (List.mem_cons_of_mem b hd), Option.map_map,
        List.append_assoc]
      rfl

/-- What is read is in the buffer. -/
theorem readFrom_prefix {e : Bytes} (h : readFrom done rest = some e) : e <+: rest := by
  induction rest generalizing done e with
  | nil => cases h
  | cons b rest ih =>
      rw [readFrom] at h
      split at h
      · cases h
        exact List.nil_prefix
      · obtain ⟨e', he, rfl⟩ := Option.map_eq_some_iff.mp h
        exact List.cons_prefix_cons.mpr ⟨rfl, ih he⟩

/-- Without a NUL there is no end. -/
theorem readFrom_nulFree (ha : NulFree a) : readFrom done a = none := by
  have happend := @readFrom_append done [] a ha
  rwa [List.append_nil] at happend

/-- A string is read up to its NUL, or beyond if it ends in skipped spaces. -/
theorem reach_string (hw : NulFree w) (rest : Bytes) :
    reach (w ++ nul :: rest) = if runsOut w = false then some w else (readFrom (w ++ [nul]) rest).map (w ++ nul :: ·) := by
  rw [reach, readFrom_append hw, List.nil_append, readFrom]
  split
  · next h =>
    rw [if_pos h.2, Option.map_some, List.append_nil]
  · next h =>
    rw [if_neg fun hout => h ⟨rfl, hout⟩, Option.map_map]
    rfl

end Read

/-! ## The cursor behind a text -/

section Cursors

variable {c : Cursor} {done rest : Bytes} {b : UInt8}

theorem At.next (h : At c done) (b : UInt8) : At (c.next b).1 (done ++ [b]) := by
  unfold Cursor.next
  split
  · next hskip =>
    have hspaces := h.spaces 1
    rw [hskip.1]
    exact ⟨List.drop_one.symm.trans hspaces.word, hspaces.start⟩
  · exact h.read

theorem At.lex (h : At c done) (w : Bytes) : At (Tokenizer.lex c w).1 (done ++ w) := by
  induction w generalizing c done with
  | nil =>
      rw [List.append_nil]
      exact h
  | cons b w ih =>
      have hrest := ih (h.next b)
      rwa [List.append_assoc] at hrest

/-- The cursor behind the beginning of a line. -/
theorem at_fresh (last : UInt8) (done : Bytes) : At (lex (.fresh last) done).1 done :=
  @At.lex (.fresh last) [] ⟨rfl, Nat.le_refl 0⟩ done

end Cursors

/-! ## One round -/

section Rounds

variable {c : Cursor} {done rest : Bytes} {d x : UInt8} {k fuel : Nat} {toks : List Token} {s : Scan}

/-- Spaces up to the end of the buffer are not left. -/
theorem skipSpaces_out {ts : Nat} {last : UInt8} :
    skipSpaces (done ++ List.replicate (k + 1) space) fuel (stateAt done (List.replicate (k + 1) space) ts last toks) =
      .error .lineOverrun := by
  induction fuel generalizing k done ts with
  | zero => rfl
  | succ fuel ih =>
      rw [skipSpaces, if_pos (show (stateAt done (List.replicate (k + 1) space) ts last toks).cur = space from rfl)]
      cases k with
      | zero =>
          have hend : charAt (done ++ List.replicate 1 space) (done.length + 1) = .error .lineOverrun := by
            rw [charAt, List.getElem?_eq_none (by simp)]
          show (charAt (done ++ List.replicate 1 space) (done.length + 1) >>= _) = _
          rw [hend]
          rfl
      | succ k =>
          have hnext : charAt (done ++ List.replicate (k + 2) space) (done.length + 1) = .ok space :=
            charAt_next done space space (List.replicate k space)
          have hline : done ++ List.replicate (k + 2) space = (done ++ [space]) ++ List.replicate (k + 1) space := by
            rw [List.append_assoc]
            rfl
          show (charAt (done ++ List.replicate (k + 2) space) (done.length + 1) >>= _) = _
          rw [hnext, hline]
          have hrest : skipSpaces (done ++ [space] ++ List.replicate (k + 1) space) fuel
              (stateAt (done ++ [space]) (List.replicate (k + 1) space) (ts + 1) last toks) = .error .lineOverrun := ih
          rw [stateAt_snoc] at hrest
          exact hrest

theorem addAt_idx {line : Bytes} {s s' : Scan} (h : addAt line s = .ok s') : s'.idx = s.idx := by
  have hadd : ∀ {type index len}, s.add line type index len = .ok s' → s'.idx = s.idx := by
    intro type index len h
    unfold Scan.add at h
    split_ifs at h
    cases h
    rfl
  unfold addAt at h
  split_ifs at h
  · exact hadd h
  · exact hadd h
  · exact hadd h
  · exact hadd h
  · cases h
    rfl
  · cases h
    rfl

/-- The spaces that a round begins with. -/
theorem skip_round (hskips : k = 0 ∨ c.Skips) (hd : d ≠ space ∨ k = 0 ∧ ¬ c.Skips) :
    skipBefore (done ++ (List.replicate k space ++ d :: rest))
        (stateAt done (List.replicate k space ++ d :: rest) c.start c.last toks) =
      .ok (stateAt (done ++ List.replicate k space) (d :: rest) (c.start + k) c.last toks) := by
  cases k with
  | zero =>
      rw [List.replicate_zero, List.append_nil]
      exact skipBefore_stop (hd.imp_right fun h => h.2)
  | succ k =>
      have hskips' : c.Skips := hskips.resolve_left (Nat.succ_ne_zero k)
      have hd' : d ≠ space := hd.resolve_right fun h => Nat.succ_ne_zero k h.1
      have hroom : k + 1 < (done ++ (List.replicate (k + 1) space ++ d :: rest)).length - done.length := by
        rw [List.length_append, List.length_append, List.length_replicate, List.length_cons]
        omega
      exact (if_pos hskips').trans (skipSpaces_run hd' hroom)

/-- The cursor behind the spaces of a round. -/
theorem lex_round (hskips : k = 0 ∨ c.Skips) :
    (lex c (List.replicate k space)).2 = [] ∧ (lex c (List.replicate k space)).1.start = c.start + k ∧
      (lex c (List.replicate k space)).1.last = c.last ∧
      (lex c (List.replicate k space)).1.skip = (c.skip || decide (0 < k)) := by
  cases k with
  | zero => simp [lex]
  | succ k =>
      rw [lex_spaces (.inr (hskips.resolve_left (Nat.succ_ne_zero k)))]
      simp

/-- A round begins with spaces, if they are skipped here, and ends with one more character or with the buffer. -/
theorem round_cases (c : Cursor) {b : UInt8} (hb : b ≠ nul) (r : Bytes) :
    (c.Skips ∧ ∃ k, b :: r = List.replicate (k + 1) space) ∨
      ∃ k d r', b :: r = List.replicate k space ++ d :: r' ∧ (k = 0 ∨ c.Skips) ∧ (d ≠ space ∨ k = 0 ∧ ¬ c.Skips) ∧
        (k = 0 → d ≠ nul) := by
  by_cases hspaces : b = space ∧ c.Skips
  · obtain ⟨k, r', hrun, hr'⟩ := spaces_split r
    have hrest : b :: r = List.replicate (k + 1) space ++ r' := by rw [hspaces.1, hrun]; rfl
    cases r' with
    | nil => exact .inl ⟨hspaces.2, k, by rw [hrest, List.append_nil]⟩
    | cons d r' =>
        refine .inr ⟨k + 1, d, r', hrest, .inr hspaces.2, .inl fun hd => hr' (by rw [hd]; rfl), ?_⟩
        intro h
        exact absurd h (Nat.succ_ne_zero k)
  · refine .inr ⟨0, b, r, rfl, .inl rfl, ?_, fun _ => hb⟩
    exact (not_and_or.mp hspaces).imp_right fun h => ⟨rfl, h⟩

/-- The last character of a round is read. -/
theorem next_round (hskip : c.skip = false) (hskips : k = 0 ∨ c.Skips) (hd : d ≠ space ∨ k = 0 ∧ ¬ c.Skips) :
    (lex c (List.replicate k space)).1.next d = (lex c (List.replicate k space)).1.read d := by
  apply if_neg
  intro h
  rcases hd with hd | ⟨rfl, hno⟩
  · exact hd h.1
  · rcases h.2 with h | h
    · obtain ⟨-, -, -, hskip'⟩ := lex_round hskips
      rw [hskip', hskip] at h
      cases h
    · exact hno h

/-- The tokens of a round, and of what is behind it. -/
theorem lex_round_cons (hskip : c.skip = false) (hskips : k = 0 ∨ c.Skips) (hd : d ≠ space ∨ k = 0 ∧ ¬ c.Skips)
    (e : Bytes) :
    lex c (List.replicate k space ++ d :: e) =
      ((lex ((lex c (List.replicate k space)).1.read d).1 e).1,
        ((lex c (List.replicate k space)).1.read d).2 ++ (lex ((lex c (List.replicate k space)).1.read d).1 e).2) := by
  rw [lex_append, (lex_round hskips).1, List.nil_append, lex, next_round hskip hskips hd]

/-- What is read of a round. -/
theorem readFrom_round (hruns : runsOut (done ++ List.replicate k space) = decide (0 < k)) (hfirst : k = 0 → d ≠ nul) :
    readFrom done (List.replicate k space ++ d :: rest) =
      (readFrom (done ++ List.replicate k space ++ [d]) rest).map fun e => List.replicate k space ++ d :: e := by
  have hspaces : NulFree (List.replicate k space) := by
    intro x hx
    rw [List.eq_of_mem_replicate hx]
    decide
  have hpass : ¬ (d = nul ∧ runsOut (done ++ List.replicate k space) = false) := by
    rintro ⟨hnul, hrun⟩
    rw [hruns, decide_eq_false_iff_not, Nat.not_lt, Nat.le_zero] at hrun
    exact hfirst hrun hnul
  rw [readFrom_append hspaces, readFrom, if_neg hpass, Option.map_map]
  rfl

/-- **One round** of the outer loop: spaces that are skipped, and one more character, which may be a NUL. -/
theorem scan_round (hc : At c done) (hskips : k = 0 ∨ c.Skips) (hd : d ≠ space ∨ k = 0 ∧ ¬ c.Skips)
    (hfirst : k = 0 → d ≠ nul) :
    scanRest (fuel + 1) done (List.replicate k space ++ d :: x :: rest) c.start c.last toks =
      (((lex c (List.replicate k space)).1.read d).2.map
          (stored (done ++ (List.replicate k space ++ d :: x :: rest)))).foldlM push toks >>= fun toks' =>
        scanRest fuel (done ++ List.replicate k space ++ [d]) (x :: rest)
          ((lex c (List.replicate k space)).1.read d).1.start d toks' := by
  obtain ⟨-, hstart, hlast, -⟩ := lex_round hskips
  have hcur : ¬ (stateAt done (List.replicate k space ++ d :: x :: rest) c.start c.last toks).cur = nul := by
    cases k with
    | zero => exact hfirst rfl
    | succ k => exact (by decide : ¬ space = nul)
  have hline : done ++ (List.replicate k space ++ d :: x :: rest) = (done ++ List.replicate k space) ++ d :: x :: rest :=
    (List.append_assoc _ _ _).symm
  have hat : At (lex c (List.replicate k space)).1 (done ++ List.replicate k space) := hc.lex _
  have hadd := @addAt_stored _ _ rest d x toks hat
  rw [hstart, hlast] at hadd
  rw [scanRest, scanLine, if_neg hcur, scanChar, skip_round hskips hd]
  show ((addAt _ (stateAt (done ++ List.replicate k space) (d :: x :: rest) (c.start + k) c.last toks) >>= _) >>= _) = _
  rw [hline, hadd]
  cases hpush : ((((lex c (List.replicate k space)).1.read d).2.map
      (stored (done ++ List.replicate k space ++ d :: x :: rest))).foldlM push toks) with
  | error e => rfl
  | ok toks' =>
      show ((charAt (done ++ List.replicate k space ++ d :: x :: rest) ((done ++ List.replicate k space).length + 1) >>= _)
        >>= _) = _
      rw [charAt_next]
      show scanLine (done ++ List.replicate k space ++ d :: x :: rest) fuel _ = scanRest _ _ _ _ _ _
      rw [scanRest, stateAt_snoc, List.append_assoc _ [d], List.singleton_append]
      rfl

/-- A round that reaches the end of the buffer does not come back. -/
theorem scan_round_end (hskips : k = 0 ∨ c.Skips) (hd : d ≠ space ∨ k = 0 ∧ ¬ c.Skips) (hfirst : k = 0 → d ≠ nul) :
    scanRest (fuel + 1) done (List.replicate k space ++ [d]) c.start c.last toks ≠ .ok s := by
  have hcur : ¬ (stateAt done (List.replicate k space ++ [d]) c.start c.last toks).cur = nul := by
    cases k with
    | zero => exact hfirst rfl
    | succ k => exact (by decide : ¬ space = nul)
  intro h
  rw [scanRest, scanLine, if_neg hcur, scanChar, skip_round hskips hd] at h
  obtain ⟨s₁, hround, -⟩ := exists_of_bind_ok h
  obtain ⟨s₂, hskip, hround⟩ := exists_of_bind_ok hround
  cases hskip
  obtain ⟨s₃, hadd, hround⟩ := exists_of_bind_ok hround
  obtain ⟨cur, hchar, -⟩ := exists_of_bind_ok hround
  have hidx : s₃.idx = (done ++ List.replicate k space).length := addAt_idx hadd
  rw [charAt, hidx, List.getElem?_eq_none (by simp [Nat.add_assoc])] at hchar
  cases hchar

/-- Nor does one that begins with spaces and nothing else. -/
theorem scan_round_out (hskips : c.Skips) :
    scanRest (fuel + 1) done (List.replicate (k + 1) space) c.start c.last toks ≠ .ok s := by
  intro h
  have hcur : ¬ (stateAt done (List.replicate (k + 1) space) c.start c.last toks).cur = nul := by
    show ¬ space = nul
    decide
  rw [scanRest, scanLine, if_neg hcur, scanChar] at h
  obtain ⟨s₁, hround, -⟩ := exists_of_bind_ok h
  obtain ⟨s₂, hskip, -⟩ := exists_of_bind_ok hround
  have hout : skipBefore (done ++ List.replicate (k + 1) space)
      (stateAt done (List.replicate (k + 1) space) c.start c.last toks) = .error .lineOverrun :=
    (if_pos hskips).trans skipSpaces_out
  rw [hout] at hskip
  cases hskip

end Rounds

/-! ## The whole scan -/

/-- **A scan** ends where the text that is read does, with its tokens stored behind the others, or not at all. -/
theorem scan_ok_iff {c : Cursor} {done rest : Bytes} {l₀ : UInt8} {fuel : Nat} {toks : List Token} {s : Scan}
    (hc : c = (lex (.fresh l₀) done).1) (hskip : c.skip = false) (hne : rest ≠ []) (hfuel : rest.length ≤ fuel) :
    scanRest fuel done rest c.start c.last toks = .ok s ↔
      ∃ e toks', readFrom done rest = some e ∧
        ((lex c e).2.map (stored (done ++ rest))).foldlM push toks = .ok toks' ∧
        s = ⟨(done ++ e).length, (lex c e).1.start, nul, (lex c e).1.last, toks'⟩ := by
  induction hn : rest.length using Nat.strong_induction_on generalizing c done rest toks fuel with
  | _ n ih =>
    subst hn
    have hat : At c done := by rw [hc]; exact at_fresh l₀ done
    have hruns : ∀ w, runsOut (done ++ w) = (lex c w).1.skip := by
      intro w
      rw [← (lex_located l₀ _).2, lex_append, ← hc]
    have hout : runsOut done = false := by
      have hnone := hruns []
      rw [List.append_nil] at hnone
      exact hnone.trans hskip
    obtain ⟨fuel, rfl⟩ : ∃ m, fuel = m + 1 := by
      have hpos := List.length_pos_iff.mpr hne
      exact ⟨fuel - 1, by omega⟩
    obtain ⟨b, r, rfl⟩ := List.exists_cons_of_ne_nil hne
    by_cases hb : b = nul
    · -- the NUL is met by the outer loop
      subst hb
      have hstop : scanRest (fuel + 1) done (nul :: r) c.start c.last toks =
          .ok ⟨done.length, c.start, nul, c.last, toks⟩ := by
        rw [scanRest, scanLine]
        exact if_pos rfl
      rw [hstop, readFrom, if_pos ⟨rfl, hout⟩]
      constructor
      · intro h
        cases h
        exact ⟨[], toks, rfl, rfl, by rw [List.append_nil]; rfl⟩
      · rintro ⟨e, toks', he, hpush, rfl⟩
        cases he
        cases hpush
        rw [List.append_nil]
        rfl
    · rcases round_cases c hb r with ⟨hskips, k, hrest⟩ | ⟨k, d, r', hrest, hskips, hd, hfirst⟩
      · -- nothing but spaces is left
        have hnone : readFrom done (List.replicate (k + 1) space) = none := by
          apply readFrom_nulFree
          intro x hx
          rw [List.eq_of_mem_replicate hx]
          decide
        rw [hrest, hnone]
        constructor
        · intro h
          exact absurd h (scan_round_out hskips)
        · rintro ⟨e, toks', he, -⟩
          cases he
      · have hrun : runsOut (done ++ List.replicate k space) = decide (0 < k) := by
          obtain ⟨-, -, -, hskip'⟩ := lex_round hskips
          rw [hruns, hskip', hskip, Bool.false_or]
        rw [hrest, readFrom_round hrun hfirst]
        cases r' with
        | nil =>
            constructor
            · intro h
              exact absurd h (scan_round_end hskips hd hfirst)
            · rintro ⟨e, toks', he, -⟩
              cases he
        | cons x r' =>
            obtain ⟨hlast, hskip'⟩ := (lex c (List.replicate k space)).1.read_last d
            have hc' : ((lex c (List.replicate k space)).1.read d).1 =
                (lex (.fresh l₀) (done ++ List.replicate k space ++ [d])).1 := by
              rw [lex_append, lex_append, ← hc, ← next_round hskip hskips hd]
              rfl
            have hshort : (x :: r').length < (b :: r).length := by
              rw [hrest]
              simp
              omega
            have hbuf : done ++ (List.replicate k space ++ d :: x :: r') =
                done ++ List.replicate k space ++ [d] ++ x :: r' := by simp
            -- the rest of the scan, by induction
            have hih := fun toks₁ => @ih _ hshort _ _ (x :: r') fuel toks₁ hc' hskip' (List.cons_ne_nil x r')
              (by simp at hfuel hshort ⊢; omega) rfl
            rw [hlast] at hih
            rw [scan_round hat hskips hd hfirst]
            constructor
            · intro h
              obtain ⟨toks₁, hpush, h⟩ := exists_of_bind_ok h
              obtain ⟨e, toks', he, hpush', rfl⟩ := (hih toks₁).mp h
              refine ⟨List.replicate k space ++ d :: e, toks', by rw [he]; rfl, ?_, ?_⟩
              · rw [lex_round_cons hskip hskips hd, List.map_append, List.foldlM_append, hpush, hbuf]
                exact hpush'
              · rw [lex_round_cons hskip hskips hd]
                simp
            · rintro ⟨e, toks', he, hpush, rfl⟩
              obtain ⟨e', he', rfl⟩ := Option.map_eq_some_iff.mp he
              rw [lex_round_cons hskip hskips hd, List.map_append, List.foldlM_append] at hpush
              obtain ⟨toks₁, hpush₁, hpush₂⟩ := exists_of_bind_ok hpush
              rw [hpush₁]
              refine (hih toks₁).mpr ⟨e', toks', he', ?_, ?_⟩
              · rw [← hbuf]
                exact hpush₂
              · rw [lex_round_cons hskip hskips hd]
                simp

/-- **What is stored** are the texts in the buffer, if they are free of NULs. -/
theorem lex_stored {c : Cursor} {done e : Bytes} (hc : At c done) (post : Bytes) :
    ∀ t ∈ (lex c e).2, ∃ pre w post', done ++ e ++ post = pre ++ (w ++ post') ∧ t = tokenOf t.type pre.length w ∧
      ∀ d ∈ w, d ∈ done ++ e := by
  induction e generalizing c done with
  | nil =>
      intro t ht
      cases ht
  | cons b e ih =>
      intro t ht
      rcases List.mem_append.mp ht with ht | ht
      · unfold Cursor.next at ht
        split at ht
        · cases ht
        · obtain ⟨pre, w, post', hline, heq, hmem⟩ := read_text hc (e ++ post) t ht
          refine ⟨pre, w, post', by rw [← hline, List.append_assoc]; rfl, heq, ?_⟩
          intro d hd
          have hin := hmem d hd
          simp only [List.mem_append, List.mem_cons, List.not_mem_nil, or_false] at hin ⊢
          tauto
      · obtain ⟨pre, w, post', hline, heq, hmem⟩ := ih (hc.next b) t ht
        refine ⟨pre, w, post', by rw [← hline]; simp, heq, ?_⟩
        intro d hd
        have hin := hmem d hd
        rwa [List.append_assoc] at hin

/-! ## The strings that `fgets` stores -/

/-- The scan of one string, in the buffer that holds it. -/
def scanChunk (buf : Bytes) (last : UInt8) (tokens : List Token) : Except Fault Scan := do
  let cur ← charAt buf 0
  scanLine buf buf.length ⟨0, 0, cur, last, tokens⟩

theorem loadLines_scan (line : Bytes) (last : UInt8) (tokens : List Token) (got : Bytes) (rest : List Bytes) :
    loadLines line last tokens (got :: rest) = scanChunk (overlay line (got ++ [nul])) last tokens >>= fun s =>
      loadLines (overlay line (got ++ [nul])) s.last s.tokens rest := by
  rw [loadLines, scanChunk, bind_assoc]

/-- All strings are scanned, one after the other in the same buffer, and the scans are as they should be: `P` of the
    buffer, the string in it, the character read before, the tokens so far and the state at the end. -/
def EveryScan (P : Bytes → Bytes → UInt8 → List Token → Scan → Prop) (line : Bytes) (last : UInt8)
    (tokens : List Token) : List Bytes → Prop
  | []          => True
  | got :: rest => ∃ s, scanChunk (overlay line (got ++ [nul])) last tokens = .ok s ∧
      P (overlay line (got ++ [nul])) got last tokens s ∧
      EveryScan P (overlay line (got ++ [nul])) s.last s.tokens rest

section Chunks

variable {P : Bytes → Bytes → UInt8 → List Token → Scan → Prop} {line buf got : Bytes} {last : UInt8}
  {toks : List Token} {s : Scan}

/-- Then all lines are loaded. -/
theorem EveryScan.loads {gots : List Bytes} (h : EveryScan P line last toks gots) :
    ∃ toks', loadLines line last toks gots = .ok toks' := by
  induction gots generalizing line last toks with
  | nil => exact ⟨toks, rfl⟩
  | cons got gots ih =>
      obtain ⟨s, hscan, -, hrest⟩ := h
      obtain ⟨toks', hload⟩ := ih hrest
      exact ⟨toks', by rw [loadLines_scan, hscan]; exact hload⟩

/-- **The scan of a string** reads what can be reached, and stores its tokens. -/
theorem scanChunk_ok_iff (hne : buf ≠ []) : scanChunk buf last toks = .ok s ↔
    ∃ e toks', reach buf = some e ∧ ((lex (.fresh last) e).2.map (stored buf)).foldlM push toks = .ok toks' ∧
      s = ⟨e.length, (lex (.fresh last) e).1.start, nul, (lex (.fresh last) e).1.last, toks'⟩ := by
  obtain ⟨b, r, rfl⟩ := List.exists_cons_of_ne_nil hne
  have hscan := @scan_ok_iff (.fresh last) [] (b :: r) last (b :: r).length toks s rfl rfl hne (Nat.le_refl _)
  simp only [List.nil_append] at hscan
  exact hscan

/-- A string in the buffer is the part of it before the first NUL. -/
theorem overlay_string (line got : Bytes) : ∃ stale, overlay line (got ++ [nul]) = cstr got ++ nul :: stale := by
  have hsplit : ∃ r, got ++ [nul] = cstr got ++ nul :: r := by
    have hall := List.takeWhile_append_dropWhile (p := (· ≠ (0 : UInt8))) (l := got)
    cases hdrop : got.dropWhile (· ≠ (0 : UInt8)) with
    | nil =>
        rw [hdrop, List.append_nil] at hall
        exact ⟨[], by rw [show cstr got = got from hall]⟩
    | cons b r =>
        have hb := List.head?_dropWhile_not (· ≠ (0 : UInt8)) got
        rw [hdrop] at hb hall
        have hnul : b = nul := (by simpa using hb : b = 0)
        refine ⟨r ++ [nul], ?_⟩
        rw [← hnul, ← List.cons_append, ← List.append_assoc]
        exact congrArg (· ++ [b]) hall.symm
  obtain ⟨r, hr⟩ := hsplit
  refine ⟨r ++ line.drop (got ++ [nul]).length, ?_⟩
  rw [overlay, hr, List.append_assoc]
  rfl

/-- A string whose scan ends at its NUL is stored as it is. -/
theorem stored_string {w : Bytes} (hw : NulFree w) (stale : Bytes) :
    (lex (.fresh last) w).2.map (stored (w ++ nul :: stale)) = lexLine w := by
  rw [← lex_fresh last w]
  refine (List.map_congr_left fun t ht => ?_).trans (List.map_id _)
  obtain ⟨pre, v, post, hline, heq, hmem⟩ :=
    @lex_stored (.fresh last) [] w ⟨rfl, Nat.le_refl 0⟩ (nul :: stale) t ht
  rw [List.nil_append] at hline hmem
  rw [heq, stored, hline]
  exact storedAt_word (fun d hd => hw d (hmem d hd)) t.type pre post

end Chunks

/-! ## Scans that stay inside -/

/-- The scan ends at the NUL of the string, and finds what it would find if nothing were behind it. -/
def EndsAtNul (_buf got : Bytes) (last : UInt8) (tokens : List Token) (s : Scan) : Prop :=
  scanChunk (cstr got ++ [nul]) last tokens = .ok s ∧ s.idx = (cstr got).length ∧ s.cur = nul

section Inside

variable {line got : Bytes} {last : UInt8} {toks : List Token} {s : Scan}

/-- **A scan stays inside** iff its string does not end in skipped spaces. -/
theorem endsAtNul_iff : scanChunk (overlay line (got ++ [nul])) last toks = .ok s ∧
      EndsAtNul (overlay line (got ++ [nul])) got last toks s ↔
    runsOut (cstr got) = false ∧ ∃ toks', (lexLine (cstr got)).foldlM push toks = .ok toks' ∧
      s = ⟨(cstr got).length, (lex (.fresh last) (cstr got)).1.start, nul, (lex (.fresh last) (cstr got)).1.last, toks'⟩ := by
  obtain ⟨stale, hbuf⟩ := overlay_string line got
  have hnul := nulFree_cstr got
  rw [EndsAtNul, hbuf]
  constructor
  · rintro ⟨-, hscan, -⟩
    obtain ⟨e, toks', hreach, hpush, hs⟩ := (scanChunk_ok_iff (by simp)).mp hscan
    rw [reach_string hnul] at hreach
    split at hreach
    · next hruns =>
      cases hreach
      rw [stored_string hnul] at hpush
      exact ⟨hruns, toks', hpush, hs⟩
    · cases hreach
  · rintro ⟨hruns, toks', hpush, rfl⟩
    have hscan : ∀ stale, scanChunk (cstr got ++ nul :: stale) last toks =
        .ok ⟨(cstr got).length, (lex (.fresh last) (cstr got)).1.start, nul, (lex (.fresh last) (cstr got)).1.last,
          toks'⟩ := by
      intro stale
      refine (scanChunk_ok_iff (by simp)).mpr ⟨cstr got, toks', ?_, ?_, rfl⟩
      · rw [reach_string hnul, if_pos hruns]
      · rw [stored_string hnul]
        exact hpush
    exact ⟨hscan stale, hscan [], rfl, rfl⟩

/-- All scans. -/
theorem everyScan_inside {gots : List Bytes} : EveryScan EndsAtNul line last toks gots ↔
    (∀ got ∈ gots, runsOut (cstr got) = false) ∧
      ∃ toks', ((gots.map cstr).flatMap lexLine).foldlM push toks = .ok toks' := by
  induction gots generalizing line last toks with
  | nil => exact ⟨fun _ => ⟨fun got hgot => absurd hgot List.not_mem_nil, toks, rfl⟩, fun _ => trivial⟩
  | cons got gots ih =>
      rw [List.forall_mem_cons, List.map_cons, List.flatMap_cons]
      constructor
      · rintro ⟨s, hscan, hends, hrest⟩
        obtain ⟨hruns, toks₁, hpush, rfl⟩ := endsAtNul_iff.mp ⟨hscan, hends⟩
        obtain ⟨hall, toks', hpush'⟩ := ih.mp hrest
        refine ⟨⟨hruns, hall⟩, toks', ?_⟩
        rw [List.foldlM_append, hpush]
        exact hpush'
      · rintro ⟨⟨hruns, hall⟩, toks', hpush⟩
        rw [List.foldlM_append] at hpush
        obtain ⟨toks₁, hpush₁, hpush₂⟩ := exists_of_bind_ok hpush
        obtain ⟨hscan, hends⟩ := (@endsAtNul_iff line got last toks _).mpr ⟨hruns, toks₁, hpush₁, rfl⟩
        exact ⟨_, hscan, hends, ih.mpr ⟨hall, toks', hpush₂⟩⟩

end Inside

/-- The file is loaded, then. -/
theorem EveryScan.loadTokens {P : Bytes → Bytes → UInt8 → List Token → Scan → Prop} {line content : Bytes}
    (h : EveryScan P line nul [noToken] (pieces content)) : ∃ t, Tokenizer.loadTokens line (some content) = .ok t := by
  obtain ⟨toks, hload⟩ := h.loads
  refine ⟨⟨toks⟩, ?_⟩
  show (loadLines line nul [noToken] (pieces content) >>= _) = _
  rw [hload]
  rfl

/-- Tokens can be put behind `TOK_NONE` iff they fit. -/
theorem exists_push_iff (ts : List Token) : (∃ toks, ts.foldlM push [noToken] = .ok toks) ↔ Fit 1 ts := by
  constructor
  · rintro ⟨toks, hpush⟩
    exact @fit_of_push ts [noToken] toks (by decide) hpush
  · intro hfit
    exact ⟨_, @push_fit [noToken] ts hfit⟩

/-- **The scanner never looks past the end of a line** iff no string that `fgets` stores ends in spaces that are
    skipped, and the tokens of the strings fit. -/
theorem inside_iff (content line : Bytes) :
    ((∃ t, loadTokens line (some content) = .ok t) ∧ EveryScan EndsAtNul line nul [noToken] (pieces content)) ↔
      (∀ got ∈ pieces content, runsOut (cstr got) = false) ∧
        FitIn maxTokLen (((pieces content).map cstr).flatMap marks) := by
  rw [and_iff_right_of_imp EveryScan.loadTokens, everyScan_inside, exists_push_iff, fitIn_iff (by decide)]
  rfl

/-- One space is read, the NUL behind it, and what is in the buffer there. -/
theorem space_overrun : ¬ ((∃ t, loadTokens (List.replicate maxLineWidth 120) (some [space]) = .ok t) ∧
    EveryScan EndsAtNul (List.replicate maxLineWidth 120) nul [noToken] (pieces [space])) := by
  rintro ⟨-, s, -, ⟨hscan, -⟩, -⟩
  have hover : scanChunk (cstr [space] ++ [nul]) nul [noToken] = .error .lineOverrun := by decide +kernel
  have habsurd := hover.symm.trans hscan
  cases habsurd

end IOSwitch.Tokenizer
