import IOSwitch.Tokenizer.Reach

/-!
# `Tokenizer.Storage` — what is written into the tokens

A text that is copied into `val` is a string there if it is shorter than the array and holds no NUL. Neither is looked
at: a text of 256 bytes leaves no room for its NUL, a longer one runs over the fields of the next token, and what is
behind the last slot of the array is written like any other. NULs are in a text only where the scan has gone beyond the
end of a string.

`storage_iff` says when all tokens of a file are stored as they should be.
-/

namespace IOSwitch.Tokenizer

open Lib

/-- The tokens of one scan are stored in free slots, each with room for its NUL, and the string in `val` is what is in
    the buffer at `index`. -/
def WellStored (buf _got : Bytes) (_last : UInt8) (tokens : List Token) (s : Scan) : Prop :=
  ∃ new, s.tokens = tokens ++ new ∧ s.tokens.length ≤ maxTokens ∧
    ∀ t ∈ new, t.len < maxTokLen ∧ text t = .ok ((buf.drop t.index).take t.len)

/-- The buffer at each string. -/
def buffers (line : Bytes) : List Bytes → List Bytes
  | []          => []
  | got :: rest => overlay line (got ++ [nul]) :: buffers (overlay line (got ++ [nul])) rest

/-- No NUL is in the text, or a brace is behind it. -/
def Mark.Unbroken (m : Mark) : Prop := isBrace m.slice.stop = true ∨ nul ∉ m.front.word m.slice.text

instance (m : Mark) : Decidable m.Unbroken := inferInstanceAs (Decidable (_ ∨ _))

section Stored

variable {line buf got : Bytes} {last : UInt8} {toks : List Token} {s : Scan}

/-- **A text is a string in `val`** iff it has no NUL in it. -/
theorem text_stored_iff {t : Token} {pre w post : Bytes} (hbuf : buf = pre ++ (w ++ post))
    (ht : t = tokenOf t.type pre.length w) (hlen : t.len < maxTokLen) :
    text (stored buf t) = .ok ((buf.drop t.index).take t.len) ↔ nul ∉ (bare t).2 := by
  have hwlen : t.len = w.length := by rw [ht]; rfl
  have hindex : t.index = pre.length := by rw [ht]; rfl
  have hbare : (bare t).2 = w := by rw [ht, bare_tokenOf]
  have hbytes : (buf.drop t.index).take t.len = w := by rw [hwlen, hindex, hbuf, List.drop_left, List.take_left]
  rw [hbytes, hbare]
  constructor
  · intro htext hnul
    unfold text at htext
    split at htext
    · have hstr := Except.ok.inj htext
      rw [← hstr] at hnul
      exact nulFree_cstr _ nul hnul rfl
    · cases htext
  · intro hnul
    have hfree : NulFree w := fun b hb h0 => hnul (by rw [← show b = nul from h0]; exact hb)
    rw [stored, hbuf, hwlen, hindex, storedAt_word hfree]
    exact text_tokenOf hfree (by rw [← hwlen]; exact hlen)

/-- The texts of a line have no NUL in them iff those of its slices have none. -/
theorem unbroken_iff (l : Bytes) : (∀ t ∈ lexLine l, nul ∉ (bare t).2) ↔ ∀ m ∈ marks l, m.Unbroken := by
  have hbare : (∀ t ∈ lexLine l, nul ∉ (bare t).2) ↔ ∀ x ∈ (marks l).flatMap Mark.token, nul ∉ x.2 := by
    rw [← lex_slices nul l, List.forall_mem_map]
    rfl
  rw [hbare, List.forall_mem_flatMap]
  apply forall₂_congr
  intro m _
  unfold Mark.Unbroken
  cases hbrace : isBrace m.slice.stop with
  | true =>
      obtain ⟨type, htoken, -⟩ := Mark.token_brace hbrace
      rw [htoken, List.forall_mem_singleton]
      refine ⟨fun _ => .inl rfl, ?_⟩
      intro _ hnul
      rw [← List.mem_singleton.mp hnul] at hbrace
      cases hbrace
  | false =>
      rw [Mark.token_word hbrace]
      split
      · next hkept =>
        rw [Mark.word_of_kept hkept]
        exact ⟨fun _ => .inr List.not_mem_nil, fun _ x hx => absurd hx List.not_mem_nil⟩
      · rw [List.forall_mem_singleton]
        exact ⟨.inr, fun h => h.resolve_left Bool.false_ne_true⟩

/-- **One scan** stores its tokens well iff the text that is read has an end, and its tokens have room and no NUL. -/
theorem wellStored_iff (hroom : toks.length ≤ maxTokens) (hne : buf ≠ []) :
    scanChunk buf last toks = .ok s ∧ WellStored buf got last toks s ↔
      ∃ e, reach buf = some e ∧ (∀ t ∈ lexLine e, t.len < maxTokLen ∧ nul ∉ (bare t).2) ∧
        toks.length + (lexLine e).length ≤ maxTokens ∧
        s = ⟨e.length, (lex (.fresh last) e).1.start, nul, (lex (.fresh last) e).1.last,
          toks ++ (lexLine e).map (stored buf)⟩ := by
  rw [scanChunk_ok_iff hne]
  -- where the tokens of the text are in the buffer
  have hplace : ∀ e, reach buf = some e → ∃ post, buf = e ++ post := by
    intro e he
    obtain ⟨post, hpost⟩ := readFrom_prefix he
    exact ⟨post, hpost.symm⟩
  have htexts : ∀ e post, buf = e ++ post → ∀ t ∈ lexLine e, t.len < maxTokLen →
      (text (stored buf t) = .ok ((buf.drop t.index).take t.len) ↔ nul ∉ (bare t).2) := by
    intro e post hbuf t ht hlen
    obtain ⟨pre, w, post', hline, heq, -⟩ := @lex_stored (.fresh nul) [] e ⟨rfl, Nat.le_refl 0⟩ post t ht
    rw [List.nil_append] at hline
    exact text_stored_iff (hbuf.trans hline) heq hlen
  constructor
  · rintro ⟨⟨e, toks', he, hpush, rfl⟩, new, hnew, hmany, hall⟩
    rw [lex_fresh] at hpush
    have hfit := fit_of_push hroom hpush
    have htoks := hpush.symm.trans (push_fit hfit)
    cases htoks
    have hnew' : new = (lexLine e).map (stored buf) := (List.append_cancel_left hnew).symm
    obtain ⟨post, hbuf⟩ := hplace e he
    rw [hnew', List.forall_mem_map] at hall
    rw [List.length_append, List.length_map] at hmany
    refine ⟨e, he, fun t ht => ?_, hmany, rfl⟩
    obtain ⟨hlen, htext⟩ := hall t ht
    exact ⟨hlen, (htexts e post hbuf t ht hlen).mp htext⟩
  · rintro ⟨e, he, hall, hmany, rfl⟩
    obtain ⟨post, hbuf⟩ := hplace e he
    have hfit : Fit toks.length ((lexLine e).map (stored buf)) := by
      refine ⟨by rwa [List.length_map], ?_⟩
      intro t ht
      obtain ⟨t', ht', rfl⟩ := List.mem_map.mp ht
      exact (hall t' ht').1.le
    refine ⟨⟨e, _, he, ?_, rfl⟩, _, rfl, ?_, ?_⟩
    · rw [lex_fresh]
      exact push_fit hfit
    · rwa [List.length_append, List.length_map]
    · rw [List.forall_mem_map]
      intro t ht
      exact ⟨(hall t ht).1, (htexts e post hbuf t ht (hall t ht).1).mpr (hall t ht).2⟩

/-- All scans. -/
theorem everyScan_stored {gots : List Bytes} (hroom : toks.length ≤ maxTokens) :
    EveryScan WellStored line last toks gots ↔ ∃ texts, (buffers line gots).mapM reach = some texts ∧
      (∀ t ∈ texts.flatMap lexLine, t.len < maxTokLen ∧ nul ∉ (bare t).2) ∧
      toks.length + (texts.flatMap lexLine).length ≤ maxTokens := by
  induction gots generalizing line last toks with
  | nil =>
      refine ⟨fun _ => ⟨[], rfl, fun t ht => absurd ht List.not_mem_nil, hroom⟩, fun _ => trivial⟩
  | cons got gots ih =>
      have hne : overlay line (got ++ [nul]) ≠ [] := by simp [overlay]
      rw [buffers, List.mapM_cons]
      constructor
      · rintro ⟨s, hscan, hstored, hrest⟩
        obtain ⟨e, he, hall, hmany, rfl⟩ := (wellStored_iff hroom hne).mp ⟨hscan, hstored⟩
        obtain ⟨texts, hreach, hall', hmany'⟩ := (ih (by simpa using hmany)).mp hrest
        refine ⟨e :: texts, by rw [he, hreach]; rfl, ?_, ?_⟩
        · rw [List.flatMap_cons, List.forall_mem_append]
          exact ⟨hall, hall'⟩
        · simp only [List.length_append, List.length_map] at hmany'
          rw [List.flatMap_cons, List.length_append]
          omega
      · rintro ⟨texts, hreach, hall, hmany⟩
        rw [Option.bind_eq_bind, Option.bind_eq_some_iff] at hreach
        obtain ⟨e, he, hreach⟩ := hreach
        rw [Option.bind_eq_bind, Option.bind_eq_some_iff] at hreach
        obtain ⟨texts', hreach', hcons⟩ := hreach
        cases hcons
        rw [List.flatMap_cons, List.forall_mem_append] at hall
        rw [List.flatMap_cons, List.length_append] at hmany
        obtain ⟨hscan, hstored⟩ := (@wellStored_iff _ got last toks _ hroom hne).mpr ⟨e, he, hall.1, by omega, rfl⟩
        refine ⟨_, hscan, hstored, (ih ?_).mpr ⟨texts', hreach', hall.2, ?_⟩⟩
        · simp only [List.length_append, List.length_map]
          omega
        · simp only [List.length_append, List.length_map]
          omega

end Stored

/-- Where no string ends in skipped spaces, the strings are what is read. -/
theorem reach_strings {line : Bytes} {gots : List Bytes} (h : ∀ got ∈ gots, runsOut (cstr got) = false) :
    (buffers line gots).mapM reach = some (gots.map cstr) := by
  induction gots generalizing line with
  | nil => rfl
  | cons got gots ih =>
      obtain ⟨hgot, hgots⟩ := List.forall_mem_cons.mp h
      obtain ⟨stale, hbuf⟩ := overlay_string line got
      have hreach : reach (overlay line (got ++ [nul])) = some (cstr got) := by
        rw [hbuf, reach_string (nulFree_cstr got), if_pos hgot]
      rw [buffers, List.mapM_cons, hreach, ih hgots]
      rfl

/-- **Token storage is never exceeded** iff what is read of every buffer has an end, and its texts are shorter than
    `val`, not too many, and without NULs. Where no string ends in skipped spaces, that is said of the strings. -/
theorem storage_iff (content line : Bytes) :
    (((∃ t, loadTokens line (some content) = .ok t) ∧ EveryScan WellStored line nul [noToken] (pieces content)) ↔
      ∃ texts, (buffers line (pieces content)).mapM reach = some texts ∧
        FitIn (maxTokLen - 1) (texts.flatMap marks) ∧ ∀ m ∈ texts.flatMap marks, m.Unbroken) ∧
    ((∀ got ∈ pieces content, runsOut (cstr got) = false) →
      (buffers line (pieces content)).mapM reach = some ((pieces content).map cstr)) := by
  refine ⟨?_, reach_strings⟩
  have hone : [noToken].length ≤ maxTokens := by decide
  rw [and_iff_right_of_imp EveryScan.loadTokens, everyScan_stored hone]
  refine exists_congr fun texts => and_congr_right fun _ => ?_
  have hunbroken : (∀ t ∈ texts.flatMap lexLine, nul ∉ (bare t).2) ↔ ∀ m ∈ texts.flatMap marks, m.Unbroken := by
    rw [List.forall_mem_flatMap, List.forall_mem_flatMap]
    exact forall₂_congr fun l _ => unbroken_iff l
  rw [fitIn_iff (by decide), ← hunbroken, forall₂_and]
  constructor
  · rintro ⟨⟨hlen, hnul⟩, hmany⟩
    exact ⟨⟨hmany, fun t ht => Nat.le_sub_one_of_lt (hlen t ht)⟩, hnul⟩
  · rintro ⟨⟨hmany, hlen⟩, hnul⟩
    exact ⟨⟨fun t ht => Nat.lt_of_le_sub_one (by decide) (hlen t ht), hnul⟩, hmany⟩

/-- A name of 256 bytes: the NUL behind it does not fit into `val` any more. -/
theorem name_fills_token : ¬ ((∃ t, loadTokens (List.replicate maxLineWidth 120)
      (some (List.replicate 256 97 ++ [equals, newline])) = .ok t) ∧
    EveryScan WellStored (List.replicate maxLineWidth 120) nul [noToken]
      (pieces (List.replicate 256 97 ++ [equals, newline]))) := by
  have hpieces : pieces (List.replicate 256 97 ++ [equals, newline]) = [List.replicate 256 97 ++ [equals, newline]] := by
    decide +kernel
  have hlens : (scanChunk (overlay (List.replicate maxLineWidth 120) (List.replicate 256 97 ++ [equals, newline] ++ [nul]))
      nul [noToken]).map (fun s => s.tokens.map (·.len)) = .ok [0, 256] := by decide +kernel
  rw [hpieces]
  generalize List.replicate 256 97 ++ [equals, newline] = got at hlens ⊢
  rintro ⟨-, s, hscan, ⟨new, hnew, -, hall⟩, -⟩
  have hs : s.tokens.map (·.len) = [0, 256] := by
    have hmap := congrArg (Except.map fun s => s.tokens.map (·.len)) hscan
    exact Except.ok.inj (hmap.symm.trans hlens)
  have hlong : 256 ∈ new.map (·.len) := by
    rw [hnew, List.map_append] at hs
    have hone : new.map (·.len) = [256] := (List.cons.inj hs).2
    rw [hone]
    exact List.mem_singleton.mpr rfl
  obtain ⟨t, ht, hlen⟩ := List.mem_map.mp hlong
  have hshort : t.len < maxTokLen := (hall t ht).1
  rw [hlen] at hshort
  exact absurd hshort (by decide)

end IOSwitch.Tokenizer
