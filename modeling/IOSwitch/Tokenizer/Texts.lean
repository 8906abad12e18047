import IOSwitch.Tokenizer.Lexer

/-!
# `Tokenizer.Texts` — what is in `val`

Every token that `load_tokens` writes has a `val` as long as the array (`loadTokens_sized`), so that a string in it is
shorter (`text_short`). The tokens of a text free of NULs hold their text and NULs behind it (`lex_isWord`), so that
those that leave room for one can be read as strings. `get_variable` adds no tokens of its own (`findValues_mem`).
-/

namespace IOSwitch.Tokenizer

open Lib

/-! ## The length of `val` -/

/-- A run that succeeds succeeds in its first part. -/
theorem exists_of_bind_ok {ε α β : Type} {x : Except ε α} {f : α → Except ε β} {b : β} (h : (x >>= f) = .ok b) :
    ∃ a, x = .ok a ∧ f a = .ok b := by
  cases x with
  | error e => cases h
  | ok a => exact ⟨a, rfl, h⟩

/-- The `val` of every token is as long as the array. -/
def Sized (toks : List Token) : Prop := ∀ t ∈ toks, t.val.length = maxTokLen

theorem add_sized {line : Bytes} {s s' : Scan} {type : TokenType} {index len : Nat} (hs : Sized s.tokens)
    (h : s.add line type index len = .ok s') : Sized s'.tokens := by
  unfold Scan.add at h
  split at h
  · cases h
  split at h
  · cases h
  · next hlen =>
    cases h
    intro t ht
    rcases List.mem_append.mp ht with ht | ht
    · exact hs t ht
    · rw [List.mem_singleton.mp ht]
      show (strncpy _ _ _).length = _
      rw [strncpy, overlay_length, List.length_replicate]
      simp only [List.length_append, List.length_take, List.length_replicate]
      omega

theorem skipSpaces_tokens {line : Bytes} {fuel : Nat} {s s' : Scan} (h : skipSpaces line fuel s = .ok s') :
    s'.tokens = s.tokens := by
  induction fuel generalizing s with
  | zero => cases h
  | succ fuel ih =>
      rw [skipSpaces] at h
      split at h
      · obtain ⟨cur, -, h⟩ := exists_of_bind_ok h
        have htoks := ih h
        exact htoks
      · cases h
        rfl

theorem addAt_sized {line : Bytes} {s s' : Scan} (hs : Sized s.tokens) (h : addAt line s = .ok s') :
    Sized s'.tokens := by
  unfold addAt at h
  split_ifs at h
  · exact add_sized hs h
  · exact add_sized hs h
  · exact add_sized hs h
  · exact add_sized hs h
  · cases h
    exact hs
  · cases h
    exact hs

theorem scanChar_sized {line : Bytes} {s s' : Scan} (hs : Sized s.tokens) (h : scanChar line s = .ok s') :
    Sized s'.tokens := by
  obtain ⟨s₁, hskip, h⟩ := exists_of_bind_ok h
  obtain ⟨s₂, hadd, h⟩ := exists_of_bind_ok h
  obtain ⟨cur, -, h⟩ := exists_of_bind_ok h
  have hs₁ : Sized s₁.tokens := by
    unfold skipBefore at hskip
    split at hskip
    · rwa [skipSpaces_tokens hskip]
    · cases hskip
      exact hs
  have hs₂ : Sized s₂.tokens := addAt_sized hs₁ hadd
  cases h
  exact hs₂

theorem scanLine_sized {line : Bytes} {fuel : Nat} {s s' : Scan} (hs : Sized s.tokens)
    (h : scanLine line fuel s = .ok s') : Sized s'.tokens := by
  induction fuel generalizing s with
  | zero => cases h
  | succ fuel ih =>
      rw [scanLine] at h
      split at h
      · cases h
        exact hs
      · obtain ⟨s₁, hchar, h⟩ := exists_of_bind_ok h
        exact ih (scanChar_sized hs hchar) h

theorem loadLines_sized {line : Bytes} {last : UInt8} {toks toks' : List Token} {lines : List Bytes}
    (hs : Sized toks) (h : loadLines line last toks lines = .ok toks') : Sized toks' := by
  induction lines generalizing line last toks with
  | nil =>
      cases h
      exact hs
  | cons got lines ih =>
      rw [loadLines] at h
      obtain ⟨cur, -, h⟩ := exists_of_bind_ok h
      obtain ⟨s, hscan, h⟩ := exists_of_bind_ok h
      exact ih (scanLine_sized hs hscan) h

theorem loadTokens_sized {line : Bytes} {file : Option Bytes} {t : Tokenizer} (h : loadTokens line file = .ok t) :
    Sized t.tokens := by
  cases file with
  | none =>
      cases h
      intro t ht
      cases ht
  | some content =>
      obtain ⟨toks, hload, h⟩ := exists_of_bind_ok h
      cases h
      refine loadLines_sized (fun t ht => ?_) hload
      rw [List.mem_singleton.mp ht]
      exact List.length_replicate

/-- `get_variable` finds its values among the tokens of this type. -/
theorem findValues_mem {var : Bytes} {found : Bool} {values toks vals : List Token}
    (h : findValues var found values toks = .ok vals) : ∀ t ∈ vals, t ∈ values ∨ t ∈ toks ∧ t.type = .value := by
  induction toks generalizing found values with
  | nil =>
      cases h
      exact fun t ht => Or.inl ht
  | cons a toks ih =>
      have hrest : ∀ {found}, findValues var found values toks = .ok vals →
          ∀ t ∈ vals, t ∈ values ∨ t ∈ a :: toks ∧ t.type = .value :=
        fun h t ht => (ih h t ht).imp_right fun hmem => ⟨List.mem_cons_of_mem a hmem.1, hmem.2⟩
      rw [findValues] at h
      split_ifs at h with hvar hfound hval
      · obtain ⟨w, -, h⟩ := exists_of_bind_ok h
        exact hrest h
      · intro t ht
        rcases ih h t ht with hmem | hmem
        · rcases List.mem_append.mp hmem with hmem | hmem
          · exact Or.inl hmem
          · rw [List.mem_singleton.mp hmem]
            exact Or.inr ⟨List.mem_cons_self, hval⟩
        · exact Or.inr ⟨List.mem_cons_of_mem a hmem.1, hmem.2⟩
      · exact hrest h
      · exact hrest h

/-- So does the whole of it. -/
theorem getVariable_mem {t : Tokenizer} {var : Bytes} {vals : List Token} (h : getVariable t var = .ok (some vals)) :
    ∀ v ∈ vals, v ∈ t.tokens ∧ v.type = .value := by
  obtain ⟨values, hfind, h⟩ := exists_of_bind_ok h
  split at h
  · cases h
  · cases h
    exact fun v hv => (findValues_mem hfind v hv).resolve_left List.not_mem_nil

/-- It reads every name. -/
theorem findValues_named {var : Bytes} {found : Bool} {values toks vals : List Token}
    (h : findValues var found values toks = .ok vals) : ∀ t ∈ toks, t.type = .variable → ∃ w, text t = .ok w := by
  induction toks generalizing found values with
  | nil => exact fun t ht => absurd ht List.not_mem_nil
  | cons a toks ih =>
      rw [findValues] at h
      split_ifs at h with hvar hfound hval
      · obtain ⟨w, hw, h⟩ := exists_of_bind_ok h
        exact List.forall_mem_cons.mpr ⟨fun _ => ⟨w, hw⟩, ih h⟩
      · exact List.forall_mem_cons.mpr ⟨fun h => absurd h hvar, ih h⟩
      · exact List.forall_mem_cons.mpr ⟨fun h => absurd h hvar, ih h⟩
      · exact List.forall_mem_cons.mpr ⟨fun h => absurd h hvar, ih h⟩

/-- A string that ends within an array is shorter than it. -/
theorem text_short {t : Token} {w : Bytes} (hval : t.val.length = maxTokLen) (h : text t = .ok w) :
    w.length < maxTokLen := by
  unfold text at h
  split at h
  · next hnul =>
    cases h
    have hsub : cstr t.val <+: t.val := List.takeWhile_prefix _
    rw [← hval]
    apply Nat.lt_of_le_of_ne hsub.length_le
    intro hlen
    exact nulFree_cstr t.val nul (by rw [hsub.eq_of_length hlen]; exact hnul) rfl
  · cases h

/-! ## Tokens of a text -/

/-- A token whose `val` is a string. -/
def IsWord (t : Token) : Prop := ∃ type index w, NulFree w ∧ t = tokenOf type index w

theorem lex_isWord {c : Cursor} {l : Bytes} (hc : NulFree c.word) (hl : NulFree l) :
    ∀ t ∈ (lex c l).2, IsWord t := by
  induction l generalizing c with
  | nil =>
      intro t ht
      cases ht
  | cons b l ih =>
      have hb : NulFree [b] := nulFree_singleton (hl b List.mem_cons_self)
      have hnext : NulFree (c.next b).1.word ∧ ∀ t ∈ (c.next b).2, IsWord t := by
        have hsnoc : NulFree (c.word ++ [b]) := hc.append hb
        have hnil : NulFree ([] : Bytes) := fun d hd => absurd hd List.not_mem_nil
        unfold Cursor.next Cursor.read
        split_ifs with hskip heq hopen hclose hend
        · refine ⟨fun d hd => ?_, by simp⟩
          have hd' : d ∈ (c.word ++ [b]).tail := by rw [hskip.1]; exact hd
          exact hsnoc d (List.mem_of_mem_tail hd')
        · exact ⟨hnil, by simpa using ⟨_, _, _, hc, rfl⟩⟩
        · exact ⟨hnil, by simpa using ⟨_, _, _, hopen ▸ hb, rfl⟩⟩
        · exact ⟨hnil, by simpa using ⟨_, _, _, hclose ▸ hb, rfl⟩⟩
        · exact ⟨hnil, by simpa using ⟨_, _, _, hc, rfl⟩⟩
        · exact ⟨hsnoc, by simp⟩
      intro t ht
      rcases List.mem_append.mp ht with ht | ht
      · exact hnext.2 t ht
      · exact ih hnext.1 (fun d hd => hl d (List.mem_cons_of_mem b hd)) t ht

/-- The `val` of a token that leaves room for its NUL can be read as a string. -/
theorem IsWord.text {t : Token} (h : IsWord t) (hlen : t.len < maxTokLen) :
    ∃ w, Tokenizer.text t = .ok w := by
  obtain ⟨type, index, w, hw, rfl⟩ := h
  exact ⟨w, text_tokenOf hw hlen⟩

end IOSwitch.Tokenizer
