import IOSwitch.Tokenizer.RoundTrip
import IOSwitch.Tokenizer.Texts

/-!
# `Tokenizer.Append` — a file is read line by line

What one line leaves for the next is `last`, the contents of the buffer and, in `get_variable`, `found_var`. Nothing
of it shows in the tokens (`loadTokens_text`), and a name at the front of the second half makes `get_variable`
forget the first (`findValues_picked`, `picked_append`). So the tokens of two files put together are those of the
first followed by those of the second, and so are the values of a variable (`tokens_append`).
-/

namespace IOSwitch.Tokenizer

open Lib

/-- Lines that end with a newline, hold no NUL and fit into the buffer. Nothing else is asked of them. -/
structure Text where
  lines   : List Bytes
  single  : ∀ l ∈ lines, newline ∉ l
  nulFree : ∀ l ∈ lines, NulFree l
  width   : ∀ l ∈ lines, l.length + 1 ≤ maxLineWidth - 1

namespace Text

/-- The contents of the file. -/
def bytes (t : Text) : Bytes := t.lines.flatMap (· ++ [newline])

/-- The tokens of all lines. -/
def tokens (t : Text) : List Token := t.lines.flatMap fun l => lexLine (l ++ [newline])

/-- One text behind the other. -/
def append (a b : Text) : Text where
  lines   := a.lines ++ b.lines
  single  := fun l hl => (List.mem_append.mp hl).elim (a.single l) (b.single l)
  nulFree := fun l hl => (List.mem_append.mp hl).elim (a.nulFree l) (b.nulFree l)
  width   := fun l hl => (List.mem_append.mp hl).elim (a.width l) (b.width l)

@[simp] theorem append_bytes (a b : Text) : (a.append b).bytes = a.bytes ++ b.bytes := List.flatMap_append

@[simp] theorem append_tokens (a b : Text) : (a.append b).tokens = a.tokens ++ b.tokens := List.flatMap_append

end Text

/-! ## `load_tokens` -/

/-- A text is loaded line by line: its tokens are put behind `TOK_NONE`, as far as there is room for them. -/
theorem loadTokens_push (t : Text) (line : Bytes) :
    loadTokens line (some t.bytes) = t.tokens.foldlM push [noToken] >>= fun toks => .ok ⟨toks⟩ := by
  have hread : fgetsAll (maxLineWidth - 1) [] (maxLineWidth - 1) t.bytes = t.lines.map (· ++ [newline]) :=
    fgetsAll_lines t.lines fun l hl => ⟨t.single l hl, t.width l hl⟩
  have hlines : ∀ l ∈ t.lines.map (· ++ [newline]), NulFree l ∧ ∃ l', l = l' ++ [newline] := by
    intro l hl
    obtain ⟨l', hl', rfl⟩ := List.mem_map.mp hl
    exact ⟨(t.nulFree l' hl').append (nulFree_singleton (by decide)), l', rfl⟩
  show (loadLines line nul [noToken] (fgetsAll (maxLineWidth - 1) [] (maxLineWidth - 1) t.bytes) >>= _) = _
  rw [hread, loadLines_lexLine _ line nul [noToken] hlines, List.flatMap_map]
  rfl

/-- **A text is loaded** as its lines are read, each for itself. -/
theorem loadTokens_text (t : Text) (line : Bytes) (hfit : Fit 1 t.tokens) :
    loadTokens line (some t.bytes) = .ok ⟨noToken :: t.tokens⟩ := by
  rw [loadTokens_push, @push_fit [noToken] t.tokens hfit]
  rfl

/-- Tokens that have been put behind others fit. -/
theorem fit_of_push {ts toks r : List Token} (hroom : toks.length ≤ maxTokens) (h : ts.foldlM push toks = .ok r) :
    Fit toks.length ts := by
  induction ts generalizing toks with
  | nil => exact ⟨hroom, fun t ht => absurd ht List.not_mem_nil⟩
  | cons t ts ih =>
      rw [List.foldlM_cons] at h
      obtain ⟨toks', hpush, hrest⟩ := exists_of_bind_ok h
      unfold push at hpush
      split_ifs at hpush with hfull hlong
      cases hpush
      have hlen : (toks ++ [t]).length = toks.length + 1 := by rw [List.length_append, List.length_singleton]
      obtain ⟨hmany, hshort⟩ := ih (by omega) hrest
      refine ⟨by rw [List.length_cons]; omega, ?_⟩
      intro t' ht'
      rcases List.mem_cons.mp ht' with rfl | ht'
      · exact Nat.not_lt.mp hlong
      · exact hshort t' ht'

/-- What holds of the tokens that are loaded. -/
theorem exists_loadTokens (t : Text) (line : Bytes) (Q : Tokenizer → Prop) :
    (∃ r, loadTokens line (some t.bytes) = .ok r ∧ Q r) ↔ Fit 1 t.tokens ∧ Q ⟨noToken :: t.tokens⟩ := by
  constructor
  · rintro ⟨r, hload, hr⟩
    have hfit : Fit 1 t.tokens := by
      rw [loadTokens_push] at hload
      obtain ⟨toks, hpush, -⟩ := exists_of_bind_ok hload
      exact @fit_of_push t.tokens [noToken] toks (by decide) hpush
    rw [loadTokens_text t line hfit] at hload
    cases hload
    exact ⟨hfit, hr⟩
  · rintro ⟨hfit, hr⟩
    exact ⟨_, loadTokens_text t line hfit, hr⟩

/-! ## The texts of tokens -/

theorem Text.isWord_tokens (a : Text) : ∀ t ∈ a.tokens, IsWord t := by
  intro t ht
  obtain ⟨l, hl, ht⟩ := List.mem_flatMap.mp ht
  have hnul : NulFree (l ++ [newline]) := (a.nulFree l hl).append (nulFree_singleton (by decide))
  exact lex_isWord (fun d hd => absurd hd List.not_mem_nil) hnul t ht

theorem Text.text_tokens (a : Text) (hlen : ∀ t ∈ a.tokens, t.len < maxTokLen) :
    ∀ t ∈ a.tokens, ∃ w, Tokenizer.text t = .ok w :=
  fun t ht => (a.isWord_tokens t ht).text (hlen t ht)

/-! ## `get_variable` -/

/-- The values behind the names equal to `var`, where `found` says whether the last name was. -/
def picked (var : Bytes) : Bool → List Token → List Token
  | _, []          => []
  | found, t :: ts =>
      if t.type = .variable then picked var (decide (text t = .ok (cstr var))) ts
      else if found = true ∧ t.type = .value then t :: picked var found ts
      else picked var found ts

/-- `get_variable` collects these, if every name can be read. -/
theorem findValues_picked (var : Bytes) {toks : List Token}
    (htext : ∀ t ∈ toks, t.type = .variable → ∃ w, text t = .ok w) (found : Bool) (values : List Token) :
    findValues var found values toks = .ok (values ++ picked var found toks) := by
  induction toks generalizing found values with
  | nil => rw [picked, List.append_nil]; rfl
  | cons t toks ih =>
      have hrest : ∀ found values, findValues var found values toks = .ok (values ++ picked var found toks) :=
        ih fun t' ht' => htext t' (List.mem_cons_of_mem t ht')
      by_cases hvar : t.type = .variable
      · obtain ⟨w, hw⟩ := htext t List.mem_cons_self hvar
        have hflag : decide (cstr var = w) = decide (text t = .ok (cstr var)) := by
          simp only [hw, Except.ok.injEq, eq_comm]
        simp only [findValues, picked, hvar, if_true, ← hflag]
        rw [hw]
        exact hrest _ _
      · simp only [findValues, picked, hvar, if_false]
        cases found
        · rw [if_neg Bool.false_ne_true, if_neg fun h => Bool.false_ne_true h.1]
          exact hrest _ _
        · by_cases hval : t.type = .value
          · rw [if_pos rfl, if_pos hval, if_pos ⟨rfl, hval⟩, hrest, List.append_assoc, List.singleton_append]
          · rw [if_pos rfl, if_neg hval, if_neg fun h => hval h.2, hrest]

/-- The values in two lists of tokens, where the second starts with what the first has left in `found_var`. -/
theorem picked_append (var : Bytes) (found : Bool) (ts : List Token) :
    ∃ found', ∀ us, picked var found (ts ++ us) = picked var found ts ++ picked var found' us := by
  induction ts generalizing found with
  | nil => exact ⟨found, fun us => rfl⟩
  | cons t ts ih =>
      by_cases hvar : t.type = .variable
      · obtain ⟨found', hrest⟩ := ih (decide (text t = .ok (cstr var)))
        refine ⟨found', ?_⟩
        intro us
        rw [List.cons_append, picked, picked, if_pos hvar, if_pos hvar, hrest]
      · obtain ⟨found', hrest⟩ := ih found
        refine ⟨found', ?_⟩
        intro us
        rw [List.cons_append, picked, picked, if_neg hvar, if_neg hvar]
        split
        · rw [hrest, List.cons_append]
        · exact hrest us

/-- A name at the front makes what was found before of no account. -/
theorem picked_of_variable (var : Bytes) (found : Bool) {ts : List Token}
    (h : ∀ t ∈ ts.head?, t.type = .variable) : picked var found ts = picked var false ts := by
  cases ts with
  | nil => rfl
  | cons t ts =>
      have ht : t.type = .variable := h t rfl
      rw [picked, picked, if_pos ht, if_pos ht]

/-- What `get_variable` returns for tokens that can be read. -/
theorem getVariable_picked (var : Bytes) {toks : List Token}
    (htext : ∀ t ∈ toks, t.type = .variable → ∃ w, text t = .ok w) :
    ∃ found, getVariable ⟨noToken :: toks⟩ var = .ok found ∧ found.getD [] = picked var false toks ∧
      (found = none ↔ picked var false toks = []) := by
  have hfind : findValues var false [] (noToken :: toks) = .ok (picked var false toks) := by
    rw [findValues_skip (.inl rfl)]
    exact findValues_picked var htext false []
  refine ⟨if (picked var false toks).length = 0 then none else some (picked var false toks), ?_, ?_, ?_⟩
  · rw [getVariable, hfind]
    rfl
  · split
    · next hnone => exact (List.length_eq_zero_iff.mp hnone).symm
    · rfl
  · rw [← List.length_eq_zero_iff]
    split <;> simp_all

/-! ## Two files put together -/

/-- **Tokenising is a homomorphism over lines.** Within the limits, and with no other restriction on the text, the
    tokens of two files put together are those of the first followed by those of the second, which loses its leading
    slot. If a name is at the front of the second, or nothing at all, the values of every variable are put together
    in the same way. -/
theorem tokens_append (a b : Text) (hlen : ∀ t ∈ a.tokens ++ b.tokens, t.len < maxTokLen)
    (hfew : (a.tokens ++ b.tokens).length < maxTokens) (line₁ line₂ line₃ : Bytes) :
    loadTokens line₁ (some a.bytes) = .ok ⟨noToken :: a.tokens⟩ ∧
    loadTokens line₂ (some b.bytes) = .ok ⟨noToken :: b.tokens⟩ ∧
    loadTokens line₃ (some (a.bytes ++ b.bytes)) = .ok ⟨noToken :: (a.tokens ++ b.tokens)⟩ ∧
    ((∀ t ∈ b.tokens.head?, t.type = .variable) →
      ∀ var, ∃ va vb v, getVariable ⟨noToken :: a.tokens⟩ var = .ok va ∧
        getVariable ⟨noToken :: b.tokens⟩ var = .ok vb ∧
        getVariable ⟨noToken :: (a.tokens ++ b.tokens)⟩ var = .ok v ∧
        v.getD [] = va.getD [] ++ vb.getD [] ∧ (v = none ↔ va = none ∧ vb = none)) := by
  have hfit : Fit 1 (a.append b).tokens := by
    rw [Text.append_tokens]
    exact ⟨by omega, fun t ht => (hlen t ht).le⟩
  have hfita : Fit 1 a.tokens := by
    rw [List.length_append] at hfew
    exact ⟨by omega, fun t ht => (hlen t (List.mem_append_left _ ht)).le⟩
  have hfitb : Fit 1 b.tokens := by
    rw [List.length_append] at hfew
    exact ⟨by omega, fun t ht => (hlen t (List.mem_append_right _ ht)).le⟩
  refine ⟨loadTokens_text a line₁ hfita, loadTokens_text b line₂ hfitb, ?_, ?_⟩
  · rw [← Text.append_bytes, ← Text.append_tokens]
    exact loadTokens_text (a.append b) line₃ hfit
  · intro hvar var
    have htext : ∀ t ∈ a.tokens ++ b.tokens, ∃ w, text t = .ok w := by
      rw [← Text.append_tokens] at hlen ⊢
      exact (a.append b).text_tokens hlen
    obtain ⟨va, hva, hpa, hna⟩ :=
      getVariable_picked var fun t ht _ => htext t (List.mem_append_left b.tokens ht)
    obtain ⟨vb, hvb, hpb, hnb⟩ :=
      getVariable_picked var fun t ht _ => htext t (List.mem_append_right a.tokens ht)
    obtain ⟨v, hv, hp, hn⟩ := getVariable_picked var fun t ht _ => htext t ht
    -- whatever the first file has left in `found_var`, the second starts with a name
    have happend : picked var false (a.tokens ++ b.tokens) =
        picked var false a.tokens ++ picked var false b.tokens := by
      obtain ⟨found', hpick⟩ := picked_append var false a.tokens
      rw [hpick, picked_of_variable var found' hvar]
    refine ⟨va, vb, v, hva, hvb, hv, ?_, ?_⟩
    · rw [hp, hpa, hpb, happend]
    · rw [hn, hna, hnb, happend, List.append_eq_nil_iff]

/-- The lines `x={` and ` y,`, whose list is not closed. -/
def openText : Text :=
  ⟨[[120, equals, openBrace], [space, 121, comma]], by decide, by simp [NulFree, equals, openBrace, space, comma],
    by decide⟩

/-- The line `z= 1`. -/
def scalarText : Text := ⟨[[122, equals, space, 49]], by decide, by simp [NulFree, equals, space], by decide⟩

/-- The list that is left open does not run on into the setting behind it. -/
theorem tokens_append_open :
    loadTokens [] (some (openText.bytes ++ scalarText.bytes)) = .ok ⟨noToken :: (openText.tokens ++ scalarText.tokens)⟩ ∧
    ∃ va vb v, getVariable ⟨noToken :: openText.tokens⟩ [120] = .ok va ∧
      getVariable ⟨noToken :: scalarText.tokens⟩ [120] = .ok vb ∧
      getVariable ⟨noToken :: (openText.tokens ++ scalarText.tokens)⟩ [120] = .ok v ∧
      v.getD [] = va.getD [] ++ vb.getD [] ∧ (v = none ↔ va = none ∧ vb = none) := by
  obtain ⟨-, -, hload, hvalues⟩ := tokens_append openText scalarText (by decide) (by decide) [] [] []
  exact ⟨hload, hvalues (by decide) [120]⟩

end IOSwitch.Tokenizer
