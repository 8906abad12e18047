import IOSwitch.Tokenizer.Slices
import IOSwitch.Tokenizer.Append

/-!
# `Tokenizer.Values` — names and values against the text of the file

Every slice with text in it should give one name or value, which is this text less its leading spaces, and no other
slice should give any. Two habits of the scanner stand in the way: a brace drops the text before it, and a `;` or `,`
with nothing before it becomes text itself. The skipping of spaces does the rest: it is left out behind `}` and `;`,
and as long as `tok_start` is 0 it takes its toll from the text before the spaces.

## Contents
- `Text.marks`, `Text.Fits` — the slices of a file, and when their texts fit.
- `Slice.element`, `Text.elements` — the names and values that are written there.
- `Mark.Exact`, `Mark.Keeps`, `all_found_iff` — the slices of which nothing is lost.
- `Mark.Clean`, `Mark.Filled`, `free_of_delimiters_iff` — the files without delimiters in their values, and without
  values made of nothing.
-/

namespace IOSwitch.Tokenizer

open Lib

/-! ## Texts -/

namespace Text

/-- The slices of all lines. -/
def marks (a : Text) : List Mark := a.lines.flatMap fun l => Tokenizer.marks (l ++ [newline])

/-- The tokens of a text that is loaded are those of its slices. -/
theorem bare_tokens (a : Text) : a.tokens.map bare = a.marks.flatMap Mark.token := by
  unfold tokens marks
  rw [List.map_flatMap, List.flatMap_assoc]
  apply List.flatMap_congr
  intro l _
  exact lex_slices nul (l ++ [newline])

/-- Every text has room in `val`, and there are not too many. -/
def Fits (a : Text) : Prop := FitIn maxTokLen a.marks

theorem fits_iff (a : Text) : Fit 1 a.tokens ↔ a.Fits := by
  have hmarks : a.marks = (a.lines.map (· ++ [newline])).flatMap Tokenizer.marks := by rw [List.flatMap_map]; rfl
  have htokens : a.tokens = (a.lines.map (· ++ [newline])).flatMap lexLine := by rw [List.flatMap_map]; rfl
  rw [Fits, hmarks, fitIn_iff (by decide), htokens]
  rfl

end Text

/-! ## The texts that are written -/

/-- The text of a slice, less its leading spaces. -/
def Slice.lexeme (s : Slice) : Bytes := s.text.dropWhile (· = space)

/-- The name or value that is written there. -/
def Slice.element (s : Slice) : Option (TokenType × Bytes) :=
  if s.lexeme = [] then none else some (typeOf s.stop, s.lexeme)

/-- All that are written in a text. -/
def Text.elements (a : Text) : List (TokenType × Bytes) := a.marks.filterMap fun m => m.slice.element

/-- A text that can be one: it does not begin with a space, and holds no delimiter. -/
structure IsElement (w : Bytes) : Prop where
  ne    : w ≠ []
  head  : w.head? ≠ some space
  plain : ∀ b ∈ w, isStop b = false

theorem isElement_lexeme {s : Slice} (h : s.lexeme ≠ []) : IsElement s.lexeme := by
  refine ⟨h, ?_, fun b hb => s.plain b ((List.dropWhile_sublist _).subset hb)⟩
  intro hhead
  have hnot := List.head?_dropWhile_not (· = space) s.text
  rw [show s.text.dropWhile (· = space) = s.lexeme from rfl, hhead] at hnot
  simp at hnot

theorem mem_elements {a : Text} {x : TokenType × Bytes} (h : x ∈ a.elements) : IsElement x.2 := by
  obtain ⟨m, -, hm⟩ := List.mem_filterMap.mp h
  unfold Slice.element at hm
  split at hm
  · cases hm
  · next hne =>
    cases hm
    exact isElement_lexeme hne

/-- The leading spaces, and the text behind them. -/
theorem Slice.spaces_lexeme (s : Slice) : s.text.takeWhile (· = space) ++ s.lexeme = s.text :=
  List.takeWhile_append_dropWhile

/-- A slice without text is made of spaces. -/
theorem Slice.lexeme_nil {s : Slice} (h : s.lexeme = []) : ∀ b ∈ s.text, b = space := by
  intro b hb
  rw [← s.spaces_lexeme, h, List.append_nil] at hb
  simpa using List.mem_takeWhile_imp hb

/-! ## What becomes of the text of a slice -/

namespace Mark

/-- A delimiter was made into text before the slice only if it is one. -/
def Ok (m : Mark) : Prop := m.front.kept = true → isStop m.front.last = true

/-- The skipped spaces are as many as the slice has in front, and one more if a delimiter was made into text before
    it. -/
def Exact (m : Mark) : Prop :=
  (m.front.run m.slice.text).length = m.front.pending.length + (m.slice.text.takeWhile (· = space)).length

instance (m : Mark) : Decidable m.Exact := inferInstanceAs (Decidable (_ = _))

/-- What is written there is a token of its own: no brace is behind it, and its leading spaces are skipped. -/
def Keeps (m : Mark) : Prop := m.slice.lexeme ≠ [] → isBrace m.slice.stop = false ∧ m.Exact

instance (m : Mark) : Decidable m.Keeps := inferInstanceAs (Decidable (_ → _))

end Mark

theorem Front.marks_ok {f : Front} (hf : f.kept = true → isStop f.last = true) (n : Nat) (ss : List Slice) :
    ∀ m ∈ f.marks n ss, m.Ok := by
  induction ss generalizing f n with
  | nil =>
      intro m hm
      cases hm
  | cons s ss ih =>
      intro m hm
      rcases List.mem_cons.mp hm with rfl | hm
      · exact hf
      · exact ih (fun _ => s.cut) _ m hm

theorem Text.marks_ok (a : Text) : ∀ m ∈ a.marks, m.Ok := by
  intro m hm
  obtain ⟨l, -, hm⟩ := List.mem_flatMap.mp hm
  exact Front.marks_ok (f := .line) (fun h => by cases h) _ _ m hm

/-- Nothing but this is in the text. -/
theorem Front.mem_word {f : Front} {p : Bytes} {b : UInt8} (h : b ∈ f.word p) : b ∈ f.pending ∨ b ∈ p := by
  rw [← f.split p]
  unfold word at h
  rcases List.mem_append.mp h with h | h
  · have hmem := List.mem_of_mem_drop h
    simp only [List.mem_append] at hmem ⊢
    tauto
  · right
    exact List.mem_append_right _ (List.mem_append_right _ h)

namespace Mark

variable {m : Mark}

/-- **The text that is there is the one that is written** iff as many characters are lost as there should be. -/
theorem word_eq_lexeme : m.front.word m.slice.text = m.slice.lexeme ↔ m.Exact := by
  obtain ⟨n, f, s⟩ := m
  have hsplit := congrArg List.length (f.split s.text)
  have hspaces := congrArg List.length s.spaces_lexeme
  simp only [List.length_append] at hsplit hspaces
  unfold Exact
  constructor
  · intro h
    have hlen := congrArg List.length h
    rw [f.word_length] at hlen
    show (f.run s.text).length = f.pending.length + _
    simp only at hlen ⊢
    omega
  · intro h
    show f.word s.text = s.lexeme
    simp only at h
    cases hlead : f.lead s.text with
    | nil =>
        cases hskips : f.skips with
        | false =>
            obtain ⟨hrun, -, hword⟩ := @Front.word_of_not_skips f s.text hskips
            rw [hrun, List.length_nil] at h
            have hpending : f.pending = [] := List.length_eq_zero_iff.mp (by omega)
            have hnone : s.text.takeWhile (· = space) = [] := List.length_eq_zero_iff.mp (by omega)
            have htext := s.spaces_lexeme
            rw [hnone, List.nil_append] at htext
            rw [hword, hpending, List.nil_append, htext]
        | true =>
            -- the leading spaces are skipped
            have hrun : f.run s.text = s.text.takeWhile (· = space) := by
              rw [Front.run, if_pos hskips, hlead]
              rfl
            have hpending : f.pending = [] := List.length_eq_zero_iff.mp (by rw [hrun] at h; omega)
            have htext := (f.split s.text).trans s.spaces_lexeme.symm
            rw [hlead, hrun, List.nil_append] at htext
            rw [Front.word, hpending, hlead, List.nil_append, List.nil_append, List.drop_length, List.nil_append]
            exact List.append_cancel_left htext
    | cons b lead =>
        -- the slice begins with a character that is no space, and what is lost is the delimiter before it
        have hb : b ≠ space := f.lead_ne s.text b (by rw [hlead]; exact List.mem_cons_self)
        have htext := f.split s.text
        rw [hlead, List.cons_append] at htext
        have hnone : s.text.takeWhile (· = space) = [] := by
          rw [← htext, List.takeWhile_cons, if_neg (by simpa using hb)]
        have hlexeme : s.lexeme = s.text := by
          have hall := s.spaces_lexeme
          rwa [hnone, List.nil_append] at hall
        rw [hnone, List.length_nil, Nat.add_zero] at h
        rw [hlexeme, Front.word, h, List.append_assoc, List.drop_left, List.append_assoc]
        exact f.split s.text

/-- A slice without text gives none that is written anywhere. -/
theorem token_not_element (hok : m.Ok) (hm : m.slice.lexeme = []) : ∀ x ∈ m.token, ¬ IsElement x.2 := by
  intro x hx helem
  cases hbrace : isBrace m.slice.stop with
  | true =>
      obtain ⟨type, htoken, -⟩ := token_brace hbrace
      rw [htoken, List.mem_singleton] at hx
      subst hx
      have hplain := helem.plain m.slice.stop (List.mem_singleton_self _)
      rw [m.slice.cut] at hplain
      cases hplain
  | false =>
      rw [token_word hbrace] at hx
      split at hx
      · cases hx
      · rw [List.mem_singleton] at hx
        subst hx
        obtain ⟨b, w, hw⟩ := List.exists_cons_of_ne_nil helem.ne
        have hb : b ∈ m.front.word m.slice.text := by
          rw [show m.front.word m.slice.text = b :: w from hw]
          exact List.mem_cons_self
        have hspace : b ≠ space := by
          intro h
          exact helem.head (by rw [hw, h]; rfl)
        rcases Front.mem_word hb with hmem | hmem
        · unfold Front.pending at hmem
          split at hmem
          · next hkept =>
            have hplain := helem.plain b hb
            rw [List.mem_singleton.mp hmem, hok hkept] at hplain
            cases hplain
          · cases hmem
        · exact hspace (Slice.lexeme_nil hm b hmem)

end Mark

/-! ## Nothing is lost -/

section Found

variable {E : List (TokenType × Bytes)} (hE : ∀ x ∈ E, IsElement x.2) {m : Mark}
include hE

/-- A slice without text gives nothing of what is written. -/
theorem found_none (hok : m.Ok) (hm : m.slice.lexeme = []) : m.token.filter (· ∈ E) = [] := by
  apply List.filter_eq_nil_iff.mpr
  intro x hx hmem
  exact m.token_not_element hok hm x hx (hE x (by simpa using hmem))

/-- A slice gives at most one. -/
theorem found_le (hok : m.Ok) : (m.token.filter (· ∈ E)).length ≤ m.slice.element.toList.length := by
  unfold Slice.element
  split
  · next hnil =>
    rw [found_none hE hok hnil]
    exact Nat.le_refl 0
  · refine (List.length_filter_le _ _).trans ?_
    rw [m.length_token]
    split
    · exact Nat.zero_le _
    · exact Nat.le_refl 1

/-- **A slice gives what is written in it** iff it keeps it. -/
theorem found_iff (hok : m.Ok) (hmem : ∀ x ∈ m.slice.element, x ∈ E) :
    m.token.filter (· ∈ E) = m.slice.element.toList ↔ m.Keeps := by
  by_cases hm : m.slice.lexeme = []
  · have helem : m.slice.element = none := if_pos hm
    rw [found_none hE hok hm, helem]
    exact ⟨fun _ hne => absurd hm hne, fun _ => rfl⟩
  · have helem : m.slice.element = some (typeOf m.slice.stop, m.slice.lexeme) := if_neg hm
    rw [helem] at hmem ⊢
    constructor
    · intro h _
      have hin : (typeOf m.slice.stop, m.slice.lexeme) ∈ m.token := by
        have hin' : (typeOf m.slice.stop, m.slice.lexeme) ∈ m.token.filter (· ∈ E) := by
          rw [h]
          exact List.mem_singleton_self _
        exact (List.mem_filter.mp hin').1
      cases hbrace : isBrace m.slice.stop with
      | true =>
          obtain ⟨type, htoken, -⟩ := Mark.token_brace hbrace
          rw [htoken, List.mem_singleton, Prod.mk.injEq] at hin
          have hplain := (isElement_lexeme hm).plain m.slice.stop (by rw [hin.2]; exact List.mem_singleton_self _)
          rw [m.slice.cut] at hplain
          cases hplain
      | false =>
          rw [Mark.token_word hbrace] at hin
          split at hin
          · cases hin
          · rw [List.mem_singleton, Prod.mk.injEq] at hin
            exact ⟨rfl, Mark.word_eq_lexeme.mp hin.2.symm⟩
    · intro h
      obtain ⟨hbrace, hexact⟩ := h hm
      have hword : m.front.word m.slice.text = m.slice.lexeme := Mark.word_eq_lexeme.mpr hexact
      have hkept : ¬ m.after.kept = true := fun hkept => hm (hword.symm.trans (Mark.word_of_kept hkept))
      rw [Mark.token_word hbrace, if_neg hkept, hword]
      exact List.filter_eq_self.mpr fun x hx => by
        rw [List.mem_singleton.mp hx]
        simpa using hmem _ rfl

/-- Of all slices. -/
theorem all_found_iff {ms : List Mark} (hok : ∀ m ∈ ms, m.Ok)
    (hmem : ∀ x ∈ ms.filterMap fun m => m.slice.element, x ∈ E) :
    (ms.flatMap Mark.token).filter (· ∈ E) = ms.filterMap (fun m => m.slice.element) ↔ ∀ m ∈ ms, m.Keeps := by
  rw [List.filter_flatMap, List.filterMap_eq_flatMap_toList, flatMap_eq_iff fun m hm => found_le hE (hok m hm)]
  refine forall₂_congr fun m hm => found_iff hE (hok m hm) fun x hx => hmem x ?_
  exact List.mem_filterMap.mpr ⟨m, hm, hx⟩

end Found

/-! ## The tokens that are loaded -/

/-- The type of a token, and the string in its `val`. -/
def written (t : Token) : TokenType × Bytes := (t.type, cstr t.val)

theorem IsWord.written {t : Token} (h : IsWord t) : Tokenizer.written t = bare t := by
  obtain ⟨type, index, w, hw, rfl⟩ := h
  have hstr : cstr (tokenOf type index w).val = w := by
    show cstr (w ++ List.replicate (maxTokLen - w.length) 0) = w
    rw [cstr_append hw]
    cases maxTokLen - w.length with
    | zero => exact List.append_nil w
    | succ n => simp [List.replicate_succ, cstr]
  rw [Tokenizer.written, hstr, bare_tokenOf]
  rfl

/-- The tokens of a text, as they are written. -/
theorem Text.written_tokens (a : Text) : a.tokens.map written = a.marks.flatMap Mark.token := by
  rw [← a.bare_tokens]
  exact List.map_congr_left fun t ht => IsWord.written (a.isWord_tokens t ht)

/-! ## Delimiters in names and values -/

/-- No name or value has a delimiter in it, nor has anything that `get_variable` returns. -/
structure FreeOfDelimiters (t : Tokenizer) : Prop where
  tokens   : ∀ tok ∈ t.tokens, tok.type = .variable ∨ tok.type = .value → ∀ b ∈ cstr tok.val, isStop b = false
  returned : ∀ var vals, getVariable t var = .ok (some vals) → ∀ tok ∈ vals, ∀ b ∈ cstr tok.val, isStop b = false

/-- What is returned is among the tokens. -/
theorem freeOfDelimiters_iff (t : Tokenizer) : FreeOfDelimiters t ↔
    ∀ tok ∈ t.tokens, tok.type = .variable ∨ tok.type = .value → ∀ b ∈ cstr tok.val, isStop b = false := by
  refine ⟨fun h => h.tokens, fun h => ⟨h, fun var vals hvar tok htok => ?_⟩⟩
  obtain ⟨hmem, htype⟩ := getVariable_mem hvar tok htok
  exact h tok hmem (.inr htype)

namespace Mark

/-- A delimiter that was made into text is not in a name or value: a brace is behind it, or it is lost to the spaces
    that are skipped. -/
def Clean (m : Mark) : Prop :=
  isBrace m.slice.stop = true ∨ m.front.kept = false ∨ m.front.run m.slice.text ≠ []

/-- Where a value would end there is text, or nothing at all: no spaces that are left over, and no delimiter. -/
def Filled (m : Mark) : Prop :=
  isEnd m.slice.stop = true → m.slice.lexeme = [] → m.front.empty m.slice.text = true

instance (m : Mark) : Decidable m.Clean := inferInstanceAs (Decidable (_ ∨ _ ∨ _))
instance (m : Mark) : Decidable m.Filled := inferInstanceAs (Decidable (_ → _ → _))

variable {m : Mark}

/-- **A name or value holds a delimiter** only if one was made into text and stays there. -/
theorem clean_iff (hok : m.Ok) :
    (∀ x ∈ m.token, x.1 = .variable ∨ x.1 = .value → ∀ b ∈ x.2, isStop b = false) ↔ m.Clean := by
  unfold Clean
  cases hbrace : isBrace m.slice.stop with
  | true =>
      obtain ⟨type, htoken, hvar, hval⟩ := token_brace hbrace
      refine ⟨fun _ => .inl rfl, ?_⟩
      intro _ x hx htype
      rw [htoken, List.mem_singleton] at hx
      rw [hx] at htype
      exact absurd htype (not_or.mpr ⟨hvar, hval⟩)
  | false =>
      rw [token_word hbrace]
      cases hkept : m.front.kept with
      | false =>
          have hpending : m.front.pending = [] := by rw [Front.pending, hkept]; rfl
          refine ⟨fun _ => .inr (.inl rfl), ?_⟩
          intro _ x hx _ b hb
          split at hx
          · cases hx
          · rw [List.mem_singleton.mp hx] at hb
            rcases Front.mem_word hb with hmem | hmem
            · rw [hpending] at hmem
              cases hmem
            · exact m.slice.plain b hmem
      | true =>
          have hpending : m.front.pending = [m.front.last] := if_pos hkept
          have hempty : m.front.empty m.slice.text = false := by
            rw [Front.empty, hkept]
            rfl
          have hnot : ¬ m.after.kept = true := by
            rw [after, Front.after, hempty, Bool.and_false]
            exact Bool.false_ne_true
          have htype : typeOf m.slice.stop = .variable ∨ typeOf m.slice.stop = .value := by
            unfold typeOf
            split
            · exact .inl rfl
            · exact .inr rfl
          have hsplit := m.front.split m.slice.text
          rw [if_neg hnot]
          constructor
          · intro h
            refine .inr (.inr fun hrun => ?_)
            have hplain := h _ (List.mem_singleton_self _) htype m.front.last (by simp [Front.word, hrun, hpending])
            rw [hok hkept] at hplain
            cases hplain
          · intro h x hx _ b hb
            have hrun : m.front.run m.slice.text ≠ [] := (h.resolve_left Bool.false_ne_true).resolve_left (by simp)
            obtain ⟨d, run, hrun⟩ := List.exists_cons_of_ne_nil hrun
            rw [List.mem_singleton.mp hx] at hb
            have hb' : b ∈ m.front.word m.slice.text := hb
            -- the delimiter is the first character that is lost
            rw [Front.word, hpending, hrun, List.length_cons, List.singleton_append, List.cons_append,
              List.drop_succ_cons] at hb'
            refine m.slice.plain b ?_
            rw [← hsplit, hrun]
            rcases List.mem_append.mp hb' with hmem | hmem
            · have hmem' := List.mem_of_mem_drop hmem
              simp only [List.mem_append] at hmem' ⊢
              tauto
            · exact List.mem_append_right _ (List.mem_append_right _ hmem)

/-- The delimiters that end a value. -/
theorem typeOf_value (h : isBrace m.slice.stop = false) : typeOf m.slice.stop = .value ↔ isEnd m.slice.stop = true := by
  have hcut := m.slice.cut
  unfold isStop at hcut
  rw [h, Bool.or_false, Bool.or_eq_true, decide_eq_true_eq] at hcut
  unfold typeOf
  by_cases heq : m.slice.stop = equals
  · rw [if_pos heq, heq]
    decide
  · rw [if_neg heq]
    exact ⟨fun _ => hcut.resolve_left heq, fun _ => rfl⟩

theorem not_end_of_brace (h : isBrace m.slice.stop = true) : isEnd m.slice.stop = false := by
  simp only [isBrace, Bool.or_eq_true, decide_eq_true_eq] at h
  rcases h with h | h <;> rw [h] <;> decide

/-- A value ends at a delimiter that is not made into text. -/
theorem countP_value (m : Mark) :
    m.token.countP (fun x => x.1 = .value) = if isEnd m.slice.stop && !m.after.kept then 1 else 0 := by
  cases hbrace : isBrace m.slice.stop with
  | true =>
      obtain ⟨type, htoken, -, hval⟩ := token_brace hbrace
      rw [htoken, not_end_of_brace hbrace]
      simpa using hval
  | false =>
      rw [token_word hbrace]
      cases hkept : m.after.kept with
      | true => simp
      | false =>
          by_cases h : isEnd m.slice.stop = true
          · simp [h, (typeOf_value hbrace).mpr h]
          · have hval : typeOf m.slice.stop ≠ .value := fun heq => h ((typeOf_value hbrace).mp heq)
            simp [h, hval]

end Mark

/-- As many values as are written: one for every text that ends at a newline, `;` or `,`. -/
def Text.values (a : Text) : Nat := a.marks.countP fun m => isEnd m.slice.stop && !m.slice.lexeme.isEmpty

/-- All values end somewhere. -/
theorem countP_values (ms : List Mark) : (ms.flatMap Mark.token).countP (fun x => x.1 = .value) =
    ms.countP fun m => isEnd m.slice.stop && !m.after.kept := by
  induction ms with
  | nil => rfl
  | cons m ms ih => rw [List.flatMap_cons, List.countP_append, List.countP_cons, ih, m.countP_value, Nat.add_comm]

/-- Where text ends there is a value. -/
theorem Mark.not_kept_of_lexeme {m : Mark} (h : m.slice.lexeme ≠ []) : m.after.kept = false := by
  rw [← Bool.not_eq_true]
  intro hkept
  unfold after Front.after Front.empty at hkept
  simp only [Bool.and_eq_true, List.all_eq_true, decide_eq_true_eq] at hkept
  refine h (List.dropWhile_eq_nil_iff.mpr fun b hb => ?_)
  simpa using hkept.2.1.2 b hb

/-- There are no more values than written iff every one of them has text. -/
theorem filled_iff (ms : List Mark) : (ms.flatMap Mark.token).countP (fun x => x.1 = .value) =
      ms.countP (fun m => isEnd m.slice.stop && !m.slice.lexeme.isEmpty) ↔ ∀ m ∈ ms, m.Filled := by
  rw [countP_values, countP_eq_iff]
  · apply forall₂_congr
    intro m _
    unfold Mark.Filled Mark.after Front.after
    cases isEnd m.slice.stop <;> cases m.front.empty m.slice.text <;> simp
  · intro m _ h
    rw [Bool.and_eq_true, Bool.not_eq_true'] at h ⊢
    refine ⟨h.1, Mark.not_kept_of_lexeme fun hnil => ?_⟩
    rw [hnil] at h
    cases h.2

/-- **Values are free of delimiters** iff every delimiter that is made into text is lost again. They are that, and no
    value is made of nothing, iff besides there is text wherever a value may end and something is left over. -/
theorem free_of_delimiters_iff (a : Text) (line : Bytes) :
    ((∃ t, loadTokens line (some a.bytes) = .ok t ∧ FreeOfDelimiters t) ↔ a.Fits ∧ ∀ m ∈ a.marks, m.Clean) ∧
    ((∃ t, loadTokens line (some a.bytes) = .ok t ∧ FreeOfDelimiters t ∧
        t.tokens.countP (fun tok => tok.type = .value) = a.values) ↔
      a.Fits ∧ ∀ m ∈ a.marks, m.Clean ∧ m.Filled) := by
  have hclean : FreeOfDelimiters ⟨noToken :: a.tokens⟩ ↔ ∀ m ∈ a.marks, m.Clean := by
    have hwritten : FreeOfDelimiters ⟨noToken :: a.tokens⟩ ↔
        ∀ x ∈ a.tokens.map written, x.1 = .variable ∨ x.1 = .value → ∀ b ∈ x.2, isStop b = false := by
      rw [freeOfDelimiters_iff, List.forall_mem_cons, List.forall_mem_map]
      refine ⟨fun h => h.2, fun h => ⟨fun htype => ?_, h⟩⟩
      rcases htype with htype | htype <;> cases htype
    rw [hwritten, a.written_tokens, List.forall_mem_flatMap]
    exact forall₂_congr fun m hm => Mark.clean_iff (a.marks_ok m hm)
  have hfilled : (noToken :: a.tokens).countP (fun tok => tok.type = .value) = a.values ↔
      ∀ m ∈ a.marks, m.Filled := by
    rw [List.countP_cons_of_neg (by decide), Text.values, ← filled_iff, ← a.written_tokens, List.countP_map]
    rfl
  rw [exists_loadTokens a line FreeOfDelimiters, a.fits_iff,
    exists_loadTokens a line fun t => FreeOfDelimiters t ∧ t.tokens.countP (fun tok => tok.type = .value) = a.values,
    a.fits_iff, forall₂_and, ← hclean, ← hfilled]
  exact ⟨Iff.rfl, Iff.rfl⟩

/-- The line `devices={a,,b,}`. -/
def emptyText : Text :=
  ⟨[[100, 101, 118, 105, 99, 101, 115, equals, openBrace, 97, comma, comma, 98, comma, closeBrace]], by decide,
    by simp [NulFree, equals, openBrace, comma, closeBrace], by decide⟩

/-- The empty element makes a value `,b`. -/
theorem delimiter_in_value : ¬ ∃ t, loadTokens [] (some emptyText.bytes) = .ok t ∧ FreeOfDelimiters t := by
  rw [exists_loadTokens emptyText [] FreeOfDelimiters, freeOfDelimiters_iff]
  refine fun h => absurd h.2 ?_
  decide +kernel

end IOSwitch.Tokenizer
