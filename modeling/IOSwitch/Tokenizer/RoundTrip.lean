import IOSwitch.Tokenizer.Format

/-!
# `Tokenizer.RoundTrip` — a printed config is read back

`load_tokens` gets the printed lines one by one (`fgetsAll_print`) and cuts each into its tokens
(`loadTokens_print`); `get_variable` then finds the values of every item with the name it looks for
(`findValues_items`).
-/

namespace IOSwitch.Tokenizer

open Lib

/-! ## `fgets` -/

theorem fgetsAll_line {room left : Nat} {got l : Bytes} (rest : Bytes) (hl : newline ∉ l)
    (hlen : l.length + 1 ≤ left) :
    fgetsAll room got left (l ++ newline :: rest) = (got ++ l ++ [newline]) :: fgetsAll room [] room rest := by
  induction l generalizing got left with
  | nil => rw [List.nil_append, fgetsAll, if_pos (.inl rfl), List.append_nil]
  | cons b l ih =>
      rw [List.mem_cons, not_or] at hl
      rw [List.length_cons] at hlen
      have hgoes : ¬ (b = newline ∨ left ≤ 1) := by
        rintro (h | h)
        · exact hl.1 h.symm
        · omega
      rw [List.cons_append, fgetsAll, if_neg hgoes, ih hl.2 (by omega), List.append_assoc got, List.singleton_append]

/-- Lines that fit are read one by one. -/
theorem fgetsAll_lines {room : Nat} (ls : List Bytes) (h : ∀ l ∈ ls, newline ∉ l ∧ l.length + 1 ≤ room) :
    fgetsAll room [] room (ls.flatMap (· ++ [newline])) = ls.map (· ++ [newline]) := by
  induction ls with
  | nil => rfl
  | cons l ls ih =>
      obtain ⟨hl, hlen⟩ := h l List.mem_cons_self
      rw [List.flatMap_cons, List.append_assoc, List.singleton_append, fgetsAll_line _ hl hlen,
        ih fun l' hl' => h l' (List.mem_cons_of_mem l hl'), List.nil_append, List.map_cons]

theorem newline_not_mem_spaces (k : Nat) : newline ∉ spaces k := fun h =>
  absurd (List.eq_of_mem_replicate h) (by decide)

theorem Word.newline_not_mem (w : Word) : newline ∉ w.text := fun h => w.plain _ h (by decide)

/-- There is no newline inside a line. -/
theorem Line.newline_not_mem (l : Line) : newline ∉ l.text := by
  have hdelim : newline ≠ equals ∧ newline ≠ comma ∧ newline ≠ openBrace ∧ newline ≠ closeBrace := by decide
  cases l <;>
    simp only [Line.text, List.mem_append, List.mem_cons, List.not_mem_nil, newline_not_mem_spaces,
      Word.newline_not_mem, hdelim, or_self, not_false_eq_true]

theorem fgetsAll_print (c : ConfigText) :
    fgetsAll (maxLineWidth - 1) [] (maxLineWidth - 1) c.print = c.lines.map fun l => l.text ++ [newline] := by
  have hlines : ∀ t ∈ c.lines.map Line.text, newline ∉ t ∧ t.length + 1 ≤ maxLineWidth - 1 := by
    intro t ht
    obtain ⟨l, hl, rfl⟩ := List.mem_map.mp ht
    obtain ⟨i, hi, hli⟩ := List.mem_flatMap.mp hl
    exact ⟨l.newline_not_mem, c.width i hi l hli⟩
  have hread := fgetsAll_lines (c.lines.map Line.text) hlines
  rw [List.flatMap_map, List.map_map] at hread
  exact hread

/-! ## `load_tokens` -/

/-- The lines are cut into their tokens, whatever is in the buffer when they are read. -/
theorem loadLines_lines (ls : List Line) (line : Bytes) (last : UInt8) (toks : List Token)
    (hroom : toks.length + (ls.flatMap Line.tokens).length ≤ maxTokens) :
    loadLines line last toks (ls.map fun l => l.text ++ [newline]) = .ok (toks ++ ls.flatMap Line.tokens) := by
  induction ls generalizing line last toks with
  | nil => rw [List.flatMap_nil, List.append_nil]; rfl
  | cons l ls ih =>
      rw [List.flatMap_cons, List.length_append] at hroom
      let stale := line.drop (l.text ++ [newline] ++ [nul]).length
      have hline : overlay line (l.text ++ [newline] ++ [nul]) = l.text ++ newline :: nul :: stale := by
        show l.text ++ [newline] ++ [nul] ++ stale = _
        rw [List.append_assoc, List.append_assoc]
        rfl
      -- the line is scanned with the bytes of earlier lines behind its NUL
      obtain ⟨s, hscan, hlast, htoks⟩ := scans_line l stale last toks (by omega) _ (le_refl _)
      have hchar : charAt (l.text ++ newline :: nul :: stale) 0 =
          .ok ((l.text ++ newline :: nul :: stale).headD nul) := by
        cases l.text <;> rfl
      rw [List.map_cons, loadLines]
      show (charAt (overlay line (l.text ++ [newline] ++ [nul])) 0 >>= _) = _
      rw [hline, hchar]
      show (scanFresh (l.text ++ newline :: nul :: stale).length [] (l.text ++ newline :: nul :: stale) last toks >>=
        _) = _
      rw [hscan]
      show loadLines _ s.last s.tokens _ = _
      rw [htoks, ih _ _ _ (by rw [List.length_append]; omega), List.flatMap_cons, List.append_assoc]

theorem loadTokens_print (c : ConfigText) (line : Bytes) :
    loadTokens line (some c.print) = .ok ⟨noToken :: c.lines.flatMap Line.tokens⟩ := by
  have hroom : [noToken].length + (c.lines.flatMap Line.tokens).length ≤ maxTokens := by
    have hfew : (c.lines.flatMap Line.tokens).length ≤ maxTokens - 1 := c.few
    rw [List.length_singleton]
    unfold maxTokens at hfew ⊢
    omega
  show (loadLines line nul [noToken] (fgetsAll (maxLineWidth - 1) [] (maxLineWidth - 1) c.print) >>= _) = _
  rw [fgetsAll_print, loadLines_lines _ _ _ _ hroom]
  rfl

/-! ## `get_variable` -/

section Find

variable {var : Bytes} {found : Bool} {values toks vs : List Token} {t : Token}

theorem findValues_skip (ht : t.type = .none ∨ t.type = .openBracket ∨ t.type = .closeBracket) :
    findValues var found values (t :: toks) = findValues var found values toks := by
  have hvar : t.type ≠ .variable := by rcases ht with h | h | h <;> rw [h] <;> decide
  have hval : t.type ≠ .value := by rcases ht with h | h | h <;> rw [h] <;> decide
  rw [findValues, if_neg hvar]
  cases found
  · rfl
  · rw [if_pos rfl, if_neg hval, if_neg hvar]

/-- A name: from here on its values are wanted, or not. -/
theorem findValues_variable (n : Word) (k : Nat) :
    findValues var found values (tokenOf .variable k n.text :: toks) =
      findValues var (decide (cstr var = n.text)) values toks := by
  rw [findValues, if_pos (show (tokenOf .variable k n.text).type = .variable from rfl),
    text_tokenOf (plain_nulFree n.plain) n.short]
  rfl

/-- The values behind a name are taken if they are wanted. -/
theorem findValues_values (hvs : ∀ t ∈ vs, t.type = .value) :
    findValues var found values (vs ++ toks) = findValues var found (values ++ if found then vs else []) toks := by
  induction vs generalizing values with
  | nil => rw [List.nil_append, ite_self, List.append_nil]
  | cons t vs ih =>
      have ht : t.type = .value := hvs t List.mem_cons_self
      have hvar : t.type ≠ .variable := by rw [ht]; decide
      have hrest : ∀ values, findValues var found values (vs ++ toks) =
          findValues var found (values ++ if found then vs else []) toks :=
        fun _ => ih fun t' ht' => hvs t' (List.mem_cons_of_mem t ht')
      rw [List.cons_append, findValues, if_neg hvar]
      cases found
      · exact hrest values
      · rw [if_pos rfl, if_pos ht]
        refine (hrest (values ++ [t])).trans ?_
        rw [if_pos rfl, if_pos rfl, List.append_assoc, List.singleton_append]

end Find

/-- The tokens of an element's line. -/
def Element.token (e : Element) : Token := tokenOf .value e.indent e.value.text

theorem tokens_elements (es : List Element) :
    (es.map fun e => Line.element e.indent e.value e.tail).flatMap Line.tokens = es.map Element.token := by
  induction es with
  | nil => rfl
  | cons e es ih =>
      rw [List.map_cons, List.flatMap_cons, ih]
      rfl

theorem text_element (e : Element) : text e.token = .ok e.value.text :=
  text_tokenOf (plain_nulFree e.value.plain) e.value.short

/-- The tokens of an item that `get_variable` takes for the variable `v`. -/
def Item.taken (v : Bytes) : Item → List Token
  | .blank _            => []
  | .scalar k n gap w   => if v = n.text then [tokenOf .value (k + n.text.length + 1 + gap) w.text] else []
  | .list _ n _ _ es _  => if v = n.text then es.map Element.token else []

theorem Item.text_taken (i : Item) (v : Bytes) : (i.taken v).map text = (i.valuesOf v).map .ok := by
  cases i with
  | blank k => rfl
  | scalar k n gap w =>
      simp only [Item.taken, Item.valuesOf]
      split
      · exact congrArg (fun x => [x]) (text_tokenOf (plain_nulFree w.plain) w.short)
      · rfl
  | list k n gap t es close =>
      simp only [Item.taken, Item.valuesOf]
      split
      · rw [List.map_map, List.map_map]
        exact List.map_congr_left fun e _ => text_element e
      · rfl

/-- An item is passed with its values taken if it has the name, whatever was wanted before. -/
theorem findValues_item (i : Item) (var : Bytes) (found : Bool) (values toks : List Token) :
    ∃ found', findValues var found values (i.lines.flatMap Line.tokens ++ toks) =
      findValues var found' (values ++ i.taken (cstr var)) toks := by
  cases i with
  | blank k => exact ⟨found, by rw [Item.taken, List.append_nil]; rfl⟩
  | scalar k n gap w =>
      refine ⟨decide (cstr var = n.text), ?_⟩
      show findValues var found values (tokenOf .variable k n.text :: ([tokenOf .value _ w.text] ++ toks)) = _
      rw [findValues_variable, findValues_values (by simp [tokenOf])]
      simp only [decide_eq_true_eq, Item.taken]
  | list k n gap t es close =>
      refine ⟨decide (cstr var = n.text), ?_⟩
      have htoks : (Item.list k n gap t es close).lines.flatMap Line.tokens ++ toks =
          tokenOf .variable k n.text :: tokenOf .openBracket (k + n.text.length + 1 + gap) [openBrace] ::
            (es.map Element.token ++ tokenOf .closeBracket close [closeBrace] :: toks) := by
        rw [Item.lines, List.cons_append, List.flatMap_cons, List.flatMap_append, tokens_elements, List.append_assoc,
          List.append_assoc]
        rfl
      have hes : ∀ t ∈ es.map Element.token, t.type = .value := by
        intro t ht
        obtain ⟨e, -, rfl⟩ := List.mem_map.mp ht
        rfl
      rw [htoks, findValues_variable, findValues_skip (.inr (.inl rfl)), findValues_values hes,
        findValues_skip (.inr (.inr rfl))]
      simp only [decide_eq_true_eq, Item.taken]

theorem findValues_items (items : List Item) (var : Bytes) (found : Bool) (values : List Token) :
    findValues var found values ((items.flatMap Item.lines).flatMap Line.tokens) =
      .ok (values ++ items.flatMap (Item.taken (cstr var))) := by
  induction items generalizing found values with
  | nil =>
      show findValues var found values [] = .ok (values ++ [])
      rw [List.append_nil]
      rfl
  | cons i items ih =>
      obtain ⟨found', hitem⟩ := findValues_item i var found values ((items.flatMap Item.lines).flatMap Line.tokens)
      rw [List.flatMap_cons, List.flatMap_append, hitem, ih, List.flatMap_cons, List.append_assoc]

/-! ## The round trip -/

/-- **A config in the documented format is read back.** However the line buffer was filled before, the printed file
    loads, and `get_variable` returns the values of all items with the name: in file order, with duplicates, each
    `val` equal to the text that was printed. It returns `NULL` exactly when there is no value. -/
theorem config_round_trip (c : ConfigText) (line var : Bytes) :
    ∃ t found, loadTokens line (some c.print) = .ok t ∧ getVariable t var = .ok found ∧
      (found.getD []).map text = (c.valuesOf (cstr var)).map .ok ∧
      (found = none ↔ c.valuesOf (cstr var) = []) := by
  let taken := c.items.flatMap (Item.taken (cstr var))
  have htext : taken.map text = (c.valuesOf (cstr var)).map .ok := by
    have hitems : (fun i => (Item.taken (cstr var) i).map text) = fun i => (i.valuesOf (cstr var)).map .ok :=
      funext fun i => i.text_taken (cstr var)
    rw [List.map_flatMap, ConfigText.valuesOf, List.map_flatMap, hitems]
  have hfind : findValues var false [] (noToken :: c.lines.flatMap Line.tokens) = .ok taken := by
    rw [findValues_skip (.inl rfl)]
    exact findValues_items c.items var false []
  -- there are as many tokens as values, so there is none iff there is no value
  have hlen : taken.length = (c.valuesOf (cstr var)).length := by
    simpa only [List.length_map] using congrArg List.length htext
  refine ⟨_, if taken.length = 0 then none else some taken, loadTokens_print c line, ?_, ?_, ?_⟩
  · rw [getVariable, hfind]
    rfl
  · by_cases hnone : taken.length = 0
    · rw [if_pos hnone, ← htext, List.length_eq_zero_iff.mp hnone]
      rfl
    · rw [if_neg hnone]
      exact htext
  · rw [← List.length_eq_zero_iff, ← hlen]
    constructor
    · intro h
      by_contra hnone
      rw [if_neg hnone] at h
      cases h
    · exact fun h => if_pos h

/-- The list `a` with the one element `b`. -/
example :
    (do
      let t ← loadTokens [] (some [97, equals, openBrace, newline, space, 98, comma, newline, closeBrace, newline])
      getVariable t [97]) = .ok (some [tokenOf .value 1 [98]]) := by
  rfl

end IOSwitch.Tokenizer
