import IOSwitch.Tokenizer.Values

/-!
# `Tokenizer.Owner` — where the values of a variable come from

`get_variable` returns every value behind a name up to the next name. The tokens hold no line ends, and brackets are
passed over: a word that stands on a line of its own, or behind the brace that closes a list, is a value of the
definition above it.

A value belongs to a name if `name=` is before it on its line, or if it is in a list that `name={` opens. `owned_iff`
says when all values that are returned belong to the name that was asked for.

## Contents
- `pickedBy` — the rule of `get_variable` over anything that has types and names.
- `Text.placed`, `Text.valuesOf` — the tokens of a file and the lines they are on.
- `Occurs`, `Opens`, `InList`, `Belongs` — places in a file.
- `Text.places`, `valuesOf_places` — the values as slices.
- `Text.NoStray`, `owned_iff`.
-/

namespace IOSwitch.Tokenizer

open Lib

/-! ## The rule of `get_variable` -/

section Picked

variable {α β : Type}

/-- The elements that count as values behind one that is named. -/
def pickedBy (type : β → TokenType) (named : β → Bool) : Bool → List β → List β
  | _, []          => []
  | found, x :: xs =>
      if type x = .variable then pickedBy type named (named x) xs
      else if found = true ∧ type x = .value then x :: pickedBy type named found xs
      else pickedBy type named found xs

theorem picked_eq (var : Bytes) (found : Bool) (ts : List Token) :
    picked var found ts = pickedBy Token.type (fun t => decide (text t = .ok (cstr var))) found ts := by
  induction ts generalizing found with
  | nil => rfl
  | cons t ts ih => simp only [picked, pickedBy, ih]

variable {type : β → TokenType} {named : β → Bool} {kind : α → TokenType} {called : α → Bool} {g : α → List β}

/-- Elements that give one each, of their type and name, or none if they are neither name nor value. -/
theorem pickedBy_flatMap {l : List α}
    (h : ∀ x ∈ l, (g x = [] ∧ kind x ≠ .variable ∧ kind x ≠ .value) ∨
      ∃ y, g x = [y] ∧ type y = kind x ∧ (kind x = .variable → named y = called x)) (found : Bool) :
    pickedBy type named found (l.flatMap g) = (pickedBy kind called found l).flatMap g := by
  induction l generalizing found with
  | nil => rfl
  | cons x l ih =>
      have hrest := ih fun y hy => h y (List.mem_cons_of_mem x hy)
      rw [List.flatMap_cons, pickedBy]
      rcases h x List.mem_cons_self with ⟨hnone, hvar, hval⟩ | ⟨y, hone, htype, hname⟩
      · rw [hnone, List.nil_append, if_neg hvar, if_neg fun h => hval h.2]
        exact hrest found
      · rw [hone, List.singleton_append, pickedBy, htype]
        split
        · next hvar =>
          rw [hname hvar]
          exact hrest _
        · split
          · rw [hrest, List.flatMap_cons, hone, List.singleton_append]
          · exact hrest found

/-- What is picked is a value. -/
theorem pickedBy_value {found : Bool} {xs : List β} : ∀ x ∈ pickedBy type named found xs, x ∈ xs ∧ type x = .value := by
  induction xs generalizing found with
  | nil => exact fun x hx => absurd hx List.not_mem_nil
  | cons y xs ih =>
      intro x hx
      rw [pickedBy] at hx
      split at hx
      · obtain ⟨hmem, hval⟩ := ih x hx
        exact ⟨List.mem_cons_of_mem y hmem, hval⟩
      · split at hx
        · next hfound =>
          rcases List.mem_cons.mp hx with rfl | hx
          · exact ⟨List.mem_cons_self, hfound.2⟩
          · obtain ⟨hmem, hval⟩ := ih x hx
            exact ⟨List.mem_cons_of_mem y hmem, hval⟩
        · obtain ⟨hmem, hval⟩ := ih x hx
          exact ⟨List.mem_cons_of_mem y hmem, hval⟩

/-- A value with no name before it. -/
def ValueFirst (type : β → TokenType) (xs : List β) (x : β) : Prop :=
  ∃ mid post, xs = mid ++ x :: post ∧ (∀ z ∈ mid, type z ≠ .variable) ∧ type x = .value

/-- A value behind a name that was asked for, with no other name in between. -/
def ValueBehind (type : β → TokenType) (named : β → Bool) (xs : List β) (x : β) : Prop :=
  ∃ pre d rest, xs = pre ++ d :: rest ∧ type d = .variable ∧ named d = true ∧ ValueFirst type rest x

theorem valueFirst_cons {x y : β} {xs : List β} : ValueFirst type (y :: xs) x ↔
    (type y = .value ∧ x = y) ∨ (type y ≠ .variable ∧ ValueFirst type xs x) := by
  constructor
  · rintro ⟨mid, post, heq, hmid, hval⟩
    cases mid with
    | nil =>
        cases heq
        exact .inl ⟨hval, rfl⟩
    | cons z mid =>
        cases heq
        exact .inr ⟨hmid y List.mem_cons_self, mid, post, rfl, fun z hz => hmid z (List.mem_cons_of_mem _ hz), hval⟩
  · rintro (⟨hval, rfl⟩ | ⟨hvar, mid, post, rfl, hmid, hval⟩)
    · exact ⟨[], xs, rfl, fun z hz => absurd hz List.not_mem_nil, hval⟩
    · exact ⟨y :: mid, post, rfl, List.forall_mem_cons.mpr ⟨hvar, hmid⟩, hval⟩

theorem valueBehind_cons {x y : β} {xs : List β} : ValueBehind type named (y :: xs) x ↔
    (type y = .variable ∧ named y = true ∧ ValueFirst type xs x) ∨ ValueBehind type named xs x := by
  constructor
  · rintro ⟨pre, d, rest, heq, htype, hname, hfirst⟩
    cases pre with
    | nil =>
        cases heq
        exact .inl ⟨htype, hname, hfirst⟩
    | cons z pre =>
        cases heq
        exact .inr ⟨pre, d, rest, rfl, htype, hname, hfirst⟩
  · rintro (⟨htype, hname, hfirst⟩ | ⟨pre, d, rest, rfl, hrest⟩)
    · exact ⟨[], y, xs, rfl, htype, hname, hfirst⟩
    · exact ⟨y :: pre, d, rest, rfl, hrest⟩

/-- **What is picked**: the values behind a name, up to the next. -/
theorem mem_pickedBy {found : Bool} {xs : List β} {x : β} : x ∈ pickedBy type named found xs ↔
    (found = true ∧ ValueFirst type xs x) ∨ ValueBehind type named xs x := by
  induction xs generalizing found with
  | nil => simp [pickedBy, ValueFirst, ValueBehind]
  | cons y xs ih =>
      rw [pickedBy, valueFirst_cons, valueBehind_cons]
      by_cases hvar : type y = .variable
      · rw [if_pos hvar, ih]
        simp [hvar]
      · rw [if_neg hvar]
        split
        · next h =>
          rw [List.mem_cons, ih]
          simp [h.1, h.2, or_assoc]
        · next h =>
          have hno : ¬ (found = true ∧ type y = .value ∧ x = y) := fun h' => h ⟨h'.1, h'.2.1⟩
          rw [ih]
          tauto

end Picked

/-! ## Places in a file -/

namespace Text

/-- A line of the file, with its newline. -/
def lineAt (a : Text) (i : Nat) : Option Bytes := (a.lines[i]?).map (· ++ [newline])

/-- The tokens of the file, each with the number of the line it is on. -/
def placed (a : Text) : List (Nat × Token) :=
  a.lines.zipIdx.flatMap fun x => (lexLine (x.1 ++ [newline])).map (x.2, ·)

/-- The values that `get_variable` returns, each with the number of its line. -/
def valuesOf (a : Text) (var : Bytes) : List (Nat × Token) :=
  pickedBy (fun x => x.2.type) (fun x => decide (text x.2 = .ok (cstr var))) false a.placed

end Text

/-- A line and a column before others. -/
def Before (x y : Nat × Nat) : Prop := x.1 < y.1 ∨ x.1 = y.1 ∧ x.2 < y.2

/-- `v=` is on the line `i`, with the `=` in column `p`. -/
def Occurs (a : Text) (v : Bytes) (i p : Nat) : Prop :=
  ∃ l, a.lineAt i = some l ∧ l[p]? = some equals ∧ v <:+ l.take p

/-- A `{` in column `q` follows on the `=` in column `p`, with nothing but spaces in between. -/
def Opens (a : Text) (i p q : Nat) : Prop :=
  ∃ l, a.lineAt i = some l ∧ p < q ∧ l[q]? = some openBrace ∧ ∀ k, p < k → k < q → l[k]? = some space

/-- There is a `}` between two places. -/
def Closes (a : Text) (x y : Nat × Nat) : Prop :=
  ∃ j r l, a.lineAt j = some l ∧ l[r]? = some closeBrace ∧ Before x (j, r) ∧ Before (j, r) y

/-- The place is in a list that `v={` has opened and no `}` has closed. -/
def InList (a : Text) (v : Bytes) (y : Nat × Nat) : Prop :=
  ∃ i p q, Occurs a v i p ∧ Opens a i p q ∧ Before (i, q) y ∧ ¬ Closes a (i, q) y

/-- What ends at the place belongs to `v`: it is behind `v=` on the same line, or in a list of `v`. -/
def Belongs (a : Text) (v : Bytes) (y : Nat × Nat) : Prop :=
  (∃ p, p < y.2 ∧ Occurs a v y.1 p) ∨ InList a v y

/-! ## Delimiters and slices -/

section Places

variable {l got : Bytes} {f : Front} {n p : Nat} {b : UInt8}

/-- Where a slice is in the text, and what is in front of it. -/
theorem marks_text (hgot : ∀ d ∈ got, isStop d = false) {before : Bytes} (hn : n = before.length)
    (hpending : f.pending <:+ before) :
    ∀ m ∈ f.marks n (cutFrom got hgot l).1, ∃ pre post, before ++ got ++ l = pre ++ m.slice.text ++ m.slice.stop :: post ∧
      m.pos = (pre ++ m.slice.text).length ∧ m.front.pending <:+ pre := by
  induction l generalizing f n got before with
  | nil =>
      intro m hm
      cases hm
  | cons b l ih =>
      rw [cutFrom]
      split
      · next hb =>
        intro m hm
        rcases List.mem_cons.mp hm with rfl | hm
        · exact ⟨before, l, rfl, by rw [hn, List.length_append], hpending⟩
        · have hpending' : (f.after ⟨got, b, hgot, hb⟩).pending <:+ before ++ got ++ [b] := by
            unfold Front.pending
            split
            · exact List.suffix_append _ _
            · exact List.nil_suffix
          have hlen : n + got.length + 1 = (before ++ got ++ [b]).length := by
            simp [hn, Nat.add_assoc]
          have hrest := ih plain_nil hlen hpending' m hm
          simpa using hrest
      · next hb =>
        intro m hm
        have hrest := ih (plain_snoc hgot hb) hn hpending m hm
        simpa using hrest

/-- Every delimiter ends a slice. -/
theorem mark_at (hgot : ∀ d ∈ got, isStop d = false) (hb : isStop b = true) (hp : l[p]? = some b) :
    ∃ m ∈ f.marks n (cutFrom got hgot l).1, m.pos = n + got.length + p ∧ m.slice.stop = b := by
  induction l generalizing f n got p with
  | nil => cases hp
  | cons d l ih =>
      rw [cutFrom]
      split
      · next hd =>
        cases p with
        | zero =>
            cases hp
            exact ⟨_, List.mem_cons_self, rfl, rfl⟩
        | succ p =>
            obtain ⟨m, hm, hpos, hstop⟩ := @ih [] (f.after ⟨got, d, hgot, hd⟩) (n + got.length + 1) p plain_nil hp
            refine ⟨m, List.mem_cons_of_mem _ hm, ?_, hstop⟩
            rw [hpos, List.length_nil]
            omega
      · next hd =>
        cases p with
        | zero =>
            cases hp
            exact absurd hb hd
        | succ p =>
            obtain ⟨m, hm, hpos, hstop⟩ := @ih (got ++ [d]) f n p (plain_snoc hgot hd) hp
            refine ⟨m, hm, ?_, hstop⟩
            rw [hpos, List.length_append, List.length_singleton]
            omega

/-- A slice ends at its delimiter, and its text is before it. -/
theorem mark_line {m : Mark} (hm : m ∈ marks l) :
    l[m.pos]? = some m.slice.stop ∧ m.front.word m.slice.text <:+ l.take m.pos := by
  obtain ⟨pre, post, heq, hpos, hpending⟩ := @marks_text l [] .line 0 plain_nil [] rfl List.nil_suffix m hm
  rw [List.nil_append, List.nil_append] at heq
  rw [heq, hpos, List.getElem?_append_right (Nat.le_refl _), Nat.sub_self, List.take_left]
  refine ⟨rfl, ?_⟩
  have hword : m.front.word m.slice.text <:+ m.front.pending ++ m.slice.text := by
    rw [Front.word_eq_drop]
    exact List.drop_suffix _ _
  obtain ⟨r, rfl⟩ := hpending
  rw [List.append_assoc]
  exact hword.trans (List.suffix_append _ _)

end Places

/-! ## The values as slices -/

namespace Mark

/-- The type of the token that ends there, or `TOK_NONE`. -/
def kind (m : Mark) : TokenType := (m.token.head?.map Prod.fst).getD .none

/-- The name that ends there. -/
def name (m : Mark) : Bytes := m.front.word m.slice.text

variable {m : Mark}

theorem kind_variable : m.kind = .variable ↔ m.slice.stop = equals := by
  unfold kind
  cases hbrace : isBrace m.slice.stop with
  | true =>
      obtain ⟨type, htoken, hvar, -⟩ := token_brace hbrace
      rw [htoken]
      refine ⟨fun h => absurd h hvar, ?_⟩
      intro h
      rw [h] at hbrace
      cases hbrace
  | false =>
      rw [token_word hbrace]
      by_cases heq : m.slice.stop = equals
      · have hkept : ¬ m.after.kept = true := by
          intro h
          unfold after Front.after at h
          rw [heq, Bool.and_eq_true] at h
          exact absurd h.1 (by decide)
        rw [if_neg hkept, heq]
        exact ⟨fun _ => rfl, fun _ => rfl⟩
      · refine ⟨fun h => ?_, fun h => absurd h heq⟩
        split at h
        · cases h
        · rw [List.head?_cons, Option.map_some, Option.getD_some] at h
          unfold typeOf at h
          rw [if_neg heq] at h
          cases h

theorem kind_value : m.kind = .value ↔ isEnd m.slice.stop = true ∧ m.after.kept = false := by
  unfold kind
  cases hbrace : isBrace m.slice.stop with
  | true =>
      obtain ⟨type, htoken, -, hval⟩ := token_brace hbrace
      rw [htoken, not_end_of_brace hbrace]
      exact ⟨fun h => absurd h hval, fun h => absurd h.1 Bool.false_ne_true⟩
  | false =>
      rw [token_word hbrace, ← typeOf_value hbrace]
      cases m.after.kept with
      | true => simp
      | false => simp

/-- A slice gives its token, or nothing that counts. -/
theorem token_cases (m : Mark) : (m.token = [] ∧ m.kind = .none) ∨
    ∃ w, m.token = [(m.kind, w)] ∧ (m.kind = .variable → w = m.name) := by
  cases hbrace : isBrace m.slice.stop with
  | true =>
      obtain ⟨type, htoken, hvar, -⟩ := token_brace hbrace
      have hkind : m.kind = type := by rw [kind, htoken]; rfl
      refine .inr ⟨[m.slice.stop], by rw [hkind, htoken], fun h => ?_⟩
      rw [hkind] at h
      exact absurd h hvar
  | false =>
      have htoken := token_word hbrace
      split at htoken
      · exact .inl ⟨htoken, by rw [kind, htoken]; rfl⟩
      · have hkind : m.kind = typeOf m.slice.stop := by rw [kind, htoken]; rfl
        exact .inr ⟨m.name, by rw [hkind, htoken, name], fun _ => rfl⟩

end Mark

namespace Text

/-- The slices of the file, each with the number of its line. -/
def places (a : Text) : List (Nat × Mark) :=
  a.lines.zipIdx.flatMap fun x => (Tokenizer.marks (x.1 ++ [newline])).map (x.2, ·)

theorem mem_places {a : Text} {x : Nat × Mark} :
    x ∈ a.places ↔ ∃ l, a.lineAt x.1 = some l ∧ x.2 ∈ Tokenizer.marks l := by
  obtain ⟨i, m⟩ := x
  unfold places lineAt
  simp only [List.mem_flatMap, List.mem_map, Option.map_eq_some_iff, Prod.mk.injEq]
  constructor
  · rintro ⟨⟨l, j⟩, hl, m', hm', rfl, rfl⟩
    exact ⟨_, ⟨l, List.mem_zipIdx_iff_getElem?.mp hl, rfl⟩, hm'⟩
  · rintro ⟨_, ⟨l, hl, rfl⟩, hm⟩
    exact ⟨(l, i), List.mem_zipIdx_iff_getElem?.mpr hl, m, hm, rfl, rfl⟩

/-- The slices stand one behind the other. -/
theorem places_sorted (a : Text) : a.places.Pairwise fun x y => Before (x.1, x.2.pos) (y.1, y.2.pos) := by
  unfold places
  rw [List.pairwise_flatMap]
  constructor
  · intro x _
    rw [List.pairwise_map]
    exact (Front.line.marks_sorted 0 (slices (x.1 ++ [newline]))).1.imp fun h => .inr ⟨rfl, h⟩
  · have hlines : a.lines.zipIdx.Pairwise fun x y => x.2 < y.2 := by
      rw [List.pairwise_iff_getElem]
      intro i j hi hj hij
      simpa using hij
    refine hlines.imp fun hxy z hz w hw => ?_
    obtain ⟨m, -, rfl⟩ := List.mem_map.mp hz
    obtain ⟨m', -, rfl⟩ := List.mem_map.mp hw
    exact .inl hxy

theorem placed_tokens (a : Text) : a.placed.map Prod.snd = a.tokens :=
  zipIdx_flatMap_snd (fun l => lexLine (l ++ [newline])) a.lines

theorem places_marks (a : Text) : a.places.map Prod.snd = a.marks :=
  zipIdx_flatMap_snd (fun l => Tokenizer.marks (l ++ [newline])) a.lines

/-- The tokens of the file are those of its slices, line by line. -/
theorem placed_located (a : Text) : (a.placed.map fun x => (x.1, located x.2)) =
    a.places.flatMap fun x => x.2.located.map (x.1, ·) := by
  unfold placed places
  rw [List.map_flatMap, List.flatMap_assoc]
  apply List.flatMap_congr
  intro x _
  have hline := congrArg (List.map (x.2, ·)) (lex_located nul (x.1 ++ [newline])).1
  rw [List.map_map, List.map_flatMap] at hline
  rw [List.map_map, List.flatMap_map]
  exact hline

end Text

/-! ## Names that can be read -/

namespace Text

/-- Every name leaves room for its NUL. -/
def NamesShort (a : Text) : Prop := ∀ m ∈ a.marks, m.slice.stop = equals → m.Room (maxTokLen - 1)

variable {a : Text}

/-- A token is that of a slice of its type. -/
theorem mark_of_token {t : Token} (ht : t ∈ a.tokens) : ∃ m ∈ a.marks, m.token = [bare t] ∧ m.kind = t.type := by
  have hmem : bare t ∈ a.marks.flatMap Mark.token := by
    rw [← a.bare_tokens]
    exact List.mem_map_of_mem ht
  obtain ⟨m, hm, hin⟩ := List.mem_flatMap.mp hmem
  refine ⟨m, hm, ?_⟩
  rcases m.token_cases with ⟨hnone, -⟩ | ⟨w, hone, -⟩
  · rw [hnone] at hin
    cases hin
  · rw [hone, List.mem_singleton] at hin
    rw [hone, ← hin]
    exact ⟨rfl, (congrArg Prod.fst hin).symm⟩

/-- **The names can be read** iff they are short. -/
theorem namesShort_iff (a : Text) :
    (∀ t ∈ a.tokens, t.type = .variable → ∃ w, text t = .ok w) ↔ a.NamesShort := by
  constructor
  · intro h m hm hstop
    have hkind := Mark.kind_variable.mpr hstop
    rcases m.token_cases with ⟨-, hnone⟩ | ⟨w, hone, -⟩
    · rw [hnone] at hkind
      cases hkind
    · have hmem : (m.kind, w) ∈ a.tokens.map bare := by
        rw [a.bare_tokens]
        exact List.mem_flatMap.mpr ⟨m, hm, by rw [hone]; exact List.mem_singleton_self _⟩
      obtain ⟨t, ht, hbare⟩ := List.mem_map.mp hmem
      have htype : t.type = .variable := (congrArg Prod.fst hbare).trans hkind
      obtain ⟨v, hv⟩ := h t ht htype
      obtain ⟨type, index, u, hu, rfl⟩ := a.isWord_tokens t ht
      rw [bare_tokenOf] at hbare
      refine (m.room_iff (by decide)).mp ?_
      rw [hone, ← hbare, List.forall_mem_singleton]
      -- a name that fills `val` has no NUL behind it
      by_contra hlong
      have hfull : ¬ nul ∈ (tokenOf type index u).val := by
        intro hmem
        have hval : (tokenOf type index u).val = u := by
          show u ++ List.replicate (maxTokLen - u.length) 0 = u
          rw [Nat.sub_eq_zero_of_le (by simp [maxTokLen] at hlong ⊢; omega)]
          exact List.append_nil u
        rw [hval] at hmem
        exact hu nul hmem rfl
      rw [text, if_neg hfull] at hv
      cases hv
  · intro h t ht htype
    obtain ⟨m, hm, htoken, hkind⟩ := mark_of_token ht
    have hroom := h m hm (Mark.kind_variable.mp (hkind.trans htype))
    have hlen := (m.room_iff (by decide)).mpr hroom (bare t) (by rw [htoken]; exact List.mem_singleton_self _)
    obtain ⟨type, index, u, hu, rfl⟩ := a.isWord_tokens t ht
    rw [bare_tokenOf] at hlen
    exact ⟨u, text_tokenOf hu (Nat.lt_of_le_of_lt hlen (by decide))⟩

/-- What is read is the name. -/
theorem text_name (h : a.NamesShort) {t : Token} (ht : t ∈ a.tokens) (htype : t.type = .variable) :
    text t = .ok (bare t).2 := by
  obtain ⟨w, hw⟩ := a.namesShort_iff.mpr h t ht htype
  have hbare := congrArg Prod.snd (IsWord.written (a.isWord_tokens t ht))
  unfold text at hw ⊢
  split at hw
  · next hnul =>
    rw [if_pos hnul]
    exact congrArg Except.ok hbare
  · cases hw

/-- The values as slices. -/
def valuePlaces (a : Text) (var : Bytes) : List (Nat × Mark) :=
  pickedBy (fun y => y.2.kind) (fun y => decide (y.2.name = cstr var)) false a.places

theorem valuesOf_tokens (a : Text) (var : Bytes) : (a.valuesOf var).map Prod.snd = picked var false a.tokens := by
  have hflat := @pickedBy_flatMap (Nat × Token) Token Token.type (fun t => decide (text t = .ok (cstr var)))
    (fun x => x.2.type) (fun x => decide (text x.2 = .ok (cstr var))) (fun x => [x.2]) a.placed
    (fun x _ => .inr ⟨x.2, rfl, rfl, fun _ => rfl⟩) false
  rw [← List.map_eq_flatMap, ← List.map_eq_flatMap, placed_tokens, ← picked_eq] at hflat
  exact hflat.symm

/-- **The values that are returned** are those of slices. -/
theorem valuesOf_places (h : a.NamesShort) (var : Bytes) :
    ((a.valuesOf var).map fun x => (x.1, located x.2)) =
      (a.valuePlaces var).flatMap fun y => y.2.located.map (y.1, ·) := by
  have htokens := @pickedBy_flatMap (Nat × Token) (Nat × Nat × TokenType × Bytes) (fun z => z.2.2.1)
    (fun z => decide (z.2.2.2 = cstr var)) (fun x => x.2.type) (fun x => decide (text x.2 = .ok (cstr var)))
    (fun x => [(x.1, located x.2)]) a.placed
    (fun x hx => .inr ⟨_, rfl, rfl, fun htype => ?_⟩) false
  · have hslices := @pickedBy_flatMap (Nat × Mark) (Nat × Nat × TokenType × Bytes) (fun z => z.2.2.1)
      (fun z => decide (z.2.2.2 = cstr var)) (fun y => y.2.kind) (fun y => decide (y.2.name = cstr var))
      (fun y => y.2.located.map (y.1, ·)) a.places (fun y _ => ?_) false
    · rw [← List.map_eq_flatMap, ← List.map_eq_flatMap, placed_located, hslices] at htokens
      exact htokens.symm
    · rcases y.2.token_cases with ⟨hnone, hkind⟩ | ⟨w, hone, hname⟩
      · refine .inl ⟨by rw [Mark.located, hnone]; rfl, ?_, ?_⟩
        · rw [hkind]
          decide
        · rw [hkind]
          decide
      · refine .inr ⟨(y.1, y.2.pos, y.2.kind, w), by rw [Mark.located, hone]; rfl, rfl, fun hvar => ?_⟩
        rw [hname hvar]
  · have hmem : x.2 ∈ a.tokens := by
      rw [← a.placed_tokens]
      exact List.mem_map_of_mem hx
    simp only [text_name h hmem htype, Except.ok.injEq]
    rfl

/-- What holds of the places of all values. -/
theorem forall_valuesOf (h : a.NamesShort) (var : Bytes) (B : Nat × Nat → Prop) :
    (∀ x ∈ a.valuesOf var, B (x.1, stopAt x.2)) ↔ ∀ y ∈ a.valuePlaces var, B (y.1, y.2.pos) := by
  have hmap : (∀ x ∈ a.valuesOf var, B (x.1, stopAt x.2)) ↔
      ∀ z ∈ (a.valuesOf var).map fun x => (x.1, located x.2), B (z.1, z.2.1) := by
    rw [List.forall_mem_map]
    rfl
  rw [hmap, valuesOf_places h, List.forall_mem_flatMap]
  apply forall₂_congr
  intro y hy
  obtain ⟨-, hval⟩ := pickedBy_value y hy
  rcases y.2.token_cases with ⟨-, hnone⟩ | ⟨w, hone, -⟩
  · rw [hnone] at hval
    cases hval
  · rw [Mark.located, hone]
    simp

end Text

/-! ## Whose a value is -/

/-- No value is left over on a later line: where text ends on another line than the name before it, this is in a list
    that the name has opened. -/
def Text.NoStray (a : Text) : Prop :=
  ∀ pre d mid x post, a.places = pre ++ d :: (mid ++ x :: post) → d.2.slice.stop = equals →
    (∀ y ∈ mid, y.2.slice.stop ≠ equals) → isEnd x.2.slice.stop = true → x.2.after.kept = false → d.1 < x.1 →
    InList a d.2.name (x.1, x.2.pos)

section Owned

variable {a : Text}

/-- A name occurs where its slice ends. -/
theorem occurs_name {d : Nat × Mark} (hd : d ∈ a.places) (hstop : d.2.slice.stop = equals) :
    Occurs a d.2.name d.1 d.2.pos := by
  obtain ⟨l, hl, hm⟩ := Text.mem_places.mp hd
  obtain ⟨hpos, hname⟩ := mark_line hm
  rw [hstop] at hpos
  exact ⟨l, hl, hpos, hname⟩

/-- A name that occurs is one of the file. -/
theorem occurs_place {v : Bytes} {i p : Nat} (h : Occurs a v i p) :
    ∃ d ∈ a.places, d.1 = i ∧ d.2.pos = p ∧ d.2.slice.stop = equals := by
  obtain ⟨l, hl, hp, -⟩ := h
  obtain ⟨m, hm, hpos, hstop⟩ := @mark_at l [] .line 0 p equals plain_nil rfl hp
  refine ⟨(i, m), Text.mem_places.mpr ⟨l, hl, hm⟩, rfl, ?_, hstop⟩
  rw [hpos, List.length_nil, Nat.add_zero, Nat.zero_add]

/-- Behind the last name there is no other on the line of a value. -/
theorem not_occurs {v : Bytes} {pre mid post : List (Nat × Mark)} {d x : Nat × Mark}
    (hplaces : a.places = pre ++ d :: (mid ++ x :: post)) (hmid : ∀ y ∈ mid, y.2.slice.stop ≠ equals)
    (hend : isEnd x.2.slice.stop = true) (hline : d.1 < x.1) : ¬ ∃ p, p < x.2.pos ∧ Occurs a v x.1 p := by
  rintro ⟨p, hp, hocc⟩
  obtain ⟨y, hy, hyline, hypos, hystop⟩ := occurs_place hocc
  have hsorted := a.places_sorted
  rw [hplaces] at hy hsorted
  obtain ⟨-, hrest, hbefore⟩ := List.pairwise_append.mp hsorted
  obtain ⟨-, hrest⟩ := List.pairwise_cons.mp hrest
  obtain ⟨-, hpost, -⟩ := List.pairwise_append.mp hrest
  obtain ⟨hpost, -⟩ := List.pairwise_cons.mp hpost
  rcases List.mem_append.mp hy with hy | hy
  · rcases hbefore y hy d List.mem_cons_self with h | h
    · have hlt : y.1 < d.1 := h
      omega
    · have heq : y.1 = d.1 := h.1
      omega
  rcases List.mem_cons.mp hy with rfl | hy
  · omega
  rcases List.mem_append.mp hy with hy | hy
  · exact hmid y hy hystop
  rcases List.mem_cons.mp hy with rfl | hy
  · rw [hystop] at hend
    cases hend
  · rcases hpost y hy with h | h
    · have hlt : x.1 < y.1 := h
      omega
    · have hlt : x.2.pos < y.2.pos := h.2
      omega

/-- A name is a string. -/
theorem cstr_name {d : Nat × Mark} (hd : d ∈ a.places) : cstr d.2.name = d.2.name := by
  obtain ⟨l, hl, hm⟩ := Text.mem_places.mp hd
  obtain ⟨l', hl', rfl⟩ := Option.map_eq_some_iff.mp hl
  have hnul : NulFree (l' ++ [newline]) :=
    (a.nulFree l' (List.mem_of_getElem? hl')).append (nulFree_singleton (by decide))
  have hname : NulFree d.2.name := by
    intro b hb
    exact hnul b ((List.take_sublist _ _).subset ((mark_line hm).2.subset hb))
  have hstr := cstr_append hname []
  rw [List.append_nil] at hstr
  exact hstr.trans (List.append_nil _)

/-- **All values belong to their names** iff none is left over. -/
theorem belongs_iff (a : Text) :
    (∀ var, ∀ y ∈ a.valuePlaces var, Belongs a (cstr var) (y.1, y.2.pos)) ↔ a.NoStray := by
  constructor
  · intro h pre d mid x post hplaces hstop hmid hend hkept hline
    have hd : d ∈ a.places := by
      rw [hplaces]
      exact List.mem_append_right _ List.mem_cons_self
    have hx : x ∈ a.valuePlaces d.2.name := by
      refine mem_pickedBy.mpr (.inr ⟨pre, d, mid ++ x :: post, hplaces, Mark.kind_variable.mpr hstop, ?_, mid, post, rfl,
        fun z hz hvar => hmid z hz (Mark.kind_variable.mp hvar), Mark.kind_value.mpr ⟨hend, hkept⟩⟩)
      simpa using (cstr_name hd).symm
    have hbelongs := h d.2.name x hx
    rw [cstr_name hd] at hbelongs
    exact hbelongs.resolve_left (not_occurs hplaces hmid hend hline)
  · intro h var x hx
    obtain ⟨pre, d, rest, hplaces, hvar, hname, mid, post, rfl, hmid, hval⟩ :=
      (mem_pickedBy.mp hx).resolve_left fun h => Bool.false_ne_true h.1
    have hd : d ∈ a.places := by
      rw [hplaces]
      exact List.mem_append_right _ List.mem_cons_self
    have hstop := Mark.kind_variable.mp hvar
    obtain ⟨hend, hkept⟩ := Mark.kind_value.mp hval
    rw [← of_decide_eq_true hname]
    have hsorted := a.places_sorted
    rw [hplaces] at hsorted
    obtain ⟨-, hrest, -⟩ := List.pairwise_append.mp hsorted
    have hbefore := (List.pairwise_cons.mp hrest).1 x (List.mem_append_right _ List.mem_cons_self)
    rcases hbefore with hline | ⟨hline, hpos⟩
    · refine .inr (h pre d mid x post hplaces hstop (fun y hy hy' => ?_) hend hkept hline)
      exact hmid y hy (Mark.kind_variable.mpr hy')
    · have hocc := occurs_name hd hstop
      rw [show d.1 = x.1 from hline] at hocc
      exact .inl ⟨d.2.pos, hpos, hocc⟩

end Owned

/-- **A definition ends where its syntax ends**: every value that is returned for a name is behind the name on its
    line, or in a list of it, iff the names can be read and nothing is left over on later lines. -/
theorem owned_iff (a : Text) (line : Bytes) :
    (∃ t, loadTokens line (some a.bytes) = .ok t ∧ t.tokens = noToken :: a.placed.map Prod.snd ∧
      ∀ var, ∃ vals, getVariable t var = .ok vals ∧ vals.getD [] = (a.valuesOf var).map Prod.snd ∧
        ∀ x ∈ a.valuesOf var, Belongs a (cstr var) (x.1, stopAt x.2)) ↔
      a.Fits ∧ a.NamesShort ∧ a.NoStray := by
  rw [exists_loadTokens a line fun t => t.tokens = noToken :: a.placed.map Prod.snd ∧
    ∀ var, ∃ vals, getVariable t var = .ok vals ∧ vals.getD [] = (a.valuesOf var).map Prod.snd ∧
      ∀ x ∈ a.valuesOf var, Belongs a (cstr var) (x.1, stopAt x.2), a.fits_iff, ← belongs_iff]
  apply and_congr_right
  intro _
  constructor
  · rintro ⟨-, hall⟩
    have hshort : a.NamesShort := by
      obtain ⟨vals, hvar, -⟩ := hall []
      obtain ⟨values, hfind, -⟩ := exists_of_bind_ok hvar
      apply a.namesShort_iff.mp
      intro t ht
      exact findValues_named hfind t (List.mem_cons_of_mem _ ht)
    refine ⟨hshort, ?_⟩
    intro var
    obtain ⟨-, -, -, hbelongs⟩ := hall var
    exact (Text.forall_valuesOf hshort var (Belongs a (cstr var))).mp hbelongs
  · rintro ⟨hshort, hbelongs⟩
    refine ⟨by rw [a.placed_tokens], ?_⟩
    intro var
    obtain ⟨found, hvar, hfound, -⟩ := getVariable_picked var (a.namesShort_iff.mpr hshort)
    refine ⟨found, hvar, ?_, (Text.forall_valuesOf hshort var (Belongs a (cstr var))).mpr (hbelongs var)⟩
    rw [hfound, a.valuesOf_tokens]

/-- The lines `v=1` and `w`. -/
def strayText : Text :=
  ⟨[[118, equals, 49], [119]], by decide, by simp [NulFree, equals], by decide⟩

/-- The word on the second line is returned as a value of `v`. -/
theorem stray_owned : ¬ ∃ t, loadTokens [] (some strayText.bytes) = .ok t ∧
    t.tokens = noToken :: strayText.placed.map Prod.snd ∧
    ∀ var, ∃ vals, getVariable t var = .ok vals ∧ vals.getD [] = (strayText.valuesOf var).map Prod.snd ∧
      ∀ x ∈ strayText.valuesOf var, Belongs strayText (cstr var) (x.1, stopAt x.2) := by
  rintro ⟨t, -, -, hall⟩
  obtain ⟨-, -, -, hbelongs⟩ := hall [118]
  have hstray : (1, tokenOf .value 0 [119]) ∈ strayText.valuesOf [118] := by decide +kernel
  rcases hbelongs _ hstray with ⟨p, -, l, hl, hp, -⟩ | ⟨i, p, q, -, ⟨l, hl, -, hq, -⟩, -⟩
  · -- there is no name on the second line
    cases hl
    have hmem := List.mem_of_getElem? hp
    revert hmem
    decide
  · -- and no list in the file
    have hnone : ∀ l ∈ strayText.lines, openBrace ∉ l ++ [newline] := by decide
    obtain ⟨l', hl', rfl⟩ := Option.map_eq_some_iff.mp hl
    exact hnone l' (List.mem_of_getElem? hl') (List.mem_of_getElem? hq)

end IOSwitch.Tokenizer
