import IOSwitch.Tokenizer.Owner
import Mathlib.Data.List.Flatten

/-!
# `Tokenizer.Complete` — nothing is lost

The names and values that are written in a file are all found iff every slice keeps its text (`no_text_lost_iff`). Then
the values of a list are returned as they are written, in whatever way it is laid out over lines: the slices of a list
are those from its `{` to the next `}`, with that before the brace.
-/

namespace IOSwitch.Tokenizer

open Lib

/-- A list with this name and these slices. -/
def Text.HasList (a : Text) (name : Bytes) (items : List (Nat × Mark)) : Prop :=
  ∃ pre n o body c post, a.places = pre ++ n :: o :: (body ++ c :: post) ∧ items = body ++ [c] ∧
    n.2.slice.stop = equals ∧ n.2.slice.lexeme = name ∧ name ≠ [] ∧
    o.2.slice.stop = openBrace ∧ o.2.slice.lexeme = [] ∧ c.2.slice.stop = closeBrace ∧
    ∀ m ∈ body, m.2.slice.stop ≠ equals ∧ isBrace m.2.slice.stop = false

/-- The texts of slices that have any. -/
def textsOf (items : List (Nat × Mark)) : List Bytes := items.filterMap fun m => m.2.slice.element.map Prod.snd

/-- The values of every list are returned, each of them once and in their order. -/
def ReturnsLists (a : Text) (t : Tokenizer) : Prop :=
  ∀ name items, a.HasList name items → ∀ vals, getVariable t name = .ok vals →
    (textsOf items).Sublist ((vals.getD []).map fun v => cstr v.val)

/-! ## The values of a list -/

section Sublists

variable {β : Type} {type : β → TokenType} {named : β → Bool}

/-- All values up to the next name are picked. -/
theorem sublist_pickedBy {mid : List β} (post : List β) (hmid : ∀ z ∈ mid, type z ≠ .variable) :
    (mid.filter fun z => type z = .value).Sublist (pickedBy type named true (mid ++ post)) := by
  induction mid with
  | nil => exact List.nil_sublist _
  | cons z mid ih =>
      have hrest := ih fun y hy => hmid y (List.mem_cons_of_mem z hy)
      rw [List.cons_append, pickedBy, if_neg (hmid z List.mem_cons_self)]
      by_cases hval : type z = .value
      · rw [List.filter_cons_of_pos (by simpa using hval), if_pos ⟨rfl, hval⟩]
        exact hrest.cons_cons z
      · rw [List.filter_cons_of_neg (by simpa using hval), if_neg fun h => hval h.2]
        exact hrest

/-- What was before the name is of no account. -/
theorem pickedBy_behind (pre : List β) {d : β} (xs : List β) (hvar : type d = .variable) (hname : named d = true)
    (found : Bool) : (pickedBy type named true xs).Sublist (pickedBy type named found (pre ++ d :: xs)) := by
  induction pre generalizing found with
  | nil =>
      rw [List.nil_append, pickedBy, if_pos hvar, hname]
  | cons y pre ih =>
      rw [List.cons_append, pickedBy]
      split
      · exact ih _
      · split
        · exact (ih found).cons y
        · exact ih found

end Sublists

/-- What is written in the slices of a list is in their tokens. -/
theorem textsOf_sublist {items : List (Nat × Mark)} (hkeeps : ∀ m ∈ items, m.2.Keeps)
    (hstop : ∀ m ∈ items, m.2.slice.stop ≠ equals) :
    (textsOf items).Sublist ((items.filter fun m => m.2.kind = .value).flatMap fun m => m.2.token.map Prod.snd) := by
  unfold textsOf
  induction items with
  | nil => exact List.nil_sublist _
  | cons m items ih =>
      have hrest := ih (fun x hx => hkeeps x (List.mem_cons_of_mem m hx)) fun x hx => hstop x (List.mem_cons_of_mem m hx)
      rw [List.filterMap_cons]
      by_cases hm : m.2.slice.lexeme = []
      · have helem : m.2.slice.element = none := if_pos hm
        rw [helem]
        by_cases hval : m.2.kind = .value
        · rw [List.filter_cons_of_pos (by simpa using hval), List.flatMap_cons]
          exact hrest.trans (List.sublist_append_right _ _)
        · rw [List.filter_cons_of_neg (by simpa using hval)]
          exact hrest
      · have helem : m.2.slice.element = some (typeOf m.2.slice.stop, m.2.slice.lexeme) := if_neg hm
        obtain ⟨hbrace, hexact⟩ := hkeeps m List.mem_cons_self hm
        have hkept := m.2.not_kept_of_lexeme hm
        have htype : typeOf m.2.slice.stop = .value := if_neg (hstop m List.mem_cons_self)
        have hval : m.2.kind = .value := Mark.kind_value.mpr ⟨(Mark.typeOf_value hbrace).mp htype, hkept⟩
        have htoken : m.2.token = [(.value, m.2.slice.lexeme)] := by
          rw [Mark.token_word hbrace, hkept, if_neg Bool.false_ne_true, htype, Mark.word_eq_lexeme.mpr hexact]
        rw [helem, List.filter_cons_of_pos (by simpa using hval), List.flatMap_cons, htoken]
        exact hrest.cons_cons _

/-- **The values of a list** are returned if nothing is lost. -/
theorem returnsLists_of_keeps {a : Text} (h : ∀ m ∈ a.marks, m.Keeps) : ReturnsLists a ⟨noToken :: a.tokens⟩ := by
  intro name items hlist vals hvals
  obtain ⟨pre, n, o, body, c, post, hplaces, rfl, hn, hname, hne, ho, -, hc, hbody⟩ := hlist
  -- the names can be read, as they have been
  obtain ⟨values, hfind, -⟩ := exists_of_bind_ok hvals
  have hread : ∀ t ∈ a.tokens, t.type = .variable → ∃ w, text t = .ok w :=
    fun t ht => findValues_named hfind t (List.mem_cons_of_mem _ ht)
  have hshort := a.namesShort_iff.mp hread
  obtain ⟨found, hfound, hpicked, -⟩ := getVariable_picked name hread
  rw [hfound] at hvals
  cases hvals
  have hmem : ∀ m ∈ a.places, m.2.Keeps := by
    intro m hm
    refine h m.2 ?_
    rw [← a.places_marks]
    exact List.mem_map_of_mem hm
  have hn' : n ∈ a.places := by
    rw [hplaces]
    exact List.mem_append_right _ List.mem_cons_self
  have hcalled : n.2.name = cstr name := by
    have hlexeme : n.2.name = n.2.slice.lexeme :=
      Mark.word_eq_lexeme.mpr (hmem n hn' (by rw [hname]; exact hne)).2
    rw [← hname, ← hlexeme, cstr_name hn']
  have hsub : ((body ++ [c]).filter fun m => m.2.kind = .value).Sublist (a.valuePlaces name) := by
    have hvar : ∀ z ∈ o :: (body ++ [c]), z.2.kind ≠ .variable := by
      intro z hz hz'
      have hstop := Mark.kind_variable.mp hz'
      rcases List.mem_cons.mp hz with rfl | hz
      · rw [ho] at hstop
        cases hstop
      rcases List.mem_append.mp hz with hz | hz
      · exact (hbody z hz).1 hstop
      · rw [List.mem_singleton.mp hz, hc] at hstop
        cases hstop
    have hpick := @sublist_pickedBy (Nat × Mark) (fun y => y.2.kind) (fun y => decide (y.2.name = cstr name)) _ post hvar
    have hbehind := @pickedBy_behind (Nat × Mark) (fun y => y.2.kind) (fun y => decide (y.2.name = cstr name)) pre n
      (o :: (body ++ [c]) ++ post) (Mark.kind_variable.mpr hn) (by simpa using hcalled) false
    have hall : a.places = pre ++ n :: (o :: (body ++ [c]) ++ post) := by
      rw [hplaces]
      simp
    rw [Text.valuePlaces, hall]
    exact (((List.sublist_cons_self o _).filter _).trans hpick).trans hbehind
  have hword : ∀ x ∈ a.valuesOf name, cstr x.2.val = (bare x.2).2 := by
    intro x hx
    have hmem : x.2 ∈ a.tokens := by
      rw [← a.placed_tokens]
      exact List.mem_map_of_mem (pickedBy_value x hx).1
    exact congrArg Prod.snd (IsWord.written (a.isWord_tokens x.2 hmem))
  have htexts : (vals.getD []).map (fun v => cstr v.val) =
      (a.valuePlaces name).flatMap fun y => y.2.token.map Prod.snd := by
    calc (vals.getD []).map (fun v => cstr v.val)
        = (a.valuesOf name).map fun x => (bare x.2).2 := by
          rw [hpicked, ← a.valuesOf_tokens, List.map_map]
          exact List.map_congr_left hword
      _ = ((a.valuesOf name).map fun x => (x.1, located x.2)).map fun z => z.2.2.2 := by
          rw [List.map_map]
          rfl
      _ = (a.valuePlaces name).flatMap fun y => y.2.token.map Prod.snd := by
          rw [a.valuesOf_places hshort, List.map_flatMap]
          apply List.flatMap_congr
          intro y _
          rw [Mark.located, List.map_map, List.map_map]
          rfl
  rw [htexts]
  refine (textsOf_sublist ?_ ?_).trans (hsub.flatMap _)
  · intro m hm
    refine hmem m ?_
    rw [hplaces]
    simp only [List.mem_append, List.mem_cons] at hm ⊢
    tauto
  · intro m hm
    rcases List.mem_append.mp hm with hm | hm
    · exact (hbody m hm).1
    · rw [List.mem_singleton.mp hm, hc]
      decide

/-- **No text is lost**: the names and values that are found are all that are written, each of them once and in their
    order, and those of a list are returned, iff every slice keeps its text. -/
theorem no_text_lost_iff (a : Text) (line : Bytes) :
    (∃ t, loadTokens line (some a.bytes) = .ok t ∧
      (t.tokens.map written).filter (· ∈ a.elements) = a.elements ∧ ReturnsLists a t) ↔
      a.Fits ∧ ∀ m ∈ a.marks, m.Keeps := by
  have hnone : written noToken ∉ a.elements := by
    intro h
    have hne := (mem_elements h).ne
    exact hne (by decide)
  rw [exists_loadTokens a line fun t => (t.tokens.map written).filter (· ∈ a.elements) = a.elements ∧ ReturnsLists a t,
    a.fits_iff]
  apply and_congr_right
  intro _
  have hfound : ((noToken :: a.tokens).map written).filter (· ∈ a.elements) = a.elements ↔ ∀ m ∈ a.marks, m.Keeps := by
    rw [List.map_cons, List.filter_cons_of_neg (by simpa using hnone), a.written_tokens]
    exact all_found_iff (fun x hx => mem_elements hx) a.marks_ok fun x hx => hx
  exact ⟨fun h => hfound.mp h.1, fun h => ⟨hfound.mpr h, returnsLists_of_keeps h⟩⟩

/-- The line `devices={a,b}`. -/
def bracedText : Text :=
  ⟨[[100, 101, 118, 105, 99, 101, 115, equals, openBrace, 97, comma, 98, closeBrace]], by decide,
    by simp [NulFree, equals, openBrace, comma, closeBrace], by decide⟩

/-- The last value is followed by the brace, and is lost. -/
theorem text_lost : ¬ ∃ t, loadTokens [] (some bracedText.bytes) = .ok t ∧
    (t.tokens.map written).filter (· ∈ bracedText.elements) = bracedText.elements ∧ ReturnsLists bracedText t := by
  rintro ⟨t, hload, hfound, -⟩
  obtain ⟨-, ht⟩ := (exists_loadTokens bracedText [] (· = t)).mp ⟨t, hload, rfl⟩
  subst ht
  revert hfound
  decide +kernel

end IOSwitch.Tokenizer
