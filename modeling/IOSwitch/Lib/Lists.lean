import Mathlib.Tactic.Common
import Mathlib.Data.List.Basic
import Mathlib.Data.List.Infix

/-!
# `Lib.Lists` — lists as tables

A table of threads, devices or peers is a list whose entries are replaced (`set`), changed (`modify`) and
appended. These are the facts about one such change: which entry is found afterwards, and what the change
leaves of the image of the table.
-/

namespace Lib

variable {α β : Type} {l l' : List α} {i j n : Nat} {a b : α}

/-- An element of an extended list is an old one, or it stands in the extension. -/
theorem getElem?_append_cases (h : (l ++ l')[i]? = some a) :
    l[i]? = some a ∨ (l.length ≤ i ∧ l'[i - l.length]? = some a) := by
  rcases Nat.lt_or_ge i l.length with hi | hi
  · exact Or.inl (by rwa [List.getElem?_append_left hi] at h)
  · exact Or.inr ⟨hi, by rwa [List.getElem?_append_right hi] at h⟩

/-- An element of a list with one entry replaced is the new one, or one from before. -/
theorem getElem?_set_cases (h : (l.set j b)[i]? = some a) :
    (i = j ∧ a = b) ∨ (i ≠ j ∧ l[i]? = some a) := by
  by_cases hij : i = j
  · subst hij
    have hlt : i < l.length := by simpa using (List.getElem?_eq_some_iff.mp h).1
    rw [List.getElem?_set_self hlt] at h
    exact Or.inl ⟨rfl, (Option.some.inj h).symm⟩
  · rw [List.getElem?_set_ne (Ne.symm hij)] at h
    exact Or.inr ⟨hij, h⟩

/-- Putting back what is there changes nothing. -/
theorem set_same (h : l[i]? = some a) : l.set i a = l := by
  obtain ⟨hlt, rfl⟩ := List.getElem?_eq_some_iff.mp h
  exact List.set_getElem_self hlt

/-- Replacing an entry by one with the same image leaves the image of the table. -/
theorem map_set_same {f : α → β} (h : l[i]? = some a) (hf : f b = f a) : (l.set i b).map f = l.map f := by
  rw [List.map_set, hf, ← List.map_set, set_same h]

/-- A change that is a change `f'` of the image. -/
theorem map_modify (l : List α) (i : Nat) (f : α → α) (g : α → β) (f' : β → β) (h : ∀ a, g (f a) = f' (g a)) :
    (l.modify i f).map g = (l.map g).modify i f' := by
  apply List.ext_getElem?
  intro k
  rw [List.getElem?_map, List.getElem?_modify, List.getElem?_modify, List.getElem?_map]
  cases l[k]? with
  | none => rfl
  | some a => by_cases hik : i = k <;> simp [hik, h]

/-- The entry appended last is changed. -/
theorem modify_last (l : List α) (a : α) (f : α → α) : (l ++ [a]).modify l.length f = l ++ [f a] := by
  induction l with
  | nil => rfl
  | cons b l ih => exact congrArg (b :: ·) ih

/-- What is taken from the front of a list is taken from its continuations. -/
theorem take_of_prefix (h : l <+: l') (hn : n ≤ l.length) : l'.take n = l.take n := by
  obtain ⟨rest, rfl⟩ := h
  exact List.take_append_of_le_length hn

/-- Where no piece is longer than its counterpart, two lists made of pieces are equal only piece by piece. -/
theorem flatMap_eq_iff {f g : α → List β} (h : ∀ a ∈ l, (f a).length ≤ (g a).length) :
    l.flatMap f = l.flatMap g ↔ ∀ a ∈ l, f a = g a := by
  have hle : ∀ l : List α, (∀ a ∈ l, (f a).length ≤ (g a).length) → (l.flatMap f).length ≤ (l.flatMap g).length := by
    intro l h
    induction l with
    | nil => exact Nat.le_refl 0
    | cons a l ih =>
        rw [List.flatMap_cons, List.flatMap_cons, List.length_append, List.length_append]
        exact Nat.add_le_add (h a List.mem_cons_self) (ih fun b hb => h b (List.mem_cons_of_mem a hb))
  refine ⟨fun heq => ?_, List.flatMap_congr⟩
  induction l with
  | nil => exact fun a ha => absurd ha List.not_mem_nil
  | cons a l ih =>
      have hrest : ∀ b ∈ l, (f b).length ≤ (g b).length := fun b hb => h b (List.mem_cons_of_mem a hb)
      have hsum := congrArg List.length heq
      have hhere := h a List.mem_cons_self
      have hthere := hle l hrest
      rw [List.flatMap_cons, List.flatMap_cons] at heq hsum
      rw [List.length_append, List.length_append] at hsum
      obtain ⟨hfirst, hothers⟩ := List.append_inj heq (by omega)
      exact List.forall_mem_cons.mpr ⟨hfirst, ih hrest hothers⟩

/-- Two counts of which the first leaves nothing out of the second, unless they count the same. -/
theorem countP_eq_iff {p q : α → Bool} (h : ∀ a ∈ l, q a = true → p a = true) :
    l.countP p = l.countP q ↔ ∀ a ∈ l, p a = true → q a = true := by
  constructor
  · intro heq
    induction l with
    | nil => exact fun a ha => absurd ha List.not_mem_nil
    | cons a l ih =>
        have hrest : ∀ b ∈ l, q b = true → p b = true := fun b hb => h b (List.mem_cons_of_mem a hb)
        have hle := List.countP_mono_left hrest
        have hhere := h a List.mem_cons_self
        rw [List.countP_cons, List.countP_cons] at heq
        cases hp : p a with
        | false =>
            -- the head counts for neither
            have hq : ¬ q a = true := by
              intro hq
              rw [hhere hq] at hp
              cases hp
            rw [if_neg (by simp [hp]), if_neg hq, Nat.add_zero, Nat.add_zero] at heq
            exact List.forall_mem_cons.mpr ⟨fun hpa => by simp [hp] at hpa, ih hrest heq⟩
        | true =>
            have hq : q a = true := by
              by_contra hq
              rw [if_pos hp, if_neg hq] at heq
              omega
            rw [if_pos hp, if_pos hq] at heq
            exact List.forall_mem_cons.mpr ⟨fun _ => hq, ih hrest (Nat.add_right_cancel heq)⟩
  · intro hback
    exact List.countP_congr fun a ha => ⟨hback a ha, h a ha⟩

/-- What is listed for the entries, without their numbers. -/
theorem zipIdx_flatMap_snd (f : α → List β) (l : List α) :
    (l.zipIdx.flatMap fun x => (f x.1).map (x.2, ·)).map Prod.snd = l.flatMap f := by
  have hentry : ∀ x : α × Nat, ((f x.1).map (x.2, ·)).map Prod.snd = f x.1 := by
    intro x
    rw [List.map_map]
    exact List.map_id _
  rw [List.map_flatMap]
  simp only [hentry]
  rw [← List.flatMap_map Prod.fst f, List.zipIdx_map_fst]

/-- A partial function that is defined on all entries. -/
theorem map_of_mapM {f : α → Option β} {bs : List β} (h : l.mapM f = some bs) : l.map f = bs.map some := by
  induction l generalizing bs with
  | nil =>
      cases h
      rfl
  | cons a l ih =>
      rw [List.mapM_cons, Option.bind_eq_bind, Option.bind_eq_some_iff] at h
      obtain ⟨b, ha, h⟩ := h
      rw [Option.bind_eq_bind, Option.bind_eq_some_iff] at h
      obtain ⟨bs', hl, h⟩ := h
      cases h
      rw [List.map_cons, List.map_cons, ha, ih hl]

theorem mapM_of_map {f : α → Option β} {bs : List β} (h : l.map f = bs.map some) : l.mapM f = some bs := by
  induction l generalizing bs with
  | nil =>
      cases bs with
      | nil => rfl
      | cons b bs => cases h
  | cons a l ih =>
      cases bs with
      | nil => cases h
      | cons b bs =>
          obtain ⟨ha, hl⟩ := List.cons.inj h
          rw [List.mapM_cons, ha, ih hl]
          rfl

end Lib
