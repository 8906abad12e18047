/-!
# `Lib.Layers` — settings from several sources

A `Layer` is what one source says about the settings: a value, or nothing. Layers are laid above each other (`above`),
and in the end onto a full set of defaults (`onto`). Two sources may be read in either order iff they are `Compatible`.
-/

namespace Lib

/-- What a source says about each setting, if anything. -/
abbrev Layer {κ : Type} (V : κ → Type) := (k : κ) → Option (V k)

namespace Layer

variable {κ : Type} {V : κ → Type} {a b : Layer V}

/-- Both, where `a` goes first. -/
def above (a b : Layer V) : Layer V := fun k => (a k).or (b k)

/-- The settings in force, which are those of `d` where nothing is said. -/
def onto (a : Layer V) (d : (k : κ) → V k) : (k : κ) → V k := fun k => (a k).getD (d k)

/-- No setting is given two values. -/
def Compatible (a b : Layer V) : Prop := ∀ k x y, a k = some x → b k = some y → x = y

theorem above_apply (a b : Layer V) (k : κ) : a.above b k = (a k).or (b k) := rfl

theorem onto_apply (a : Layer V) (d : (k : κ) → V k) (k : κ) : a.onto d k = (a k).getD (d k) := rfl

/-- Layers are applied one after the other. -/
theorem above_onto (a b : Layer V) (d : (k : κ) → V k) : (a.above b).onto d = a.onto (b.onto d) := by
  funext k
  rw [onto_apply, onto_apply, onto_apply, above_apply]
  cases a k <;> rfl

/-- **Order of sources.** It does not matter iff they are compatible. -/
theorem above_comm_iff {d : (k : κ) → V k} : (a.above b).onto d = (b.above a).onto d ↔ Compatible a b := by
  constructor
  · intro h k x y hx hy
    have hk := congrFun h k
    rw [onto_apply, onto_apply, above_apply, above_apply, hx, hy] at hk
    exact hk
  · intro h
    funext k
    rw [onto_apply, onto_apply, above_apply, above_apply]
    cases hx : a k with
    | none => cases b k <;> rfl
    | some x =>
        cases hy : b k with
        | none => rfl
        | some y => exact h k x y hx hy

end Layer

end Lib
