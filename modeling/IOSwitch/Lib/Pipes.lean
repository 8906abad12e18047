import IOSwitch.Lib.Lts
import Mathlib.Logic.Function.Basic

/-!
# `Lib.Pipes` — first-in first-out pipes

A pipe for every key: values are put in at one end and taken out at the other, in order, and nothing else happens.
`books` is what that means for a run: what was put in is what was taken out, and then what is in the pipe. Conversely
a run can go on with any event after which no more has been taken out of a pipe than was put in (`run_snoc`), which is how
another system is shown to behave like pipes.
-/

namespace Lib

variable {κ α : Type}

/-- The contents of the pipes, the oldest value first. -/
abbrev Pipes (κ α : Type) := κ → List α

/-- The value `a` is put into the pipe `k`, or taken out of it. -/
inductive PipeEvent (κ α : Type) where
  | put (k : κ) (a : α)
  | take (k : κ) (a : α)

namespace PipeEvent

variable [DecidableEq κ]

/-- The value put into the pipe `k`. -/
def putTo (k : κ) : PipeEvent κ α → Option α
  | put k' a  => if k' = k then some a else none
  | take _ _ => none

/-- The value taken out of the pipe `k`. -/
def takenFrom (k : κ) : PipeEvent κ α → Option α
  | put _ _  => none
  | take k' a => if k' = k then some a else none

end PipeEvent

namespace Pipes

variable [DecidableEq κ] {s s' : Pipes κ α} {e : PipeEvent κ α} {tr : List (PipeEvent κ α)}

/-- Before anything is put in. -/
def empty : Pipes κ α := fun _ => []

inductive Step (s : Pipes κ α) : PipeEvent κ α → Pipes κ α → Prop where
  | put (k : κ) (a : α) : Step s (.put k a) (Function.update s k (s k ++ [a]))
  | take {k : κ} {a : α} {rest : List α} (h : s k = a :: rest) : Step s (.take k a) (Function.update s k rest)

/-- The values put into the pipe `k`, in order. -/
def puts (k : κ) (tr : List (PipeEvent κ α)) : List α := tr.filterMap (·.putTo k)

/-- The values taken out of the pipe `k`, in order. -/
def takes (k : κ) (tr : List (PipeEvent κ α)) : List α := tr.filterMap (·.takenFrom k)

theorem puts_append (k : κ) (tr tr' : List (PipeEvent κ α)) : puts k (tr ++ tr') = puts k tr ++ puts k tr' :=
  List.filterMap_append

theorem takes_append (k : κ) (tr tr' : List (PipeEvent κ α)) : takes k (tr ++ tr') = takes k tr ++ takes k tr' :=
  List.filterMap_append

theorem puts_single (k : κ) (e : PipeEvent κ α) : puts k [e] = (e.putTo k).toList := by
  rw [puts, List.filterMap_cons]
  cases e.putTo k <;> rfl

theorem takes_single (k : κ) (e : PipeEvent κ α) : takes k [e] = (e.takenFrom k).toList := by
  rw [takes, List.filterMap_cons]
  cases e.takenFrom k <;> rfl

/-- What a step puts in comes last, and what it takes out came first. -/
theorem step_books (h : Step s e s') (k : κ) : s k ++ puts k [e] = takes k [e] ++ s' k := by
  rw [puts_single, takes_single]
  cases h with
  | put k' a =>
      by_cases hk : k' = k
      · subst hk
        simp [PipeEvent.putTo, PipeEvent.takenFrom]
      · simp [PipeEvent.putTo, PipeEvent.takenFrom, hk, Function.update_of_ne (Ne.symm hk)]
  | @take k' a rest h =>
      by_cases hk : k' = k
      · subst hk
        simp [PipeEvent.putTo, PipeEvent.takenFrom, h]
      · simp [PipeEvent.putTo, PipeEvent.takenFrom, hk, Function.update_of_ne (Ne.symm hk)]

/-- **First in, first out.** What was put into a pipe is what was taken out of it, then what is in it. -/
theorem books (h : Run Step empty tr s) (k : κ) : puts k tr = takes k tr ++ s k := by
  induction h with
  | nil => rfl
  | @snoc tr e a b _ hs ih =>
      rw [puts_append, takes_append, ih, List.append_assoc, List.append_assoc, step_books hs]

/-- A run goes on with `e` unless more would be taken out than was put in. -/
theorem run_snoc (h : Run Step empty tr s) (hle : ∀ k, takes k (tr ++ [e]) <+: puts k (tr ++ [e])) :
    ∃ s', Run Step empty (tr ++ [e]) s' := by
  cases e with
  | put k a => exact ⟨_, h.snoc (.put k a)⟩
  | take k a =>
      have htake := hle k
      rw [puts_append, takes_append, puts_single, takes_single, books h k] at htake
      simp only [PipeEvent.putTo, PipeEvent.takenFrom, if_pos, Option.toList_none, Option.toList_some,
        List.append_nil] at htake
      obtain ⟨rest, hrest⟩ := (List.prefix_append_right_inj _).mp htake
      exact ⟨_, h.snoc (.take hrest.symm)⟩

end Pipes

end Lib
