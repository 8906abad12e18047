import IOSwitch.Lib.Prog

/-!
# `Lib.Feed` — a program that is fed by its surroundings

`Prog` leaves the answers to its calls open. An `Env` gives them: it answers a call in a state of its own, or leaves
it waiting. Against an environment a program has one outcome (`Prog.runIn`), and so has the loop of a thread
(`Thread.runIn`), which stops in front of the block whose call is left waiting.
-/

namespace Lib

variable {I : Interface} {α β σ L : Type}

/-- How the surroundings answer a call; `none` if they let it wait. -/
abbrev Env (I : Interface) (σ : Type) := (c : I.Call) → σ → Option (I.Resp c × σ)

/-- The program is run until it returns; `none` if one of its calls is left waiting. -/
def Prog.runIn (env : Env I σ) : Prog I α → σ → Option (α × σ)
  | .ret a, s    => some (a, s)
  | .call c k, s => (env c s).bind fun r => (k r.1).runIn env r.2

/-- At most `n` blocks of a flowchart, from label `l` on: the label that is reached. -/
def Thread.runIn (env : Env I σ) (code : L → Prog I L) : Nat → L → σ → L × σ
  | 0, l, s     => (l, s)
  | n + 1, l, s =>
      match (code l).runIn env s with
      | none         => (l, s)
      | some (l', s') => Thread.runIn env code n l' s'

section Runs

variable {env : Env I σ} {code : L → Prog I L} {l l' : L} {s s' : σ} {n : Nat}

theorem Thread.runIn_step (h : (code l).runIn env s = some (l', s')) :
    Thread.runIn env code (n + 1) l s = Thread.runIn env code n l' s' := by
  rw [Thread.runIn, h]

theorem Thread.runIn_wait (h : (code l).runIn env s = none) : Thread.runIn env code n l s = (l, s) := by
  cases n with
  | zero => rfl
  | succ n => rw [Thread.runIn, h]

/-- A block that comes back to its label and asks for nothing is the end of the thread. -/
theorem Thread.runIn_end (h : (code l).runIn env s = some (l, s)) : Thread.runIn env code n l s = (l, s) := by
  induction n with
  | zero => rfl
  | succ n ih => rw [runIn_step h, ih]

variable [DecidableEq I.Call] [DecidableEq L]

variable (code l) in
/-- A program that is fed is a thread that makes its calls and takes these answers. -/
theorem Thread.run_prog {p : Prog I L} (h : p.runIn env s = some (l', s')) :
    ∃ tr, Run (Alone code) ⟨l, p⟩ tr ⟨l, .ret l'⟩ := by
  induction p generalizing s with
  | ret a =>
      cases h
      exact ⟨[], Run.nil⟩
  | call c k ih =>
      obtain ⟨r, -, hrest⟩ := Option.bind_eq_some_iff.mp h
      obtain ⟨tr, hrun⟩ := ih r.1 hrest
      refine ⟨.did c r.1 :: tr, Run.cons ?_ hrun⟩
      exact fire_did.mpr ⟨k, rfl, rfl⟩

/-- **The outcome is one of the thread's own runs**, so that whatever holds of them all holds of it. -/
theorem Thread.run_runIn (n : Nat) (l : L) (s : σ) :
    ∃ tr, Run (Alone code) (start code l) tr (start code (Thread.runIn env code n l s).1) := by
  induction n generalizing l s with
  | zero => exact ⟨[], Run.nil⟩
  | succ n ih =>
      rw [Thread.runIn]
      cases hblock : (code l).runIn env s with
      | none => exact ⟨[], Run.nil⟩
      | some r =>
          obtain ⟨tr, hprog⟩ := run_prog code l hblock
          obtain ⟨tr', hrest⟩ := ih r.1 r.2
          have hjump : Alone code ⟨l, .ret r.1⟩ (.jump r.1) (start code r.1) := fire_jump.mpr ⟨rfl, rfl⟩
          exact ⟨tr ++ (.jump r.1 :: tr'), hprog.append (Run.cons hjump hrest)⟩

end Runs

end Lib
