import Mathlib.Algebra.Ring.Nat
import Mathlib.Tactic.Common
import Mathlib.Data.List.Infix

/-!
# `Lib.Lts` — labelled transition systems and their runs

A system is a step relation `Step : σ → ε → σ → Prop` between states, labelled by what the step shows. A run
is a finite sequence of steps; its **trace** is the list of labels. All statements about "every
interleaving" are statements about every run.

## Contents
- **Runs.** `Run`, single steps, concatenation, and `execs`, which computes the state a trace leads to when
  the labels determine the steps (so that a concrete run is found by evaluation, `Run.exists_of_execs`).
- **Invariants.** `Run.invariant` and `Run.history` (the invariant may mention the trace so far).
- **Conditions on steps.** `Restrict ok Step` keeps the steps that meet a condition on the state before them;
  `Run.restrict_iff` is the rule for "the property holds throughout a run iff all its steps meet the
  condition".
- **Parts.** `Run.project` is the run of a part of the system, `Run.embed` the way back.
- **Hidden steps.** An `Erasure` takes the hidden steps out of every run (`Erasure.run`).
- **What is seen.** `Observed` is a run with what its steps show, where that depends on the state too.
-/

namespace Lib

variable {σ ε : Type}

/-- `Run Step s tr s'`: the steps with labels `tr` lead from `s` to `s'`. -/
inductive Run (Step : σ → ε → σ → Prop) (s : σ) : List ε → σ → Prop where
  | nil : Run Step s [] s
  | snoc {tr e s' s''} : Run Step s tr s' → Step s' e s'' → Run Step s (tr ++ [e]) s''

/-- The steps of `Step` that are taken from a state where they meet `ok`. -/
def Restrict (ok : σ → ε → Prop) (Step : σ → ε → σ → Prop) (s : σ) (e : ε) (s' : σ) : Prop :=
  ok s e ∧ Step s e s'

namespace Run

variable {Step : σ → ε → σ → Prop} {s s' s'' : σ} {tr tr' : List ε} {e : ε}

theorem single (h : Step s e s') : Run Step s [e] s' := nil.snoc h

theorem append (h : Run Step s tr s') (h' : Run Step s' tr' s'') : Run Step s (tr ++ tr') s'' := by
  induction h' with
  | nil => rw [List.append_nil]; exact h
  | snoc _ hs ih => rw [← List.append_assoc]; exact ih.snoc hs

theorem cons (h : Step s e s') (h' : Run Step s' tr s'') : Run Step s (e :: tr) s'' :=
  (single h).append h'

/-- A run with a last step is a run and that step. -/
theorem snoc_inv (h : Run Step s (tr ++ [e]) s'') : ∃ s', Run Step s tr s' ∧ Step s' e s'' := by
  generalize hl : tr ++ [e] = l at h
  cases h with
  | nil => simp at hl
  | snoc h hs =>
      obtain ⟨rfl, he⟩ := List.append_inj' hl rfl
      obtain rfl : e = _ := List.singleton_inj.mp he
      exact ⟨_, h, hs⟩

/-- Runs of a system are runs of any system with more steps. -/
theorem mono {Step' : σ → ε → σ → Prop} (hsub : ∀ a e b, Step a e b → Step' a e b)
    (h : Run Step s tr s') : Run Step' s tr s' := by
  induction h with
  | nil => exact nil
  | snoc _ hs ih => exact ih.snoc (hsub _ _ _ hs)

theorem of_restrict {ok : σ → ε → Prop} (h : Run (Restrict ok Step) s tr s') : Run Step s tr s' :=
  h.mono fun _ _ _ hs => hs.2

/-- A run whose labels meet the condition in every state meets it. -/
theorem restrict {ok : σ → ε → Prop} (h : Run Step s tr s') (hok : ∀ e ∈ tr, ∀ a, ok a e) :
    Run (Restrict ok Step) s tr s' := by
  induction h with
  | nil => exact nil
  | snoc _ hs ih =>
      have hlast := hok _ (List.mem_append_right _ List.mem_cons_self)
      exact (ih fun e he => hok e (List.mem_append_left _ he)).snoc ⟨hlast _, hs⟩

/-- **Invariant rule.** What holds at the start and is kept by every step holds at the end. -/
theorem invariant {I : σ → Prop} (h : Run Step s tr s') (h0 : I s)
    (hstep : ∀ a e b, I a → Step a e b → I b) : I s' := by
  induction h with
  | nil => exact h0
  | snoc _ hs ih => exact hstep _ _ _ ih hs

/-- **Invariant rule with history.** The invariant may speak of the labels seen so far. -/
theorem history {I : List ε → σ → Prop} (h : Run Step s tr s') (h0 : I [] s)
    (hstep : ∀ tr a e b, I tr a → Step a e b → I (tr ++ [e]) b) : I tr s' := by
  induction h with
  | nil => exact h0
  | snoc _ hs ih => exact hstep _ _ _ _ ih hs

/-- **Rule for a part.** If the steps that concern a part of the system are its steps, and the others leave it alone,
    then a run of the system is one of the part. -/
theorem project {τ δ : Type} {Step' : τ → δ → τ → Prop} {f : σ → τ} {g : ε → Option δ} (h : Run Step s tr s')
    (hnone : ∀ a e b, Step a e b → g e = none → f b = f a)
    (hsome : ∀ a e b d, Step a e b → g e = some d → Step' (f a) d (f b)) :
    Run Step' (f s) (tr.filterMap g) (f s') := by
  induction h with
  | nil => exact nil
  | @snoc tr e a b _ hs ih =>
      rw [List.filterMap_append]
      cases he : g e with
      | none =>
          rw [hnone a e b hs he]
          simpa [he] using ih
      | some d => simpa [he] using ih.snoc (hsome a e b d hs he)

/-- **Rule for a whole.** If the steps of a part are, with the rest as it is, steps of the system, then a run of the part
    is one of the system. -/
theorem embed {τ δ : Type} {Step' : τ → δ → τ → Prop} {f : σ → τ} {g : ε → δ} (h : Run Step s tr s')
    (hstep : ∀ a b, ∀ e ∈ tr, Step a e b → Step' (f a) (g e) (f b)) : Run Step' (f s) (tr.map g) (f s') := by
  induction h with
  | nil => exact nil
  | @snoc tr e a b _ hs ih =>
      rw [List.map_append]
      have hbefore := ih fun a b e he => hstep a b e (List.mem_append_left _ he)
      exact hbefore.snoc (hstep _ _ e (List.mem_append_right _ List.mem_cons_self) hs)

section Deterministic

variable (hdet : ∀ a e b b', Step a e b → Step a e b' → b = b')
include hdet

/-- When labels determine steps, a trace leads to one state. -/
theorem unique {s₁ s₂ : σ} (h₁ : Run Step s tr s₁) (h₂ : Run Step s tr s₂) : s₁ = s₂ := by
  induction h₁ generalizing s₂ with
  | nil =>
      generalize hl : ([] : List ε) = l at h₂
      cases h₂ with
      | nil => rfl
      | snoc _ _ => simp at hl
  | snoc _ hs ih =>
      obtain ⟨a, ha, has⟩ := h₂.snoc_inv
      obtain rfl := ih ha
      exact hdet _ _ _ _ hs has

/-- **Exactness rule.** Let `I` be an invariant under which a step from a good state leads to a good state iff
    it meets `ok`. Then a run visits good states only iff all its steps meet `ok`. -/
theorem restrict_iff {I P : σ → Prop} {ok : σ → ε → Prop} (h : Run Step s tr s')
    (h0 : I s) (hP : P s) (hI : ∀ a e b, I a → Step a e b → I b)
    (hex : ∀ a e b, I a → P a → Step a e b → (ok a e ↔ P b)) :
    (∀ tr₁ s₁, tr₁ <+: tr → Run Step s tr₁ s₁ → P s₁) ↔ Run (Restrict ok Step) s tr s' := by
  induction h with
  | nil =>
      refine ⟨fun _ => nil, ?_⟩
      intro _ tr₁ s₁ hpre hrun
      obtain rfl := List.prefix_nil.mp hpre
      exact hrun.unique hdet nil ▸ hP
  | @snoc tr e a b hrun hs ih =>
      constructor
      · intro hall
        -- the states before the last one are good, so the steps before it are legal
        have hgood := ih.mp fun tr₁ s₁ hpre => hall tr₁ s₁ (hpre.trans (List.prefix_append _ _))
        have hPa : P a := hall tr a (List.prefix_append _ _) hrun
        have hPb : P b := hall _ b (List.prefix_refl _) (hrun.snoc hs)
        have hIa : I a := hrun.invariant h0 hI
        exact hgood.snoc ⟨(hex a e b hIa hPa hs).mpr hPb, hs⟩
      · intro hok tr₁ s₁ hpre hrun₁
        obtain ⟨a', hgood, hok', hs'⟩ := hok.snoc_inv
        -- the restricted run goes through the same states as the given one
        obtain rfl := hrun.unique hdet hgood.of_restrict
        have hbefore := ih.mpr hgood
        rcases List.prefix_concat_iff.mp hpre with rfl | hpre
        · obtain rfl := (hrun.snoc hs).unique hdet hrun₁
          have hPa : P a := hbefore tr a (List.prefix_refl _) hrun
          exact (hex a e b (hrun.invariant h0 hI) hPa hs).mp hok'
        · exact hbefore tr₁ s₁ hpre hrun₁

end Deterministic

end Run

/-! ## Hidden steps -/

/-- `R` relates a system to one in which the hidden steps do not happen: they keep it, and the others can be followed. -/
structure Erasure {τ : Type} (Step : σ → ε → σ → Prop) (Step' : τ → ε → τ → Prop) (hidden : ε → Bool)
    (R : σ → τ → Prop) : Prop where
  hide : ∀ s e s' t, hidden e = true → R s t → Step s e s' → R s' t
  keep : ∀ s e s' t, hidden e = false → R s t → Step s e s' → ∃ t', Step' t e t' ∧ R s' t'

/-- **Erasure rule.** A run without its hidden steps is a run of the other system. -/
theorem Erasure.run {τ : Type} {Step : σ → ε → σ → Prop} {Step' : τ → ε → τ → Prop} {hidden : ε → Bool}
    {R : σ → τ → Prop} (hR : Erasure Step Step' hidden R) {s s' : σ} {t : τ} {tr : List ε} (h : Run Step s tr s')
    (h0 : R s t) : ∃ t', Run Step' t (tr.filter fun e => !hidden e) t' ∧ R s' t' := by
  induction h with
  | nil => exact ⟨t, .nil, h0⟩
  | @snoc tr e a b _ hs ih =>
      obtain ⟨t₁, hrun, ha⟩ := ih
      rw [List.filter_append]
      cases he : hidden e with
      | true =>
          refine ⟨t₁, ?_, hR.hide _ _ _ _ he ha hs⟩
          simpa [he] using hrun
      | false =>
          obtain ⟨t₂, hstep, hb⟩ := hR.keep _ _ _ _ he ha hs
          refine ⟨t₂, ?_, hb⟩
          simpa [he] using hrun.snoc hstep

/-! ## What is seen of a run -/

/-- The steps with labels `tr` lead from `s` to `s'` and show `seen`: of a step from a state what `shows` says. -/
inductive Observed {δ : Type} (Step : σ → ε → σ → Prop) (shows : σ → ε → Option δ) (s : σ) :
    List ε → List δ → σ → Prop where
  | nil : Observed Step shows s [] [] s
  | snoc {tr seen e s' s''} : Observed Step shows s tr seen s' → Step s' e s'' →
      Observed Step shows s (tr ++ [e]) (seen ++ (shows s' e).toList) s''

namespace Observed

variable {δ : Type} {Step : σ → ε → σ → Prop} {shows : σ → ε → Option δ} {s s' : σ} {tr : List ε} {seen : List δ}

theorem run (h : Observed Step shows s tr seen s') : Run Step s tr s' := by
  induction h with
  | nil => exact .nil
  | snoc _ hs ih => exact ih.snoc hs

/-- Every run can be observed. -/
theorem of_run (h : Run Step s tr s') : ∃ seen, Observed Step shows s tr seen s' := by
  induction h with
  | nil => exact ⟨[], .nil⟩
  | snoc _ hs ih =>
      obtain ⟨seen, hw⟩ := ih
      exact ⟨_, hw.snoc hs⟩

end Observed

/-! ## Executable systems -/

/-- The state that the labels `tr` lead to, when the step is a function of the label. -/
def execs (step : σ → ε → Option σ) : σ → List ε → Option σ
  | s, []      => some s
  | s, e :: tr => (step s e).bind fun s' => execs step s' tr

theorem Run.of_execs {step : σ → ε → Option σ} {s s' : σ} {tr : List ε}
    (h : execs step s tr = some s') : Run (fun a e b => step a e = some b) s tr s' := by
  induction tr generalizing s with
  | nil => cases h; exact nil
  | cons e tr ih =>
      obtain ⟨a, ha, h⟩ := Option.bind_eq_some_iff.mp h
      exact Run.cons ha (ih h)

/-- A run is found by evaluating what is to be known of its last state. -/
theorem Run.exists_of_execs {β : Type} {step : σ → ε → Option σ} {s : σ} {tr : List ε} {f : σ → β} {v : β}
    (h : (execs step s tr).map f = some v) : ∃ s', Run (fun a e b => step a e = some b) s tr s' ∧ f s' = v := by
  obtain ⟨s', hs, hv⟩ := Option.map_eq_some_iff.mp h
  exact ⟨s', of_execs hs, hv⟩

/-- A step function cut down to the steps that meet a condition. -/
def guarded (ok : σ → ε → Prop) [∀ s e, Decidable (ok s e)] (step : σ → ε → Option σ) (s : σ) (e : ε) : Option σ :=
  if ok s e then step s e else none

/-- Likewise for a run whose steps meet a condition. -/
theorem Run.exists_of_execs_guarded {β : Type} {ok : σ → ε → Prop} [∀ s e, Decidable (ok s e)]
    {step : σ → ε → Option σ} {s : σ} {tr : List ε} {f : σ → β} {v : β}
    (h : (execs (guarded ok step) s tr).map f = some v) :
    ∃ s', Run (Restrict ok fun a e b => step a e = some b) s tr s' ∧ f s' = v := by
  obtain ⟨s', hrun, hv⟩ := exists_of_execs h
  refine ⟨s', hrun.mono fun a e b hs => ?_, hv⟩
  unfold guarded at hs
  split at hs
  · exact ⟨‹_›, hs⟩
  · cases hs

end Lib
