import IOSwitch.Lib.Lts
import Mathlib.Tactic.Common

/-!
# `Lib.Prog` — programs over a call interface

A thread of a C program is sequential code that, now and then, asks its surroundings for something: a
mutex, a byte from a socket, the value of a shared variable. `Prog I α` is that code with the questions
left open: a tree whose nodes are the **calls** of the interface `I` and whose branches are the answers.
Nothing here fixes what a call does; the system that runs the threads does that.

## Contents
- **Programs.** `Prog`, its monad (so that code is written in `do` notation) and the bind equations.
- **Contracts.** A `Contract` says, over a ghost state, which calls are allowed (`pre`) and which answers
  and ghost successors may follow (`post`). `wp` is the weakest precondition, with its rules
  (`wp_bind`, `wp_seq`, `wp_mono`, `wp_neutral`, `wp_keeps`, `wp_within`, `wp_represent`).
- **Threads.** Code with loops is a flowchart: a map from labels to straight blocks, each of which ends by
  naming the next label. `Thread.fire` is one step; `Thread.Ok` is the invariant a verified flowchart keeps
  (`Ok.jump`, `Ok.did`, `Ok.pre`).
- **A thread alone.** `Thread.Alone` is the step relation of one thread, with any answers. Under the contract
  `history` the ghost state is the list of its calls so far; `ok_alone` is the rule for its runs.
-/

namespace Lib

/-- The calls a program may make, and the type of the answers to each. -/
structure Interface where
  Call : Type
  Resp : Call → Type

/-- Sequential code over `I`: either it has returned, or it waits for the answer to a call. -/
inductive Prog (I : Interface) (α : Type) where
  | ret (a : α)
  | call (c : I.Call) (k : I.Resp c → Prog I α)

namespace Prog

variable {I : Interface} {α β γ : Type}

/-- Sequencing: `f` goes on from every value that `p` returns. -/
def bind : Prog I α → (α → Prog I β) → Prog I β
  | ret a, f    => f a
  | call c k, f => call c fun r => (k r).bind f

instance : Monad (Prog I) where
  pure := ret
  bind := bind

/-- The program that makes one call and returns its answer. -/
def perform (c : I.Call) : Prog I (I.Resp c) := call c ret

/-- The call that the program waits for. -/
def next : Prog I α → Option I.Call
  | ret _    => none
  | call c _ => some c

theorem next_eq {p : Prog I α} {c : I.Call} (h : p.next = some c) : ∃ k, p = call c k := by
  cases p with
  | ret a => cases h
  | call c' k => cases h; exact ⟨k, rfl⟩

/-- What is left of the program when its call `c` has been answered with `r`. -/
def answer [DecidableEq I.Call] (c : I.Call) (r : I.Resp c) : Prog I α → Option (Prog I α)
  | ret _     => none
  | call c' k => if h : c = c' then some (k (h ▸ r)) else none

theorem answer_eq [DecidableEq I.Call] {c : I.Call} {r : I.Resp c} {p q : Prog I α} (h : p.answer c r = some q) :
    ∃ k, p = call c k ∧ q = k r := by
  cases p with
  | ret a => cases h
  | call c' k =>
      rw [answer] at h
      split at h
      · next hc =>
        subst hc
        exact ⟨k, rfl, (Option.some.inj h).symm⟩
      · cases h

/-- The value that the program has returned. -/
def result : Prog I α → Option α
  | ret a    => some a
  | call _ _ => none

theorem result_eq {p : Prog I α} {a : α} (h : p.result = some a) : p = ret a := by
  cases p with
  | ret b => cases h; rfl
  | call c k => cases h

@[simp] theorem pure_eq (a : α) : (pure a : Prog I α) = ret a := rfl

@[simp] theorem ret_bind (a : α) (f : α → Prog I β) : (ret a : Prog I α) >>= f = f a := rfl

@[simp] theorem call_bind (c : I.Call) (k : I.Resp c → Prog I α) (f : α → Prog I β) :
    call c k >>= f = call c fun r => k r >>= f := rfl

theorem bind_assoc (p : Prog I α) (f : α → Prog I β) (g : β → Prog I γ) :
    p >>= f >>= g = p >>= fun a => f a >>= g := by
  induction p with
  | ret a => rfl
  | call c k ih =>
      rw [call_bind, call_bind, call_bind]
      congr 1
      funext r
      exact ih r

@[simp] theorem perform_eq (c : I.Call) : perform c = call c ret := rfl

end Prog

/-! ## Contracts and weakest preconditions -/

/-- What the calls of a program mean for a ghost state: `pre g c` allows call `c` at `g`, and `post g c r g'`
    admits answer `r`, with `g'` the ghost state after it. -/
structure Contract (I : Interface) (σ : Type) where
  pre  : σ → I.Call → Prop
  post : σ → (c : I.Call) → I.Resp c → σ → Prop

/-- **Weakest precondition.** From ghost state `g` every call of the program is allowed, whatever admitted
    answers came before it, and every value it returns satisfies `Q` at the ghost state then reached. -/
def wp {I : Interface} {α σ : Type} (C : Contract I σ) : Prog I α → (σ → α → Prop) → σ → Prop
  | .ret a, Q, g    => Q g a
  | .call c k, Q, g => C.pre g c ∧ ∀ r g', C.post g c r g' → wp C (k r) Q g'

section Rules

variable {I : Interface} {α β σ : Type} {C : Contract I σ} {g : σ}

@[simp] theorem wp_ret {a : α} {Q : σ → α → Prop} : wp C (.ret a) Q g ↔ Q g a := Iff.rfl

@[simp] theorem wp_call {c : I.Call} {k : I.Resp c → Prog I α} {Q : σ → α → Prop} :
    wp C (.call c k) Q g ↔ C.pre g c ∧ ∀ r g', C.post g c r g' → wp C (k r) Q g' := Iff.rfl

/-- **Sequencing rule.** -/
theorem wp_bind {p : Prog I α} {f : α → Prog I β} {Q : σ → β → Prop} :
    wp C (p >>= f) Q g ↔ wp C p (fun g' a => wp C (f a) Q g') g := by
  induction p generalizing g with
  | ret a => exact Iff.rfl
  | call c k ih =>
      rw [Prog.call_bind, wp_call, wp_call]
      exact and_congr_right fun _ => forall_congr' fun r => forall_congr' fun g' =>
        imp_congr_right fun _ => ih r

/-- **Rule of consequence.** -/
theorem wp_mono {p : Prog I α} {Q Q' : σ → α → Prop} (h : wp C p Q g)
    (hQ : ∀ g' a, Q g' a → Q' g' a) : wp C p Q' g := by
  induction p generalizing g with
  | ret a => exact hQ g a h
  | call c k ih => exact ⟨h.1, fun r g' hr => ih r (h.2 r g' hr)⟩

/-- The sequencing rule in the form proofs use: a specification of `p` first, then the rest from it. -/
theorem wp_seq {p : Prog I α} {f : α → Prog I β} {P : σ → α → Prop} {Q : σ → β → Prop}
    (h : wp C p P g) (hf : ∀ g' a, P g' a → wp C (f a) Q g') : wp C (p >>= f) Q g :=
  wp_bind.mpr (wp_mono h hf)

/-- A contract that allows more calls and admits fewer answers is kept by more programs. -/
theorem wp_contract_mono {C' : Contract I σ} {p : Prog I α} {Q : σ → α → Prop} (h : wp C p Q g)
    (hpre : ∀ g c, C.pre g c → C'.pre g c) (hpost : ∀ g c r g', C'.post g c r g' → C.post g c r g') :
    wp C' p Q g := by
  induction p generalizing g with
  | ret a => exact h
  | call c k ih => exact ⟨hpre g c h.1, fun r g' hr => ih r (h.2 r g' (hpost g c r g' hr))⟩

/-- Whatever the answers, every call of the program satisfies `P` and every value it returns `Q`. -/
def Prog.Within (P : I.Call → Prop) (Q : α → Prop) : Prog I α → Prop
  | .ret a    => Q a
  | .call c k => P c ∧ ∀ r, (k r).Within P Q

/-- `P` holds of the program, and of what is left of it after any answers. -/
def Prog.Always (P : Prog I α → Prop) : Prog I α → Prop
  | .ret a    => P (.ret a)
  | .call c k => P (.call c k) ∧ ∀ r, (k r).Always P

/-- Some answers lead the program to a call that satisfies `P`, past no call that satisfies `S`. -/
def Prog.MayReach (P S : I.Call → Prop) : Prog I α → Prop
  | .ret _    => False
  | .call c k => P c ∨ ¬ S c ∧ ∃ r, (k r).MayReach P S

@[simp] theorem Prog.within_ret {P : I.Call → Prop} {Q : α → Prop} {a : α} :
    (Prog.ret a : Prog I α).Within P Q ↔ Q a := Iff.rfl

@[simp] theorem Prog.within_call {P : I.Call → Prop} {Q : α → Prop} {c : I.Call}
    {k : I.Resp c → Prog I α} : (Prog.call c k).Within P Q ↔ P c ∧ ∀ r, (k r).Within P Q := Iff.rfl

theorem Prog.within_ite {P : I.Call → Prop} {Q : α → Prop} {c : Prop} [Decidable c] {p q : Prog I α} :
    (if c then p else q).Within P Q ↔ (c → p.Within P Q) ∧ (¬ c → q.Within P Q) := by
  by_cases h : c
  · rw [if_pos h]
    exact ⟨fun hp => ⟨fun _ => hp, fun hn => absurd h hn⟩, fun hpq => hpq.1 h⟩
  · rw [if_neg h]
    exact ⟨fun hq => ⟨fun hc => absurd hc h, fun _ => hq⟩, fun hpq => hpq.2 h⟩

theorem Prog.within_bind_iff {P : I.Call → Prop} {Q : β → Prop} {p : Prog I α} {f : α → Prog I β} :
    (p >>= f).Within P Q ↔ p.Within P fun a => (f a).Within P Q := by
  induction p with
  | ret a => exact Iff.rfl
  | call c k ih =>
      rw [call_bind, within_call, within_call]
      exact and_congr_right fun _ => forall_congr' ih

theorem Prog.Within.mono {P P' : I.Call → Prop} {Q Q' : α → Prop} {p : Prog I α} (hp : p.Within P Q)
    (hP : ∀ c, P c → P' c) (hQ : ∀ a, Q a → Q' a) : p.Within P' Q' := by
  induction p with
  | ret a => exact hQ a hp
  | call c k ih => exact ⟨hP c hp.1, fun r => ih r (hp.2 r)⟩

theorem Prog.Always.head {P : Prog I α → Prop} {p : Prog I α} (h : p.Always P) : P p := by
  cases p with
  | ret a => exact h
  | call c k => exact h.1

/-- What the calls of a program are holds of the calls of the rest of it. -/
theorem Prog.Within.always {P : I.Call → Prop} {Q : α → Prop} {p : Prog I α} (hp : p.Within P Q) :
    p.Always fun q => q.Within P Q := by
  induction p with
  | ret a => exact hp
  | call c k ih => exact ⟨hp, fun r => ih r (hp.2 r)⟩

theorem Prog.Always.mono {P P' : Prog I α → Prop} {p : Prog I α} (hp : p.Always P) (hP : ∀ q, P q → P' q) :
    p.Always P' := by
  induction p with
  | ret a => exact hP _ hp
  | call c k ih => exact ⟨hP _ hp.1, fun r => ih r (hp.2 r)⟩

theorem Prog.within_bind {P : I.Call → Prop} {Q : α → Prop} {Q' : β → Prop} {p : Prog I α}
    {f : α → Prog I β} (hp : p.Within P Q) (hf : ∀ a, Q a → (f a).Within P Q') :
    (p >>= f).Within P Q' :=
  within_bind_iff.mpr (hp.mono (fun _ hc => hc) hf)

/-- A call that the program can come to is one of those it is made of. -/
theorem Prog.Within.of_mayReach {P R S : I.Call → Prop} {Q : α → Prop} {p : Prog I α} (hp : p.Within P Q)
    (h : p.MayReach R S) : ∃ c, R c ∧ P c := by
  induction p with
  | ret a => exact h.elim
  | call c k ih =>
      rcases h with hc | ⟨-, r, hr⟩
      · exact ⟨c, hc, hp.1⟩
      · exact ih r (hp.2 r) hr

/-- Nothing is claimed. -/
theorem Prog.within_true (p : Prog I α) : p.Within (fun _ => True) fun _ => True := by
  induction p with
  | ret a => trivial
  | call c k ih => exact ⟨trivial, ih⟩

/-- **Invariant rule.** A program whose calls keep `Inv` ends where it holds. -/
theorem wp_keeps {P : I.Call → Prop} {Q : α → Prop} {Inv : σ → Prop} {p : Prog I α} (hp : p.Within P Q)
    (hP : ∀ g c, Inv g → P c → C.pre g c ∧ ∀ r g', C.post g c r g' → Inv g') (hg : Inv g) :
    wp C p (fun g' a => Inv g' ∧ Q a) g := by
  induction p generalizing g with
  | ret a => exact ⟨hg, hp⟩
  | call c k ih =>
      obtain ⟨hpre, hpost⟩ := hP g c hg hp.1
      refine ⟨hpre, ?_⟩
      intro r g' hr
      exact ih r (hp.2 r) (hpost r g' hr)

/-- **Frame rule.** A program whose calls are allowed at `g` and leave it alone keeps the ghost state. -/
theorem wp_neutral {P : I.Call → Prop} {Q : α → Prop} {p : Prog I α} (hp : p.Within P Q)
    (hP : ∀ c, P c → C.pre g c ∧ ∀ r g', C.post g c r g' → g' = g) :
    wp C p (fun g' a => g' = g ∧ Q a) g := by
  refine wp_keeps hp (fun g₁ c heq hc => ?_) rfl
  rw [heq]
  exact hP c hc

/-- A specification, and what the calls are. -/
theorem wp_within {P : I.Call → Prop} {R : α → Prop} {Q : σ → α → Prop} {p : Prog I α} (h : wp C p Q g)
    (hp : p.Within P R) : wp { C with pre := fun g c => C.pre g c ∧ P c } p (fun g' a => Q g' a ∧ R a) g := by
  induction p generalizing g with
  | ret a => exact ⟨h, hp⟩
  | call c k ih => exact ⟨⟨h.1, hp.1⟩, fun r g' hr => ih r (h.2 r g' hr) (hp.2 r)⟩

/-- **Rule of representation.** A specification over one ghost state is one over another that represents it. -/
theorem wp_represent {τ : Type} {D : Contract I τ} {R : τ → σ → Prop} {Q : σ → α → Prop} {p : Prog I α} {t : τ}
    (h : wp C p Q g) (hR : R t g) (hpre : ∀ t g c, R t g → C.pre g c → D.pre t c)
    (hpost : ∀ t g c r t', R t g → C.pre g c → D.post t c r t' → ∃ g', C.post g c r g' ∧ R t' g') :
    wp D p (fun t' a => ∃ g', R t' g' ∧ Q g' a) t := by
  induction p generalizing g t with
  | ret a => exact ⟨g, hR, h⟩
  | call c k ih =>
      refine ⟨hpre t g c hR h.1, ?_⟩
      intro r t' hr
      obtain ⟨g', hg', hR'⟩ := hpost t g c r t' hR h.1 hr
      exact ih r (h.2 r g' hg') hR'

/-- **Rule of guidance.** If each call that the contract allows has an answer it admits, with which the system can go on,
    then the system can go on to the end of the program. -/
theorem wp_guided {τ ε : Type} {Step : τ → ε → τ → Prop} {R : τ → Prog I α → σ → Prop} {Q : σ → α → Prop}
    (hstep : ∀ t c k g, R t (.call c k) g → C.pre g c →
      ∃ r g' e t', C.post g c r g' ∧ Step t e t' ∧ R t' (k r) g')
    {p : Prog I α} {t : τ} (hp : wp C p Q g) (hat : R t p g) :
    ∃ tr t' a g', Run Step t tr t' ∧ R t' (.ret a) g' ∧ Q g' a := by
  induction p generalizing t g with
  | ret a => exact ⟨[], t, a, g, .nil, hat, hp⟩
  | call c k ih =>
      obtain ⟨r, g₁, e, t₁, hpost, hs, hat₁⟩ := hstep t c k g hat hp.1
      obtain ⟨tr, t', a, g', hrun, hdone⟩ := ih r (hp.2 r g₁ hpost) hat₁
      exact ⟨e :: tr, t', a, g', Run.cons hs hrun, hdone⟩

end Rules

/-! ## Threads -/

/-- A thread: the label of the block it is in, and what is left of that block. -/
structure Thread (I : Interface) (L : Type) where
  loc  : L
  rest : Prog I L

/-- What one step of a thread shows: the jump to a label, or a call and its answer. -/
inductive Act (I : Interface) (L : Type) where
  | jump (l : L)
  | did (c : I.Call) (r : I.Resp c)

namespace Thread

variable {I : Interface} {L σ : Type}

/-- A thread at the head of block `l` of the flowchart `code`. -/
def start (code : L → Prog I L) (l : L) : Thread I L := ⟨l, code l⟩

/-- One step. A finished block jumps to the label it returned; a waiting one takes the answer to its call.
    A block that returns its own label at once is the end of the thread. -/
def fire [DecidableEq I.Call] [DecidableEq L] (code : L → Prog I L) (t : Thread I L) :
    Act I L → Option (Thread I L)
  | .jump l  => match t.rest with
    | .ret l'   => if l' = l then some (start code l) else none
    | .call _ _ => none
  | .did c r => match t.rest with
    | .ret _     => none
    | .call c' k => if h : c = c' then some ⟨t.loc, k (h ▸ r)⟩ else none

section Fire

variable [DecidableEq I.Call] [DecidableEq L] {code : L → Prog I L} {t t' : Thread I L}

theorem fire_jump {l : L} :
    t.fire code (.jump l) = some t' ↔ t.rest = .ret l ∧ t' = start code l := by
  unfold fire
  cases ht : t.rest with
  | ret l' =>
      by_cases hl : l' = l
      · subst hl; simp [eq_comm]
      · simp [hl]
  | call c k => simp

theorem fire_did {c : I.Call} {r : I.Resp c} :
    t.fire code (.did c r) = some t' ↔ ∃ k, t.rest = .call c k ∧ t' = ⟨t.loc, k r⟩ := by
  unfold fire
  cases ht : t.rest with
  | ret l => simp
  | call c' k =>
      by_cases hc : c = c'
      · subst hc
        simp only [↓reduceDIte, Option.some.injEq, Prog.call.injEq, heq_eq_eq, true_and, eq_comm,
          exists_eq_left']
      · simp only [hc, ↓reduceDIte, reduceCtorEq, Prog.call.injEq, false_iff, not_exists]
        rintro k' ⟨⟨rfl, -⟩, -⟩
        exact hc rfl

/-- A thread that jumps is at the head of the block it jumped to. -/
theorem jump_start {l : L} (hf : t.fire code (.jump l) = some t') : t' = start code l :=
  (fire_jump.mp hf).2

theorem jump_rest {l : L} (hf : t.fire code (.jump l) = some t') : t.rest = .ret l :=
  (fire_jump.mp hf).1

/-- A thread that makes a call stays in its block. -/
theorem did_loc {c : I.Call} {r : I.Resp c} (hf : t.fire code (.did c r) = some t') : t'.loc = t.loc := by
  obtain ⟨k, -, rfl⟩ := fire_did.mp hf
  rfl

/-- A thread that makes a call has not finished its block. -/
theorem did_rest {c : I.Call} {r : I.Resp c} (hf : t.fire code (.did c r) = some t') (l : L) : t.rest ≠ .ret l := by
  obtain ⟨k, hr, -⟩ := fire_did.mp hf
  rw [hr]
  rintro ⟨⟩

/-- A thread that has come to a block that returns its own label at once has nothing more to do. -/
theorem fire_done {l : L} {a : Act I L} (hl : code l = .ret l) (ht : t.loc = l → t.rest = .ret l)
    (hf : t.fire code a = some t') (hloc : t'.loc = l) : t'.rest = .ret l := by
  cases a with
  | jump l' =>
      obtain ⟨-, rfl⟩ := fire_jump.mp hf
      obtain rfl : l' = l := hloc
      exact hl
  | did c r =>
      rw [did_loc hf] at hloc
      exact absurd (ht hloc) (did_rest hf l)

/-- A call is one of those the block is made of, and what is left after it is made of them too. -/
theorem within_did {P : I.Call → Prop} {Q : L → Prop} {c : I.Call} {r : I.Resp c} (hw : t.rest.Within P Q)
    (hf : t.fire code (.did c r) = some t') : P c ∧ t'.rest.Within P Q := by
  obtain ⟨k, hr, rfl⟩ := fire_did.mp hf
  rw [hr] at hw
  exact ⟨hw.1, hw.2 r⟩

theorem always_did {P : Prog I L → Prop} {c : I.Call} {r : I.Resp c} (hp : t.rest.Always P)
    (hf : t.fire code (.did c r) = some t') : t'.rest.Always P := by
  obtain ⟨k, hr, rfl⟩ := fire_did.mp hf
  rw [hr] at hp
  exact hp.2 r

end Fire

/-- The label invariants `J` are kept by every block of the flowchart. -/
def Verified (C : Contract I σ) (code : L → Prog I L) (J : L → σ → Prop) : Prop :=
  ∀ l g, J l g → wp C (code l) (fun g' l' => J l' g') g

/-- What is left of the thread's block respects the contract and ends in a label whose invariant holds. -/
def Ok (C : Contract I σ) (J : L → σ → Prop) (t : Thread I L) (g : σ) : Prop :=
  wp C t.rest (fun g' l => J l g') g

variable {C : Contract I σ} {code : L → Prog I L} {J : L → σ → Prop} {t t' : Thread I L} {g g' : σ}

theorem ok_start (hv : Verified C code J) {l : L} (hl : J l g) : (start code l).Ok C J g :=
  hv l g hl

/-- A thread in order that has finished its block goes to a label whose invariant holds. -/
theorem Ok.of_ret {l : L} (h : t.Ok C J g) (hr : t.rest = .ret l) : J l g := by
  unfold Ok at h
  rw [hr] at h
  exact h

/-- A thread in order that waits for a call is allowed to make it, and any admitted answer keeps it in order. -/
theorem Ok.of_call {c : I.Call} {k : I.Resp c → Prog I L} (h : t.Ok C J g) (hr : t.rest = .call c k) :
    C.pre g c ∧ ∀ r g', C.post g c r g' → (Thread.mk t.loc (k r)).Ok C J g' := by
  unfold Ok at h
  rw [hr] at h
  exact h

variable [DecidableEq I.Call] [DecidableEq L]

/-- At a jump the invariant of the target label holds. -/
theorem Ok.label {l : L} (h : t.Ok C J g) (hf : t.fire code (.jump l) = some t') : J l g :=
  h.of_ret (jump_rest hf)

/-- A jump keeps a verified thread in order. -/
theorem Ok.jump {l : L} (hv : Verified C code J) (h : t.Ok C J g)
    (hf : t.fire code (.jump l) = some t') : t'.Ok C J g := by
  obtain ⟨-, rfl⟩ := fire_jump.mp hf
  exact ok_start hv (h.label hf)

/-- A thread in order makes only calls that are allowed. -/
theorem Ok.pre {c : I.Call} {r : I.Resp c} (h : t.Ok C J g)
    (hf : t.fire code (.did c r) = some t') : C.pre g c := by
  obtain ⟨k, hr, -⟩ := fire_did.mp hf
  exact (h.of_call hr).1

/-- An admitted answer keeps a thread in order. -/
theorem Ok.did {c : I.Call} {r : I.Resp c} (h : t.Ok C J g)
    (hf : t.fire code (.did c r) = some t') (hp : C.post g c r g') : t'.Ok C J g' := by
  obtain ⟨k, hr, rfl⟩ := fire_did.mp hf
  exact (h.of_call hr).2 r g' hp

/-! ## A thread alone -/

/-- The calls an action makes, with their answers. -/
def calls : Act I L → List (Sigma I.Resp)
  | .jump _  => []
  | .did c r => [⟨c, r⟩]

/-- Any call may be answered anyhow, and the ghost state records them; `pre` may speak of those before. -/
def history (pre : List (Sigma I.Resp) → I.Call → Prop) : Contract I (List (Sigma I.Resp)) where
  pre  := pre
  post := fun g c r g' => g' = g ++ [⟨c, r⟩]

omit [DecidableEq I.Call] [DecidableEq L] in
/-- Where the calls of a program are held to what was called before, each is one that is allowed at some time. -/
theorem within_of_history {α : Type} {pre : List (Sigma I.Resp) → I.Call → Prop} {p : Prog I α}
    {Q : List (Sigma I.Resp) → α → Prop} {g : List (Sigma I.Resp)} (h : wp (history pre) p Q g) :
    p.Within (fun c => ∃ g, pre g c) fun a => ∃ g, Q g a := by
  induction p generalizing g with
  | ret a => exact ⟨g, h⟩
  | call c k ih => exact ⟨⟨g, h.1⟩, fun r => ih r (h.2 r _ rfl)⟩

variable (code) in
/-- One step of a thread on its own. -/
def Alone (t : Thread I L) (a : Act I L) (t' : Thread I L) : Prop := t.fire code a = some t'

/-- **Rule for a thread alone.** In every run of a verified flowchart the thread is in order for the list of
    the calls it has made. -/
theorem ok_alone {pre : List (Sigma I.Resp) → I.Call → Prop} {J : L → List (Sigma I.Resp) → Prop} {l : L}
    {tr : List (Act I L)} (hv : Verified (history pre) code J) (h0 : J l [])
    (hrun : Run (Alone code) (start code l) tr t) : t.Ok (history pre) J (tr.flatMap calls) := by
  refine hrun.history (I := fun tr t => t.Ok (history pre) J (tr.flatMap calls)) (ok_start hv h0) ?_
  intro tr t a t' hok hf
  rw [List.flatMap_append, List.flatMap_singleton]
  cases a with
  | jump l => rw [calls, List.append_nil]; exact hok.jump hv hf
  | did c r => exact hok.did hf rfl

end Thread

end Lib
