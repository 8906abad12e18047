import IOSwitch.Lib.Prog

/-!
# `Lib.Silent` — statements between the calls

Besides its calls a program has statements that concern nobody else: it gets a block of the heap, gives one back,
closes a descriptor. Where they matter the program is written over the interface `I.plus S`, with statements `S` that
answer nothing. `Prog.erase` leaves the statements out; a thread with statements does what the thread without them
does, and can do all of it.

## Contents
- `Interface.plus`, `Prog.lift`, `Prog.erase`, and how they compose.
- `Thread.erase`, `Thread.fire_visible`, `Thread.fire_silent`, `Thread.exists_fire` — the two threads simulate each
  other.
-/

namespace Lib

variable {I : Interface} {S α β L : Type}

/-- The interface `I`, and statements. -/
def Interface.plus (I : Interface) (S : Type) : Interface where
  Call := I.Call ⊕ S
  Resp := Sum.elim I.Resp fun _ => Unit

instance [DecidableEq I.Call] [DecidableEq S] : DecidableEq (I.plus S).Call :=
  inferInstanceAs (DecidableEq (I.Call ⊕ S))

namespace Prog

/-- A program that executes no statement. -/
def lift : Prog I α → Prog (I.plus S) α
  | ret a    => ret a
  | call c k => @call (I.plus S) α (.inl c) fun r => (k r).lift

/-- The program without its statements. -/
def erase : Prog (I.plus S) α → Prog I α
  | ret a           => ret a
  | call (.inl c) k => call c fun r => (k r).erase
  | call (.inr _) k => (k ()).erase

@[simp] theorem erase_ret (a : α) : (ret a : Prog (I.plus S) α).erase = ret a := rfl

@[simp] theorem erase_call (c : I.Call) (k : I.Resp c → Prog (I.plus S) α) :
    (@call (I.plus S) α (.inl c) k).erase = call c fun r => (k r).erase := rfl

@[simp] theorem erase_stmt (s : S) (k : Unit → Prog (I.plus S) α) :
    (@call (I.plus S) α (.inr s) k).erase = (k ()).erase := rfl

theorem erase_bind (p : Prog (I.plus S) α) (f : α → Prog (I.plus S) β) :
    (p >>= f).erase = p.erase >>= fun a => (f a).erase := by
  induction p with
  | ret a => rfl
  | call c k ih =>
      cases c with
      | inl c => exact congrArg (call c) (funext ih)
      | inr s => exact ih ()

@[simp] theorem erase_lift (p : Prog I α) : (p.lift : Prog (I.plus S) α).erase = p := by
  induction p with
  | ret a => rfl
  | call c k ih => exact congrArg (call c) (funext ih)

/-- Lifting keeps the calls that a program makes. -/
theorem lift_within {P : I.Call → Prop} {P' : (I.plus S).Call → Prop} {Q : α → Prop} {p : Prog I α} (hp : p.Within P Q)
    (hP : ∀ c, P c → P' (.inl c)) : (p.lift : Prog (I.plus S) α).Within P' Q := by
  induction p with
  | ret a => exact hp
  | call c k ih => exact ⟨hP c hp.1, fun r => ih r (hp.2 r)⟩

end Prog

/-! ## Threads -/

/-- An action of the thread without statements, taken by the thread with statements. -/
def Act.visible : Act I L → Act (I.plus S) L
  | .jump l  => .jump l
  | .did c r => @Act.did (I.plus S) L (.inl c) r

/-- The execution of a statement. -/
def Act.silent (s : S) : Act (I.plus S) L := @Act.did (I.plus S) L (.inr s) ()

namespace Thread

/-- The thread without its statements. -/
def erase (t : Thread (I.plus S) L) : Thread I L := ⟨t.loc, t.rest.erase⟩

variable [DecidableEq I.Call] [DecidableEq S] [DecidableEq L] {code : L → Prog (I.plus S) L}
  {t t' : Thread (I.plus S) L}

/-- **What a thread does** its erasure does. -/
theorem fire_visible {a : Act I L} (h : t.fire code a.visible = some t') :
    t.erase.fire (fun l => (code l).erase) a = some t'.erase := by
  cases a with
  | jump l =>
      obtain ⟨hrest, rfl⟩ := fire_jump.mp h
      exact fire_jump.mpr ⟨congrArg Prog.erase hrest, rfl⟩
  | did c r =>
      obtain ⟨k, hrest, rfl⟩ := fire_did.mp h
      exact fire_did.mpr ⟨_, congrArg Prog.erase hrest, rfl⟩

/-- A statement is nothing to the erasure. -/
theorem fire_silent {s : S} (h : t.fire code (.silent s) = some t') : t'.erase = t.erase := by
  obtain ⟨k, hrest, rfl⟩ := fire_did.mp h
  exact congrArg (Thread.mk t.loc) (congrArg Prog.erase hrest).symm

/-- **What the erasure does** the thread does, after some statements. -/
theorem exists_fire {a : Act I L} {u : Thread I L} (h : t.erase.fire (fun l => (code l).erase) a = some u) :
    ∃ (ss : List S) (t₁ t' : Thread (I.plus S) L), Run (Alone code) t (ss.map Act.silent) t₁ ∧
      t₁.fire code a.visible = some t' ∧ t'.erase = u := by
  obtain ⟨l, p⟩ := t
  induction p with
  | ret l' =>
      cases a with
      | jump l'' =>
          obtain ⟨hrest, rfl⟩ := fire_jump.mp h
          cases hrest
          exact ⟨[], _, _, .nil, fire_jump.mpr ⟨rfl, rfl⟩, rfl⟩
      | did c r =>
          obtain ⟨k, hrest, -⟩ := fire_did.mp h
          cases hrest
  | call c k ih =>
      cases c with
      | inl c =>
          cases a with
          | jump l' => cases (fire_jump.mp h).1
          | did c' r =>
              obtain ⟨k', hrest, rfl⟩ := fire_did.mp h
              cases hrest
              exact ⟨[], _, _, .nil, fire_did.mpr ⟨k, rfl, rfl⟩, rfl⟩
      | inr s =>
          obtain ⟨ss, t₁, t', hrun, hfire, herase⟩ := ih () h
          have hstep : Alone code ⟨l, .call (.inr s) k⟩ (Act.silent s) ⟨l, k ()⟩ := fire_did.mpr ⟨k, rfl, rfl⟩
          exact ⟨s :: ss, t₁, t', Run.cons hstep hrun, hfire, herase⟩

end Thread

end Lib
