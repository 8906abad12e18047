import IOSwitch.Lib.Prog
import Mathlib.Data.Set.Basic

/-!
# `Lib.Locks` — mutexes, and the memory that they guard

Threads share mutexes of a type `M`, and each part of the memory has its mutex: who accesses the part has to hold
it. `Locking` says which calls of an interface take a mutex, give one back, or access what one guards. Code keeps the
discipline if it is verified for `Locking.contract`, whose ghost state is the set of the mutexes that are held.

Threads of different interfaces meet in the **owner** of each mutex, which has at most one. `Moves` is what a call of
one thread does to the owners; it is a move of the contract for that thread (`Moves.post`) and nothing for the others
(`Moves.frame`). As a thread in order holds the mutex of what it is about to access (`ok_owns`), no two threads stand
at accesses to the same part.
-/

namespace Lib

variable {I : Interface} {L M T α : Type}

/-- The mutex that a call takes, the one it gives back, and the one that guards what it accesses. -/
structure Locking (I : Interface) (M : Type) where
  takes : I.Call → Option M
  gives : I.Call → Option M
  guard : I.Call → Option M

namespace Locking

variable (K : Locking I M)

/-- The mutexes held after a call. -/
def after (held : Set M) (c : I.Call) : Set M := {m | K.takes c = some m ∨ m ∈ held ∧ K.gives c ≠ some m}

/-- A mutex is given back, and what it guards is accessed, only by who holds it. It is not taken twice: who holds it
    already waits for ever. -/
def contract : Contract I (Set M) where
  pre held c := (∀ m, K.gives c = some m → m ∈ held) ∧ ∀ m, K.guard c = some m → m ∈ held
  post held c _ held' := (∀ m, K.takes c = some m → m ∉ held) ∧ held' = K.after held c

/-- The call has to do with no mutex. -/
def Free (c : I.Call) : Prop := K.takes c = none ∧ K.gives c = none ∧ K.guard c = none

variable {K} {held : Set M} {c : I.Call} {r : I.Resp c} {m : M}

@[simp] theorem mem_after : m ∈ K.after held c ↔ K.takes c = some m ∨ m ∈ held ∧ K.gives c ≠ some m := Iff.rfl

/-- A call that neither takes nor gives leaves the mutexes as they are. -/
theorem after_eq (ht : K.takes c = none) (hg : K.gives c = none) : K.after held c = held := by
  ext m
  simp [ht, hg]

end Locking

/-! ## Owners -/

variable {K : Locking I M} {who who' : T} {own own' : M → Option T} {c : I.Call} {r : I.Resp c} {m : M}

/-- The mutexes that a thread holds. -/
def heldBy (own : M → Option T) (who : T) : Set M := {m | own m = some who}

@[simp] theorem mem_heldBy : m ∈ heldBy own who ↔ own m = some who := Iff.rfl

/-- A call of thread `who` leads from the owners `own` to the owners `own'`: it takes what nobody has, and gives back
    what it has. -/
structure Moves (K : Locking I M) (who : T) (c : I.Call) (own own' : M → Option T) : Prop where
  takes : ∀ m, K.takes c = some m → own m = none ∧ own' m = some who
  gives : ∀ m, K.gives c = some m → own m = some who ∧ own' m = none
  other : ∀ m, K.takes c ≠ some m → K.gives c ≠ some m → own' m = own m

namespace Moves

/-- For the thread that calls it is a move of the contract. -/
theorem post (h : Moves K who c own own') : K.contract.post (heldBy own who) c r (heldBy own' who) := by
  refine ⟨fun m hm hheld => ?_, ?_⟩
  · rw [mem_heldBy, (h.takes m hm).1] at hheld
    cases hheld
  · ext m
    rw [Locking.mem_after, mem_heldBy, mem_heldBy]
    by_cases ht : K.takes c = some m
    · simp [ht, (h.takes m ht).2]
    by_cases hg : K.gives c = some m
    · simp [ht, hg, (h.gives m hg).2]
    · simp [ht, hg, h.other m ht hg]

/-- For the others it is nothing. -/
theorem frame (h : Moves K who c own own') (hne : who' ≠ who) : heldBy own' who' = heldBy own who' := by
  ext m
  rw [mem_heldBy, mem_heldBy]
  by_cases ht : K.takes c = some m
  · simp [(h.takes m ht).1, (h.takes m ht).2, hne.symm]
  by_cases hg : K.gives c = some m
  · simp [(h.gives m hg).1, (h.gives m hg).2, hne.symm]
  · rw [h.other m ht hg]

end Moves

/-- **A thread in order owns the mutex** of what it is about to access. -/
theorem ok_owns {J : L → Set M → Prop} {t : Thread I L} (h : t.Ok K.contract J (heldBy own who))
    (hnext : t.rest.next = some c) (hguard : K.guard c = some m) : own m = some who := by
  obtain ⟨k, hk⟩ := Prog.next_eq hnext
  exact (h.of_call hk).1.2 m hguard

end Lib
