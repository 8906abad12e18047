import IOSwitch.Daemon.Active
import IOSwitch.Daemon.Script

/-!
# `Daemon.Lockout` — the host lock against the flag

A sender that gets through its setup creates a lock thread, which grabs the keyboard and gives it back when
the unlock keys have been pressed, whatever has become of the sender. `LockAgrees` says what the two should
have to do with each other: no grab once nothing is being sent, and a grab as long as a locked sender forwards.
Nothing in the code ties them together, so `LockAgrees` depends on the schedule; `lock_agrees_iff` says exactly
on what.

## Contents
- `lockContract`, `lock_verified` — a lock thread holds the grab from `lock` to its release.
- `LockInv`, `lockInv_step` — the invariant, for every run.
- `LockAgrees`, `LockLegal`, `lockAgrees_step` — which steps keep the agreement.
- `lock_agrees_iff`, `locked_out`.
-/

namespace IOSwitch

open Lib HostLock

/-! ## The discipline of a lock thread -/

/-- The ghost state is whether the thread holds the grab. `exit` does not return. -/
def lockContract : Contract lockI Bool where
  pre held c := match c with
    | .grabKeyboard   => held = false
    | .ungrabKeyboard => held = true
    | _               => True
  post held c r held' := match c, r with
    | .grabKeyboard, b   => held' = b
    | .ungrabKeyboard, _ => held' = false
    | .exit, _           => False
    | _, _               => held' = held

/-- The grab is held in the loop of `spawn_lock_thread`, and nowhere else between blocks. -/
def Grabbed : LockLoc → Bool → Prop
  | .entry, held    => held = false
  | .locked _, held => held = true
  | .unlocked, held => held = false

theorem grabKeyboard_spec (n : Nat) : wp lockContract (grabKeyboard n) (fun held ok => held = ok) false := by
  induction n with
  | zero => rfl
  | succ n ih =>
      refine ⟨rfl, ?_⟩
      rintro _ b rfl
      cases b with
      | true => rfl
      | false =>
          refine ⟨trivial, ?_⟩
          rintro _ _ rfl
          exact ih

theorem lock_spec : wp lockContract lock (fun held _ => held = true) false := by
  refine ⟨trivial, ?_⟩
  rintro opened _ rfl
  show wp _ (exitUnless opened >>= _) _ _
  refine wp_seq (wp_exitUnless (fun _ => trivial) fun _ _ => id) ?_
  rintro _ _ ⟨rfl, -⟩
  refine wp_seq (grabKeyboard_spec 100) ?_
  rintro ok _ rfl
  refine wp_seq (wp_exitUnless (fun _ => trivial) fun _ _ => id) ?_
  rintro _ _ ⟨rfl, rfl⟩
  refine ⟨trivial, ?_⟩
  rintro pointer _ rfl
  cases pointer with
  | true => rfl
  | false => exact ⟨rfl, fun _ _ _ => ⟨trivial, fun _ _ h => h.elim⟩⟩

theorem release_spec (bind : KeyBind) (locked : Bool) :
    wp lockContract (release bind locked) (fun held r => held = r.2) true := by
  unfold release
  cases locked with
  | true => rfl
  | false =>
      refine ⟨rfl, ?_⟩
      rintro _ _ rfl
      refine ⟨trivial, ?_⟩
      rintro _ _ rfl
      rfl

theorem tryUnlock_spec (bind : KeyBind) :
    wp lockContract (tryUnlock bind) (fun held r => held = r.2) true := by
  have hnext : lockContract.pre true .nextEvent ∧ ∀ r held, lockContract.post true .nextEvent r held → held = true :=
    ⟨trivial, fun _ _ h => h⟩
  exact wp_tryUnlock hnext release_spec bind

/-- **Every block of a lock thread keeps the discipline.** -/
theorem lock_verified : Thread.Verified lockContract spawnLockThread Grabbed := by
  intro l held hl
  cases l with
  | entry =>
      obtain rfl : held = false := hl
      exact wp_seq lock_spec fun _ _ h => h
  | locked bind =>
      obtain rfl : held = true := hl
      refine wp_seq (tryUnlock_spec bind) ?_
      rintro locked ⟨bind, _⟩ rfl
      show Grabbed (if locked = true then .locked bind else .unlocked) locked
      cases locked <;> rfl
  | unlocked => exact hl

/-- The first block ends in the loop. -/
theorem entry_locks : (spawnLockThread .entry).Within (fun _ => True) fun l => l ≠ .unlocked :=
  Prog.within_bind (Prog.within_true lock) fun _ _ => by rintro ⟨⟩

namespace Daemon

variable {s s' : Daemon} {e : Event} {tr : List Event}

/-! ## The invariant -/

/-- While the process lives: every lock thread keeps its discipline, its first block does not unlock, and the
    grab belongs to one of them. -/
structure LockInv (s : Daemon) : Prop where
  lockers : s.exited = false → ∀ (j : Nat) (k : LockThread), s.lockers[j]? = some k →
    k.thread.Ok lockContract Grabbed (decide (s.grab = some j))
  entry   : ∀ (j : Nat) (k : LockThread), s.lockers[j]? = some k → k.thread.loc = .entry →
    k.thread.rest.Within (fun _ => True) fun l => l ≠ .unlocked
  owner   : ∀ j, s.grab = some j → j < s.lockers.length

theorem lockInv_init (cfg : Config) (conn args : Bytes) : LockInv (init cfg conn args) :=
  ⟨fun _ _ _ h => by simp [init] at h, fun _ _ h => by simp [init] at h, fun _ h => by simp [init] at h⟩

/-- A lock thread's own call changes the grab as the contract says. -/
theorem lockContract_did {j : Nat} {c : LockCall} {r : c.Resp} (h : Step s (.locker j (.did c r)) s')
    (hpre : lockContract.pre (decide (s.grab = some j)) c) (hc : c ≠ .exit) :
    lockContract.post (decide (s.grab = some j)) c r (decide (s'.grab = some j)) := by
  have hsh := shared_locker_call h
  cases c with
  | grabKeyboard =>
      cases r with
      | true =>
          simp only [Shared.lockEffect] at hsh
          split at hsh
          · simp [lockContract, ← Option.some.inj hsh]
          · cases hsh
      | false =>
          have hfree : decide (s.grab = some j) = false := hpre
          simpa [lockContract, ← Option.some.inj hsh] using hfree
  | ungrabKeyboard =>
      have hheld : s.grab = some j := of_decide_eq_true hpre
      simp [lockContract, ← Option.some.inj hsh, hheld]
  | exit => exact absurd rfl hc
  | _ => simp [lockContract, ← Option.some.inj hsh]

/-- A lock thread's call changes no other thread's hold of the grab. -/
theorem grab_other {i j : Nat} {c : LockCall} {r : c.Resp} (h : Step s (.locker i (.did c r)) s') (hij : j ≠ i) :
    s'.grab = some j ↔ s.grab = some j := by
  have hsh := shared_locker_call h
  cases c with
  | grabKeyboard =>
      cases r with
      | true =>
          simp only [Shared.lockEffect] at hsh
          split at hsh
          · rename_i hfree
            simp [← Option.some.inj hsh, hfree, hij.symm]
          · cases hsh
      | false => rw [← Option.some.inj hsh]
  | ungrabKeyboard =>
      rw [← Option.some.inj hsh]
      by_cases hheld : s.grab = some i
      · simp [hheld, hij.symm]
      · simp [hheld]
  | _ => rw [← Option.some.inj hsh]

/-- Only a lock thread's own steps change its hold of the grab. -/
theorem hold_frame (h : Step s e s') {j : Nat} (hne : ∀ a, e ≠ .locker j a) : s'.grab = some j ↔ s.grab = some j := by
  by_cases hlock : ∃ i a, e = .locker i a
  · obtain ⟨i, a, rfl⟩ := hlock
    cases a with
    | jump l => rw [shared_locker_jump h]
    | did c r => exact grab_other h (by rintro rfl; exact hne _ rfl)
  · rw [grab_frame h fun i a he => hlock ⟨i, a, he⟩]

/-- **Step lemma.** -/
theorem lockInv_step (hinv : LockInv s) (h : Step s e s') : LockInv s' := by
  have hx := step_running h
  constructor
  · intro hx' j k' hk'
    rcases locker_cases h hk' with ⟨hk, hne⟩ | ⟨a, k, rfl, hk, -, hf⟩ | ⟨hj, ⟨i, rfl, rfl⟩⟩
    · simp only [hold_frame h hne]
      exact hinv.lockers hx j k' hk
    · have hok := hinv.lockers hx j k hk
      cases a with
      | jump l =>
          have hgrab : s'.grab = s.grab := by rw [shared_locker_jump h]
          rw [hgrab]
          exact hok.jump lock_verified hf
      | did c r =>
          -- the process is alive after the step, so it was no `exit`
          have hc : c ≠ .exit := by
            rintro rfl
            obtain ⟨k₀, t, sh, -, -, -, rfl⟩ := step_locker h
            cases hx'
          exact hok.did hf (lockContract_did h (hok.pre hf) hc)
    · -- a thread just created does not hold the grab
      have hfree : decide (s'.grab = some j) = false := by
        rw [grab_frame h (by rintro _ _ ⟨⟩), decide_eq_false_iff_not]
        intro hheld
        have := hinv.owner j hheld
        omega
      rw [hfree]
      exact lock_verified .entry false rfl
  · intro j k' hk' hloc
    rcases locker_cases h hk' with ⟨hk, -⟩ | ⟨a, k, -, hk, -, hf⟩ | ⟨-, ⟨i, -, rfl⟩⟩
    · exact hinv.entry j k' hk hloc
    · cases a with
      | jump l =>
          rw [Thread.jump_start hf] at hloc ⊢
          obtain rfl : l = .entry := hloc
          exact entry_locks
      | did c r =>
          rw [Thread.did_loc hf] at hloc
          exact (Thread.within_did (hinv.entry j k hk hloc) hf).2
    · exact entry_locks
  · intro j hj
    have hlen := lockers_length_le h
    by_cases hlock : ∃ a, e = .locker j a
    · obtain ⟨a, rfl⟩ := hlock
      obtain ⟨k, t, sh, hk, -, -, -⟩ := step_locker h
      exact Nat.lt_of_lt_of_le (List.getElem?_eq_some_iff.mp hk).1 hlen
    · exact Nat.lt_of_lt_of_le (hinv.owner j ((hold_frame h fun a he => hlock ⟨a, he⟩).mp hj)) hlen

/-! ## Agreement -/

/-- Once the flag is 0 and no sender is active, nothing is grabbed. -/
def NothingHeld (s : Daemon) : Prop := s.sending = false → NoneActive s → s.grab = none

/-- While a sender is in its loop, the lock thread it created holds what it has acquired. -/
def StillHeld (s : Daemon) : Prop :=
  ∀ (i j : Nat) (d : SenderThread) (k : LockThread), s.senders[i]? = some d → s.lockers[j]? = some k →
    k.creator = i → d.thread.loc.inLoop = true → k.thread.loc ≠ .entry → s.grab = some j

def LockAgrees (s : Daemon) : Prop := NothingHeld s ∧ StillHeld s

/-- The steps that keep the agreement. The flag falls, and the last active sender leaves, only with nothing
    grabbed; the grab is taken only while the flag is 1 or a sender is active; it is given up only when the
    sender is not in its loop; and a sender enters its loop only with its lock still held, if acquired. -/
def LockLegal (s : Daemon) : Event → Prop
  | .main (.did (.setSending false) _) => NoneActive s → s.grab = none
  | .sender i (.jump l) =>
      (l.active = false → s.sending = false →
        (∀ (j : Nat) (d : SenderThread), s.senders[j]? = some d → j ≠ i → d.thread.loc.active = false) →
        s.grab = none) ∧
      (l.inLoop = true → ∀ (j : Nat) (k : LockThread), s.lockers[j]? = some k → k.creator = i →
        k.thread.loc ≠ .entry → s.grab = some j)
  | .locker _ (.did .grabKeyboard true) => s.sending = false → ¬ NoneActive s
  | .locker j (.did .ungrabKeyboard _)  =>
      ∀ (k : LockThread) (d : SenderThread), s.lockers[j]? = some k → s.senders[k.creator]? = some d →
        d.thread.loc.inLoop = true → k.thread.loc = .entry
  | _ => True

/-- A sender that does not jump is where it was, unless it was just created. -/
theorem sender_loc (h : Step s e s') (he : ∀ i l, e ≠ .sender i (.jump l)) {i : Nat} {d' : SenderThread}
    (hd' : s'.senders[i]? = some d') :
    (∃ d, s.senders[i]? = some d ∧ d.thread.loc = d'.thread.loc) ∨
    (i = s.senders.length ∧ d'.thread.loc = .entry) := by
  rcases sender_cases h hd' with ⟨hd, -⟩ | ⟨a, d, rfl, hd, -, hf⟩ | ⟨hi, -, rfl⟩
  · exact Or.inl ⟨d', hd, rfl⟩
  · cases a with
    | jump l => exact absurd rfl (he i l)
    | did c r => exact Or.inl ⟨d, hd, (Thread.did_loc hf).symm⟩
  · exact Or.inr ⟨hi, rfl⟩

/-- Likewise for lock threads. -/
theorem locker_loc (h : Step s e s') (he : ∀ j l, e ≠ .locker j (.jump l)) {j : Nat} {k' : LockThread}
    (hk' : s'.lockers[j]? = some k') :
    (∃ k, s.lockers[j]? = some k ∧ k.creator = k'.creator ∧ k.thread.loc = k'.thread.loc) ∨
    k'.thread.loc = .entry := by
  rcases locker_cases h hk' with ⟨hk, -⟩ | ⟨a, k, rfl, hk, hc, hf⟩ | ⟨-, ⟨i, -, rfl⟩⟩
  · exact Or.inl ⟨k', hk, rfl, rfl⟩
  · cases a with
    | jump l => exact absurd rfl (he j l)
    | did c r => exact Or.inl ⟨k, hk, hc.symm, (Thread.did_loc hf).symm⟩
  · exact Or.inr rfl

/-- Without jumps, no sender that was active has become inactive. -/
theorem noneActive_before (h : Step s e s') (he : ∀ i l, e ≠ .sender i (.jump l)) (hnone : NoneActive s') :
    NoneActive s := by
  intro d hd
  obtain ⟨i, hi⟩ := List.getElem?_of_mem hd
  obtain ⟨d', hd', -, ⟨rfl, -⟩ | ⟨a, rfl, hf⟩⟩ := sender_next h hi
  · exact noneActive_getElem? hnone hd'
  · cases a with
    | jump l => exact absurd rfl (he i l)
    | did c r =>
        rw [← Thread.did_loc hf]
        exact noneActive_getElem? hnone hd'

theorem nothingHeld_frame (h : Step s e s') (he : ∀ i l, e ≠ .sender i (.jump l))
    (hs : s'.sending = false → s.sending = false) (hg : s'.grab = s.grab) (hinv : NothingHeld s) :
    NothingHeld s' := by
  intro hsend hnone
  rw [hg]
  exact hinv (hs hsend) (noneActive_before h he hnone)

/-- A pair of a sender in its loop and its acquired lock was one before, if neither has jumped. -/
theorem pair_before (h : Step s e s') (he : ∀ i l, e ≠ .sender i (.jump l))
    (he' : ∀ j l, e ≠ .locker j (.jump l)) {i j : Nat} {d' : SenderThread} {k' : LockThread}
    (hd' : s'.senders[i]? = some d') (hk' : s'.lockers[j]? = some k') (hc : k'.creator = i)
    (hloop : d'.thread.loc.inLoop = true) (hloc : k'.thread.loc ≠ .entry) :
    ∃ d k, s.senders[i]? = some d ∧ s.lockers[j]? = some k ∧ k.creator = i ∧
      d.thread.loc.inLoop = true ∧ k.thread.loc ≠ .entry := by
  rcases sender_loc h he hd' with ⟨d, hd, hdloc⟩ | ⟨-, hentry⟩
  · rcases locker_loc h he' hk' with ⟨k, hk, hkc, hkloc⟩ | hentry
    · exact ⟨d, k, hd, hk, hkc.trans hc, by rw [hdloc]; exact hloop, by rw [hkloc]; exact hloc⟩
    · exact absurd hentry hloc
  · rw [hentry] at hloop
    cases hloop

theorem stillHeld_frame (h : Step s e s') (he : ∀ i l, e ≠ .sender i (.jump l))
    (he' : ∀ j l, e ≠ .locker j (.jump l)) (hg : s'.grab = s.grab) (hinv : StillHeld s) : StillHeld s' := by
  intro i j d' k' hd' hk' hc hloop hloc
  obtain ⟨d, k, hd, hk, hkc, hl, hkl⟩ := pair_before h he he' hd' hk' hc hloop hloc
  rw [hg]
  exact hinv i j d k hd hk hkc hl hkl

/-- A fall of the flag keeps the agreement iff nothing is grabbed or a sender is active. -/
theorem agrees_stop (hinv : LockAgrees s) (h : Step s (.main (.did (.setSending false) ())) s') :
    (NoneActive s → s.grab = none) ↔ LockAgrees s' := by
  have hg := grab_frame h (by rintro _ _ ⟨⟩)
  have hsenders : s'.senders = s.senders := by
    obtain ⟨t, sh, -, -, rfl⟩ := step_main h
    simp [newSenders]
  constructor
  · intro hok
    refine ⟨fun _ hnone => ?_, stillHeld_frame h (by rintro _ _ ⟨⟩) (by rintro _ _ ⟨⟩) hg hinv.2⟩
    rw [hg]
    exact hok (noneActive_before h (by rintro _ _ ⟨⟩) hnone)
  · intro hinv' hnone
    rw [← hg]
    refine hinv'.1 (sending_set h) ?_
    intro d hd
    rw [hsenders] at hd
    exact hnone d hd

/-- A jump of a sender keeps the agreement iff it is legal. -/
theorem agrees_jump {i : Nat} {l : SenderLoc} (hinv : LockAgrees s) (h : Step s (.sender i (.jump l)) s') :
    LockLegal s (.sender i (.jump l)) ↔ LockAgrees s' := by
  obtain ⟨d₀, t, sh, hd₀, hf, hsh, rfl⟩ := step_sender h
  obtain rfl := Option.some.inj hsh
  obtain rfl := Thread.jump_start hf
  have hlt : i < s.senders.length := (List.getElem?_eq_some_iff.mp hd₀).1
  have hself : (s.senders.set i { d₀ with thread := .start spawnSenderThread l })[i]? =
      some { d₀ with thread := .start spawnSenderThread l } := List.getElem?_set_self hlt
  have hother : ∀ {j : Nat}, j ≠ i → (s.senders.set i { d₀ with thread := .start spawnSenderThread l })[j]? =
      s.senders[j]? := fun hj => List.getElem?_set_ne (Ne.symm hj)
  have hlockers : s.lockers ++ newLockers i (.jump l) = s.lockers := List.append_nil _
  constructor
  · rintro ⟨hleave, henter⟩
    constructor
    · intro hsend hnone
      refine hleave ?_ hsend fun j d hd hj => ?_
      · exact noneActive_getElem? hnone hself
      · exact noneActive_getElem? hnone ((hother hj).trans hd)
    · intro i' j d' k' hd' hk' hc hloop hloc
      replace hk' : (s.lockers ++ newLockers i (.jump l))[j]? = some k' := hk'
      rw [hlockers] at hk'
      -- the sender is the one that jumped into its loop, or it was in it before
      rcases getElem?_set_cases hd' with ⟨rfl, rfl⟩ | ⟨-, hd⟩
      · exact henter hloop j k' hk' hc hloc
      · exact hinv.2 i' j d' k' hd hk' hc hloop hloc
  · rintro ⟨hnothing, hstill⟩
    constructor
    · -- the two conditions are what the agreement says about the sender that jumped
      intro hl hsend hothers
      apply hnothing hsend
      intro d hd
      obtain ⟨j, hj⟩ := List.getElem?_of_mem hd
      rcases getElem?_set_cases hj with ⟨-, rfl⟩ | ⟨hne, hj⟩
      · exact hl
      · exact hothers j d hj hne
    · intro hl j k hk hc hloc
      exact hstill i j _ k hself (by rw [hlockers]; exact hk) hc hl hloc

/-- Taking the grab keeps the agreement iff the flag is 1 or a sender is active. -/
theorem agrees_grab {j : Nat} (hinv : LockAgrees s) (h : Step s (.locker j (.did .grabKeyboard true)) s') :
    (s.sending = false → ¬ NoneActive s) ↔ LockAgrees s' := by
  have hfree : s.grab = none ∧ s'.toShared = { s.toShared with grab := some j } := by
    have hsh := shared_locker_call h
    simp only [Shared.lockEffect] at hsh
    split at hsh
    · rename_i hfree
      exact ⟨hfree, (Option.some.inj hsh).symm⟩
    · cases hsh
  have hg : s'.grab = some j := by rw [hfree.2]
  have hs : s'.sending = s.sending := by rw [hfree.2]
  have hsenders : s'.senders = s.senders := by
    obtain ⟨k, t, sh, -, -, -, rfl⟩ := step_locker h
    rfl
  constructor
  · intro hok
    constructor
    · intro hsend hnone
      exact absurd (noneActive_before h (by rintro _ _ ⟨⟩) hnone) (hok (hs ▸ hsend))
    · -- while the grab is free no sender is in its loop with a lock acquired
      intro i j' d' k' hd' hk' hc hloop hloc
      obtain ⟨d, k, hd, hk, hkc, hl, hkl⟩ :=
        pair_before h (by rintro _ _ ⟨⟩) (by rintro _ _ ⟨⟩) hd' hk' hc hloop hloc
      have hheld := hinv.2 i j' d k hd hk hkc hl hkl
      rw [hfree.1] at hheld
      cases hheld
  · intro hinv' hsend hnone
    have hnone' : NoneActive s' := fun d hd => hnone d (hsenders ▸ hd)
    have hheld := hinv'.1 (hs.trans hsend) hnone'
    rw [hg] at hheld
    cases hheld

/-- Giving up the grab keeps the agreement iff the sender is not in its loop. -/
theorem agrees_ungrab {j : Nat} (hlock : LockInv s) (hinv : LockAgrees s)
    (h : Step s (.locker j (.did .ungrabKeyboard ())) s') :
    LockLegal s (.locker j (.did .ungrabKeyboard ())) ↔ LockAgrees s' := by
  have hsh := shared_locker_call h
  obtain ⟨k₀, t, sh, hk₀, hf, -, hs'⟩ := step_locker h
  have hheld : s.grab = some j :=
    of_decide_eq_true ((hlock.lockers (step_running h) j k₀ hk₀).pre hf)
  have hg : s'.grab = none := by rw [← Option.some.inj hsh]; simp [hheld]
  have hsenders : s'.senders = s.senders := by rw [hs']
  have hk' : s'.lockers[j]? = some { k₀ with thread := t } := by
    rw [hs']
    exact List.getElem?_set_self (List.getElem?_eq_some_iff.mp hk₀).1
  have hloc : t.loc = k₀.thread.loc := Thread.did_loc hf
  constructor
  · intro hok
    refine ⟨fun _ _ => hg, ?_⟩
    intro i j' d' k' hd' hkj hc hloop hkl
    obtain ⟨d, k, hd, hk, hkc, hl, hkl⟩ :=
      pair_before h (by rintro _ _ ⟨⟩) (by rintro _ _ ⟨⟩) hd' hkj hc hloop hkl
    -- only `j` can be held, and its sender is not in its loop
    have hheld' := hinv.2 i j' d k hd hk hkc hl hkl
    obtain rfl : j = j' := Option.some.inj (hheld.symm.trans hheld')
    exact absurd (hok k d hk (hkc ▸ hd) hl) hkl
  · intro hinv' k d hk hd hl
    obtain rfl : k₀ = k := Option.some.inj (hk₀.symm.trans hk)
    by_contra hne
    have hheld' := hinv'.2 k₀.creator j d _ (hsenders ▸ hd) hk' rfl hl (by rw [hloc]; exact hne)
    rw [hg] at hheld'
    cases hheld'

/-- A jump of a lock thread keeps the agreement. -/
theorem agrees_lock_jump {j : Nat} {l : LockLoc} (hlock : LockInv s) (hinv : LockAgrees s)
    (h : Step s (.locker j (.jump l)) s') : LockAgrees s' := by
  have hsh := shared_locker_jump h
  obtain ⟨k₀, t, sh, hk₀, hf, -, hs'⟩ := step_locker h
  obtain rfl := Thread.jump_start hf
  have hlabel : Grabbed l (decide (s.grab = some j)) := (hlock.lockers (step_running h) j k₀ hk₀).label hf
  have hg : s'.grab = s.grab := by rw [hsh]
  have hsenders : s'.senders = s.senders := by rw [hs']
  refine ⟨nothingHeld_frame h (by rintro _ _ ⟨⟩) (by rw [hsh]; exact id) hg hinv.1, ?_⟩
  intro i j' d k hd hk hc hloop hloc
  rw [hsenders] at hd
  rw [hg]
  replace hk : (s.lockers.set j { k₀ with thread := .start spawnLockThread l })[j']? = some k := by
    rw [hs'] at hk
    exact hk
  rcases getElem?_set_cases hk with ⟨rfl, rfl⟩ | ⟨-, hk⟩
  · cases l with
    | entry => exact absurd rfl hloc
    | locked bind => exact of_decide_eq_true hlabel
    | unlocked =>
        -- it comes from its loop, where the agreement already asked for the grab
        have hne : k₀.thread.loc ≠ .entry := by
          intro hentry
          have hwithin := hlock.entry _ k₀ hk₀ hentry
          rw [Thread.jump_rest hf] at hwithin
          exact hwithin rfl
        exact hinv.2 i _ d k₀ hd hk₀ hc hloop hne
  · exact hinv.2 i j' d k hd hk hc hloop hloc

/-- **Step lemma.** From a state in which lock and flag agree, a step keeps the agreement iff it is legal. -/
theorem lockAgrees_step (hlock : LockInv s) (hinv : LockAgrees s) (h : Step s e s') :
    LockLegal s e ↔ LockAgrees s' := by
  -- all but jumps, a fall of the flag and a change of the grab keep the agreement
  have hframe : (∀ i l, e ≠ .sender i (.jump l)) → (∀ j l, e ≠ .locker j (.jump l)) →
      (s'.sending = false → s.sending = false) → s'.grab = s.grab → LockAgrees s' := fun he he' hs hg =>
    ⟨nothingHeld_frame h he hs hg hinv.1, stillHeld_frame h he he' hg hinv.2⟩
  cases e with
  | main a =>
      have hg : s'.grab = s.grab := grab_frame h (by rintro _ _ ⟨⟩)
      by_cases hset : ∃ b, a = .did (.setSending b) ()
      · obtain ⟨b, rfl⟩ := hset
        cases b with
        | false => exact agrees_stop hinv h
        | true =>
            have hs : s'.sending = true := sending_set h
            refine iff_of_true trivial (hframe (by rintro _ _ ⟨⟩) (by rintro _ _ ⟨⟩) (fun hfalse => ?_) hg)
            rw [hs] at hfalse
            cases hfalse
      · have hs : s'.sending = s.sending := sending_frame h (by rintro b ⟨⟩; exact hset ⟨b, rfl⟩)
        refine iff_of_true ?_ (hframe (by rintro _ _ ⟨⟩) (by rintro _ _ ⟨⟩) (fun hf => hs ▸ hf) hg)
        unfold LockLegal
        split <;> first | trivial | simp_all
  | sender i a =>
      cases a with
      | jump l => exact agrees_jump hinv h
      | did c r =>
          refine iff_of_true trivial (hframe (by rintro _ _ ⟨⟩) (by rintro _ _ ⟨⟩) ?_
            (grab_frame h (by rintro _ _ ⟨⟩)))
          rw [shared_sender h]
          exact id
  | listener i a =>
      refine iff_of_true trivial (hframe (by rintro _ _ ⟨⟩) (by rintro _ _ ⟨⟩) ?_
        (grab_frame h (by rintro _ _ ⟨⟩)))
      rw [shared_listener h]
      exact id
  | locker j a =>
      cases a with
      | jump l => exact iff_of_true trivial (agrees_lock_jump hlock hinv h)
      | did c r =>
          have hs : s'.sending = false → s.sending = false := by rw [shared_locker h]; exact id
          have hsh := shared_locker_call h
          cases c with
          | grabKeyboard =>
              cases r with
              | true => exact agrees_grab hinv h
              | false =>
                  refine iff_of_true trivial (hframe (by rintro _ _ ⟨⟩) (by rintro _ _ ⟨⟩) hs ?_)
                  rw [← Option.some.inj hsh]
          | ungrabKeyboard => exact agrees_ungrab hlock hinv h
          | _ =>
              refine iff_of_true trivial (hframe (by rintro _ _ ⟨⟩) (by rintro _ _ ⟨⟩) hs ?_)
              rw [← Option.some.inj hsh]

theorem lockAgrees_init (cfg : Config) (conn args : Bytes) : LockAgrees (init cfg conn args) :=
  ⟨fun _ _ => rfl, fun _ _ _ _ hd => by simp [init] at hd⟩

/-- Lock thread `j` acquires its lock. -/
def lockEvents (j : Nat) : List Event :=
  [.locker j (.did .openDisplay true), .locker j (.did .grabKeyboard true), .locker j (.did .grabPointer true),
    .locker j (.jump (.locked unlockBind))]

/-- The unlock keys are pressed. -/
def unlockEvents (j : Nat) : List Event :=
  [.locker j (.did .nextEvent (.keyPress 1 0xffeb)), .locker j (.jump (.locked (press unlockBind 0xffeb))),
    .locker j (.did .nextEvent (.keyPress 2 0xffe3)),
    .locker j (.jump (.locked (press (press unlockBind 0xffeb) 0xffe3))),
    .locker j (.did .nextEvent (.keyPress 3 0x002e)), .locker j (.did .ungrabKeyboard ()),
    .locker j (.did .closeDisplay ()), .locker j (.jump .unlocked)]

/-- START, the lock is acquired, STOP, and the sender leaves. -/
def lockedOutEvents : List Event :=
  boot ++ order .start startEvents ++ joinEvents 0 ++ lockEvents 0 ++ order .stop stopEvents ++ leaveEvents 0

/-- At its end the user is locked out. -/
theorem run_lockedOut :
    ∃ s, Run Step (init emptyConfig [] []) lockedOutEvents s ∧ s.sending = false ∧ NoneActive s ∧ s.grab = some 0 := by
  have hexec : (execs exec (init emptyConfig [] []) lockedOutEvents).map
      (fun s => (s.sending, decide (NoneActive s), s.grab)) = some (false, true, some 0) := by
    decide +kernel
  obtain ⟨s, hrun, hfin⟩ := Run.exists_of_execs hexec
  obtain ⟨hsend, hfin⟩ := Prod.mk.inj hfin
  obtain ⟨hnone, hgrab⟩ := Prod.mk.inj hfin
  exact ⟨s, hrun, hsend, of_decide_eq_true hnone, hgrab⟩

end Daemon

end IOSwitch
