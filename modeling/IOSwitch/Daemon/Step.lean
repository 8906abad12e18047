import IOSwitch.Daemon.State
import IOSwitch.Lib.Lists
import IOSwitch.Server.Calls

/-!
# `Daemon.Step` — what one step of the daemon can do

The inversion of `Daemon.exec`, once for each kind of thread, and the way back (`main_possible` to
`locker_possible`), what the calls of each kind of thread can change in the shared memory, and the rules that
carry the invariant of one thread (`Thread.Ok`) through the steps of all threads.
-/

namespace IOSwitch

open Lib

namespace Daemon

variable {s s' : Daemon}

/-! ## Inversion -/

theorem step_running {e : Event} (h : Step s e s') : s.exited = false := by
  unfold Step exec at h
  cases hx : s.exited with
  | false => rfl
  | true => rw [hx] at h; simp at h

/-- Labels determine steps. -/
theorem step_unique {e : Event} {s₁ s₂ : Daemon} (h₁ : Step s e s₁) (h₂ : Step s e s₂) : s₁ = s₂ :=
  Option.some.inj (h₁.symm.trans h₂)

theorem step_main {a : Act serverI ServerLoc} (h : Step s (.main a) s') :
    ∃ t sh, s.main.fire runServer a = some t ∧ effectOf s.toShared s.serverEffect a = some sh ∧
      s' = { s with
        toShared  := sh
        main      := t
        senders   := s.senders ++ s.newSenders a
        listeners := s.listeners ++ newListeners a } := by
  have hx : ¬ s.exited = true := by simp [step_running h]
  simp only [Step, exec, if_neg hx, Option.bind_eq_some_iff, Option.map_eq_some_iff] at h
  obtain ⟨t, ht, sh, hsh, rfl⟩ := h
  exact ⟨t, sh, ht, hsh, rfl⟩

theorem step_sender {i : Nat} {a : Act senderI SenderLoc} (h : Step s (.sender i a) s') :
    ∃ d t sh, s.senders[i]? = some d ∧ d.thread.fire spawnSenderThread a = some t ∧
      effectOf s.toShared (s.senderEffect i d.config) a = some sh ∧
      s' = { s with
        toShared := sh
        senders  := s.senders.set i { d with thread := t }
        lockers  := s.lockers ++ newLockers i a } := by
  have hx : ¬ s.exited = true := by simp [step_running h]
  simp only [Step, exec, if_neg hx, Option.bind_eq_some_iff, Option.map_eq_some_iff] at h
  obtain ⟨d, hd, t, ht, sh, hsh, rfl⟩ := h
  exact ⟨d, t, sh, hd, ht, hsh, rfl⟩

theorem step_listener {i : Nat} {a : Act listenerI ListenerLoc} (h : Step s (.listener i a) s') :
    ∃ d t sh, s.listeners[i]? = some d ∧ d.thread.fire spawnListenerThread a = some t ∧
      effectOf s.toShared (s.listenerEffect i d.args) a = some sh ∧
      s' = { s with toShared := sh, listeners := s.listeners.set i { d with thread := t } } := by
  have hx : ¬ s.exited = true := by simp [step_running h]
  simp only [Step, exec, if_neg hx, Option.bind_eq_some_iff, Option.map_eq_some_iff] at h
  obtain ⟨d, hd, t, ht, sh, hsh, rfl⟩ := h
  exact ⟨d, t, sh, hd, ht, hsh, rfl⟩

theorem step_locker {i : Nat} {a : Act lockI LockLoc} (h : Step s (.locker i a) s') :
    ∃ d t sh, s.lockers[i]? = some d ∧ d.thread.fire spawnLockThread a = some t ∧
      effectOf s.toShared (s.lockEffect i) a = some sh ∧
      s' = { s with
        toShared := sh
        lockers  := s.lockers.set i { d with thread := t }
        exited   := exits a } := by
  have hx : ¬ s.exited = true := by simp [step_running h]
  simp only [Step, exec, if_neg hx, Option.bind_eq_some_iff, Option.map_eq_some_iff] at h
  obtain ⟨d, hd, t, ht, sh, hsh, rfl⟩ := h
  exact ⟨d, t, sh, hd, ht, hsh, rfl⟩

/-! ## Steps, put together again -/

section Possible

variable (hx : s.exited = false)
include hx

theorem main_possible {a : Act serverI ServerLoc} {th : Thread serverI ServerLoc} {sh : Shared}
    (hf : s.main.fire runServer a = some th) (hsh : effectOf s.toShared s.serverEffect a = some sh) :
    Step s (.main a) { s with
      toShared  := sh
      main      := th
      senders   := s.senders ++ s.newSenders a
      listeners := s.listeners ++ newListeners a } := by
  simp [Step, exec, hx, hf, hsh]

theorem sender_possible {i : Nat} {a : Act senderI SenderLoc} {d : SenderThread} {th : Thread senderI SenderLoc}
    {sh : Shared} (hd : s.senders[i]? = some d) (hf : d.thread.fire spawnSenderThread a = some th)
    (hsh : effectOf s.toShared (s.senderEffect i d.config) a = some sh) :
    Step s (.sender i a) { s with
      toShared := sh
      senders  := s.senders.set i { d with thread := th }
      lockers  := s.lockers ++ newLockers i a } := by
  simp [Step, exec, hx, hd, hf, hsh]

theorem listener_possible {m : Nat} {a : Act listenerI ListenerLoc} {d : ListenerThread}
    {th : Thread listenerI ListenerLoc} {sh : Shared} (hd : s.listeners[m]? = some d)
    (hf : d.thread.fire spawnListenerThread a = some th)
    (hsh : effectOf s.toShared (s.listenerEffect m d.args) a = some sh) :
    Step s (.listener m a) { s with toShared := sh, listeners := s.listeners.set m { d with thread := th } } := by
  simp [Step, exec, hx, hd, hf, hsh]

theorem locker_possible {j : Nat} {a : Act lockI LockLoc} {d : LockThread} {th : Thread lockI LockLoc} {sh : Shared}
    (hd : s.lockers[j]? = some d) (hf : d.thread.fire spawnLockThread a = some th)
    (hsh : effectOf s.toShared (s.lockEffect j) a = some sh) :
    Step s (.locker j a) { s with
      toShared := sh
      lockers  := s.lockers.set j { d with thread := th }
      exited   := exits a } := by
  simp [Step, exec, hx, hd, hf, hsh]

end Possible

end Daemon

/-! ## What the calls can change -/

namespace Shared

variable {s s' : Shared}

theorem lockSender_eq {who : Tid} :
    s.lockSender who = some s' ↔ s.senderMutex = none ∧ s' = { s with senderMutex := some who } := by
  unfold lockSender
  split <;> rename_i h <;> simp [h, eq_comm]

theorem unlockSender_eq {who : Tid} :
    s.unlockSender who = some s' ↔ s.senderMutex = some who ∧ s' = { s with senderMutex := none } := by
  unfold unlockSender
  split <;> rename_i h <;> simp [h, eq_comm]

theorem lockListener_eq {who : Tid} :
    s.lockListener who = some s' ↔ s.listenerMutex = none ∧ s' = { s with listenerMutex := some who } := by
  unfold lockListener
  split <;> rename_i h <;> simp [h, eq_comm]

theorem unlockListener_eq {who : Tid} :
    s.unlockListener who = some s' ↔ s.listenerMutex = some who ∧ s' = { s with listenerMutex := none } := by
  unfold unlockListener
  split <;> rename_i h <;> simp [h, eq_comm]

theorem check_eq {b : Bool} : s.check b = some s' ↔ b = true ∧ s' = s := by
  unfold check
  split <;> rename_i h <;> simp [h, eq_comm]

theorem onDevice_of_nonneg {fd : Int} (h : 0 ≤ fd) (f : UInputDev → UInputDev) :
    s.onDevice fd f = s.uinput.modify fd.toNat f := if_neg (Int.not_lt.mpr h)

theorem onDevice_of_neg {fd : Int} (h : fd < 0) (f : UInputDev → UInputDev) : s.onDevice fd f = s.uinput := if_pos h

/-- A sender's calls change the sender mutex at most. -/
theorem senderEffect_frame {i ref : Nat} {c : SenderCall} {r : c.Resp}
    (h : s.senderEffect i ref c r = some s') : s' = { s with senderMutex := s'.senderMutex } := by
  cases c with
  | lock => obtain ⟨-, rfl⟩ := lockSender_eq.mp h; rfl
  | unlock => obtain ⟨-, rfl⟩ := unlockSender_eq.mp h; rfl
  | config => obtain ⟨-, rfl⟩ := check_eq.mp h; rfl
  | sending => obtain ⟨-, rfl⟩ := check_eq.mp h; rfl
  | _ => cases h; rfl

/-- A listener's calls leave the sender side alone. -/
theorem listenerEffect_frame {i : Nat} {args : ListenerArgs} {c : ListenerCall} {r : c.Resp}
    (h : s.listenerEffect i args c r = some s') :
    s' = { s with
      listenerMutex := s'.listenerMutex, connections := s'.connections, uinput := s'.uinput } := by
  cases c with
  | read => cases h; rfl
  | write devId ie =>
      obtain ⟨d, -, rfl⟩ := Option.map_eq_some_iff.mp h
      rfl
  | lock => obtain ⟨-, rfl⟩ := lockListener_eq.mp h; rfl
  | unlock => obtain ⟨-, rfl⟩ := unlockListener_eq.mp h; rfl
  | clearConnection => cases h; rfl

/-- A lock thread's calls change the grab at most. -/
theorem lockEffect_frame {i : Nat} {c : LockCall} {r : c.Resp} (h : s.lockEffect i c r = some s') :
    s' = { s with grab := s'.grab } := by
  cases c with
  | grabKeyboard =>
      cases r with
      | false => cases h; rfl
      | true =>
          simp only [lockEffect] at h
          split at h
          · cases h; rfl
          · cases h
  | ungrabKeyboard => cases h; rfl
  | _ => cases h; rfl

/-- A uinput descriptor is new, unless the `open` fails. -/
theorem openUinput_eq {fd : Int} (h : s.serverEffect .openUinput fd = some s') :
    (fd < 0 ∧ s' = s) ∨ (fd = s.uinput.length ∧ s' = { s with uinput := s.uinput ++ [⟨[], false, []⟩] }) := by
  simp only [serverEffect] at h
  split at h
  · exact Or.inl ⟨‹_›, (Option.some.inj h).symm⟩
  · split at h
    · exact Or.inr ⟨‹_›, (Option.some.inj h).symm⟩
    · cases h

end Shared

/-- Plain calls leave the sender side alone. -/
theorem Shared.serverEffect_plain {s s' : Shared} {c : ServerCall} {r : c.Resp}
    (h : s.serverEffect c r = some s') (hc : c.Plain) :
    s' = { s with
      numConns      := s'.numConns
      listenerMutex := s'.listenerMutex
      connections   := s'.connections
      uinput        := s'.uinput } := by
  cases c with
  | lockListener => obtain ⟨-, rfl⟩ := lockListener_eq.mp h; rfl
  | unlockListener => obtain ⟨-, rfl⟩ := unlockListener_eq.mp h; rfl
  | openUinput => rcases openUinput_eq h with ⟨-, rfl⟩ | ⟨-, rfl⟩ <;> rfl
  | numConns => obtain ⟨-, rfl⟩ := check_eq.mp h; rfl
  | connection i => obtain ⟨-, rfl⟩ := check_eq.mp h; rfl
  | wild => exact r.elim
  | lockSender | unlockSender | sending | setSending _ | freeConfig | loadConfig _ | createSender
  | printf _ => exact hc.elim
  | _ => cases h; rfl

/-- What a call of the main thread leaves alone: every part of the memory has its own few calls. -/
structure Shared.ServerFrame (c : ServerCall) (s s' : Shared) : Prop where
  sending     : (∀ b, c ≠ .setSending b) → s'.sending = s.sending
  configs     : c ≠ .freeConfig → (∀ p, c ≠ .loadConfig p) → s'.config = s.config ∧ s'.configs = s.configs
  senderMutex : c ≠ .lockSender → c ≠ .unlockSender → s'.senderMutex = s.senderMutex
  numConns    : c ≠ .incrNumConns → s'.numConns = s.numConns
  uinput      : ¬ c.MakesDevice → s'.uinput = s.uinput
  connections : s'.connections = s.connections
  grab        : s'.grab = s.grab

theorem Shared.serverEffect_frame {s s' : Shared} {c : ServerCall} {r : c.Resp}
    (h : s.serverEffect c r = some s') : ServerFrame c s s' := by
  cases c with
  | lockSender => obtain ⟨-, rfl⟩ := lockSender_eq.mp h; constructor <;> simp
  | unlockSender => obtain ⟨-, rfl⟩ := unlockSender_eq.mp h; constructor <;> simp
  | lockListener => obtain ⟨-, rfl⟩ := lockListener_eq.mp h; constructor <;> simp
  | unlockListener => obtain ⟨-, rfl⟩ := unlockListener_eq.mp h; constructor <;> simp
  | openUinput => rcases openUinput_eq h with ⟨-, rfl⟩ | ⟨-, rfl⟩ <;> constructor <;> simp [ServerCall.MakesDevice]
  | numConns | connection _ | sending => obtain ⟨-, rfl⟩ := check_eq.mp h; constructor <;> simp
  | wild => exact r.elim
  | _ => cases h; constructor <;> simp [ServerCall.MakesDevice]

/-! ## How a step changes the threads -/

namespace Daemon

variable {s s' : Daemon} {e : Event}

/-- The main thread moves in its own steps only. -/
theorem main_cases (h : Step s e s') :
    (s'.main = s.main ∧ ∀ a, e ≠ .main a) ∨
    ∃ a, e = .main a ∧ s.main.fire runServer a = some s'.main := by
  cases e with
  | main a =>
      obtain ⟨t, sh, ht, -, rfl⟩ := step_main h
      exact Or.inr ⟨a, rfl, ht⟩
  | sender i a =>
      obtain ⟨d, t, sh, -, -, -, rfl⟩ := step_sender h
      exact Or.inl ⟨rfl, by simp⟩
  | listener i a =>
      obtain ⟨d, t, sh, -, -, -, rfl⟩ := step_listener h
      exact Or.inl ⟨rfl, by simp⟩
  | locker i a =>
      obtain ⟨d, t, sh, -, -, -, rfl⟩ := step_locker h
      exact Or.inl ⟨rfl, by simp⟩

/-- A sender after a step is a sender from before, moved by its own step or not at all, or it is the one the
    step created. -/
theorem sender_cases (h : Step s e s') {i : Nat} {d' : SenderThread} (hd : s'.senders[i]? = some d') :
    (s.senders[i]? = some d' ∧ ∀ a, e ≠ .sender i a) ∨
    (∃ a d, e = .sender i a ∧ s.senders[i]? = some d ∧ d'.config = d.config ∧
      d.thread.fire spawnSenderThread a = some d'.thread) ∨
    (i = s.senders.length ∧ e = .main (.did .createSender ()) ∧
      d' = ⟨s.config, .start spawnSenderThread .entry⟩) := by
  cases e with
  | main a =>
      obtain ⟨t, sh, -, -, rfl⟩ := step_main h
      rcases getElem?_append_cases hd with hd | ⟨hi, hd⟩
      · exact Or.inl ⟨hd, by simp⟩
      · unfold newSenders at hd
        split at hd
        · obtain ⟨hz, hd⟩ := List.getElem?_eq_some_iff.mp hd
          have hi' : i - s.senders.length = 0 := by simpa using hz
          refine Or.inr (Or.inr ⟨by omega, rfl, ?_⟩)
          simpa using hd.symm
        · simp at hd
  | sender j a =>
      obtain ⟨d, t, sh, hj, ht, -, rfl⟩ := step_sender h
      rcases getElem?_set_cases hd with ⟨rfl, rfl⟩ | ⟨hij, hd⟩
      · exact Or.inr (Or.inl ⟨a, d, rfl, hj, rfl, ht⟩)
      · exact Or.inl ⟨hd, by rintro a' ⟨⟩; exact hij rfl⟩
  | listener j a =>
      obtain ⟨d, t, sh, -, -, -, rfl⟩ := step_listener h
      exact Or.inl ⟨hd, by simp⟩
  | locker j a =>
      obtain ⟨d, t, sh, -, -, -, rfl⟩ := step_locker h
      exact Or.inl ⟨hd, by simp⟩

/-- Every step but the creation of a sender leaves their number alone. -/
theorem senders_length (h : Step s e s') (he : e ≠ .main (.did .createSender ())) :
    s'.senders.length = s.senders.length := by
  cases e with
  | main a =>
      obtain ⟨t, sh, -, -, rfl⟩ := step_main h
      have hnew : s.newSenders a = [] := by
        unfold newSenders
        split
        · exact absurd rfl he
        · rfl
      simp [hnew]
  | sender j a =>
      obtain ⟨d, t, sh, -, -, -, rfl⟩ := step_sender h
      simp
  | listener j a =>
      obtain ⟨d, t, sh, -, -, -, rfl⟩ := step_listener h
      rfl
  | locker j a =>
      obtain ⟨d, t, sh, -, -, -, rfl⟩ := step_locker h
      rfl

/-- Senders are never forgotten. -/
theorem senders_length_le (h : Step s e s') : s.senders.length ≤ s'.senders.length := by
  cases e with
  | main a =>
      obtain ⟨t, sh, -, -, rfl⟩ := step_main h
      simp
  | _ => rw [senders_length h (by simp)]

/-- A sender from before a step is one after it, with the same config, moved by its own step or not at all. -/
theorem sender_next (h : Step s e s') {i : Nat} {d : SenderThread} (hd : s.senders[i]? = some d) :
    ∃ d', s'.senders[i]? = some d' ∧ d'.config = d.config ∧
      ((d' = d ∧ ∀ a, e ≠ .sender i a) ∨
        ∃ a, e = .sender i a ∧ d.thread.fire spawnSenderThread a = some d'.thread) := by
  have hlt : i < s.senders.length := (List.getElem?_eq_some_iff.mp hd).1
  have hlt' : i < s'.senders.length := Nat.lt_of_lt_of_le hlt (senders_length_le h)
  have hd' : s'.senders[i]? = some s'.senders[i] := List.getElem?_eq_getElem hlt'
  refine ⟨s'.senders[i], hd', ?_⟩
  rcases sender_cases h hd' with ⟨hold, hne⟩ | ⟨a, d₀, he, hold, hc, hf⟩ | ⟨hi, -, -⟩
  · have hsame : d = s'.senders[i] := Option.some.inj (hd.symm.trans hold)
    exact ⟨by rw [← hsame], Or.inl ⟨hsame.symm, hne⟩⟩
  · obtain rfl : d = d₀ := Option.some.inj (hd.symm.trans hold)
    exact ⟨hc, Or.inr ⟨a, he, hf⟩⟩
  · omega

/-- The creation of a sender appends it. -/
theorem senders_create (h : Step s (.main (.did .createSender ())) s') :
    s'.senders = s.senders ++ [⟨s.config, .start spawnSenderThread .entry⟩] := by
  obtain ⟨t, sh, -, -, rfl⟩ := step_main h
  rfl

/-- Likewise for the lock threads, which senders create. -/
theorem locker_cases (h : Step s e s') {j : Nat} {k' : LockThread} (hk : s'.lockers[j]? = some k') :
    (s.lockers[j]? = some k' ∧ ∀ a, e ≠ .locker j a) ∨
    (∃ a k, e = .locker j a ∧ s.lockers[j]? = some k ∧ k'.creator = k.creator ∧
      k.thread.fire spawnLockThread a = some k'.thread) ∨
    (j = s.lockers.length ∧ ∃ i, e = .sender i (.did .createLock ()) ∧
      k' = ⟨i, .start spawnLockThread .entry⟩) := by
  cases e with
  | main a =>
      obtain ⟨t, sh, -, -, rfl⟩ := step_main h
      exact Or.inl ⟨hk, by simp⟩
  | sender i a =>
      obtain ⟨d, t, sh, -, -, -, rfl⟩ := step_sender h
      rcases getElem?_append_cases hk with hk | ⟨hj, hk⟩
      · exact Or.inl ⟨hk, by simp⟩
      · unfold newLockers at hk
        split at hk
        · obtain ⟨hz, hk⟩ := List.getElem?_eq_some_iff.mp hk
          have hj' : j - s.lockers.length = 0 := by simpa using hz
          refine Or.inr (Or.inr ⟨by omega, i, rfl, ?_⟩)
          simpa using hk.symm
        · simp at hk
  | listener i a =>
      obtain ⟨d, t, sh, -, -, -, rfl⟩ := step_listener h
      exact Or.inl ⟨hk, by simp⟩
  | locker i a =>
      obtain ⟨d, t, sh, hi, ht, -, rfl⟩ := step_locker h
      rcases getElem?_set_cases hk with ⟨rfl, rfl⟩ | ⟨hij, hk⟩
      · exact Or.inr (Or.inl ⟨a, d, rfl, hi, rfl, ht⟩)
      · exact Or.inl ⟨hk, by rintro a' ⟨⟩; exact hij rfl⟩

/-- Likewise for the listeners, which the main thread creates. -/
theorem listener_cases (h : Step s e s') {m : Nat} {d' : ListenerThread} (hd : s'.listeners[m]? = some d') :
    (s.listeners[m]? = some d' ∧ ∀ a, e ≠ .listener m a) ∨
    (∃ a d, e = .listener m a ∧ s.listeners[m]? = some d ∧ d'.slot = d.slot ∧ d'.args = d.args ∧
      d.thread.fire spawnListenerThread a = some d'.thread) ∨
    (m = s.listeners.length ∧ ∃ slot args, e = .main (.did (.createListener slot args) ()) ∧
      d' = ⟨args, slot, .start spawnListenerThread (.loop InputPacket.zero.encode)⟩) := by
  cases e with
  | main a =>
      obtain ⟨t, sh, -, -, rfl⟩ := step_main h
      rcases getElem?_append_cases hd with hd | ⟨hm, hd⟩
      · exact Or.inl ⟨hd, by simp⟩
      · unfold newListeners at hd
        split at hd
        · rename_i slot args _ _
          obtain ⟨hz, hd⟩ := List.getElem?_eq_some_iff.mp hd
          have hm' : m - s.listeners.length = 0 := by simpa using hz
          refine Or.inr (Or.inr ⟨by omega, slot, args, rfl, ?_⟩)
          simpa using hd.symm
        · simp at hd
  | sender i a =>
      obtain ⟨d, t, sh, -, -, -, rfl⟩ := step_sender h
      exact Or.inl ⟨hd, by simp⟩
  | listener i a =>
      obtain ⟨d, t, sh, hi, ht, -, rfl⟩ := step_listener h
      rcases getElem?_set_cases hd with ⟨rfl, rfl⟩ | ⟨hmi, hd⟩
      · exact Or.inr (Or.inl ⟨a, d, rfl, hi, rfl, rfl, ht⟩)
      · exact Or.inl ⟨hd, by rintro a' ⟨⟩; exact hmi rfl⟩
  | locker i a =>
      obtain ⟨d, t, sh, -, -, -, rfl⟩ := step_locker h
      exact Or.inl ⟨hd, by simp⟩

/-- Listeners are never forgotten. -/
theorem listeners_length_le (h : Step s e s') : s.listeners.length ≤ s'.listeners.length := by
  cases e with
  | main a => obtain ⟨t, sh, -, -, rfl⟩ := step_main h; simp
  | sender i a => obtain ⟨d, t, sh, -, -, -, rfl⟩ := step_sender h; exact Nat.le_refl _
  | listener i a => obtain ⟨d, t, sh, -, -, -, rfl⟩ := step_listener h; simp
  | locker i a => obtain ⟨d, t, sh, -, -, -, rfl⟩ := step_locker h; exact Nat.le_refl _

/-- A listener from before a step is one after it, with the same arguments, moved by its own step or not at all. -/
theorem listener_next (h : Step s e s') {m : Nat} {d : ListenerThread} (hd : s.listeners[m]? = some d) :
    ∃ d', s'.listeners[m]? = some d' ∧ d'.args = d.args ∧
      ((d' = d ∧ ∀ a, e ≠ .listener m a) ∨
        ∃ a, e = .listener m a ∧ d.thread.fire spawnListenerThread a = some d'.thread) := by
  have hlt : m < s.listeners.length := (List.getElem?_eq_some_iff.mp hd).1
  have hlt' : m < s'.listeners.length := Nat.lt_of_lt_of_le hlt (listeners_length_le h)
  have hd' : s'.listeners[m]? = some s'.listeners[m] := List.getElem?_eq_getElem hlt'
  refine ⟨s'.listeners[m], hd', ?_⟩
  rcases listener_cases h hd' with ⟨hold, hne⟩ | ⟨a, d₀, he, hold, -, hargs, hf⟩ | ⟨hm, -, -, -, -⟩
  · have hsame : d = s'.listeners[m] := Option.some.inj (hd.symm.trans hold)
    exact ⟨by rw [← hsame], Or.inl ⟨hsame.symm, hne⟩⟩
  · obtain rfl : d = d₀ := Option.some.inj (hd.symm.trans hold)
    exact ⟨hargs, Or.inr ⟨a, he, hf⟩⟩
  · omega

/-- Lock threads are never forgotten. -/
theorem lockers_length_le (h : Step s e s') : s.lockers.length ≤ s'.lockers.length := by
  cases e with
  | main a => obtain ⟨t, sh, -, -, rfl⟩ := step_main h; exact Nat.le_refl _
  | sender i a => obtain ⟨d, t, sh, -, -, -, rfl⟩ := step_sender h; simp
  | listener i a => obtain ⟨d, t, sh, -, -, -, rfl⟩ := step_listener h; exact Nat.le_refl _
  | locker i a => obtain ⟨d, t, sh, -, -, -, rfl⟩ := step_locker h; simp

/-! ## How a step changes the shared memory -/

/-- Jumps and plain calls of the main thread leave the sender side alone. -/
theorem shared_main {a : Act serverI ServerLoc} (h : Step s (.main a) s')
    (ha : ∀ c r, a = .did c r → c.Plain) :
    s'.toShared = { s.toShared with
      numConns      := s'.numConns
      listenerMutex := s'.listenerMutex
      connections   := s'.connections
      uinput        := s'.uinput } := by
  obtain ⟨t, sh, -, hsh, rfl⟩ := step_main h
  cases a with
  | jump l => cases hsh; rfl
  | did c r => exact Shared.serverEffect_plain hsh (ha c r rfl)

theorem shared_main_jump {l : ServerLoc} (h : Step s (.main (.jump l)) s') : s'.toShared = s.toShared := by
  obtain ⟨t, sh, -, hsh, rfl⟩ := step_main h
  cases hsh; rfl

/-- Senders change the sender mutex at most. -/
theorem shared_sender {i : Nat} {a : Act senderI SenderLoc} (h : Step s (.sender i a) s') :
    s'.toShared = { s.toShared with senderMutex := s'.senderMutex } := by
  obtain ⟨d, t, sh, -, -, hsh, rfl⟩ := step_sender h
  cases a with
  | jump l => cases hsh; rfl
  | did c r => exact Shared.senderEffect_frame hsh

theorem shared_listener {i : Nat} {a : Act listenerI ListenerLoc} (h : Step s (.listener i a) s') :
    s'.toShared = { s.toShared with
      listenerMutex := s'.listenerMutex, connections := s'.connections, uinput := s'.uinput } := by
  obtain ⟨d, t, sh, -, -, hsh, rfl⟩ := step_listener h
  cases a with
  | jump l => cases hsh; rfl
  | did c r => exact Shared.listenerEffect_frame hsh

theorem shared_locker {i : Nat} {a : Act lockI LockLoc} (h : Step s (.locker i a) s') :
    s'.toShared = { s.toShared with grab := s'.grab } := by
  obtain ⟨d, t, sh, -, -, hsh, rfl⟩ := step_locker h
  cases a with
  | jump l => cases hsh; rfl
  | did c r => exact Shared.lockEffect_frame hsh

/-- A call of the main thread has its effect. -/
theorem shared_call {c : ServerCall} {r : c.Resp} (h : Step s (.main (.did c r)) s') :
    s.serverEffect c r = some s'.toShared := by
  obtain ⟨t, sh, -, hsh, rfl⟩ := step_main h
  exact hsh

/-- A call of a sender has its effect. -/
theorem shared_sender_call {i : Nat} {c : SenderCall} {r : c.Resp} (h : Step s (.sender i (.did c r)) s') :
    ∃ d, s.senders[i]? = some d ∧ s.senderEffect i d.config c r = some s'.toShared := by
  obtain ⟨d, t, sh, hd, -, hsh, rfl⟩ := step_sender h
  exact ⟨d, hd, hsh⟩

/-- Only the main thread writes `*sending`, and only by `setSending`. -/
theorem sending_frame (h : Step s e s') (he : ∀ b, e ≠ .main (.did (.setSending b) ())) :
    s'.sending = s.sending := by
  cases e with
  | main a =>
      cases a with
      | jump l => rw [shared_main_jump h]
      | did c r =>
          apply (Shared.serverEffect_frame (shared_call h)).sending
          intro b hc
          subst hc
          exact he b rfl
  | sender j a => rw [shared_sender h]
  | listener j a => rw [shared_listener h]
  | locker j a => rw [shared_locker h]

theorem sending_set {b : Bool} (h : Step s (.main (.did (.setSending b) ())) s') : s'.sending = b := by
  rw [← Option.some.inj (shared_call h)]

/-- What a read of the flag answers is the flag. -/
theorem sending_read {i : Nat} {b : Bool} (h : Step s (.sender i (.did .sending b)) s') : b = s.sending := by
  obtain ⟨d, -, hsh⟩ := shared_sender_call h
  simpa using (Shared.check_eq.mp hsh).1

/-- Only `freeConfig` and `loadConfig` change the configs. -/
theorem config_frame (h : Step s e s') (hfree : e ≠ .main (.did .freeConfig ()))
    (hload : ∀ p c, e ≠ .main (.did (.loadConfig p) c)) : s'.config = s.config ∧ s'.configs = s.configs := by
  cases e with
  | main a =>
      cases a with
      | jump l => rw [shared_main_jump h]; exact ⟨rfl, rfl⟩
      | did c r =>
          refine (Shared.serverEffect_frame (shared_call h)).configs (fun hc => ?_) fun p hc => ?_
          · subst hc
            exact hfree rfl
          · subst hc
            exact hload p r rfl
  | sender j a => rw [shared_sender h]; exact ⟨rfl, rfl⟩
  | listener j a => rw [shared_listener h]; exact ⟨rfl, rfl⟩
  | locker j a => rw [shared_locker h]; exact ⟨rfl, rfl⟩

/-- Blocks of config memory are never forgotten, and `config` always points to one. -/
theorem configs_step (h : Step s e s') (hs : s.config < s.configs.length) :
    s.configs.length ≤ s'.configs.length ∧ s'.config < s'.configs.length := by
  by_cases hfree : e = .main (.did .freeConfig ())
  · subst hfree
    rw [← Option.some.inj (shared_call h)]
    simpa using hs
  by_cases hload : ∃ p c, e = .main (.did (.loadConfig p) c)
  · obtain ⟨p, c, rfl⟩ := hload
    rw [← Option.some.inj (shared_call h)]
    simp
  · obtain ⟨hc, hcs⟩ := config_frame h hfree fun p c he => hload ⟨p, c, he⟩
    rw [hc, hcs]
    exact ⟨Nat.le_refl _, hs⟩

/-- Only lock threads change the grab. -/
theorem grab_frame (h : Step s e s') (he : ∀ j a, e ≠ .locker j a) : s'.grab = s.grab := by
  cases e with
  | main a =>
      cases a with
      | jump l => rw [shared_main_jump h]
      | did c r => exact (Shared.serverEffect_frame (shared_call h)).grab
  | sender j a => rw [shared_sender h]
  | listener j a => rw [shared_listener h]
  | locker j a => exact absurd rfl (he j a)

/-- A call of a lock thread has its effect. -/
theorem shared_locker_call {j : Nat} {c : LockCall} {r : c.Resp} (h : Step s (.locker j (.did c r)) s') :
    s.lockEffect j c r = some s'.toShared := by
  obtain ⟨d, t, sh, -, -, hsh, rfl⟩ := step_locker h
  exact hsh

theorem shared_locker_jump {j : Nat} {l : LockLoc} (h : Step s (.locker j (.jump l)) s') :
    s'.toShared = s.toShared := by
  obtain ⟨d, t, sh, -, -, hsh, rfl⟩ := step_locker h
  cases hsh; rfl

/-- The thread whose event it is, if it is one that takes mutexes. -/
def tidOf : Event → Option Tid
  | .main _       => some .main
  | .sender i _   => some (.sender i)
  | .listener i _ => some (.listener i)
  | .locker _ _   => none

/-- No thread takes the sender mutex away from another or hands it to another. -/
theorem held_frame (h : Step s e s') {who : Tid} (he : tidOf e ≠ some who) :
    s'.senderMutex = some who ↔ s.senderMutex = some who := by
  cases e with
  | main a =>
      have hne : Tid.main ≠ who := fun hw => he (congrArg some hw)
      cases a with
      | jump l => rw [shared_main_jump h]
      | did c r =>
          have hsh := shared_call h
          cases c with
          | lockSender =>
              obtain ⟨hn, hs⟩ := Shared.lockSender_eq.mp hsh
              rw [hs, hn]; simp [hne]
          | unlockSender =>
              obtain ⟨hn, hs⟩ := Shared.unlockSender_eq.mp hsh
              rw [hs, hn]; simp [hne]
          | _ => rw [(Shared.serverEffect_frame hsh).senderMutex (by simp) (by simp)]
  | sender j a =>
      have hne : Tid.sender j ≠ who := fun hw => he (congrArg some hw)
      cases a with
      | jump l =>
          obtain ⟨d, t, sh, -, -, hsh, rfl⟩ := step_sender h
          cases hsh; rfl
      | did c r =>
          obtain ⟨d, -, hsh⟩ := shared_sender_call h
          cases c with
          | lock =>
              obtain ⟨hn, hs⟩ := Shared.lockSender_eq.mp hsh
              rw [hs, hn]; simp [hne]
          | unlock =>
              obtain ⟨hn, hs⟩ := Shared.unlockSender_eq.mp hsh
              rw [hs, hn]; simp [hne]
          | config => rw [(Shared.check_eq.mp hsh).2]
          | sending => rw [(Shared.check_eq.mp hsh).2]
          | _ => rw [← Option.some.inj hsh]
  | listener j a => rw [shared_listener h]
  | locker j a => rw [shared_locker h]

/-! ## Carrying the invariant of a thread through the steps of all threads -/

section Rules

variable {σ : Type}

/-- **The main thread.** Its invariant at ghost state `g` becomes its invariant at `g'` if its own calls take
    `g` to `g'`, the blocks it enters are verified from `g'`, and the other threads leave `g` alone. -/
theorem mainOk_step {C : Contract serverI σ} {J : ServerLoc → σ → Prop} {g g' : σ} (hs : Step s e s')
    (h : s.main.Ok C J g)
    (hjump : ∀ l, e = .main (.jump l) → J l g → wp C (runServer l) (fun g l => J l g) g')
    (hdid : ∀ c r, e = .main (.did c r) → C.pre g c → C.post g c r g')
    (hframe : (∀ a, e ≠ .main a) → g' = g) : s'.main.Ok C J g' := by
  rcases main_cases hs with ⟨hm, hne⟩ | ⟨a, rfl, hf⟩
  · rw [hm, hframe hne]; exact h
  · cases a with
    | jump l =>
        have hl := h.label hf
        rw [Thread.jump_start hf]
        exact hjump l rfl hl
    | did c r => exact h.did hf (hdid c r rfl (h.pre hf))

/-- **The senders.** Likewise for every sender at once, each with its own ghost state; a sender just created
    starts at `entry`. -/
theorem sendersOk_step {C : Contract senderI σ} {J : SenderLoc → σ → Prop} {g g' : Nat → σ}
    (hs : Step s e s') (h : ∀ i (d : SenderThread), s.senders[i]? = some d → d.thread.Ok C J (g i))
    (hjump : ∀ i l, e = .sender i (.jump l) → J l (g i) →
      wp C (spawnSenderThread l) (fun g l => J l g) (g' i))
    (hdid : ∀ i c r, e = .sender i (.did c r) → C.pre (g i) c → C.post (g i) c r (g' i))
    (hnew : e = .main (.did .createSender ()) →
      wp C (spawnSenderThread .entry) (fun g l => J l g) (g' s.senders.length))
    (hframe : ∀ i < s.senders.length, (∀ a, e ≠ .sender i a) → g' i = g i) :
    ∀ i (d : SenderThread), s'.senders[i]? = some d → d.thread.Ok C J (g' i) := by
  intro i d' hd'
  rcases sender_cases hs hd' with ⟨hd, hne⟩ | ⟨a, d, rfl, hd, -, hf⟩ | ⟨rfl, he, rfl⟩
  · have hi : i < s.senders.length := (List.getElem?_eq_some_iff.mp hd).1
    rw [hframe i hi hne]
    exact h i d' hd
  · cases a with
    | jump l =>
        have hl := (h i d hd).label hf
        rw [Thread.jump_start hf]
        exact hjump i l rfl hl
    | did c r => exact (h i d hd).did hf (hdid i c r rfl ((h i d hd).pre hf))
  · exact hnew he

end Rules

end Daemon

end IOSwitch
