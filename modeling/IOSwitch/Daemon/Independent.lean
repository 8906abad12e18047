import IOSwitch.Daemon.Slots

/-!
# `Daemon.Independent` — what the threads do not learn of each other

A sender and its lock thread on the one side, and each listener on the other, meet the rest of the daemon in the mutexes
and in what the main thread does. Take all senders and lock threads, or any of the listeners, out of a run: what is left
is a run (`threads_independent`), in which the main thread and the threads that are left have gone the same way.

`Hiding` says which threads are taken out, and `Erased` relates the daemon to the one without them. The only thing they
can do to the others is to make them wait.
-/

namespace IOSwitch

open Lib

/-- Which threads are taken out: the senders with their lock threads, and some of the listeners. -/
structure Hiding where
  host : Bool
  gone : Nat → Bool

namespace Hiding

variable (x : Hiding)

def thread : Tid → Bool
  | .main       => false
  | .sender _   => x.host
  | .listener m => x.gone m

def event : Event → Bool
  | .main _       => false
  | .sender _ _   => x.host
  | .locker _ _   => x.host
  | .listener m _ => x.gone m

/-- A mutex that is held by a thread taken out is free. -/
def holder (who : Option Tid) : Option Tid := who.filter fun t => !x.thread t

theorem holder_some {who : Tid} (h : x.thread who = false) : x.holder (some who) = some who := by
  simp [holder, h]

theorem holder_gone {who : Tid} (h : x.thread who = true) : x.holder (some who) = none := by
  simp [holder, h]

/-- The devices of the listeners taken out. -/
def Owns (listeners : List ListenerThread) (n : Nat) : Prop :=
  ∃ m d, listeners[m]? = some d ∧ x.gone m = true ∧ ∃ dev ∈ d.args.devices, dev.devfd = (n : Int)

end Hiding

/-! ## The shared memory -/

/-- The memory `t` is `s` without what the threads taken out have done; `D` are their devices. -/
structure Shared.Same (x : Hiding) (D : Nat → Prop) (s t : Shared) : Prop where
  config        : t.config = s.config
  configs       : t.configs = s.configs
  sending       : t.sending = s.sending
  senderMutex   : t.senderMutex = x.holder s.senderMutex
  numConns      : t.numConns = s.numConns
  listenerMutex : t.listenerMutex = x.holder s.listenerMutex
  connections   : t.connections = s.connections
  -- `clearConnection` makes no difference, since nothing is ever marked
  clear         : s.connections = List.replicate maxConnections 0
  devices       : t.uinput.length = s.uinput.length
  device        : ∀ n, ¬ D n → t.uinput[n]? = s.uinput[n]?
  grab          : x.host = false → t.grab = s.grab

namespace Shared.Same

variable {x : Hiding} {D D' : Nat → Prop} {s s' t : Shared}

/-- More devices may differ. -/
theorem mono (h : Same x D s t) (hD : ∀ n, D n → D' n) : Same x D' s t :=
  { h with device := fun n hn => h.device n fun hn' => hn (hD n hn') }

/-- The same is done to a device of both. -/
theorem onDevice (h : Same x D s t) (fd : Int) (f : UInputDev → UInputDev) :
    Same x D { s with uinput := s.onDevice fd f } { t with uinput := t.onDevice fd f } := by
  by_cases hfd : fd < 0
  · rw [onDevice_of_neg hfd, onDevice_of_neg hfd]
    exact h
  · rw [onDevice_of_nonneg (Int.not_lt.mp hfd), onDevice_of_nonneg (Int.not_lt.mp hfd)]
    refine { h with devices := ?_, device := ?_ }
    · simpa using h.devices
    · intro n hn
      simp only [List.getElem?_modify, h.device n hn]

/-- What is done to a device of a thread taken out makes no difference. -/
theorem onDevice_gone (h : Same x D s t) {fd : Int} (hfd : ∀ n : Nat, fd = n → D n) (f : UInputDev → UInputDev) :
    Same x D { s with uinput := s.onDevice fd f } t := by
  by_cases hneg : fd < 0
  · rw [onDevice_of_neg hneg]
    exact h
  · rw [onDevice_of_nonneg (Int.not_lt.mp hneg)]
    refine { h with devices := ?_, device := ?_ }
    · simpa using h.devices
    · intro n hn
      have hne : fd.toNat ≠ n := by
        rintro rfl
        exact hn (hfd _ (by omega))
      simpa [List.getElem?_modify, hne] using h.device n hn

/-! ### Threads that are left -/

theorem lockSender (h : Same x D s t) {who : Tid} (hwho : x.thread who = false) (hs : s.lockSender who = some s') :
    ∃ t', t.lockSender who = some t' ∧ Same x D s' t' := by
  obtain ⟨hfree, rfl⟩ := lockSender_eq.mp hs
  refine ⟨_, lockSender_eq.mpr ⟨by rw [h.senderMutex, hfree]; rfl, rfl⟩, ?_⟩
  exact { h with senderMutex := (x.holder_some hwho).symm }

theorem unlockSender (h : Same x D s t) {who : Tid} (hwho : x.thread who = false) (hs : s.unlockSender who = some s') :
    ∃ t', t.unlockSender who = some t' ∧ Same x D s' t' := by
  obtain ⟨hheld, rfl⟩ := unlockSender_eq.mp hs
  refine ⟨_, unlockSender_eq.mpr ⟨by rw [h.senderMutex, hheld, x.holder_some hwho], rfl⟩, ?_⟩
  exact { h with senderMutex := rfl }

theorem lockListener (h : Same x D s t) {who : Tid} (hwho : x.thread who = false) (hs : s.lockListener who = some s') :
    ∃ t', t.lockListener who = some t' ∧ Same x D s' t' := by
  obtain ⟨hfree, rfl⟩ := lockListener_eq.mp hs
  refine ⟨_, lockListener_eq.mpr ⟨by rw [h.listenerMutex, hfree]; rfl, rfl⟩, ?_⟩
  exact { h with listenerMutex := (x.holder_some hwho).symm }

theorem unlockListener (h : Same x D s t) {who : Tid} (hwho : x.thread who = false)
    (hs : s.unlockListener who = some s') : ∃ t', t.unlockListener who = some t' ∧ Same x D s' t' := by
  obtain ⟨hheld, rfl⟩ := unlockListener_eq.mp hs
  refine ⟨_, unlockListener_eq.mpr ⟨by rw [h.listenerMutex, hheld, x.holder_some hwho], rfl⟩, ?_⟩
  exact { h with listenerMutex := rfl }

/-- What is read is the same. -/
theorem check (h : Same x D s t) {b b' : Bool} (hb : b = b') (hs : s.check b = some s') :
    ∃ t', t.check b' = some t' ∧ Same x D s' t' := by
  obtain ⟨hb', rfl⟩ := check_eq.mp hs
  exact ⟨t, check_eq.mpr ⟨hb.symm.trans hb', rfl⟩, h⟩

/-- **The main thread** can do the same. -/
theorem serverEffect (h : Same x D s t) {c : ServerCall} {r : c.Resp} (hs : s.serverEffect c r = some s') :
    ∃ t', t.serverEffect c r = some t' ∧ Same x D s' t' := by
  cases c with
  | lockSender => exact h.lockSender rfl hs
  | unlockSender => exact h.unlockSender rfl hs
  | lockListener => exact h.lockListener rfl hs
  | unlockListener => exact h.unlockListener rfl hs
  | sending => exact h.check (by rw [h.sending]) hs
  | numConns => exact h.check (by rw [h.numConns]) hs
  | connection i => exact h.check (by rw [h.connections]) hs
  | openUinput =>
      rcases openUinput_eq hs with ⟨hfd, rfl⟩ | ⟨rfl, rfl⟩
      · exact ⟨t, if_pos hfd, h⟩
      · refine ⟨{ t with uinput := t.uinput ++ [⟨[], false, []⟩] }, ?_, ?_⟩
        · have hnonneg : ¬ (s.uinput.length : Int) < 0 := by omega
          simp only [Shared.serverEffect, if_neg hnonneg, h.devices, if_pos]
        · refine { h with devices := ?_, device := ?_ }
          · simp [h.devices]
          · intro n hn
            simp only [List.getElem?_append, h.devices, h.device n hn]
  | devSetup fd n =>
      cases hs
      exact ⟨_, rfl, h.onDevice fd _⟩
  | devCreate fd =>
      cases hs
      exact ⟨_, rfl, h.onDevice fd _⟩
  | setSending b =>
      cases hs
      exact ⟨_, rfl, { h with sending := rfl }⟩
  | freeConfig =>
      cases hs
      exact ⟨_, rfl, { h with configs := by simp only [h.configs, h.config] }⟩
  | loadConfig path =>
      cases hs
      exact ⟨_, rfl, { h with configs := by simp only [h.configs], config := by simp only [h.configs] }⟩
  | incrNumConns =>
      cases hs
      exact ⟨_, rfl, { h with numConns := by simp only [h.numConns] }⟩
  | wild => exact r.elim
  | _ =>
      cases hs
      exact ⟨t, rfl, h⟩

/-- So can a sender that is left. -/
theorem senderEffect (h : Same x D s t) {i ref : Nat} (hi : x.thread (.sender i) = false) {c : SenderCall} {r : c.Resp}
    (hs : s.senderEffect i ref c r = some s') : ∃ t', t.senderEffect i ref c r = some t' ∧ Same x D s' t' := by
  cases c with
  | lock => exact h.lockSender hi hs
  | unlock => exact h.unlockSender hi hs
  | config => exact h.check (by rw [holdsConfig, holdsConfig, h.configs]) hs
  | sending => exact h.check (by rw [h.sending]) hs
  | _ =>
      cases hs
      exact ⟨t, rfl, h⟩

theorem clear_set (h : s.connections = List.replicate maxConnections 0) (i : Nat) :
    s.connections.set i 0 = List.replicate maxConnections 0 := by
  rw [h, List.set_replicate_self]

theorem listenerEffect (h : Same x D s t) {m : Nat} {args : ListenerArgs} (hm : x.thread (.listener m) = false)
    {c : ListenerCall} {r : c.Resp} (hs : s.listenerEffect m args c r = some s') :
    ∃ t', t.listenerEffect m args c r = some t' ∧ Same x D s' t' := by
  cases c with
  | lock => exact h.lockListener hm hs
  | unlock => exact h.unlockListener hm hs
  | read =>
      cases hs
      exact ⟨t, rfl, h⟩
  | write devId ie =>
      obtain ⟨d, hd, rfl⟩ := Option.map_eq_some_iff.mp hs
      exact ⟨_, Option.map_eq_some_iff.mpr ⟨d, hd, rfl⟩, h.onDevice d.devfd _⟩
  | clearConnection =>
      cases hs
      exact ⟨_, rfl, { h with connections := by simp only [h.connections], clear := clear_set h.clear args.connection }⟩

theorem lockEffect (h : Same x D s t) {j : Nat} (hhost : x.host = false) {c : LockCall} {r : c.Resp}
    (hs : s.lockEffect j c r = some s') : ∃ t', t.lockEffect j c r = some t' ∧ Same x D s' t' := by
  have hgrab := h.grab hhost
  cases c with
  | grabKeyboard =>
      cases r with
      | false =>
          cases hs
          exact ⟨t, rfl, h⟩
      | true =>
          simp only [Shared.lockEffect] at hs ⊢
          rw [hgrab]
          split at hs
          · next hfree =>
            cases hs
            exact ⟨_, if_pos hfree, { h with grab := fun _ => rfl }⟩
          · cases hs
  | ungrabKeyboard =>
      cases hs
      exact ⟨_, rfl, { h with grab := fun _ => by simp only [hgrab] }⟩
  | _ =>
      cases hs
      exact ⟨t, rfl, h⟩

/-! ### Threads that are taken out -/

theorem sender_gone (h : Same x D s t) {i ref : Nat} (hi : x.thread (.sender i) = true) {c : SenderCall} {r : c.Resp}
    (hs : s.senderEffect i ref c r = some s') : Same x D s' t := by
  cases c with
  | lock =>
      obtain ⟨hfree, rfl⟩ := lockSender_eq.mp hs
      exact { h with senderMutex := by rw [h.senderMutex, hfree, x.holder_gone hi]; rfl }
  | unlock =>
      obtain ⟨hheld, rfl⟩ := unlockSender_eq.mp hs
      exact { h with senderMutex := by rw [h.senderMutex, hheld, x.holder_gone hi]; rfl }
  | config =>
      obtain ⟨-, rfl⟩ := check_eq.mp hs
      exact h
  | sending =>
      obtain ⟨-, rfl⟩ := check_eq.mp hs
      exact h
  | _ =>
      cases hs
      exact h

theorem listener_gone (h : Same x D s t) {m : Nat} {args : ListenerArgs} (hm : x.thread (.listener m) = true)
    (hD : ∀ dev ∈ args.devices, ∀ n : Nat, dev.devfd = n → D n) {c : ListenerCall} {r : c.Resp}
    (hs : s.listenerEffect m args c r = some s') : Same x D s' t := by
  cases c with
  | lock =>
      obtain ⟨hfree, rfl⟩ := lockListener_eq.mp hs
      exact { h with listenerMutex := by rw [h.listenerMutex, hfree, x.holder_gone hm]; rfl }
  | unlock =>
      obtain ⟨hheld, rfl⟩ := unlockListener_eq.mp hs
      exact { h with listenerMutex := by rw [h.listenerMutex, hheld, x.holder_gone hm]; rfl }
  | read =>
      cases hs
      exact h
  | write devId ie =>
      obtain ⟨d, hd, rfl⟩ := Option.map_eq_some_iff.mp hs
      refine h.onDevice_gone (hD d ?_) _
      unfold deviceAt at hd
      split at hd
      · exact List.mem_of_getElem? hd
      · cases hd
  | clearConnection =>
      cases hs
      have hclear := clear_set h.clear args.connection
      exact { h with connections := (h.connections.trans h.clear).trans hclear.symm, clear := hclear }

theorem locker_gone (h : Same x D s t) {j : Nat} (hhost : x.host = true) {c : LockCall} {r : c.Resp}
    (hs : s.lockEffect j c r = some s') : Same x D s' t := by
  rw [lockEffect_frame hs]
  exact { h with grab := fun hfalse => absurd (hhost.symm.trans hfalse) (by decide) }

end Shared.Same

namespace Daemon

/-! ## The daemon -/

/-- The daemon `t` is `s` without the threads taken out: the main thread and the others are where they are. -/
structure Erased (x : Hiding) (s t : Daemon) : Prop where
  shared    : Shared.Same x (x.Owns s.listeners) s.toShared t.toShared
  main      : t.main = s.main
  created   : t.senders.length = s.senders.length
  host      : x.host = false → t.senders = s.senders ∧ t.lockers = s.lockers ∧ t.exited = s.exited
  running   : x.host = true → t.exited = false
  accepted  : t.listeners.length = s.listeners.length
  listeners : ∀ m, x.gone m = false → t.listeners[m]? = s.listeners[m]?

variable {x : Hiding} {s s' t : Daemon} {e : Event} {tr : List Event}

theorem erased_init (x : Hiding) (cfg : Config) (conn args : Bytes) :
    Erased x (init cfg conn args) (init cfg conn args) where
  shared    := ⟨rfl, rfl, rfl, rfl, rfl, rfl, rfl, rfl, rfl, fun _ _ => rfl, fun _ => rfl⟩
  main      := rfl
  created   := rfl
  host      := fun _ => ⟨rfl, rfl, rfl⟩
  running   := fun _ => rfl
  accepted  := rfl
  listeners := fun _ _ => rfl

/-- Listeners keep their devices. -/
theorem owns_step (h : Step s e s') {n : Nat} (hn : x.Owns s.listeners n) : x.Owns s'.listeners n := by
  obtain ⟨m, d, hd, hgone, hdev⟩ := hn
  obtain ⟨d', hd', hargs, -⟩ := listener_next h hd
  exact ⟨m, d', hd', hgone, by rw [hargs]; exact hdev⟩

theorem Erased.not_exited (h : Erased x s t) (hx : s.exited = false) : t.exited = false := by
  cases hhost : x.host with
  | true => exact h.running hhost
  | false => exact (h.host hhost).2.2.trans hx

/-- An action has the same effect if its call has. -/
theorem effectOf_same {I : Interface} {L : Type} {D : Nat → Prop} {sh sh' sh₁ : Shared}
    {f g : (c : I.Call) → I.Resp c → Option Shared} (h : Shared.Same x D sh sh')
    (hcall : ∀ c r sh₁, f c r = some sh₁ → ∃ sh₁', g c r = some sh₁' ∧ Shared.Same x D sh₁ sh₁') {a : Act I L}
    (hs : effectOf sh f a = some sh₁) : ∃ sh₁', effectOf sh' g a = some sh₁' ∧ Shared.Same x D sh₁ sh₁' := by
  cases a with
  | jump l =>
      cases hs
      exact ⟨sh', rfl, h⟩
  | did c r => exact hcall c r sh₁ hs

/-- Or none, if its call has none. -/
theorem effectOf_gone {I : Interface} {L : Type} {D : Nat → Prop} {sh sh' sh₁ : Shared}
    {f : (c : I.Call) → I.Resp c → Option Shared} (h : Shared.Same x D sh sh')
    (hcall : ∀ c r sh₁, f c r = some sh₁ → Shared.Same x D sh₁ sh') {a : Act I L} (hs : effectOf sh f a = some sh₁) :
    Shared.Same x D sh₁ sh' := by
  cases a with
  | jump l =>
      cases hs
      exact h
  | did c r => exact hcall c r sh₁ hs

/-! ### The steps are followed -/

/-- **The main thread** is followed. -/
theorem erased_main {a : Act serverI ServerLoc} (h : Erased x s t) (hs : Step s (.main a) s') :
    ∃ t', Step t (.main a) t' ∧ Erased x s' t' := by
  have howns := fun n => owns_step (x := x) (n := n) hs
  have hx := h.not_exited (step_running hs)
  obtain ⟨th, sh, hf, hsh, rfl⟩ := step_main hs
  obtain ⟨sh', hsh', hsame⟩ := effectOf_same (I := serverI) (f := s.serverEffect) (g := t.serverEffect) h.shared
      (fun _ _ _ hc => h.shared.serverEffect hc) hsh
  have hnew : t.newSenders a = s.newSenders a := by
    unfold newSenders
    rw [h.shared.config]
  refine ⟨_, main_possible hx (by rw [h.main]; exact hf) hsh', ?_⟩
  refine ⟨hsame.mono howns, rfl, ?_, fun hhost => ?_, fun _ => hx, ?_, fun m hm => ?_⟩
  · simp [h.created, hnew]
  · obtain ⟨hsenders, hlockers, hexited⟩ := h.host hhost
    exact ⟨by rw [hsenders, hnew], hlockers, hexited⟩
  · simp [h.accepted]
  · simp only [List.getElem?_append, h.accepted, h.listeners m hm]

/-- **A sender** is followed if it is left. -/
theorem erased_sender {i : Nat} {a : Act senderI SenderLoc} (hhost : x.host = false) (h : Erased x s t)
    (hs : Step s (.sender i a) s') : ∃ t', Step t (.sender i a) t' ∧ Erased x s' t' := by
  have hx := h.not_exited (step_running hs)
  obtain ⟨hsenders, hlockers, hexited⟩ := h.host hhost
  obtain ⟨d, th, sh, hd, hf, hsh, rfl⟩ := step_sender hs
  obtain ⟨sh', hsh', hsame⟩ :=
    effectOf_same (I := senderI) (f := s.senderEffect i d.config) (g := t.senderEffect i d.config) h.shared
      (fun _ _ _ hc => h.shared.senderEffect hhost hc) hsh
  refine ⟨_, sender_possible hx (by rw [hsenders]; exact hd) hf hsh', ?_⟩
  exact ⟨hsame, h.main, by simp [hsenders], fun _ => ⟨by rw [hsenders], by rw [hlockers], hexited⟩,
    fun htrue => absurd (hhost.symm.trans htrue) (by decide), h.accepted, h.listeners⟩

/-- So is its lock thread. -/
theorem erased_locker {j : Nat} {a : Act lockI LockLoc} (hhost : x.host = false) (h : Erased x s t)
    (hs : Step s (.locker j a) s') : ∃ t', Step t (.locker j a) t' ∧ Erased x s' t' := by
  have hx := h.not_exited (step_running hs)
  obtain ⟨hsenders, hlockers, hexited⟩ := h.host hhost
  obtain ⟨d, th, sh, hd, hf, hsh, rfl⟩ := step_locker hs
  obtain ⟨sh', hsh', hsame⟩ := effectOf_same (I := lockI) (f := s.lockEffect j) (g := t.lockEffect j) h.shared
      (fun _ _ _ hc => h.shared.lockEffect hhost hc) hsh
  refine ⟨_, locker_possible hx (by rw [hlockers]; exact hd) hf hsh', ?_⟩
  exact ⟨hsame, h.main, h.created, fun _ => ⟨hsenders, by rw [hlockers], rfl⟩,
    fun htrue => absurd (hhost.symm.trans htrue) (by decide), h.accepted, h.listeners⟩

theorem erased_listener {m : Nat} {a : Act listenerI ListenerLoc} (hgone : x.gone m = false) (h : Erased x s t)
    (hs : Step s (.listener m a) s') : ∃ t', Step t (.listener m a) t' ∧ Erased x s' t' := by
  have howns := fun n => owns_step (x := x) (n := n) hs
  have hx := h.not_exited (step_running hs)
  obtain ⟨d, th, sh, hd, hf, hsh, rfl⟩ := step_listener hs
  obtain ⟨sh', hsh', hsame⟩ :=
    effectOf_same (I := listenerI) (f := s.listenerEffect m d.args) (g := t.listenerEffect m d.args) h.shared
      (fun _ _ _ hc => h.shared.listenerEffect hgone hc) hsh
  have hd' := (h.listeners m hgone).trans hd
  refine ⟨_, listener_possible hx hd' hf hsh', ?_⟩
  refine ⟨hsame.mono howns, h.main, h.created, h.host, fun _ => hx, by simp [h.accepted], fun n hn => ?_⟩
  simp only [List.getElem?_set, h.accepted, h.listeners n hn]

/-- **Steps of threads taken out** are not missed. -/
theorem erased_gone (he : x.event e = true) (h : Erased x s t) (hs : Step s e s') : Erased x s' t := by
  have howns := fun n => owns_step (x := x) (n := n) hs
  cases e with
  | main a => cases he
  | sender i a =>
      obtain ⟨d, th, sh, hd, hf, hsh, rfl⟩ := step_sender hs
      have hsame := effectOf_gone (I := senderI) (f := s.senderEffect i d.config) h.shared
        (fun _ _ _ hc => h.shared.sender_gone he hc) hsh
      exact ⟨hsame, h.main, by simp [h.created], fun hfalse => absurd (hfalse.symm.trans he) (by decide),
        h.running, h.accepted, h.listeners⟩
  | locker j a =>
      obtain ⟨d, th, sh, hd, hf, hsh, rfl⟩ := step_locker hs
      have hsame :=
        effectOf_gone (I := lockI) (f := s.lockEffect j) h.shared (fun _ _ _ hc => h.shared.locker_gone he hc) hsh
      exact ⟨hsame, h.main, h.created, fun hfalse => absurd (hfalse.symm.trans he) (by decide),
        h.running, h.accepted, h.listeners⟩
  | listener m a =>
      obtain ⟨d, th, sh, hd, hf, hsh, rfl⟩ := step_listener hs
      have hD : ∀ dev ∈ d.args.devices, ∀ n : Nat, dev.devfd = n → x.Owns s.listeners n :=
        fun dev hdev n hn => ⟨m, d, hd, he, dev, hdev, hn⟩
      have hsame := effectOf_gone (I := listenerI) (f := s.listenerEffect m d.args) h.shared
        (fun _ _ _ hc => h.shared.listener_gone he hD hc) hsh
      refine ⟨hsame.mono howns, h.main, h.created, h.host, h.running, by simp [h.accepted], fun n hn => ?_⟩
      have hne : m ≠ n := by
        rintro rfl
        exact absurd (he.symm.trans hn) (by decide)
      rw [h.listeners n hn]
      simp [List.getElem?_set_ne hne]

theorem erasure (x : Hiding) : Erasure Step Step x.event (Erased x) where
  hide := fun _ _ _ _ he h hs => erased_gone he h hs
  keep := fun _ e _ _ he h hs => by
    cases e with
    | main a => exact erased_main h hs
    | sender i a => exact erased_sender he h hs
    | locker j a => exact erased_locker he h hs
    | listener m a => exact erased_listener he h hs

/-- **The threads are independent.** Whichever listeners are taken out of a run, and whether or not its senders and lock
    threads are, what is left is a run. The main thread, the flag, the configs, the table of connections, the threads
    left and their devices are in it as they were. -/
theorem threads_independent (x : Hiding) {cfg : Config} {conn args : Bytes} (h : Run Step (init cfg conn args) tr s) :
    ∃ t, Run Step (init cfg conn args) (tr.filter fun e => !x.event e) t ∧ Erased x s t :=
  (erasure x).run h (erased_init x cfg conn args)

/-- A peer comes and goes, and a sender is started and gets to its loop. -/
def peerAndSender : List Event :=
  boot ++ joinInput 0 0 ++ leaveInput 0 ++ order .start startEvents ++ joinEvents 0

/-- Without the two threads. -/
theorem threads_independent_peer :
    ∃ t, Run Step (init emptyConfig [] []) (boot ++ joinInput 0 0 ++ order .start startEvents) t ∧ t.sending = true ∧
      t.listeners.length = 1 := by
  have hexec : (execs exec (init emptyConfig [] []) peerAndSender).map (fun s => (s.sending, s.listeners.length)) =
      some (true, 1) := by
    decide +kernel
  obtain ⟨s, hrun, hfin⟩ := Run.exists_of_execs hexec
  obtain ⟨hsend, hlen⟩ := Prod.mk.inj hfin
  obtain ⟨t, ht, hsame⟩ := threads_independent ⟨true, fun _ => true⟩ hrun
  exact ⟨t, ht, hsame.shared.sending.trans hsend, hsame.accepted.trans hlen⟩

end Daemon

end IOSwitch
