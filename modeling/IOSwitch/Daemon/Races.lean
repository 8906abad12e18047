import IOSwitch.Daemon.Script
import IOSwitch.Lib.Locks

/-!
# `Daemon.Races` — which memory the threads access at the same time

The flag and the table of connections are each guarded by a mutex, on every way through the code of every thread
(`server_locks`, `guard_verified`, `listener_locks`); so no two threads are ever about to access them at once. The
config is not: the initialiser of `conn` in `spawn_sender_thread` reads `num_devices` behind the `unlock` that follows
`connect_to_server`. That read against the `free` of `reload` is the only race there is (`only_race`).

## Contents
- `Cell`, `accessAt`, `Race` — two threads about to access the same memory, one of them to write it.
- `serverLocks`, `senderLocks`, `listenerLocks` — the disciplines, and that the code keeps them.
- `LocksInv`, `only_race`.
-/

namespace IOSwitch

open Lib Server Sender

/-! ## Accesses -/

/-- The memory that threads share: `*sending`, an element of `connections`, and the block of a config. -/
inductive Cell where
  | sending
  | connection (i : Nat)
  | config (ref : Nat)
  deriving DecidableEq

structure Access where
  cell  : Cell
  write : Bool
  deriving DecidableEq

/-- What a call of the main thread accesses; `ref` is the block that `server->config` points to. -/
def ServerCall.access (ref : Nat) : ServerCall → Option Access
  | sending      => some ⟨.sending, false⟩
  | setSending _ => some ⟨.sending, true⟩
  | connection i => some ⟨.connection i, false⟩
  | freeConfig   => some ⟨.config ref, true⟩
  | _            => none

def SenderCall.access (ref : Nat) : SenderCall → Option Access
  | sending => some ⟨.sending, false⟩
  | config  => some ⟨.config ref, false⟩
  | _       => none

def ListenerCall.access (slot : Nat) : ListenerCall → Option Access
  | clearConnection => some ⟨.connection slot, true⟩
  | _               => none

namespace Daemon

/-- What a thread is about to access. -/
def accessAt (s : Daemon) : Tid → Option Access
  | .main       => s.main.rest.next.bind (ServerCall.access s.config)
  | .sender i   => s.senders[i]?.bind fun d => d.thread.rest.next.bind (SenderCall.access d.config)
  | .listener i => s.listeners[i]?.bind fun d => d.thread.rest.next.bind (ListenerCall.access d.args.connection)

/-- Two threads are about to access the same memory, and one of them writes it. -/
def Race (s : Daemon) (who who' : Tid) : Prop :=
  who ≠ who' ∧ ∃ a a', accessAt s who = some a ∧ accessAt s who' = some a' ∧ a.cell = a'.cell ∧
    (a.write = true ∨ a'.write = true)

end Daemon

/-! ## The disciplines -/

inductive Mutex where
  | sender | listener
  deriving DecidableEq

/-- The mutex of a part of the memory. -/
def Cell.mutex : Cell → Mutex
  | .sending | .config _ => .sender
  | .connection _        => .listener

def serverLocks : Locking serverI Mutex where
  takes c := match c with
    | .lockSender   => some .sender
    | .lockListener => some .listener
    | _             => none
  gives c := match c with
    | .unlockSender   => some .sender
    | .unlockListener => some .listener
    | _               => none
  guard c := match c with
    | .sending | .setSending _ | .freeConfig | .loadConfig _ => some .sender
    | .connection _                                          => some .listener
    | _                                                      => none

def senderLocks : Locking senderI Mutex where
  takes c := if c = .lock then some .sender else none
  gives c := if c = .unlock then some .sender else none
  guard c := if c = .sending then some .sender else none

def listenerLocks : Locking listenerI Mutex where
  takes c := if c = .lock then some .listener else none
  gives c := if c = .unlock then some .listener else none
  guard c := if c = .clearConnection then some .listener else none

/-! ## The code keeps them -/

section Handlers

variable (args : CommandArgs) (held : Set Mutex)

theorem start_locks : wp serverLocks.contract (Handler.start args) (fun _ _ => True) held := by
  simp [Handler.start, serverLocks, Locking.contract]

theorem stop_locks : wp serverLocks.contract (Handler.stop args) (fun _ _ => True) held := by
  simp [Handler.stop, serverLocks, Locking.contract]

theorem switchState_locks : wp serverLocks.contract (Handler.switchState args) (fun _ _ => True) held := by
  refine ⟨by simp [Locking.contract, serverLocks], ?_⟩
  rintro _ _ ⟨-, rfl⟩
  refine ⟨by simp [Locking.contract, serverLocks], ?_⟩
  rintro sending _ ⟨-, rfl⟩
  cases sending with
  | true =>
      refine ⟨by simp [Locking.contract, serverLocks], ?_⟩
      rintro _ held _
      show wp _ (Handler.stop args >>= _) _ _
      exact wp_seq (stop_locks args held) fun _ _ _ => trivial
  | false =>
      refine ⟨by simp [Locking.contract, serverLocks], ?_⟩
      rintro _ held _
      show wp _ (Handler.start args >>= _) _ _
      exact wp_seq (start_locks args held) fun _ _ _ => trivial

/-- The config is replaced under the sender mutex. -/
theorem replaceConfig_locks (hheld : Mutex.sender ∈ held) :
    wp serverLocks.contract (Handler.replaceConfig args) (fun held' _ => held' = held) held := by
  unfold Handler.replaceConfig
  split
  · refine ⟨by simpa [Locking.contract, serverLocks] using hheld, ?_⟩
    rintro _ _ ⟨-, rfl⟩
    rw [Locking.after_eq rfl rfl]
    refine ⟨by simpa [Locking.contract, serverLocks] using hheld, ?_⟩
    rintro _ _ ⟨-, rfl⟩
    exact Locking.after_eq rfl rfl
  · rfl

theorem reload_locks : wp serverLocks.contract (Handler.reload args) (fun _ _ => True) held := by
  refine ⟨by simp [Locking.contract, serverLocks], ?_⟩
  rintro _ held ⟨-, rfl⟩
  show wp _ (Handler.replaceConfig args >>= _) _ _
  refine wp_seq (replaceConfig_locks args _ (Or.inl rfl)) ?_
  rintro _ _ rfl
  refine ⟨by simp [Locking.contract, serverLocks], ?_⟩
  rintro _ held _
  show wp _ (Handler.stop args >>= _) _ _
  refine wp_seq (stop_locks args held) ?_
  rintro held _ -
  exact wp_seq (start_locks args held) fun _ _ _ => trivial

theorem commands_locks : wp serverLocks.contract (commands args) (fun _ _ => True) held := by
  unfold commands
  split
  · trivial
  · trivial
  · exact start_locks args held
  · exact stop_locks args held
  · exact switchState_locks args held
  · exact reload_locks args held
  · exact wp_seq (stop_locks args held) fun _ _ _ => trivial
  · exact ⟨by simp [Locking.contract, serverLocks], fun r => r.elim⟩

end Handlers

/-- The table is searched and the devices are made under the listener mutex. -/
theorem acceptInput_locks (fd : Int) (conn : Bytes) (held : Set Mutex) :
    wp serverLocks.contract (acceptInput fd conn) (fun _ _ => True) held := by
  refine ⟨by simp [Locking.contract, serverLocks], ?_⟩
  rintro numConns held -
  show wp _ (if maxConnections ≤ numConns then _ else _) _ _
  split
  · trivial
  refine ⟨by simp [Locking.contract, serverLocks], ?_⟩
  rintro _ held ⟨-, rfl⟩
  show wp _ (findSlot numConns 0 0 >>= _) _ _
  refine wp_seq (wp_findSlot (fun i => ?_) numConns 0 0) ?_
  · refine ⟨by simp [Locking.contract, serverLocks], ?_⟩
    rintro r _ ⟨-, rfl⟩
    exact Locking.after_eq rfl rfl
  rintro _ slot rfl
  refine wp_seq (wp_createDevices (fun c hc => ?_) fd conn _ 0 []) ?_
  · cases c with
    | openUinput | devSetup _ _ | devCreate _ =>
        refine ⟨by simp [Locking.contract, serverLocks], ?_⟩
        rintro r _ ⟨-, rfl⟩
        exact Locking.after_eq rfl rfl
    | _ => exact hc.elim
  rintro _ devices rfl
  simp [Locking.contract, serverLocks]

theorem server_locks : Thread.Verified serverLocks.contract runServer fun _ _ => True := by
  intro l held _
  cases l with
  | entry conn args =>
      refine ⟨by simp [Locking.contract, serverLocks], ?_⟩
      rintro r _ -
      show wp _ (if r < 0 then _ else _) _ _
      split <;> trivial
  | loop conn args =>
      refine ⟨by simp [Locking.contract, serverLocks], ?_⟩
      rintro fd _ -
      show wp _ (if fd < 0 then _ else _) _ _
      split
      · trivial
      refine ⟨by simp [Locking.contract, serverLocks], ?_⟩
      rintro r _ -
      show wp _ (if r.ret < 0 then _ else _) _ _
      split
      · trivial
      show wp _ (acceptConn _ _ _) _ _
      unfold acceptConn
      split
      · exact wp_seq (acceptInput_locks _ _ _) fun _ _ _ => trivial
      · refine ⟨by simp [Locking.contract, serverLocks], ?_⟩
        rintro r _ -
        show wp _ (if r.ret < 0 then _ else _) _ _
        split <;> trivial
      · trivial
  | handle conn args => exact wp_seq (commands_locks _ held) fun _ _ _ => trivial
  | returned code => trivial

theorem listener_locks : Thread.Verified listenerLocks.contract spawnListenerThread fun _ _ => True := by
  intro l held _
  cases l with
  | loop packet =>
      refine ⟨by simp [Locking.contract, listenerLocks], ?_⟩
      rintro r held -
      show wp _ (Listener.handleRead packet r) _ _
      unfold Listener.handleRead
      split
      · simp [Locking.contract, listenerLocks]
      · split
        · simp [Locking.contract, listenerLocks]
        · trivial
  | exited => trivial

/-- The senders' discipline, with the number of their reads of the config: the second one needs no mutex. -/
def configGuard : Contract senderI (Set Mutex × Nat) where
  pre g c := senderLocks.contract.pre g.1 c ∧ (c = .config → .sender ∈ g.1 ∨ g.2 = 1)
  post g c r g' := senderLocks.contract.post g.1 c r g'.1 ∧ g'.2 = g.2 + if c = .config then 1 else 0

/-- A sender begins with no read. -/
def Unread : SenderLoc → Set Mutex × Nat → Prop
  | .entry, g => g.2 = 0
  | _, _      => True

/-- A part of the code without locks, and without a look at the flag or the config. -/
theorem wp_guard_neutral {α : Type} {P : SenderCall → Prop} {p : Prog senderI α} (hp : p.Within P fun _ => True)
    (hP : ∀ c, P c → senderLocks.Free c ∧ c ≠ .config) (g : Set Mutex × Nat) :
    wp configGuard p (fun g' _ => g' = g) g := by
  refine wp_mono (wp_neutral hp fun c hc => ?_) fun _ _ h => h.1
  obtain ⟨⟨htakes, hgives, hguard⟩, hne⟩ := hP c hc
  refine ⟨⟨⟨by simp [hgives], by simp [hguard]⟩, fun h => absurd h hne⟩, ?_⟩
  rintro r ⟨held', n'⟩ ⟨⟨-, hheld⟩, hn⟩
  rw [if_neg hne] at hn
  exact Prod.ext (hheld.trans (Locking.after_eq htakes hgives)) hn

theorem setup_guard (held : Set Mutex) : wp configGuard setup (fun g l => Unread l g) (held, 0) := by
  have hfree : ∀ c : SenderCall, c.Connects ∨ c.Opens → senderLocks.Free c ∧ c ≠ .config := by
    rintro c (hc | hc) <;> cases c <;> first | exact hc.elim | simp [Locking.Free, senderLocks]
  refine ⟨by simp [configGuard, Locking.contract, senderLocks], ?_⟩
  rintro fd ⟨held, n⟩ ⟨-, rfl⟩
  show wp _ (if fd < 0 then _ else _) _ _
  split
  · trivial
  refine ⟨by simp [configGuard, Locking.contract, senderLocks], ?_⟩
  rintro _ ⟨_, n⟩ ⟨⟨-, rfl⟩, rfl⟩
  -- the first read, for `connect_to_server`
  refine ⟨by simp [configGuard, Locking.contract, senderLocks], ?_⟩
  rintro config ⟨_, n⟩ ⟨⟨-, rfl⟩, rfl⟩
  show wp _ (connectToServer _ _ _ >>= _) _ _
  refine wp_seq (wp_guard_neutral (connectToServer_connects _ _ _) (fun c hc => hfree c (Or.inl hc)) _) ?_
  rintro _ r rfl
  show wp _ (if r < 0 then _ else _) _ _
  split
  · simp [configGuard, Locking.contract, senderLocks, Unread]
  refine ⟨by simp [configGuard, Locking.contract, senderLocks], ?_⟩
  rintro _ ⟨held, n⟩ ⟨-, rfl⟩
  -- the second one, in the initialiser of `conn`
  refine ⟨by simp [configGuard, Locking.contract, senderLocks], ?_⟩
  rintro config ⟨held, n⟩ ⟨-, -⟩
  refine ⟨by simp [configGuard, Locking.contract, senderLocks], ?_⟩
  rintro _ ⟨_, n⟩ ⟨⟨-, rfl⟩, -⟩
  refine ⟨by simp [configGuard, Locking.contract, senderLocks], ?_⟩
  rintro config ⟨_, n⟩ ⟨⟨-, rfl⟩, -⟩
  show wp _ (openDevices _ _ _ _ _ >>= _) _ _
  refine wp_seq (wp_guard_neutral (openDevices_opens _ _ _ _ _) (fun c hc => hfree c (Or.inr hc)) _) ?_
  rintro _ opened rfl
  cases opened with
  | none => simp [configGuard, Locking.contract, senderLocks, Unread]
  | some connFds =>
      refine ⟨by simp [configGuard, Locking.contract, senderLocks], ?_⟩
      rintro _ g -
      refine ⟨by simp [configGuard, Locking.contract, senderLocks], ?_⟩
      rintro sent g -
      show wp _ (if sent < 0 then _ else _) _ _
      split
      · trivial
      · simp [configGuard, Locking.contract, senderLocks, Unread]

theorem guard_verified : Thread.Verified configGuard spawnSenderThread Unread := by
  rintro l ⟨held, n⟩ hl
  cases l with
  | entry =>
      obtain rfl : n = 0 := hl
      exact setup_guard held
  | loop env =>
      refine ⟨by simp [configGuard, Locking.contract, senderLocks], ?_⟩
      rintro _ ⟨_, n⟩ ⟨⟨-, rfl⟩, -⟩
      refine ⟨by simp [configGuard, Locking.contract, senderLocks], ?_⟩
      rintro config ⟨_, n⟩ ⟨⟨-, rfl⟩, -⟩
      exact ⟨by simp [configGuard, Locking.contract, senderLocks], fun _ _ _ => trivial⟩
  | round env k =>
      have hround := wp_guard_neutral (sendInputEvent_forwards k env.deviceFds env.fd) (fun c hc => by
        cases c <;> first | exact hc.elim | simp [Locking.Free, senderLocks]) (held, n)
      exact wp_seq hround fun _ _ _ => trivial
  | check env connected =>
      refine ⟨by simp [configGuard, Locking.contract, senderLocks], ?_⟩
      rintro _ ⟨_, n⟩ ⟨⟨-, rfl⟩, -⟩
      refine ⟨by simp [configGuard, Locking.contract, senderLocks], ?_⟩
      rintro sending ⟨_, n⟩ ⟨⟨-, rfl⟩, -⟩
      refine ⟨by simp [configGuard, Locking.contract, senderLocks], ?_⟩
      rintro _ g -
      show Unread (if _ then _ else _) _
      split <;> trivial
  | leave env => simp [spawnSenderThread, configGuard, Locking.contract, senderLocks, Unread]
  | exited => trivial

/-! ## Runs -/

namespace Daemon

variable {s s' : Daemon} {e : Event} {tr : List Event}

/-- Who holds a mutex. -/
def owner (s : Daemon) : Mutex → Option Tid
  | .sender   => s.senderMutex
  | .listener => s.listenerMutex

/-- The event is a read of the config by sender `i`. -/
def readsConfig (i : Nat) : Event → Bool
  | .sender j (.did .config _) => j = i
  | _                          => false

/-- Every thread keeps its discipline. -/
structure LocksInv (tr : List Event) (s : Daemon) : Prop where
  main      : s.main.Ok serverLocks.contract (fun _ _ => True) (heldBy s.owner .main)
  senders   : ∀ (i : Nat) (d : SenderThread), s.senders[i]? = some d →
    d.thread.Ok configGuard Unread (heldBy s.owner (.sender i), tr.countP (readsConfig i))
  listeners : ∀ (m : Nat) (d : ListenerThread), s.listeners[m]? = some d →
    d.thread.Ok listenerLocks.contract (fun _ _ => True) (heldBy s.owner (.listener m))
  fresh     : ∀ i ≥ s.senders.length, tr.countP (readsConfig i) = 0

theorem moves_main {c : ServerCall} {r : c.Resp} (h : Step s (.main (.did c r)) s') :
    Moves serverLocks .main c s.owner s'.owner := by
  have hsh := shared_call h
  cases c with
  | lockSender =>
      obtain ⟨hfree, hs⟩ := Shared.lockSender_eq.mp hsh
      constructor <;> rintro (_ | _) <;> simp [serverLocks, owner, hs, hfree]
  | unlockSender =>
      obtain ⟨hheld, hs⟩ := Shared.unlockSender_eq.mp hsh
      constructor <;> rintro (_ | _) <;> simp [serverLocks, owner, hs, hheld]
  | lockListener =>
      obtain ⟨hfree, hs⟩ := Shared.lockListener_eq.mp hsh
      constructor <;> rintro (_ | _) <;> simp [serverLocks, owner, hs, hfree]
  | unlockListener =>
      obtain ⟨hheld, hs⟩ := Shared.unlockListener_eq.mp hsh
      constructor <;> rintro (_ | _) <;> simp [serverLocks, owner, hs, hheld]
  | wild => exact r.elim
  | numConns | connection _ | sending =>
      obtain ⟨-, hs⟩ := Shared.check_eq.mp hsh
      constructor <;> rintro (_ | _) <;> simp [serverLocks, owner, hs]
  | openUinput =>
      rcases Shared.openUinput_eq hsh with ⟨-, hs⟩ | ⟨-, hs⟩ <;>
        constructor <;> rintro (_ | _) <;> simp [serverLocks, owner, hs]
  | _ => constructor <;> rintro (_ | _) <;> simp [serverLocks, owner, ← Option.some.inj hsh]

theorem moves_sender {i : Nat} {c : SenderCall} {r : c.Resp} (h : Step s (.sender i (.did c r)) s') :
    Moves senderLocks (.sender i) c s.owner s'.owner := by
  obtain ⟨d, -, hsh⟩ := shared_sender_call h
  cases c with
  | lock =>
      obtain ⟨hfree, hs⟩ := Shared.lockSender_eq.mp hsh
      constructor <;> rintro (_ | _) <;> simp [senderLocks, owner, hs, hfree]
  | unlock =>
      obtain ⟨hheld, hs⟩ := Shared.unlockSender_eq.mp hsh
      constructor <;> rintro (_ | _) <;> simp [senderLocks, owner, hs, hheld]
  | config | sending =>
      obtain ⟨-, hs⟩ := Shared.check_eq.mp hsh
      constructor <;> rintro (_ | _) <;> simp [senderLocks, owner, hs]
  | _ => constructor <;> rintro (_ | _) <;> simp [senderLocks, owner, ← Option.some.inj hsh]

theorem moves_listener {m : Nat} {c : ListenerCall} {r : c.Resp} (h : Step s (.listener m (.did c r)) s') :
    Moves listenerLocks (.listener m) c s.owner s'.owner := by
  obtain ⟨d, t, sh, -, -, hsh, rfl⟩ := step_listener h
  cases c with
  | lock =>
      obtain ⟨hfree, rfl⟩ := Shared.lockListener_eq.mp hsh
      constructor <;> rintro (_ | _) <;> simp [listenerLocks, owner, hfree]
  | unlock =>
      obtain ⟨hheld, rfl⟩ := Shared.unlockListener_eq.mp hsh
      constructor <;> rintro (_ | _) <;> simp [listenerLocks, owner, hheld]
  | write devId ie =>
      obtain ⟨dev, -, rfl⟩ := Option.map_eq_some_iff.mp hsh
      constructor <;> rintro (_ | _) <;> simp [listenerLocks, owner]
  | read | clearConnection =>
      cases hsh
      constructor <;> rintro (_ | _) <;> simp [listenerLocks, owner]

/-- Only its own steps change what a thread holds. -/
theorem heldBy_frame (h : Step s e s') {who : Tid} (he : tidOf e ≠ some who) :
    heldBy s'.owner who = heldBy s.owner who := by
  have hsame : s'.toShared = s.toShared → heldBy s'.owner who = heldBy s.owner who := fun hsh => by
    ext m
    cases m <;> simp [owner, hsh]
  cases e with
  | main a =>
      cases a with
      | jump l => exact hsame (shared_main_jump h)
      | did c r => exact (moves_main h).frame fun hw => he (congrArg some hw.symm)
  | sender i a =>
      cases a with
      | jump l =>
          obtain ⟨d, t, sh, -, -, hsh, rfl⟩ := step_sender h
          cases hsh
          exact hsame rfl
      | did c r => exact (moves_sender h).frame fun hw => he (congrArg some hw.symm)
  | listener m a =>
      cases a with
      | jump l =>
          obtain ⟨d, t, sh, -, -, hsh, rfl⟩ := step_listener h
          cases hsh
          exact hsame rfl
      | did c r => exact (moves_listener h).frame fun hw => he (congrArg some hw.symm)
  | locker j a =>
      have hsh := shared_locker h
      have hmutexes : s'.senderMutex = s.senderMutex ∧ s'.listenerMutex = s.listenerMutex := by rw [hsh]; exact ⟨rfl, rfl⟩
      ext m
      cases m <;> simp [owner, hmutexes]

theorem countP_snoc (p : Event → Bool) (tr : List Event) (e : Event) :
    (tr ++ [e]).countP p = tr.countP p + if p e then 1 else 0 := by
  rw [List.countP_append, List.countP_singleton]

/-- Only its own steps are reads of a sender. -/
theorem reads_frame {i : Nat} (hne : ∀ a, e ≠ .sender i a) :
    (tr ++ [e]).countP (readsConfig i) = tr.countP (readsConfig i) := by
  rw [countP_snoc]
  unfold readsConfig
  split
  · next j r =>
      have hij : j ≠ i := by
        rintro rfl
        exact hne _ rfl
      simp [hij]
  · rfl

theorem locksInv_init (cfg : Config) (conn args : Bytes) : LocksInv [] (init cfg conn args) where
  main := Thread.ok_start server_locks trivial
  senders := fun _ _ h => by simp [init] at h
  listeners := fun _ _ h => by simp [init] at h
  fresh := fun _ _ => rfl

/-- **Step lemma.** -/
theorem locksInv_step (hinv : LocksInv tr s) (h : Step s e s') : LocksInv (tr ++ [e]) s' := by
  constructor
  · refine mainOk_step h hinv.main (fun l _ _ => server_locks l _ trivial) ?_ fun he => ?_
    · rintro c r rfl -
      exact (moves_main h).post
    · refine heldBy_frame h ?_
      cases e with
      | main a => exact absurd rfl (he a)
      | _ => simp [tidOf]
  · refine sendersOk_step (g := fun i => (heldBy s.owner (.sender i), tr.countP (readsConfig i))) h hinv.senders
      ?_ ?_ ?_ ?_
    · rintro i l rfl hl
      refine guard_verified l _ ?_
      cases l with
      | entry =>
          show (tr ++ [_]).countP _ = 0
          rw [countP_snoc, show tr.countP _ = 0 from hl]
          rfl
      | _ => trivial
    · rintro i c r rfl -
      refine ⟨(moves_sender h).post, ?_⟩
      show (tr ++ [_]).countP _ = _
      rw [countP_snoc]
      cases c <;> simp [readsConfig]
    · rintro rfl
      refine guard_verified .entry _ ?_
      show (tr ++ [_]).countP _ = 0
      rw [reads_frame (by simp)]
      exact hinv.fresh _ (Nat.le_refl _)
    · intro i _ hne
      have htid : tidOf e ≠ some (.sender i) := by
        cases e with
        | sender j a =>
            rintro ⟨⟩
            exact hne a rfl
        | _ => simp [tidOf]
      exact Prod.ext (heldBy_frame h htid) (reads_frame hne)
  · intro m d' hd'
    rcases listener_cases h hd' with ⟨hd, hne⟩ | ⟨a, d, rfl, hd, -, -, hf⟩ | ⟨-, _, _, -, rfl⟩
    · have htid : tidOf e ≠ some (.listener m) := by
        cases e with
        | listener j a =>
            rintro ⟨⟩
            exact hne a rfl
        | _ => simp [tidOf]
      rw [heldBy_frame h htid]
      exact hinv.listeners m d' hd
    · cases a with
      | jump l =>
          rw [Thread.jump_start hf]
          exact listener_locks l _ trivial
      | did c r => exact (hinv.listeners m d hd).did hf (moves_listener h).post
    · exact Thread.ok_start listener_locks trivial
  · intro i hi
    have hlen := senders_length_le h
    have hne : ∀ a, e ≠ .sender i a := by
      rintro a rfl
      obtain ⟨d, t, sh, hd, -, -, -⟩ := step_sender h
      have hlt := (List.getElem?_eq_some_iff.mp hd).1
      omega
    rw [reads_frame hne]
    exact hinv.fresh i (by omega)

theorem locksInv_run {cfg : Config} {conn args : Bytes} (h : Run Step (init cfg conn args) tr s) : LocksInv tr s :=
  h.history (locksInv_init cfg conn args) fun _ _ _ _ => locksInv_step

/-! ## Races -/

/-- **Who accesses a part of the memory holds its mutex**, unless it is a sender that reads the config for the second
    time. -/
theorem owner_of_access (hinv : LocksInv tr s) {who : Tid} {a : Access} (ha : accessAt s who = some a) :
    s.owner a.cell.mutex = some who ∨
      ∃ i ref, who = .sender i ∧ a = ⟨.config ref, false⟩ ∧ tr.countP (readsConfig i) = 1 := by
  cases who with
  | main =>
      obtain ⟨c, hc, ha⟩ := Option.bind_eq_some_iff.mp ha
      refine Or.inl (ok_owns hinv.main hc ?_)
      cases c <;> simp only [ServerCall.access, Option.some.injEq, reduceCtorEq] at ha <;> subst ha <;> rfl
  | sender i =>
      obtain ⟨d, hd, ha⟩ := Option.bind_eq_some_iff.mp ha
      obtain ⟨c, hc, ha⟩ := Option.bind_eq_some_iff.mp ha
      obtain ⟨k, hk⟩ := Prog.next_eq hc
      obtain ⟨hlocks, hconfig⟩ := ((hinv.senders i d hd).of_call hk).1
      cases c <;> simp only [SenderCall.access, Option.some.injEq, reduceCtorEq] at ha
      · subst ha
        rcases hconfig rfl with hheld | hread
        · exact Or.inl hheld
        · exact Or.inr ⟨i, d.config, rfl, rfl, hread⟩
      · subst ha
        exact Or.inl (hlocks.2 .sender rfl)
  | listener m =>
      obtain ⟨d, hd, ha⟩ := Option.bind_eq_some_iff.mp ha
      obtain ⟨c, hc, ha⟩ := Option.bind_eq_some_iff.mp ha
      refine Or.inl (ok_owns (hinv.listeners m d hd) hc ?_)
      cases c <;> simp only [ListenerCall.access, Option.some.injEq, reduceCtorEq] at ha
      subst ha
      rfl

/-- Only the main thread writes what a sender reads without the mutex. -/
theorem writer_of_config {who : Tid} {a : Access} (ha : accessAt s who = some a) (hwrite : a.write = true) {ref : Nat}
    (hcell : a.cell = .config ref) : who = .main ∧ s.main.rest.next = some .freeConfig := by
  cases who with
  | main =>
      obtain ⟨c, hc, ha⟩ := Option.bind_eq_some_iff.mp ha
      cases c <;> simp only [ServerCall.access, Option.some.injEq, reduceCtorEq] at ha <;> subst ha <;>
        first | exact ⟨rfl, hc⟩ | cases hcell
  | sender i =>
      obtain ⟨d, hd, ha⟩ := Option.bind_eq_some_iff.mp ha
      obtain ⟨c, hc, ha⟩ := Option.bind_eq_some_iff.mp ha
      cases c <;> simp only [SenderCall.access, Option.some.injEq, reduceCtorEq] at ha <;> subst ha <;> cases hwrite
  | listener m =>
      obtain ⟨d, hd, ha⟩ := Option.bind_eq_some_iff.mp ha
      obtain ⟨c, hc, ha⟩ := Option.bind_eq_some_iff.mp ha
      cases c <;> simp only [ListenerCall.access, Option.some.injEq, reduceCtorEq] at ha
      subst ha
      cases hcell

/-- A race is one for a config that the main thread is about to free. -/
theorem LocksInv.race (hinv : LocksInv tr s) {who who' : Tid} (hrace : Race s who who') :
    ∃ i, (who = .main ∧ who' = .sender i ∨ who = .sender i ∧ who' = .main) ∧
      s.main.rest.next = some .freeConfig ∧ tr.countP (readsConfig i) = 1 := by
  obtain ⟨hne, a, a', ha, ha', hcell, hwrite⟩ := hrace
  rcases owner_of_access hinv ha, owner_of_access hinv ha' with
    ⟨hown | ⟨i, ref, rfl, rfl, hread⟩, hown' | ⟨i', ref', rfl, rfl, hread'⟩⟩
  · -- both hold the mutex
    rw [hcell, hown'] at hown
    exact absurd (Option.some.inj hown).symm hne
  · obtain ⟨rfl, hfree⟩ := writer_of_config ha (hwrite.resolve_right Bool.false_ne_true) hcell
    exact ⟨i', Or.inl ⟨rfl, rfl⟩, hfree, hread'⟩
  · obtain ⟨rfl, hfree⟩ := writer_of_config ha' (hwrite.resolve_left Bool.false_ne_true) hcell.symm
    exact ⟨i, Or.inr ⟨rfl, rfl⟩, hfree, hread⟩
  · exact absurd hwrite (by simp)

/-- **The only race of the daemon.** In every run, two threads that are about to access the same memory, one of them to
    write it, are the main thread at the `free` of `reload` and a sender at its second read of the config, which is the
    one in the initialiser of `conn`. Nothing else is accessed by two threads at once: neither the flag, nor the table
    of connections, nor a config at any other read. -/
theorem only_race {cfg : Config} {conn args : Bytes} (h : Run Step (init cfg conn args) tr s) {who who' : Tid}
    (hrace : Race s who who') :
    ∃ i, (who = .main ∧ who' = .sender i ∨ who = .sender i ∧ who' = .main) ∧
      s.main.rest.next = some .freeConfig ∧ tr.countP (readsConfig i) = 1 :=
  (locksInv_run h).race hrace

/-- Sender `i` with `emptyConfig` connects, and gives the mutex back. -/
def connectEvents (i : Nat) : List Event :=
  [senderCall i .socket (3 : Int), senderCall i .lock (), senderCall i .config emptyConfig,
    senderCall i (.inetPton []) (1 : Int), senderCall i (.connect 3 [] 0) (0 : Int), senderCall i .unlock ()]

/-- The message of a RELOAD that brings a config. -/
def reloadArgs : Bytes := CommandArgs.encode ⟨.reload, 1, List.replicate 256 0⟩

/-- The race happens: a RELOAD with a config arrives while a sender is between `connect_to_server` and the initialiser
    of `conn`. -/
theorem only_race_reload :
    ∃ s, Run Step (init emptyConfig [] []) (boot ++ order .start startEvents ++ connectEvents 0 ++ receive reloadArgs ++
        [.main (.jump (.handle commandConn reloadArgs)), mainCall .lockSender ()]) s ∧
      Race s .main (.sender 0) ∧ s.main.rest.next = some .freeConfig := by
  have hexec : (execs exec (init emptyConfig [] []) (boot ++ order .start startEvents ++ connectEvents 0 ++
      receive reloadArgs ++ [.main (.jump (.handle commandConn reloadArgs)), mainCall .lockSender ()])).map
      (fun s => (accessAt s .main, accessAt s (.sender 0))) = some (some ⟨.config 0, true⟩, some ⟨.config 0, false⟩) := by
    decide +kernel
  obtain ⟨s, hrun, hfin⟩ := Run.exists_of_execs hexec
  obtain ⟨hmain, hsender⟩ := Prod.mk.inj hfin
  have hrace : Race s .main (.sender 0) := ⟨by decide, _, _, hmain, hsender, rfl, Or.inl rfl⟩
  obtain ⟨i, -, hfree, -⟩ := only_race hrun hrace
  exact ⟨s, hrun, hrace, hfree⟩

end Daemon

end IOSwitch
