import IOSwitch.Lib.Lts
import IOSwitch.Server.Commands
import IOSwitch.Server.Sender
import IOSwitch.Server.Listener
import IOSwitch.Server.HostLock

/-!
# `Daemon.State` — the daemon as one step relation

The threads of the daemon (the main thread, any number of senders, listeners and lock threads) run their
flowcharts in any interleaving over the memory they share. Every call is one atomic step: it may have to wait
(a mutex), its answer may be fixed by the memory (a read of `*sending`) or be any answer the operating system
can give (a `read`, a `connect`). Jumps between blocks are steps of their own.

`exec` computes the state after an event, if the event is possible; `Step` is its graph. A run of the daemon
is a run of `Step` from `Daemon.init`.

The model covers the daemon from `create_server` until `run_server` has returned. `pthread_create` succeeds;
a read through a pointer to a released config block may answer anything.
-/

namespace IOSwitch

open Lib

/-- Who holds a mutex. -/
inductive Tid where
  | main
  | sender (i : Nat)
  | listener (i : Nat)
  deriving DecidableEq

/-- A `Config` on the heap; `released` after `free`. -/
structure ConfigBlock where
  config   : Config
  released : Bool

/-- A uinput device: its name, whether `UI_DEV_CREATE` was done, and the events written to it. -/
structure UInputDev where
  name    : Bytes
  created : Bool
  log     : List InputEvent

/-- The memory the threads share, the devices and the X grab. -/
structure Shared where
  config        : Nat
  configs       : List ConfigBlock
  sending       : Bool
  senderMutex   : Option Tid
  numConns      : Nat
  listenerMutex : Option Tid
  connections   : List Int
  uinput        : List UInputDev
  grab          : Option Nat

/-- A sender thread and the config its `SenderArgs` point to. -/
structure SenderThread where
  config : Nat
  thread : Thread senderI SenderLoc

/-- A listener thread, its arguments and the slot whose `listener_handle` names it. -/
structure ListenerThread where
  args   : ListenerArgs
  slot   : Nat
  thread : Thread listenerI ListenerLoc

/-- A lock thread and the sender that created it. -/
structure LockThread where
  creator : Nat
  thread  : Thread lockI LockLoc

structure Daemon extends Shared where
  exited    : Bool
  main      : Thread serverI ServerLoc
  senders   : List SenderThread
  listeners : List ListenerThread
  lockers   : List LockThread

/-! ## The effect of the calls -/

namespace Shared

/-- `pthread_mutex_lock(sender_mutex)`: possible once the mutex is free. -/
def lockSender (s : Shared) (who : Tid) : Option Shared :=
  if s.senderMutex = none then some { s with senderMutex := some who } else none

def unlockSender (s : Shared) (who : Tid) : Option Shared :=
  if s.senderMutex = some who then some { s with senderMutex := none } else none

def lockListener (s : Shared) (who : Tid) : Option Shared :=
  if s.listenerMutex = none then some { s with listenerMutex := some who } else none

def unlockListener (s : Shared) (who : Tid) : Option Shared :=
  if s.listenerMutex = some who then some { s with listenerMutex := none } else none

/-- A read of config block `ref` can answer `c`. -/
def holdsConfig (s : Shared) (ref : Nat) (c : Config) : Bool :=
  match s.configs[ref]? with
  | some b => b.released || b.config = c
  | none   => false

/-- Guard: the state is unchanged if `b`, and the event is impossible if not. -/
def check (s : Shared) (b : Bool) : Option Shared := if b then some s else none

/-- The devices after `f` on that of descriptor `fd`; what an `open` that failed has returned stands for none. -/
def onDevice (s : Shared) (fd : Int) (f : UInputDev → UInputDev) : List UInputDev :=
  if fd < 0 then s.uinput else s.uinput.modify fd.toNat f

def serverEffect (s : Shared) : (c : ServerCall) → c.Resp → Option Shared
  | .lockSender, _      => s.lockSender .main
  | .unlockSender, _    => s.unlockSender .main
  | .sending, b         => s.check (b = s.sending)
  | .setSending b, _    => some { s with sending := b }
  -- the block stays in the list, so that the senders' pointers to it still have a meaning
  | .freeConfig, _      =>
      some { s with configs := s.configs.modify s.config fun b => { b with released := true } }
  | .loadConfig _, c    => some { s with configs := s.configs ++ [⟨c, false⟩], config := s.configs.length }
  | .numConns, n        => s.check (n = s.numConns)
  | .incrNumConns, _    => some { s with numConns := s.numConns + 1 }
  | .lockListener, _    => s.lockListener .main
  | .unlockListener, _  => s.unlockListener .main
  | .connection i, v    => s.check (v = s.connections.getD i 0)
  -- a descriptor stands for its device: the next one is new
  | .openUinput, fd     =>
      if fd < 0 then some s
      else if fd = s.uinput.length then some { s with uinput := s.uinput ++ [⟨[], false, []⟩] }
      else none
  | .devSetup fd n, _   => some { s with uinput := s.onDevice fd fun d => { d with name := n } }
  | .devCreate fd, _    => some { s with uinput := s.onDevice fd fun d => { d with created := true } }
  | _, _                => some s

def senderEffect (s : Shared) (i ref : Nat) : (c : SenderCall) → c.Resp → Option Shared
  | .lock, _    => s.lockSender (.sender i)
  | .unlock, _  => s.unlockSender (.sender i)
  | .config, c  => s.check (s.holdsConfig ref c)
  | .sending, b => s.check (b = s.sending)
  | _, _        => some s

/-- `devices[packet.dev_id]`, where that is an element of the array. -/
def deviceAt (args : ListenerArgs) (devId : BitVec 32) : Option VirtualDevice :=
  if 0 ≤ devId.toInt then args.devices[devId.toInt.toNat]? else none

def listenerEffect (s : Shared) (i : Nat) (args : ListenerArgs) :
    (c : ListenerCall) → c.Resp → Option Shared
  | .lock, _            => s.lockListener (.listener i)
  | .unlock, _          => s.unlockListener (.listener i)
  | .clearConnection, _ => some { s with connections := s.connections.set args.connection 0 }
  | .write devId ie, _  => (deviceAt args devId).map fun d =>
      { s with uinput := s.onDevice d.devfd fun u => { u with log := u.log ++ [ie] } }
  | .read, _            => some s

/-- The X server lets one client at a time grab the keyboard. -/
def lockEffect (s : Shared) (i : Nat) : (c : LockCall) → c.Resp → Option Shared
  -- a grab may also be refused while nobody holds it: the answer `false` is always possible
  | .grabKeyboard, true => if s.grab = none then some { s with grab := some i } else none
  | .ungrabKeyboard, _  => some { s with grab := if s.grab = some i then none else s.grab }
  | _, _                => some s

end Shared

/-! ## Events and steps -/

inductive Event where
  | main (a : Act serverI ServerLoc)
  | sender (i : Nat) (a : Act senderI SenderLoc)
  | listener (i : Nat) (a : Act listenerI ListenerLoc)
  | locker (i : Nat) (a : Act lockI LockLoc)

namespace Daemon

/-- The effect of an action: that of its call, none for a jump. -/
def effectOf {I : Interface} {L : Type} (s : Shared) (f : (c : I.Call) → I.Resp c → Option Shared) :
    Act I L → Option Shared
  | .jump _  => some s
  | .did c r => f c r

/-- The sender thread that an action of the main thread creates. -/
def newSenders (s : Daemon) : Act serverI ServerLoc → List SenderThread
  | .did .createSender _ => [⟨s.config, .start spawnSenderThread .entry⟩]
  | _                    => []

/-- The listener thread that an action of the main thread creates. -/
def newListeners : Act serverI ServerLoc → List ListenerThread
  | .did (.createListener slot args) _ =>
      [⟨args, slot, .start spawnListenerThread (.loop InputPacket.zero.encode)⟩]
  | _ => []

/-- The lock thread that an action of sender `i` creates. -/
def newLockers (i : Nat) : Act senderI SenderLoc → List LockThread
  | .did .createLock _ => [⟨i, .start spawnLockThread .entry⟩]
  | _                  => []

/-- An action of a lock thread that ends the process. -/
def exits : Act lockI LockLoc → Bool
  | .did .exit _ => true
  | _            => false

/-- The state after an event, if the event is possible. -/
def exec (s : Daemon) (e : Event) : Option Daemon :=
  -- nothing runs after an `exit`
  if s.exited then none else
  match e with
  | .main a =>
      (s.main.fire runServer a).bind fun t =>
      (effectOf s.toShared s.serverEffect a).map fun sh =>
        { s with
          toShared  := sh
          main      := t
          senders   := s.senders ++ s.newSenders a
          listeners := s.listeners ++ newListeners a }
  | .sender i a =>
      s.senders[i]?.bind fun d =>
      (d.thread.fire spawnSenderThread a).bind fun t =>
      (effectOf s.toShared (s.senderEffect i d.config) a).map fun sh =>
        { s with
          toShared := sh
          senders  := s.senders.set i { d with thread := t }
          lockers  := s.lockers ++ newLockers i a }
  | .listener i a =>
      s.listeners[i]?.bind fun d =>
      (d.thread.fire spawnListenerThread a).bind fun t =>
      (effectOf s.toShared (s.listenerEffect i d.args) a).map fun sh =>
        { s with
          toShared  := sh
          listeners := s.listeners.set i { d with thread := t } }
  | .locker i a =>
      s.lockers[i]?.bind fun d =>
      (d.thread.fire spawnLockThread a).bind fun t =>
      (effectOf s.toShared (s.lockEffect i) a).map fun sh =>
        { s with
          toShared := sh
          lockers  := s.lockers.set i { d with thread := t }
          exited   := exits a }

/-- One step of the daemon. -/
def Step (s : Daemon) (e : Event) (s' : Daemon) : Prop := s.exec e = some s'

/-- The daemon when `run_server` is called: `cfg` was loaded, and the stack slots of `conn` and `args` hold
    what was there before. -/
def init (cfg : Config) (conn args : Bytes) : Daemon where
  config        := 0
  configs       := [⟨cfg, false⟩]
  sending       := false
  senderMutex   := none
  numConns      := 0
  listenerMutex := none
  connections   := List.replicate maxConnections 0
  uinput        := []
  grab          := none
  exited        := false
  main          := .start runServer (.entry conn args)
  senders       := []
  listeners     := []
  lockers       := []

end Daemon

end IOSwitch
