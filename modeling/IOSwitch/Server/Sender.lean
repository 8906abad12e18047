import IOSwitch.Lib.Prog
import IOSwitch.Server.Types

/-!
# `Server.Sender` — `spawn_sender_thread` and `send_input_event`

The thread that `start` creates: it connects, announces its devices with a `NewConnection`, has the screen
locked, and then forwards one event of every ready device per round until a round fails or `*sending` is
found to be 0.

The code is a flowchart whose labels are the places the claims about it speak of: `entry` up to the loop,
`loop` at the head of `while (connected)`, `round` inside one call of `send_input_event`, `check` at the test
of the flag, `leave` behind the loop.
-/

namespace IOSwitch

open Lib

/-- The result of `poll`: its return value and, for each descriptor, whether `POLLIN` is set. -/
structure PollResult where
  ret     : Int
  revents : List Bool

/-- The calls a sender thread makes. `config` reads the block that `SenderArgs.config` points to. -/
inductive SenderCall where
  | socket
  | lock
  | unlock
  | config
  | inetPton (ip : Bytes)
  | connect (fd : Int) (ip : Bytes) (port : UInt16)
  | openDevice (name : Bytes)
  | sendConn (fd : Int) (conn : NewConnection)
  | createLock
  | poll (devfd : List Int)
  | read (i : Nat) (fd : Int)
  | send (fd : Int) (packet : InputPacket)
  | sending
  | joinLock
  deriving DecidableEq

abbrev SenderCall.Resp : SenderCall → Type
  | socket         => Int
  | lock           => Unit
  | unlock         => Unit
  | config         => Config
  | inetPton _     => Int
  | connect _ _ _  => Int
  | openDevice _   => Int
  | sendConn _ _   => Int
  | createLock     => Unit
  | poll _         => PollResult
  | read _ _       => ReadResult 24
  | send _ _       => Int
  | sending        => Bool
  | joinLock       => Unit

abbrev senderI : Interface := ⟨SenderCall, SenderCall.Resp⟩

instance : DecidableEq senderI.Call := inferInstanceAs (DecidableEq SenderCall)

/-! ## Program points -/

/-- The locals of `spawn_sender_thread` that live through its loop. -/
structure SenderEnv where
  fd        : Int
  deviceFds : List Int
  deriving DecidableEq

inductive SenderLoc where
  | entry
  | loop (env : SenderEnv)
  | round (env : SenderEnv) (k : Nat)
  | check (env : SenderEnv) (connected : Bool)
  | leave (env : SenderEnv)
  | exited
  deriving DecidableEq

/-- Inside `while (connected)`. -/
def SenderLoc.inLoop : SenderLoc → Bool
  | loop _ | round _ _ | check _ _ => true
  | entry | leave _ | exited       => false

/-- Created, and neither out of the sending loop nor failed before it. -/
def SenderLoc.active : SenderLoc → Bool
  | entry | loop _ | round _ _ | check _ _ => true
  | leave _ | exited                       => false

namespace Sender

/-- A call, as a program. -/
abbrev ask (c : SenderCall) : Prog senderI c.Resp := Prog.perform (I := senderI) c

/-! ## `util.c` -/

/-- `connect_to_server`. -/
def connectToServer (fd : Int) (ip : Bytes) (port : UInt16) : Prog senderI Int := do
  if (← ask (.inetPton ip)) ≤ 0 then return -1
  if (← ask (.connect fd ip port)) < 0 then return -1
  return 0

/-- The loop of `send_input_event` over `n` devices from the `i`-th on, with `packet` as the devices before
    them left it. -/
def forwardReady (devfd : List Int) (revents : List Bool) (dest : Int) :
    Nat → Nat → InputPacket → Prog senderI Int
  | 0, _, _          => return 0
  | n + 1, i, packet =>
      if revents.getD i false then do
        let r ← ask (.read i (devfd.getD i (-1)))
        if r.ret < 0 then return -1
        -- a short read leaves the rest of the event as the last device filled it
        let filled := ⟨BitVec.ofNat 32 i, packet.ie.fill r.bytes⟩
        if (← ask (.send dest filled)) ≤ 0 then return -1
        forwardReady devfd revents dest n (i + 1) filled
      else forwardReady devfd revents dest n (i + 1) packet

/-- `send_input_event`. -/
def sendInputEvent (k : Nat) (devfd : List Int) (dest : Int) : Prog senderI Int := do
  let p ← ask (.poll (devfd.take k))
  if p.ret < 0 then return -1
  forwardReady devfd p.revents dest k 0 .zero

/-! ## `spawn_sender_thread` -/

/-- The loop that opens `n` devices from the `i`-th on and copies their names into `conn`; `none` when an
    `open` failed. -/
def openDevices (config : Config) :
    Nat → Nat → NewConnection → List Int → Prog senderI (Option (NewConnection × List Int))
  | 0, _, conn, fds     => return some (conn, fds)
  | n + 1, i, conn, fds => do
      let fd ← ask (.openDevice (cstr (config.deviceName i)))
      if fd < 0 then return none
      openDevices config n (i + 1) (conn.copyName i (config.deviceName i)) (fds ++ [fd])

/-- The part of `spawn_sender_thread` before its loop. -/
def setup : Prog senderI SenderLoc := do
  let fd ← ask .socket
  if fd < 0 then return .exited
  ask .lock
  let config ← ask .config
  if (← connectToServer fd (cstr config.destIp) config.destPort) < 0 then
    ask .unlock
    return .exited
  ask .unlock
  -- the initialiser of `conn` reads `num_devices` before the mutex is taken again
  let config ← ask .config
  let conn := ⟨.inputStream, BitVec.ofNat 32 config.numDevices.toNat, NewConnection.noNames⟩
  ask .lock
  let config ← ask .config
  match ← openDevices config config.numDevices.toNat 0 conn [] with
  | none =>
      ask .unlock
      return .exited
  | some (conn, fds) =>
      ask .unlock
      if (← ask (.sendConn fd conn)) < 0 then return .exited
      ask .createLock
      return .loop ⟨fd, fds⟩

end Sender

open Sender in
/-- `spawn_sender_thread`, block by block. -/
def spawnSenderThread : SenderLoc → Prog senderI SenderLoc
  | .entry => setup
  | .loop env => do
      ask .lock
      let config ← ask .config
      ask .unlock
      return .round env config.numDevices.toNat
  | .round env k => do
      let r ← sendInputEvent k env.deviceFds env.fd
      return .check env (decide (0 ≤ r))
  | .check env connected => do
      ask .lock
      let sending ← ask .sending
      ask .unlock
      return if connected && sending then .loop env else .leave env
  | .leave _ => do
      ask .joinLock
      return .exited
  | .exited => return .exited

end IOSwitch
