import IOSwitch.Lib.Prog
import IOSwitch.Server.Types

/-!
# `Server.Commands` — `run_server` and the command handlers

The main thread of the daemon: the accept loop with its three kinds of connections, the handlers of the
command table, and the creation of the virtual devices for an input stream.

The flowchart of `run_server` has the head of the accept loop (`loop`, with the stack contents of `conn` and
`args`, which survive from one round to the next), the call through the command table (`handle`) and its
return (`returned`).
-/

namespace IOSwitch

open Lib

/-- The messages of `start` that tell its two branches apart. -/
inductive Notice where
  | alreadySending | startCommand
  deriving DecidableEq

/-- The calls of the main thread. `wild` is a jump through a function pointer outside the command table. -/
inductive ServerCall where
  | listen
  | accept
  | recvConn (fd : Int)
  | recvArgs (fd : Int)
  | lockSender
  | unlockSender
  | sending
  | setSending (b : Bool)
  | freeConfig
  | loadConfig (path : Bytes)
  | createSender
  | printf (n : Notice)
  | numConns
  | lockListener
  | unlockListener
  | connection (i : Nat)
  | openUinput
  | devSetup (fd : Int) (name : Bytes)
  | devCreate (fd : Int)
  | createListener (slot : Nat) (args : ListenerArgs)
  | incrNumConns
  | wild
  deriving DecidableEq

abbrev ServerCall.Resp : ServerCall → Type
  | listen              => Int
  | accept              => Int
  | recvConn _          => ReadResult NewConnection.size
  | recvArgs _          => ReadResult CommandArgs.size
  | lockSender          => Unit
  | unlockSender        => Unit
  | sending             => Bool
  | setSending _        => Unit
  | freeConfig          => Unit
  | loadConfig _        => Config
  | createSender        => Unit
  | printf _            => Unit
  | numConns            => Nat
  | lockListener        => Unit
  | unlockListener      => Unit
  | connection _        => Int
  | openUinput          => Int
  | devSetup _ _        => Unit
  | devCreate _         => Unit
  | createListener _ _  => Unit
  | incrNumConns        => Unit
  | wild                => Empty

abbrev serverI : Interface := ⟨ServerCall, ServerCall.Resp⟩

instance : DecidableEq serverI.Call := inferInstanceAs (DecidableEq ServerCall)

inductive ServerLoc where
  | entry (conn args : Bytes)
  | loop (conn args : Bytes)
  | handle (conn args : Bytes)
  | returned (code : Int)
  deriving DecidableEq

namespace Server

/-- A call, as a program. -/
abbrev ask (c : ServerCall) : Prog serverI c.Resp := Prog.perform (I := serverI) c

/-! ## The command handlers -/

namespace Handler

protected def none (_ : CommandArgs) : Prog serverI Int := return 0

protected def list (_ : CommandArgs) : Prog serverI Int := return 0

/-- `start`. Its test of `args->reload_config` guards an empty block. -/
def start (_ : CommandArgs) : Prog serverI Int := do
  ask .lockSender
  if ← ask .sending then
    -- the mutex is not given back here
    ask (.printf .alreadySending)
    return 0
  ask (.setSending true)
  ask .unlockSender
  ask (.printf .startCommand)
  ask .createSender
  return 0

def stop (_ : CommandArgs) : Prog serverI Int := do
  ask .lockSender
  ask (.setSending false)
  ask .unlockSender
  return 0

/-- `switch_state`. -/
def switchState (args : CommandArgs) : Prog serverI Int := do
  ask .lockSender
  if ← ask .sending then
    ask .unlockSender
    let _ ← stop args
    return 0
  else
    ask .unlockSender
    let _ ← start args
    return 0

/-- The block of `reload` that runs when `args->reload_config` is set. -/
def replaceConfig (args : CommandArgs) : Prog serverI Unit :=
  if args.reloadConfig ≠ 0 then do
    ask .freeConfig
    let _ ← ask (.loadConfig (cstr args.configPath))
    return ()
  else return ()

def reload (args : CommandArgs) : Prog serverI Int := do
  ask .lockSender
  replaceConfig args
  ask .unlockSender
  let _ ← stop args
  let _ ← start args
  return 0

def kill (args : CommandArgs) : Prog serverI Int := do
  let _ ← stop args
  return 1

end Handler

/-- `server->commands[args.type](server, &args)`: the table that `create_server` fills. -/
def commands (args : CommandArgs) : Prog serverI Int :=
  match args.type with
  | .none    => Handler.none args
  | .list    => Handler.list args
  | .start   => Handler.start args
  | .stop    => Handler.stop args
  | .switch  => Handler.switchState args
  | .reload  => Handler.reload args
  | .kill    => Handler.kill args
  | .other _ => do nomatch ← ask .wild

/-! ## Input streams -/

/-- `"IOswitch Dev "`. -/
def devPrefix : Bytes :=
  ['I', 'O', 's', 'w', 'i', 't', 'c', 'h', ' ', 'D', 'e', 'v', ' '].map Char.toUInt8

/-- `create_device`. The `ioctl`s that declare the device's keys and axes are left out. -/
def createDevice (sockfd : Int) (name : Bytes) : Prog serverI VirtualDevice := do
  let devfd ← ask .openUinput
  let setupName := strcat (strcpy (List.replicate 80 0) devPrefix) name
  ask (.devSetup devfd (cstr setupName))
  ask (.devCreate devfd)
  return ⟨sockfd, devfd, setupName, strcpy (List.replicate 64 0) name⟩

/-- The loop that creates `n` devices from the `i`-th on. -/
def createDevices (sockfd : Int) (conn : Bytes) :
    Nat → Nat → List VirtualDevice → Prog serverI (List VirtualDevice)
  | 0, _, devices     => return devices
  | n + 1, i, devices => do
      let dev ← createDevice sockfd (NewConnection.deviceNameAt conn i)
      createDevices sockfd conn n (i + 1) (devices ++ [dev])

/-- The search for a free slot among `n` entries of `server->connections` from the `i`-th on: the last one
    found wins. -/
def findSlot : Nat → Nat → Nat → Prog serverI Nat
  | 0, _, openSlot     => return openSlot
  | n + 1, i, openSlot => do
      let c ← ask (.connection i)
      findSlot n (i + 1) (if c = 0 then i else openSlot)

/-- The `INPUT_STREAM` case of `run_server`. -/
def acceptInput (fd : Int) (conn : Bytes) : Prog serverI Unit := do
  let numConns ← ask .numConns
  if maxConnections ≤ numConns then return ()
  ask .lockListener
  -- nothing marks the slot that is found as taken
  let openSlot ← findSlot numConns 0 0
  let numDevices := NewConnection.numDevicesAt conn
  let devices ← createDevices fd conn numDevices.toInt.toNat 0 []
  ask .unlockListener
  ask (.createListener openSlot ⟨fd, numDevices, devices, openSlot⟩)
  ask .incrNumConns

/-! ## `run_server` -/

/-- The `switch` over the type of an accepted connection, up to the call through the command table. -/
def acceptConn (fd : Int) (conn args : Bytes) : Prog serverI ServerLoc :=
  match NewConnection.typeAt conn with
  | .inputStream => do
      acceptInput fd conn
      return .loop conn args
  | .command => do
      let r ← ask (.recvArgs fd)
      if r.ret < 0 then return .returned (-1)
      return .handle conn (overlay args r.bytes)
  | .other _ => return .loop conn args

/-- One round of the accept loop. -/
def acceptOne (conn args : Bytes) : Prog serverI ServerLoc := do
  let fd ← ask .accept
  if fd < 0 then return .returned (-1)
  let r ← ask (.recvConn fd)
  if r.ret < 0 then return .returned (-1)
  acceptConn fd (overlay conn r.bytes) args

end Server

open Server in
/-- `run_server`, block by block. -/
def runServer : ServerLoc → Prog serverI ServerLoc
  | .entry conn args => do
      if (← ask .listen) < 0 then return .returned (-1)
      return .loop conn args
  | .loop conn args => acceptOne conn args
  | .handle conn args => do
      let result ← commands (.ofMem args)
      return if result = 1 then .returned 0 else .loop conn args
  | .returned code => return .returned code

end IOSwitch
