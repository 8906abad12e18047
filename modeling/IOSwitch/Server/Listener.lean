import IOSwitch.Lib.Prog
import IOSwitch.Server.Types

/-!
# `Server.Listener` — `spawn_listener_thread`

The thread that `run_server` creates for an input stream: it reads packets from the socket and writes each
event to the virtual device the packet names, until the peer is gone.
-/

namespace IOSwitch

open Lib

/-- The calls of a listener thread. `write i ie` writes to `devices[i].devfd`; `clearConnection` is the
    assignment through `args->connection`. -/
inductive ListenerCall where
  | read
  | write (devId : BitVec 32) (ie : InputEvent)
  | lock
  | unlock
  | clearConnection
  deriving DecidableEq

abbrev ListenerCall.Resp : ListenerCall → Type
  | read            => ReadResult InputPacket.size
  | write _ _       => Unit
  | lock            => Unit
  | unlock          => Unit
  | clearConnection => Unit

abbrev listenerI : Interface := ⟨ListenerCall, ListenerCall.Resp⟩

instance : DecidableEq listenerI.Call := inferInstanceAs (DecidableEq ListenerCall)

/-- `loop` carries the bytes of the one `packet` variable. -/
inductive ListenerLoc where
  | loop (packet : Bytes)
  | exited
  deriving DecidableEq

/-- A listener thread lives until it leaves its loop. -/
def ListenerLoc.alive : ListenerLoc → Bool
  | loop _ => true
  | exited => false

namespace Listener

/-- A call, as a program. -/
abbrev ask (c : ListenerCall) : Prog listenerI c.Resp := Prog.perform (I := listenerI) c

/-- One round of `while (1)`, after `read` has answered `r`. -/
def handleRead (packet : Bytes) (r : ReadResult InputPacket.size) : Prog listenerI ListenerLoc :=
  -- a short piece overwrites the front of the packet variable
  let packet := overlay packet r.bytes
  if r.ret = InputPacket.size then do
    let p := InputPacket.ofMem packet
    ask (.write p.devId p.ie)
    return .loop packet
  else if r.ret ≤ 0 then do
    ask .lock
    ask .clearConnection
    ask .unlock
    return .exited
  else return .loop packet

end Listener

open Listener in
/-- `spawn_listener_thread`, block by block. -/
def spawnListenerThread : ListenerLoc → Prog listenerI ListenerLoc
  | .loop packet => do
      let r ← ask .read
      handleRead packet r
  | .exited => return .exited

end IOSwitch
