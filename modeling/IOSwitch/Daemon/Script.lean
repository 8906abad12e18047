import IOSwitch.Daemon.Step

/-!
# `Daemon.Script` — schedules in which commands are served

How a command reaches its handler: the events from the head of the accept loop to the call through the
command table (`receive`), for whatever the stack slots of `run_server` hold (`run_receive`). `order` is such an
arrival with the events of the handler and its return; runs on concrete commands are put together from it.
-/

namespace IOSwitch

open Lib Server

namespace Daemon

/-! ## Events -/

abbrev mainCall (c : ServerCall) (r : c.Resp) : Event := .main (.did c r)

abbrev senderCall (i : Nat) (c : SenderCall) (r : c.Resp) : Event := .sender i (.did c r)

/-- The answer to a `recv` of at most `n` bytes that finds the message `m`. -/
def received {n : Nat} (m : Bytes) : ReadResult n := if h : m.length ≤ n then .data m h else .error

theorem received_of_le {n : Nat} {m : Bytes} (h : m.length ≤ n) : (received m : ReadResult n) = .data m h :=
  dif_pos h

/-! ## Steps that are possible -/

section Possible

variable {s : Daemon} (hx : s.exited = false)
include hx

/-- A call of the main thread is possible if its effect is. -/
theorem can_call {c : ServerCall} {k : c.Resp → Prog serverI ServerLoc} {r : c.Resp} {sh : Shared}
    (hr : s.main.rest = .call c k) (he : s.serverEffect c r = some sh) :
    Step s (mainCall c r) { s with
      toShared  := sh
      main      := ⟨s.main.loc, k r⟩
      senders   := s.senders ++ s.newSenders (.did c r)
      listeners := s.listeners ++ newListeners (.did c r) } := by
  have hf : s.main.fire runServer (.did c r) = some ⟨s.main.loc, k r⟩ :=
    (Thread.fire_did (I := serverI)).mpr ⟨k, hr, rfl⟩
  simp [Step, exec, hx, hf, effectOf, he]

/-- A finished block of the main thread can always be left. -/
theorem can_jump {l : ServerLoc} (hr : s.main.rest = .ret l) :
    Step s (.main (.jump l)) { s with main := .start runServer l } := by
  have hf : s.main.fire runServer (.jump l) = some (.start runServer l) :=
    (Thread.fire_jump (I := serverI)).mpr ⟨hr, rfl⟩
  simp [Step, exec, hx, hf, effectOf, newSenders, newListeners]

/-- A call of a sender is possible if its effect is. -/
theorem can_sender_call {i : Nat} {d : SenderThread} {c : SenderCall} {k : c.Resp → Prog senderI SenderLoc}
    {r : c.Resp} {sh : Shared} (hd : s.senders[i]? = some d) (hr : d.thread.rest = .call c k)
    (he : s.senderEffect i d.config c r = some sh) :
    Step s (senderCall i c r) { s with
      toShared := sh
      senders  := s.senders.set i { d with thread := ⟨d.thread.loc, k r⟩ }
      lockers  := s.lockers ++ newLockers i (.did c r) } := by
  have hf : d.thread.fire spawnSenderThread (.did c r) = some ⟨d.thread.loc, k r⟩ :=
    (Thread.fire_did (I := senderI)).mpr ⟨k, hr, rfl⟩
  simp [Step, exec, hx, hd, hf, effectOf, he]

/-- A call of a lock thread is possible if its effect is. -/
theorem can_locker_call {j : Nat} {k : LockThread} {c : LockCall} {f : c.Resp → Prog lockI LockLoc} {r : c.Resp}
    {sh : Shared} (hk : s.lockers[j]? = some k) (hr : k.thread.rest = .call c f)
    (he : s.lockEffect j c r = some sh) :
    Step s (.locker j (.did c r)) { s with
      toShared := sh
      lockers  := s.lockers.set j { k with thread := ⟨k.thread.loc, f r⟩ }
      exited   := exits (.did c r) } := by
  have hf : k.thread.fire spawnLockThread (.did c r) = some ⟨k.thread.loc, f r⟩ :=
    (Thread.fire_did (I := lockI)).mpr ⟨f, hr, rfl⟩
  simp [Step, exec, hx, hk, hf, effectOf, he]

end Possible

/-! ## The arrival of a command -/

/-- The `NewConnection` that announces a command. -/
def commandConn : Bytes := NewConnection.encode ⟨.command, 0, NewConnection.noNames⟩

theorem commandConn_length : commandConn.length = NewConnection.size := by
  decide +kernel

theorem typeAt_commandConn (conn : Bytes) : NewConnection.typeAt (overlay conn commandConn) = .command := rfl

/-- A connection is accepted and the command message `m` received on it. -/
def receive (m : Bytes) : List Event :=
  [mainCall .accept 4, mainCall (.recvConn 4) (received commandConn), mainCall (.recvArgs 4) (received m)]

/-- Only the message of `sizeof(CommandArgs)` bytes matters to the command, not what the slot held before. -/
theorem ofMem_overlay {args m : Bytes} (h : m.length = CommandArgs.size) :
    CommandArgs.ofMem (overlay args m) = CommandArgs.ofMem m := by
  have h4 : 4 ≤ m.length := by rw [h]; decide
  have h5 : 5 ≤ m.length := by rw [h]; decide
  have h256 : 256 ≤ (m.drop 5).length := by rw [List.length_drop, h]; decide
  simp only [CommandArgs.ofMem, overlay, List.take_append_of_le_length h4, List.drop_append_of_le_length h5,
    List.take_append_of_le_length h256, List.getD_eq_getElem?_getD,
    List.getElem?_append_left (show 4 < m.length by omega)]

/-- **A command can arrive** whenever the main thread is at the head of its loop. -/
theorem run_receive {s : Daemon} {conn args m : Bytes} (hx : s.exited = false)
    (hm : s.main = .start runServer (.loop conn args)) (hlen : m.length = CommandArgs.size) :
    Run Step s (receive m) { s with
      main := ⟨.loop conn args, .ret (.handle (overlay conn commandConn) (overlay args m))⟩ } := by
  let gotConn : ReadResult NewConnection.size := .data commandConn (by rw [commandConn_length])
  let gotArgs : ReadResult CommandArgs.size := .data m (by rw [hlen])
  have hconn : received commandConn = gotConn := received_of_le _
  have hargs : received m = gotArgs := received_of_le _
  have hret : ¬ gotConn.ret < 0 := by simp [gotConn, ReadResult.ret]
  have hret' : ¬ gotArgs.ret < 0 := by simp [gotArgs, ReadResult.ret]
  have hbytes : gotConn.bytes = commandConn := rfl
  have hbytes' : gotArgs.bytes = m := rfl
  rw [receive, hconn, hargs]
  refine Run.of_execs ?_
  simp [execs, exec, hx, hm, Thread.start, Thread.fire, runServer, acceptOne, acceptConn, effectOf, Shared.serverEffect,
    newSenders, newListeners, hret, hret', hbytes, hbytes', typeAt_commandConn]

/-! ## Concrete commands -/

/-- The daemon gets to the head of its accept loop. -/
def boot : List Event := [mainCall .listen 0, .main (.jump (.loop [] []))]

/-- The message of a command that brings no config. -/
def plainArgs (t : CommandType) : Bytes := CommandArgs.encode ⟨t, 0, List.replicate 256 0⟩

theorem plainArgs_length (t : CommandType) : (plainArgs t).length = CommandArgs.size := by
  simp only [plainArgs, CommandArgs.encode, List.length_append, List.length_cons, toLe_length, List.length_replicate]
  rfl

/-- Command `t` arrives and its handler runs through `handler` and returns. -/
def order (t : CommandType) (handler : List Event) : List Event :=
  receive (plainArgs t) ++ .main (.jump (.handle commandConn (plainArgs t))) ::
    handler ++ [.main (.jump (.loop commandConn (plainArgs t)))]

/-- `start`, when `*sending` is 0. -/
def startEvents : List Event :=
  [mainCall .lockSender (), mainCall .sending false, mainCall (.setSending true) (), mainCall .unlockSender (),
    mainCall (.printf .startCommand) (), mainCall .createSender ()]

/-- `start`, when `*sending` is 1. -/
def refusedEvents : List Event :=
  [mainCall .lockSender (), mainCall .sending true, mainCall (.printf .alreadySending) ()]

def stopEvents : List Event :=
  [mainCall .lockSender (), mainCall (.setSending false) (), mainCall .unlockSender ()]

/-- KILL arrives and is served, and `run_server` returns. -/
def killOrder : List Event :=
  receive (plainArgs .kill) ++ .main (.jump (.handle commandConn (plainArgs .kill))) :: stopEvents ++
    [.main (.jump (.returned 0))]

/-- A config that forwards no device. -/
def emptyConfig : Config := ⟨[], 0, [], 0⟩

/-- Sender `i` with `emptyConfig` connects and gets to its loop. -/
def joinEvents (i : Nat) : List Event :=
  [senderCall i .socket (3 : Int), senderCall i .lock (), senderCall i .config emptyConfig,
    senderCall i (.inetPton []) (1 : Int), senderCall i (.connect 3 [] 0) (0 : Int), senderCall i .unlock (),
    senderCall i .config emptyConfig, senderCall i .lock (), senderCall i .config emptyConfig,
    senderCall i .unlock (), senderCall i (.sendConn 3 ⟨.inputStream, 0, NewConnection.noNames⟩) (520 : Int),
    senderCall i .createLock (), .sender i (.jump (.loop ⟨3, []⟩))]

/-- Sender `i` gets no socket. -/
def failEvents (i : Nat) : List Event := [senderCall i .socket (-1 : Int), .sender i (.jump .exited)]

/-- Sender `i`, with no device, finds the flag at 0 after a round and leaves its loop. -/
def leaveEvents (i : Nat) : List Event :=
  [senderCall i .lock (), senderCall i .config emptyConfig, senderCall i .unlock (),
    .sender i (.jump (.round ⟨3, []⟩ 0)), senderCall i (.poll []) ⟨0, []⟩,
    .sender i (.jump (.check ⟨3, []⟩ true)), senderCall i .lock (), senderCall i .sending false,
    senderCall i .unlock (), .sender i (.jump (.leave ⟨3, []⟩))]

/-- A config that forwards one device. -/
def padConfig : Config := ⟨[], 0, [[112]], 1⟩

/-- Sender `i` with `padConfig` connects and gets to its loop. -/
def joinPad (i : Nat) : List Event :=
  [senderCall i .socket (3 : Int), senderCall i .lock (), senderCall i .config padConfig,
    senderCall i (.inetPton []) (1 : Int), senderCall i (.connect 3 [] 0) (0 : Int), senderCall i .unlock (),
    senderCall i .config padConfig, senderCall i .lock (), senderCall i .config padConfig,
    senderCall i (.openDevice [112]) (5 : Int), senderCall i .unlock (),
    senderCall i (.sendConn 3 (.copyName ⟨.inputStream, 1, NewConnection.noNames⟩ 0 [112])) (520 : Int),
    senderCall i .createLock (), .sender i (.jump (.loop ⟨3, [5]⟩))]

/-- Sender `i` forwards the event `ev` of its device in a round, and reads the flag as `b`. -/
def padRound (i : Nat) (ev : InputEvent) (b : Bool) : List Event :=
  [senderCall i .lock (), senderCall i .config padConfig, senderCall i .unlock (),
    .sender i (.jump (.round ⟨3, [5]⟩ 1)), senderCall i (.poll [5]) ⟨1, [true]⟩,
    senderCall i (.read 0 5) (received ev.bytes), senderCall i (.send 3 ⟨0, ev⟩) (32 : Int),
    .sender i (.jump (.check ⟨3, [5]⟩ true)), senderCall i .lock (), senderCall i .sending b, senderCall i .unlock ()]

/-- The peer of listener `m` disconnects. -/
def leaveInput (m : Nat) : List Event :=
  [.listener m (.did .read (received [])), .listener m (.did .lock ()), .listener m (.did .clearConnection ()),
    .listener m (.did .unlock ()), .listener m (.jump .exited)]

end Daemon

end IOSwitch
