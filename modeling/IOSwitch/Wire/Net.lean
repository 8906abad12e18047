import IOSwitch.Daemon.Step
import IOSwitch.Wire.Lobby
import IOSwitch.Wire.Segment
import IOSwitch.Wire.Sending

/-!
# `Wire.Net` — a daemon and the senders connected to it

The daemon of the receiving machine, with all its threads, and any number of peers: sender threads on other
machines, each with its host and its connection. A connection is the list of the messages sent on it and the
number of those received. The `j`-th peer's connection is accepted as descriptor `j`; descriptors from there on
are those of other clients, which may send anything but the opening of an input stream.

The platform is taken to be kind: `connect`, `open` and uinput succeed, and one call carries one whole message
(`Host.effect`, `deliver`). Reads from a device, sends and receives may fail at any time, and a listener may
find its connection closed.
-/

namespace IOSwitch

open Lib

/-- A sender on another machine and its connection: whether the daemon has accepted it, and how many of the
    messages sent it has received. -/
structure Peer extends Host where
  config   : SenderConfig
  thread   : Thread senderI SenderLoc
  accepted : Bool
  received : Nat

namespace Peer

/-- A sender that has just been created. -/
def start (c : SenderConfig) : Peer where
  toHost   := .init
  config   := c
  thread   := .start spawnSenderThread .entry
  accepted := false
  received := 0

/-- The next message is received on the accepted connection, if it is `m`. -/
def take (p : Peer) (m : Bytes) : Option Peer :=
  if p.accepted ∧ p.sent[p.received]? = some m then some { p with received := p.received + 1 } else none

/-- The sender itself, whatever has become of its connection. -/
def sender (p : Peer) : Host × SenderConfig × Thread senderI SenderLoc := (p.toHost, p.config, p.thread)

theorem sender_inj {p q : Peer} (h : p.sender = q.sender) :
    p.toHost = q.toHost ∧ p.config = q.config ∧ p.thread = q.thread := by
  simpa [sender] using h

/-- The packets the daemon has received. -/
def receivedPackets (p : Peer) : List InputPacket := ((p.sent.take p.received).drop 1).map InputPacket.ofMem

/-- The host after an action of the sender. -/
def act (p : Peer) : Act senderI SenderLoc → Option Host
  | .jump _  => some p.toHost
  | .did c r => p.toHost.effect p.config.toConfig c r

end Peer

structure Net where
  daemon : Daemon
  peers  : List Peer

inductive NetEvent where
  | daemon (e : Event)
  | peer (j : Nat) (a : Act senderI SenderLoc)

namespace Net

/-- The peer whose connection is descriptor `fd`. -/
def peerAt (peers : List Peer) (fd : Int) : Option Peer := if 0 ≤ fd then peers[fd.toNat]? else none

/-- The message `m` is received on descriptor `fd`. -/
def receive (peers : List Peer) (fd : Int) (m : Bytes) : Option (List Peer) :=
  (peerAt peers fd).bind fun p => (p.take m).map fun p' => peers.set fd.toNat p'

/-- What an event of the daemon makes of the connections, if the platform allows it. -/
def deliver (s : Daemon) (peers : List Peer) : Event → Option (List Peer)
  | .main (.did .accept fd) =>
      match peerAt peers fd with
      | some p => if p.connected ∧ ¬ p.accepted then some (peers.set fd.toNat { p with accepted := true }) else none
      | none   => some peers
  | .main (.did (.recvConn fd) r) =>
      if r.ret < 0 then some peers
      else if (peerAt peers fd).isSome then receive peers fd r.bytes
      else if r.bytes.length = NewConnection.size ∧ NewConnection.typeAt r.bytes ≠ .inputStream then some peers
      else none
  | .main (.did .openUinput fd) => if 0 ≤ fd then some peers else none
  | .listener i (.did .read r) =>
      if r.ret ≤ 0 then some peers
      else s.listeners[i]?.bind fun d => receive peers d.args.sockfd r.bytes
  | _ => some peers

/-- The net after an event, if the event is possible. -/
def exec (s : Net) : NetEvent → Option Net
  | .daemon e =>
      (s.daemon.exec e).bind fun d =>
      (deliver s.daemon s.peers e).map fun ps => ⟨d, ps⟩
  | .peer j a =>
      s.peers[j]?.bind fun p =>
      (p.thread.fire spawnSenderThread a).bind fun t =>
      (p.act a).map fun h => { s with peers := s.peers.set j { p with toHost := h, thread := t } }

/-- One step of the net. -/
def Step (s : Net) (e : NetEvent) (s' : Net) : Prop := s.exec e = some s'

/-- The daemon when `run_server` is called, and senders with the configs `cs` that have yet to begin. -/
def init (cfg : Config) (conn args : Bytes) (cs : List SenderConfig) : Net :=
  ⟨.init cfg conn args, cs.map Peer.start⟩

variable {s s' : Net}

/-! ## Inversion -/

theorem step_daemon {e : Event} (h : Step s (.daemon e) s') :
    Daemon.Step s.daemon e s'.daemon ∧ deliver s.daemon s.peers e = some s'.peers := by
  obtain ⟨d, hd, h⟩ := Option.bind_eq_some_iff.mp h
  obtain ⟨ps, hps, rfl⟩ := Option.map_eq_some_iff.mp h
  exact ⟨hd, hps⟩

theorem step_peer {j : Nat} {a : Act senderI SenderLoc} (h : Step s (.peer j a) s') :
    ∃ p t host, s.peers[j]? = some p ∧ p.thread.fire spawnSenderThread a = some t ∧ p.act a = some host ∧
      s' = { s with peers := s.peers.set j { p with toHost := host, thread := t } } := by
  obtain ⟨p, hp, h⟩ := Option.bind_eq_some_iff.mp h
  obtain ⟨t, ht, h⟩ := Option.bind_eq_some_iff.mp h
  obtain ⟨host, hhost, rfl⟩ := Option.map_eq_some_iff.mp h
  exact ⟨p, t, host, hp, ht, hhost, rfl⟩

theorem peerAt_eq {peers : List Peer} {fd : Int} {p : Peer} (h : peerAt peers fd = some p) :
    ∃ j : Nat, fd = j ∧ peers[j]? = some p := by
  unfold peerAt at h
  split at h
  · exact ⟨fd.toNat, (Int.toNat_of_nonneg ‹_›).symm, h⟩
  · cases h

@[simp] theorem peerAt_natCast (peers : List Peer) (j : Nat) : peerAt peers j = peers[j]? := by
  rw [peerAt, if_pos (Int.natCast_nonneg j), Int.toNat_natCast]

/-- A message received is the next one of the peer, which only counts it. -/
theorem receive_eq {peers peers' : List Peer} {fd : Int} {m : Bytes} (h : receive peers fd m = some peers') :
    ∃ (j : Nat) (p : Peer), fd = j ∧ peers[j]? = some p ∧ p.accepted = true ∧ p.sent[p.received]? = some m ∧
      peers' = peers.set j { p with received := p.received + 1 } := by
  obtain ⟨p, hp, h⟩ := Option.bind_eq_some_iff.mp h
  obtain ⟨j, rfl, hj⟩ := peerAt_eq hp
  obtain ⟨p', htake, rfl⟩ := Option.map_eq_some_iff.mp h
  unfold Peer.take at htake
  split at htake
  · next hnext =>
    obtain rfl := Option.some.inj htake
    exact ⟨j, p, rfl, hj, hnext.1, hnext.2, by rw [Int.toNat_natCast]⟩
  · cases htake

/-! ## The senders do not see the daemon -/

theorem receive_senders {ps ps' : List Peer} {fd : Int} {m : Bytes} (h : receive ps fd m = some ps') :
    ps'.map Peer.sender = ps.map Peer.sender := by
  obtain ⟨j, p, -, hp, -, -, rfl⟩ := receive_eq h
  exact map_set_same hp rfl

/-- No event of the daemon changes a sender. -/
theorem deliver_senders {d : Daemon} {ps ps' : List Peer} {e : Event} (h : deliver d ps e = some ps') :
    ps'.map Peer.sender = ps.map Peer.sender := by
  have hsame : some ps = some ps' → ps'.map Peer.sender = ps.map Peer.sender := fun heq => by rw [Option.some.inj heq]
  unfold deliver at h
  split at h
  · -- a connection is accepted
    next fd =>
    split at h
    · next p hp =>
      obtain ⟨j, rfl, hj⟩ := peerAt_eq hp
      split at h
      · obtain rfl := Option.some.inj h
        rw [Int.toNat_natCast]
        exact map_set_same hj rfl
      · cases h
    · exact hsame h
  · -- a first message is received
    split at h
    · exact hsame h
    split at h
    · exact receive_senders h
    split at h
    · exact hsame h
    · cases h
  · split at h
    · exact hsame h
    · cases h
  · -- a packet is received
    split at h
    · exact hsame h
    · obtain ⟨l, -, h⟩ := Option.bind_eq_some_iff.mp h
      exact receive_senders h
  · exact hsame h

/-- The sender of a peer after an event of the daemon is that of the peer before. -/
theorem deliver_sender {d : Daemon} {ps ps' : List Peer} {e : Event} (h : deliver d ps e = some ps') {j : Nat} {p' : Peer}
    (hp : ps'[j]? = some p') :
    ∃ p, ps[j]? = some p ∧ p'.toHost = p.toHost ∧ p'.config = p.config ∧ p'.thread = p.thread := by
  have hget := congrArg (·[j]?) (deliver_senders h)
  simp only [List.getElem?_map, hp, Option.map_some] at hget
  obtain ⟨p, hp, heq⟩ := Option.map_eq_some_iff.mp hget.symm
  exact ⟨p, hp, Peer.sender_inj heq.symm⟩

end Net

end IOSwitch
