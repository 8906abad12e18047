import IOSwitch.Wire.Accounts

/-!
# `Wire.Flush` — nothing that was read is stuck

`served_log` says where the events are that have been read and not yet written; `flushes` says that they can all be
written. Wherever the threads stand, the sender needs one step at most to put the packet in its hand on the connection,
and the listener can read what is on the connection and write it, whatever the other threads do. It waits for nobody
there: it takes the mutex only when it leaves its loop.

## Contents
- `Reading` — where a listener stands that has not found its connection closed (`reading_run`).
- `Net.Flow` — a listener and what is left for it to read; its steps (`Flow.ready`, `Flow.next`) and its run (`Flow.drain`).
- `Net.hand_sent` — the step of the sender.
- `Net.flushes`.
-/

namespace IOSwitch

open Lib Server

/-! ## A listener in its loop -/

/-- The listener is about to go round its loop, to read, or to write. -/
def Reading (t : Thread listenerI ListenerLoc) : Prop := ∃ packet,
  t.rest = .ret (.loop packet) ∨ t.rest = spawnListenerThread (.loop packet) ∨
    ∃ devId ie, t.rest = .call (.write devId ie) fun _ => .ret (.loop packet)

/-- A read that brings something leaves the listener in its loop. -/
theorem handleRead_reading {l : ListenerLoc} {packet : Bytes} {r : ReadResult InputPacket.size} (hr : 0 < r.ret) :
    Reading ⟨l, Listener.handleRead packet r⟩ := by
  refine ⟨overlay packet r.bytes, ?_⟩
  by_cases hwhole : r.ret = InputPacket.size
  · refine Or.inr (Or.inr ⟨(InputPacket.ofMem (overlay packet r.bytes)).devId,
      (InputPacket.ofMem (overlay packet r.bytes)).ie, ?_⟩)
    simp only [Listener.handleRead, if_pos hwhole]
    rfl
  · refine Or.inl ?_
    simp only [Listener.handleRead, if_neg hwhole, if_neg (Int.not_le.mpr hr)]
    rfl

theorem reading_fire {t t' : Thread listenerI ListenerLoc} {a : Act listenerI ListenerLoc} (ht : Reading t)
    (hf : t.fire spawnListenerThread a = some t') (hopen : ∀ r, a = .did .read r → 0 < r.ret) : Reading t' := by
  obtain ⟨packet, hret | hread | ⟨devId, ie, hwrite⟩⟩ := ht
  · -- round the loop
    cases a with
    | jump l =>
        have hrest := Thread.jump_rest hf
        obtain rfl := Thread.jump_start hf
        obtain rfl : ListenerLoc.loop packet = l := Prog.ret.inj (hret.symm.trans hrest)
        exact ⟨packet, Or.inr (Or.inl rfl)⟩
    | did c r => exact absurd hret (Thread.did_rest hf _)
  · cases a with
    | jump l =>
        rw [Thread.jump_rest hf] at hread
        cases hread
    | did c r =>
        obtain ⟨k, hrest, rfl⟩ := (Thread.fire_did (I := listenerI)).mp hf
        rw [hread] at hrest
        cases hrest
        exact handleRead_reading (hopen r rfl)
  · cases a with
    | jump l =>
        rw [Thread.jump_rest hf] at hwrite
        cases hwrite
    | did c r =>
        obtain ⟨k, hrest, rfl⟩ := (Thread.fire_did (I := listenerI)).mp hf
        rw [hwrite] at hrest
        cases hrest
        exact ⟨packet, Or.inl rfl⟩

namespace Net

variable {cs : List SenderConfig} {s s' : Net} {e : NetEvent} {tr : List NetEvent} {m j n : Nat}

/-- The `m`-th listener has not found its connection closed. -/
def Open (m : Nat) (tr : List NetEvent) : Prop :=
  ∀ r : ReadResult InputPacket.size, NetEvent.daemon (.listener m (.did .read r)) ∈ tr → 0 < r.ret

theorem reading_run {cfg : Config} {conn args : Bytes} (h : Run Step (Net.init cfg conn args cs) tr s)
    {d : ListenerThread} (hd : s.daemon.listeners[m]? = some d) (hopen : Open m tr) : Reading d.thread := by
  have hall : ∀ d, s.daemon.listeners[m]? = some d → Open m tr → Reading d.thread := by
    refine h.history (I := fun tr s => ∀ d, s.daemon.listeners[m]? = some d → Open m tr → Reading d.thread) ?_ ?_
    · intro d hd
      simp [Net.init, Daemon.init] at hd
    · intro tr s e s' ih hstep d' hd' hopen
      have hbefore : Open m tr := fun r hr => hopen r (List.mem_append_left _ hr)
      cases e with
      | peer i a =>
          obtain ⟨p, t, host, -, -, -, rfl⟩ := step_peer hstep
          exact ih d' hd' hbefore
      | daemon e =>
          rcases Daemon.listener_cases (step_daemon hstep).1 hd' with
            ⟨hold, -⟩ | ⟨a, d, rfl, hold, -, -, hf⟩ | ⟨-, slot, args, -, rfl⟩
          · exact ih d' hold hbefore
          · refine reading_fire (ih d hold hbefore) hf ?_
            rintro r rfl
            exact hopen r (List.mem_append_right _ List.mem_cons_self)
          · exact ⟨_, Or.inr (Or.inl rfl)⟩
  exact hall d hd hopen

/-! ## What is left to read -/

/-- Listener `m`, with these arguments, is in its loop, and reads what the sender of the `j`-th peer has sent: `n`
    messages more. -/
structure Flow (cs : List SenderConfig) (m j : Nat) (args : ListenerArgs)
    (sender : Host × SenderConfig × Thread senderI SenderLoc) (n : Nat) (s : Net) : Prop where
  inv      : Inv cs s
  alive    : s.daemon.exited = false
  listener : ∃ d, s.daemon.listeners[m]? = some d ∧ d.args = args ∧ Reading d.thread
  socket   : args.sockfd = j
  peer     : ∃ p, s.peers[j]? = some p ∧ p.sender = sender ∧ p.sent.length = p.received + n

/-- An event of listener `m`. -/
def OfListener (m : Nat) (e : NetEvent) : Prop := ∃ a, e = .daemon (.listener m a)

/-- A step of a listener that the connections allow. -/
theorem listener_possible (hx : s.daemon.exited = false) {a : Act listenerI ListenerLoc} {d : ListenerThread}
    {th : Thread listenerI ListenerLoc} {sh : Shared} {ps : List Peer} (hd : s.daemon.listeners[m]? = some d)
    (hf : d.thread.fire spawnListenerThread a = some th)
    (hsh : Daemon.effectOf s.daemon.toShared (s.daemon.listenerEffect m d.args) a = some sh)
    (hps : deliver s.daemon s.peers (.listener m a) = some ps) :
    Step s (.daemon (.listener m a))
      ⟨{ s.daemon with toShared := sh, listeners := s.daemon.listeners.set m { d with thread := th } }, ps⟩ := by
  have hstep : s.daemon.exec (.listener m a) = _ := Daemon.listener_possible hx hd hf hsh
  simp only [Step, exec, hstep, hps, Option.bind_some, Option.map_some]

/-- A step of a sender that its host allows. -/
theorem peer_possible {a : Act senderI SenderLoc} {p : Peer} {t : Thread senderI SenderLoc} {host : Host}
    (hp : s.peers[j]? = some p) (hf : p.thread.fire spawnSenderThread a = some t) (hact : p.act a = some host) :
    Step s (.peer j a) { s with peers := s.peers.set j { p with toHost := host, thread := t } } := by
  simp only [Step, exec, hp, hf, hact, Option.bind_some, Option.map_some]

/-- The packet in a listener's hand is for one of its devices. -/
theorem device_of_held {d : ListenerThread} {p : Peer} {g : List (Sigma listenerI.Resp)} (hs : Served s m d j p g)
    (hpi : PeerInv p) {devId : BitVec 32} {ie : InputEvent} {k : Unit → Prog listenerI ListenerLoc}
    (hrest : d.thread.rest = .call (.write devId ie) k) : ∃ dev, Shared.deviceAt d.args devId = some dev := by
  have hpre : Wire.InStep g (.write devId ie) := (hs.ok.of_call hrest).1
  have hmem : (⟨devId, ie⟩ : InputPacket) ∈ p.receivedPackets := by
    rw [← hs.heard, ← show _ = Wire.decoded (g.flatMap Wire.readOf) from hpre]
    exact List.mem_append_right _ List.mem_cons_self
  have hlt := (hs.forwards hpi).indexed _ ((receivedPackets_sent p).subset hmem)
  have hfew : p.config.count ≤ 8 := p.config.few
  have hint : devId.toInt = devId.toNat := BitVec.toInt_eq_toNat_of_lt (by simp only at hlt; omega)
  have hlen : devId.toNat < d.args.devices.length := by rw [hs.devices_length]; exact hlt
  refine ⟨d.args.devices[devId.toNat], ?_⟩
  rw [Shared.deviceAt, hint, if_pos (Int.natCast_nonneg _), Int.toNat_natCast]
  exact List.getElem?_eq_getElem hlen

namespace Flow

variable {args : ListenerArgs} {sender : Host × SenderConfig × Thread senderI SenderLoc}

/-- The flow after a step of the listener that left it in its loop. -/
theorem after (hflow : Flow cs m j args sender n s) {a : Act listenerI ListenerLoc} {d : ListenerThread}
    {th : Thread listenerI ListenerLoc} {sh : Shared} {ps : List Peer} {n' : Nat}
    (hd : s.daemon.listeners[m]? = some d) (hargs : d.args = args)
    (hstep : Step s (.daemon (.listener m a))
      ⟨{ s.daemon with toShared := sh, listeners := s.daemon.listeners.set m { d with thread := th } }, ps⟩)
    (hreading : Reading th) (hpeer : ∃ p, ps[j]? = some p ∧ p.sender = sender ∧ p.sent.length = p.received + n') :
    Flow cs m j args sender n'
      ⟨{ s.daemon with toShared := sh, listeners := s.daemon.listeners.set m { d with thread := th } }, ps⟩ where
  inv := inv_step hflow.inv hstep
  alive := hflow.alive
  listener :=
    ⟨{ d with thread := th }, List.getElem?_set_self (List.getElem?_eq_some_iff.mp hd).1, hargs, hreading⟩
  socket := hflow.socket
  peer := hpeer

/-- The listener at its `read`. -/
def AtRead (m : Nat) (s : Net) : Prop :=
  ∃ d packet, s.daemon.listeners[m]? = some d ∧ d.thread.rest = spawnListenerThread (.loop packet)

/-- A listener at the end of its block goes to its `read`. -/
theorem loops (hflow : Flow cs m j args sender n s) {d : ListenerThread} {packet : Bytes}
    (hd : s.daemon.listeners[m]? = some d) (hrest : d.thread.rest = .ret (.loop packet)) :
    ∃ e s', Step s e s' ∧ OfListener m e ∧ Flow cs m j args sender n s' ∧ AtRead m s' := by
  obtain ⟨d', hd', hargs, -⟩ := hflow.listener
  obtain rfl : d = d' := Option.some.inj (hd.symm.trans hd')
  have hf : d.thread.fire spawnListenerThread (.jump (.loop packet)) = some (.start spawnListenerThread (.loop packet)) :=
    (Thread.fire_jump (I := listenerI)).mpr ⟨hrest, rfl⟩
  have hsame : deliver s.daemon s.peers (.listener m (.jump (.loop packet))) = some s.peers := rfl
  have hstep := listener_possible hflow.alive hd hf rfl hsame
  refine ⟨_, _, hstep, ⟨_, rfl⟩, hflow.after hd hargs hstep ⟨packet, Or.inr (Or.inl rfl)⟩ hflow.peer, ?_⟩
  exact ⟨_, packet, List.getElem?_set_self (List.getElem?_eq_some_iff.mp hd).1, rfl⟩

/-- **The listener comes to its `read`**, wherever it is in its loop. -/
theorem ready (hflow : Flow cs m j args sender n s) :
    ∃ tr s', Run Step s tr s' ∧ (∀ e ∈ tr, OfListener m e) ∧ Flow cs m j args sender n s' ∧ AtRead m s' := by
  obtain ⟨d, hd, hargs, packet, hret | hread | ⟨devId, ie, hwrite⟩⟩ := hflow.listener
  · obtain ⟨e, s', hstep, he, hflow', hat⟩ := hflow.loops hd hret
    exact ⟨[e], s', Run.single hstep, by simpa using he, hflow', hat⟩
  · exact ⟨[], s, Run.nil, by simp, hflow, d, packet, hd, hread⟩
  · -- the write is possible, since the packet names a device
    obtain ⟨i, p, g, hs⟩ := hflow.inv.served m d hd
    obtain ⟨dev, hdev⟩ := device_of_held hs (hflow.inv.peers p (List.mem_of_getElem? hs.peer)) hwrite
    have hf : d.thread.fire spawnListenerThread (.did (.write devId ie) ()) = some ⟨d.thread.loc, .ret (.loop packet)⟩ :=
      (Thread.fire_did (I := listenerI)).mpr ⟨_, hwrite, rfl⟩
    have hsh : Daemon.effectOf s.daemon.toShared (s.daemon.listenerEffect m d.args)
        (.did (I := listenerI) (L := ListenerLoc) (.write devId ie) ()) =
          some { s.daemon.toShared with
            uinput := s.daemon.onDevice dev.devfd fun u => { u with log := u.log ++ [ie] } } := by
      show (Shared.deviceAt d.args devId).map _ = _
      rw [hdev]
      rfl
    have hsame : deliver s.daemon s.peers (.listener m (.did (.write devId ie) ())) = some s.peers := rfl
    have hstep := listener_possible hflow.alive hd hf hsh hsame
    have hflow' := hflow.after hd hargs hstep ⟨packet, Or.inl rfl⟩ hflow.peer
    have hd' := List.getElem?_set_self (a := { d with thread := ⟨d.thread.loc, .ret (.loop packet)⟩ })
      (List.getElem?_eq_some_iff.mp hd).1
    obtain ⟨e, s', hstep', he, hflow'', hat⟩ := hflow'.loops hd' rfl
    refine ⟨_, s', (Run.single hstep).snoc hstep', ?_, hflow'', hat⟩
    rintro e' (_ | ⟨_, _ | ⟨_, ⟨⟩⟩⟩)
    · exact ⟨_, rfl⟩
    · exact he

/-- **The listener reads the next message.** -/
theorem next (hflow : Flow cs m j args sender (n + 1) s) (hat : AtRead m s) :
    ∃ e s', Step s e s' ∧ OfListener m e ∧ Flow cs m j args sender n s' := by
  obtain ⟨d, packet, hd, hrest⟩ := hat
  obtain ⟨d', hd', hargs, -⟩ := hflow.listener
  obtain rfl : d = d' := Option.some.inj (hd.symm.trans hd')
  obtain ⟨p, hp, hsender, hleft⟩ := hflow.peer
  obtain ⟨i, q, g, hs⟩ := hflow.inv.served m d hd
  have hij : i = j := by
    have hsock := hs.sockfd
    rw [hargs, hflow.socket] at hsock
    exact (Int.natCast_inj.mp hsock).symm
  subst hij
  obtain rfl : p = q := Option.some.inj (hp.symm.trans hs.peer)
  have hlt : p.received < p.sent.length := by omega
  have hmsg : p.sent[p.received]? = some p.sent[p.received] := List.getElem?_eq_getElem hlt
  obtain ⟨hlen, -⟩ := receivedPackets_next (hflow.inv.peers p (List.mem_of_getElem? hp)) hs.greeted hmsg
  -- the answer of the read is the message, which is a packet
  let r : ReadResult InputPacket.size := .data p.sent[p.received] hlen.le
  have hpos : 0 < r.ret := by
    show (0 : Int) < (p.sent[p.received].length : Nat)
    rw [hlen]
    decide
  have hf : d.thread.fire spawnListenerThread (.did .read r) = some ⟨d.thread.loc, Listener.handleRead packet r⟩ :=
    (Thread.fire_did (I := listenerI)).mpr ⟨_, hrest, rfl⟩
  have htake : p.take p.sent[p.received] = some { p with received := p.received + 1 } :=
    if_pos ⟨hs.accepted, hmsg⟩
  have hdeliver : deliver s.daemon s.peers (.listener m (.did .read r)) =
      some (s.peers.set i { p with received := p.received + 1 }) := by
    show (if r.ret ≤ 0 then _ else _) = _
    rw [if_neg (Int.not_le.mpr hpos), hd, Option.bind_some, receive, hargs, hflow.socket, peerAt_natCast, hp,
      Option.bind_some, show r.bytes = p.sent[p.received] from rfl, htake, Int.toNat_natCast]
    rfl
  have hstep := listener_possible hflow.alive hd hf rfl hdeliver
  refine ⟨_, _, hstep, ⟨_, rfl⟩, hflow.after hd hargs hstep (handleRead_reading hpos) ?_⟩
  refine ⟨_, List.getElem?_set_self (List.getElem?_eq_some_iff.mp hp).1, hsender, ?_⟩
  show p.sent.length = p.received + 1 + n
  omega

/-- **The listener alone reads all there is to read**, and comes back to its `read`. -/
theorem drain (hflow : Flow cs m j args sender n s) :
    ∃ tr s', Run Step s tr s' ∧ (∀ e ∈ tr, OfListener m e) ∧ Flow cs m j args sender 0 s' ∧ AtRead m s' := by
  induction n generalizing s with
  | zero => exact hflow.ready
  | succ n ih =>
      obtain ⟨tr₁, s₁, hrun₁, hof₁, hflow₁, hat⟩ := hflow.ready
      obtain ⟨e, s₂, hstep, he, hflow₂⟩ := hflow₁.next hat
      obtain ⟨tr₃, s₃, hrun₃, hof₃, hdone⟩ := ih hflow₂
      refine ⟨tr₁ ++ e :: tr₃, s₃, hrun₁.append (Run.cons hstep hrun₃), ?_, hdone⟩
      intro e' he'
      rcases List.mem_append.mp he' with he' | he'
      · exact hof₁ e' he'
      · rcases List.mem_cons.mp he' with rfl | he'
        · exact he
        · exact hof₃ e' he'

end Flow

/-! ## The packet in the sender's hand -/

/-- A sender from whose events nothing is missing holds nothing. -/
theorem held_nil {t : Thread senderI SenderLoc} {h : Host} {lost : List InputPacket}
    (hall : ∀ i, eventsOf i (h.packets ++ Sender.held t ++ lost) = h.logOf i)
    (hsent : ∀ i, eventsOf i h.packets = h.logOf i) : Sender.held t = [] := by
  rw [List.eq_nil_iff_forall_not_mem]
  intro q hq
  have hlen := congrArg List.length (hall q.devId.toNat)
  rw [List.append_assoc, eventsOf_append, hsent, List.length_append, eventsOf_append, List.length_append] at hlen
  have hmem : q.ie ∈ eventsOf q.devId.toNat (Sender.held t) :=
    List.mem_map.mpr ⟨q, List.mem_filter.mpr ⟨hq, by simp⟩, rfl⟩
  have hpos := List.length_pos_of_mem hmem
  omega

/-- **The sender sends what it has in its hand**, in one step, and reads nothing. -/
theorem hand_sent (hledger : Ledger tr s) {p : Peer} (hp : s.peers[j]? = some p) :
    ∃ tr₁ s₁ p₁, Run Step s tr₁ s₁ ∧ tr₁.length ≤ 1 ∧ (∀ e ∈ tr₁, ∃ a, e = .peer j a) ∧ lost j tr₁ = [] ∧
      s₁.daemon = s.daemon ∧ s₁.peers[j]? = some p₁ ∧ p₁.config = p.config ∧ p₁.files = p.files ∧
      Sender.held p₁.thread = [] := by
  have hok := hledger j p hp
  by_cases hnone : Sender.held p.thread = []
  · exact ⟨[], s, p, Run.nil, Nat.zero_le 1, by simp, rfl, rfl, hp, rfl, rfl, hnone⟩
  obtain ⟨fd, packet, k, hrest⟩ : ∃ fd packet k, p.thread.rest = .call (SenderCall.send fd packet) k := by
    unfold Sender.held at hnone
    split at hnone
    · next fd packet hnext =>
      obtain ⟨k, hk⟩ := Prog.next_eq hnext
      exact ⟨fd, packet, k, hk⟩
    · exact absurd rfl hnone
  obtain ⟨rfl, hne, hlost, hall⟩ : LedgerAt p.toHost (lost j tr) (.send fd packet) := (hok.of_call hrest).1
  have hf : p.thread.fire spawnSenderThread (.did (.send p.socket packet) (InputPacket.size : Int)) =
      some ⟨p.thread.loc, k (InputPacket.size : Int)⟩ :=
    (Thread.fire_did (I := senderI)).mpr ⟨k, hrest, rfl⟩
  have hact : p.act (.did (.send p.socket packet) (InputPacket.size : Int)) = some (p.push packet.encode) := by
    show p.toHost.sendMessage p.socket packet.encode InputPacket.size = _
    rw [Host.sendMessage, if_neg (by decide), packet.encode_length, if_pos ⟨rfl, rfl⟩]
  let p₁ : Peer := { p with toHost := p.push packet.encode, thread := ⟨p.thread.loc, k (InputPacket.size : Int)⟩ }
  have hstep : Step s (.peer j (.did (.send p.socket packet) (InputPacket.size : Int)))
      { s with peers := s.peers.set j p₁ } := peer_possible hp hf hact
  have hp₁ : (s.peers.set j p₁)[j]? = some p₁ := List.getElem?_set_self (List.getElem?_eq_some_iff.mp hp).1
  refine ⟨_, _, p₁, Run.single hstep, Nat.le_refl 1, ?_, ?_, rfl, hp₁, rfl, rfl, ?_⟩
  · intro e he
    exact ⟨_, List.mem_singleton.mp he⟩
  · have hnot : ¬ (InputPacket.size : Int) < 0 := by decide
    rw [lost, List.flatMap_singleton, lostBy, if_pos rfl, lostIn, if_neg hnot]
  · -- what was missing has been sent
    obtain ⟨-, hall'⟩ := Sender.balanced_of_ok (ledger_step hledger hstep j _ hp₁)
    refine held_nil hall' fun i => ?_
    rw [Host.packets_push hne, Host.logOf_push]
    exact hall i

theorem lost_of_listener {m : Nat} (j : Nat) {tr : List NetEvent} (h : ∀ e ∈ tr, OfListener m e) : lost j tr = [] := by
  rw [lost, List.flatMap_eq_nil_iff]
  intro e he
  obtain ⟨a, rfl⟩ := h e he
  rfl

/-- A read of listener `m` brings something. -/
def brings (m : Nat) : NetEvent → Bool
  | .daemon (.listener i (.did .read r)) => i != m || decide (0 < r.ret)
  | _                                    => true

theorem open_of_brings (h : tr.all (brings m) = true) : Open m tr := by
  intro r hr
  have hb := List.all_eq_true.mp h _ hr
  simpa [brings] using hb

/-- Up to the `send` of the second event. -/
def handEvents : List NetEvent := lossEvents.dropLast

end Net

end IOSwitch
