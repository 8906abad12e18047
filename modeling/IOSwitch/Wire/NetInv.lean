import IOSwitch.Wire.Net

/-!
# `Wire.NetInv` — the invariant of the net

An event travels from the `i`-th file of a sender, through a packet with index `i`, to the `i`-th device of the
listener of that connection. `Net.Inv` ties the stations together: what a listener has written to a device is
what the packets it has received hold for it (`Served`), and those are the first of the packets sent. It is
kept by the steps of the peers (`inv_peer`) and by those of the daemon that concern neither connections nor
devices (`inv_quiet`); the others have modules of their own.

## Contents
- `owned`, `Net.args`, `Net.base` — which uinput devices belong to which listener.
- `Net.lobby` — what the main thread sees.
- `Net.PeerInv`, `Net.Served`, `Net.Inv`.
- `Net.inv_peer`, `Net.inv_quiet`.
-/

namespace IOSwitch

open Lib

/-! ## Which devices belong to which listener -/

/-- The number of devices of listeners with these arguments. -/
def owned (as : List ListenerArgs) : Nat := (as.map (·.devices.length)).sum

theorem owned_append (as bs : List ListenerArgs) : owned (as ++ bs) = owned as + owned bs := by
  rw [owned, List.map_append, List.sum_append]
  rfl

theorem owned_take_le (as : List ListenerArgs) {m n : Nat} (h : m ≤ n) : owned (as.take m) ≤ owned (as.take n) := by
  obtain ⟨rest, hrest⟩ := List.take_prefix_take_left (l := as) h
  rw [← hrest, owned_append]
  exact Nat.le_add_right _ _

/-- The devices of a listener lie before those of the listeners created later. -/
theorem owned_take_lt {as : List ListenerArgs} {m n i : Nat} {a : ListenerArgs} (ha : as[m]? = some a)
    (hi : i < a.devices.length) (h : m < n) : owned (as.take m) + i < owned (as.take n) := by
  have hstep : owned (as.take (m + 1)) = owned (as.take m) + a.devices.length := by
    obtain ⟨hlt, rfl⟩ := List.getElem?_eq_some_iff.mp ha
    rw [List.take_succ_eq_append_getElem hlt, owned_append]
    simp [owned]
  have hle := owned_take_le as (m := m + 1) h
  omega

namespace Net

variable {cs : List SenderConfig} {s s' : Net}

/-- The arguments of the listeners, in the order of their creation. -/
def args (s : Net) : List ListenerArgs := s.daemon.listeners.map (·.args)

/-- The first device of the `m`-th listener. -/
def base (s : Net) (m : Nat) : Nat := owned (s.args.take m)

theorem args_get {m : Nat} {d : ListenerThread} (hd : s.daemon.listeners[m]? = some d) : s.args[m]? = some d.args := by
  rw [args, List.getElem?_map, hd]
  rfl

theorem base_lt_owned {m i : Nat} {d : ListenerThread} (hd : s.daemon.listeners[m]? = some d)
    (hi : i < d.args.devices.length) : s.base m + i < owned s.args := by
  have hm : m < s.args.length := (List.getElem?_eq_some_iff.mp (args_get hd)).1
  have hlt := owned_take_lt (args_get hd) hi hm
  rwa [List.take_length] at hlt

/-- No device belongs to two listeners. -/
theorem base_ne {m n i k : Nat} {d e : ListenerThread} (hd : s.daemon.listeners[m]? = some d)
    (he : s.daemon.listeners[n]? = some e) (hi : i < d.args.devices.length) (hk : k < e.args.devices.length)
    (hne : m ≠ n) : s.base m + i ≠ s.base n + k := by
  have hbefore : ∀ {m n i k : Nat} {d : ListenerThread}, s.daemon.listeners[m]? = some d →
      i < d.args.devices.length → m < n → s.base m + i < s.base n + k := fun hd hi hlt =>
    Nat.lt_of_lt_of_le (owned_take_lt (args_get hd) hi hlt) (Nat.le_add_right _ _)
  rcases Nat.lt_or_gt_of_ne hne with hlt | hgt
  · exact (hbefore hd hi hlt).ne
  · exact (hbefore he hk hgt).ne'

/-! ## The invariant -/

/-- What the main thread sees. -/
def lobby (s : Net) : Lobby where
  greeted := s.peers.map fun p => decide (0 < p.received)
  sockets := s.args.map (·.sockfd)
  devices := s.daemon.uinput.map fun u => (u.name, u.created)
  owned   := owned s.args

theorem lobby_eq (hgreeted : s'.peers.map (fun p => decide (0 < p.received)) = s.peers.map fun p => decide (0 < p.received))
    (hargs : s'.args = s.args)
    (hdevs : s'.daemon.uinput.map (fun u => (u.name, u.created)) = s.daemon.uinput.map fun u => (u.name, u.created)) :
    s'.lobby = s.lobby := by
  rw [lobby, hgreeted, hargs, hdevs]
  rfl

/-- A peer keeps the discipline of a sender; nothing is received before the connection is accepted, and no more
    than was sent. -/
structure PeerInv (p : Peer) : Prop where
  ok    : p.thread.Ok (hostContract p.config) (SendingAt p.config) p.toHost
  fresh : p.accepted = false → p.received = 0
  bound : p.received ≤ p.sent.length

/-- The `m`-th listener, `d`, serves the `j`-th peer, `p`, and has made the calls `g`: it has the devices the
    peer asked for, it has read the packets received from the peer, and its writes went to these devices. -/
structure Served (s : Net) (m : Nat) (d : ListenerThread) (j : Nat) (p : Peer) (g : List (Sigma listenerI.Resp)) :
    Prop where
  peer     : s.peers[j]? = some p
  accepted : p.accepted = true
  greeted  : 0 < p.received
  args     : d.args = argsFor p.config j (s.base m) d.args.connection
  ok       : d.thread.Ok (Thread.history Wire.InStep) Wire.DecodingAt g
  heard    : Wire.decoded (g.flatMap Wire.readOf) = p.receivedPackets
  devices  : ∀ i < p.config.count, ∃ u, s.daemon.uinput[s.base m + i]? = some u ∧
    u.name = deviceName (p.config.name i) ∧ u.created = true ∧ u.log = eventsOf i (g.flatMap Wire.writeOf)

/-- The devices of the listeners exist, and those without a listener have not been written to. -/
def DevicesInv (n : Nat) (us : List UInputDev) : Prop :=
  n ≤ us.length ∧ ∀ (k : Nat) (u : UInputDev), n ≤ k → us[k]? = some u → u.log = []

/-- The configs of the peers are `cs`; the main thread and every peer keep their discipline; every listener
    serves a peer, no two the same; from a peer without a listener at most the first message was received. -/
structure Inv (cs : List SenderConfig) (s : Net) : Prop where
  configs  : s.peers.map (·.config) = cs
  peers    : ∀ p ∈ s.peers, PeerInv p
  main     : s.daemon.main.Ok (lobbyContract cs) AllOwned s.lobby
  served   : ∀ (m : Nat) (d : ListenerThread), s.daemon.listeners[m]? = some d → ∃ j p g, Served s m d j p g
  sockets  : (s.args.map (·.sockfd)).Nodup
  unserved : ∀ (j : Nat) (p : Peer), s.peers[j]? = some p → (j : Int) ∉ s.args.map (·.sockfd) → p.received ≤ 1
  devices  : DevicesInv (owned s.args) s.daemon.uinput

theorem Inv.init (cfg : Config) (conn args : Bytes) (cs : List SenderConfig) :
    Inv cs (Net.init cfg conn args cs) where
  configs := by
    rw [Net.init, List.map_map]
    exact List.map_id _
  peers p hp := by
    obtain ⟨c, -, rfl⟩ := List.mem_map.mp hp
    exact ⟨sending_verified c .entry _ ⟨rfl, rfl⟩, fun _ => rfl, Nat.zero_le _⟩
  main := lobby_verified cs (.entry conn args) _ rfl
  served m d hd := by simp [Net.init, Daemon.init] at hd
  sockets := List.nodup_nil
  unserved j p hp _ := by
    obtain ⟨c, -, rfl⟩ := List.mem_map.mp (List.mem_of_getElem? hp)
    exact Nat.zero_le 1
  devices := ⟨Nat.le_refl 0, fun k u _ hu => by simp [Net.init, Daemon.init] at hu⟩

namespace Served

variable {m j : Nat} {d : ListenerThread} {p : Peer} {g : List (Sigma listenerI.Resp)}

theorem sockfd (h : Served s m d j p g) : d.args.sockfd = j := by rw [h.args]; rfl

theorem devices_length (h : Served s m d j p g) : d.args.devices.length = p.config.count := by
  rw [h.args, argsFor, List.length_map, List.length_range]

/-- Its `i`-th device is the `i`-th one of its peer. -/
theorem device (h : Served s m d j p g) {i : Nat} (hi : i < p.config.count) :
    d.args.devices[i]? = some (deviceFor j (s.base m + i : Nat) (p.config.name i)) := by
  rw [h.args, argsFor, List.getElem?_map, List.getElem?_range hi]
  rfl

/-- A peer with a listener has sent its first message. -/
theorem forwards (h : Served s m d j p g) (hpi : PeerInv p) : Forwards p.config p.toHost := by
  refine (sound_of_ok hpi.ok).resolve_left fun hnone => ?_
  have hbound := hpi.bound
  rw [hnone] at hbound
  exact Nat.not_lt_zero _ (Nat.lt_of_lt_of_le h.greeted hbound)

/-- What a listener is served by may change, as long as its peer's messages received and its devices do not. -/
theorem frame (h : Served s m d j p g) {p' : Peer} (hpeer : s'.peers[j]? = some p') (hconfig : p'.config = p.config)
    (haccepted : p'.accepted = true) (hreceived : p'.received = p.received)
    (hpackets : p'.receivedPackets = p.receivedPackets) (hbase : s'.base m = s.base m)
    (hdevs : ∀ i < p.config.count, s'.daemon.uinput[s.base m + i]? = s.daemon.uinput[s.base m + i]?) :
    Served s' m d j p' g where
  peer := hpeer
  accepted := haccepted
  greeted := by rw [hreceived]; exact h.greeted
  args := by rw [hconfig, hbase]; exact h.args
  ok := h.ok
  heard := by rw [hpackets]; exact h.heard
  devices i hi := by
    rw [hconfig] at hi ⊢
    rw [hbase, hdevs i hi]
    exact h.devices i hi

end Served

/-! ## Steps of the peers -/

/-- A peer only adds to what it has sent. -/
theorem act_sent {p : Peer} {a : Act senderI SenderLoc} {host : Host} (h : p.act a = some host) :
    p.sent <+: host.sent := by
  cases a with
  | jump l => cases h; exact List.prefix_refl _
  | did c r =>
      have hsend : ∀ {fd ret : Int} {m : Bytes}, p.toHost.sendMessage fd m ret = some host → p.sent <+: host.sent := by
        intro fd ret m hs
        rcases Host.sendMessage_eq hs with ⟨-, rfl⟩ | ⟨-, rfl⟩
        · exact List.prefix_refl _
        · exact List.prefix_append _ _
      cases c with
      | sendConn fd conn => exact hsend h
      | send fd packet => exact hsend h
      | read i fd =>
          rcases Host.effect_read (c := p.config.toConfig) h with ⟨-, rfl⟩ | ⟨e, -, -, rfl⟩ <;> exact List.prefix_refl _
      | config | connect _ _ _ | openDevice _ =>
          simp only [Peer.act, Host.effect] at h
          split at h
          · cases h; exact List.prefix_refl _
          · cases h
      | _ => cases h; exact List.prefix_refl _

/-- **Step lemma**, for a step of a peer. -/
theorem inv_peer {j : Nat} {a : Act senderI SenderLoc} (hinv : Inv cs s) (h : Step s (.peer j a) s') : Inv cs s' := by
  obtain ⟨p, t, host, hp, hf, hact, rfl⟩ := step_peer h
  have hpi := hinv.peers p (List.mem_of_getElem? hp)
  have hsent := act_sent hact
  have hpackets : Peer.receivedPackets { p with toHost := host, thread := t } = p.receivedPackets := by
    rw [Peer.receivedPackets, take_of_prefix hsent hpi.bound]
    rfl
  constructor
  · rw [← hinv.configs]
    exact map_set_same hp rfl
  · intro q hq
    rcases List.mem_or_eq_of_mem_set hq with hq | rfl
    · exact hinv.peers q hq
    · refine ⟨?_, hpi.fresh, hpi.bound.trans hsent.length_le⟩
      cases a with
      | jump l =>
          obtain rfl : p.toHost = host := Option.some.inj hact
          exact hpi.ok.jump (sending_verified p.config) hf
      | did c r => exact hpi.ok.did hf hact
  · -- the main thread sees nothing of it
    have hlobby : lobby ⟨s.daemon, s.peers.set j { p with toHost := host, thread := t }⟩ = s.lobby :=
      lobby_eq (map_set_same hp rfl) rfl rfl
    rw [hlobby]
    exact hinv.main
  · intro m d hd
    obtain ⟨i, q, g, hs⟩ := hinv.served m d hd
    -- the listener that serves this peer: it has received what it had received before
    by_cases hij : i = j
    · subst hij
      obtain rfl : p = q := Option.some.inj (hp.symm.trans hs.peer)
      have hlt : i < s.peers.length := (List.getElem?_eq_some_iff.mp hp).1
      exact ⟨i, _, g, hs.frame (List.getElem?_set_self hlt) rfl hs.accepted rfl hpackets rfl fun _ _ => rfl⟩
    · exact ⟨i, q, g, hs.frame ((List.getElem?_set_ne (Ne.symm hij)).trans hs.peer) rfl hs.accepted rfl rfl rfl
        fun _ _ => rfl⟩
  · exact hinv.sockets
  · intro i q hq hnot
    rcases getElem?_set_cases hq with ⟨rfl, rfl⟩ | ⟨-, hq⟩
    · exact hinv.unserved i p hp hnot
    · exact hinv.unserved i q hq hnot
  · exact hinv.devices

/-! ## Steps of the daemon that concern neither connections nor devices -/

/-- The arguments of the listener that an event creates. -/
def newArgs : Event → List ListenerArgs
  | .main a => (Daemon.newListeners a).map (·.args)
  | _       => []

theorem args_step {e : Event} (h : Daemon.Step s.daemon e s'.daemon) : s'.args = s.args ++ newArgs e := by
  rw [args, args]
  cases e with
  | main a =>
      obtain ⟨t, sh, -, -, hs⟩ := Daemon.step_main h
      rw [hs]
      exact List.map_append
  | sender i a =>
      obtain ⟨d, t, sh, -, -, -, hs⟩ := Daemon.step_sender h
      rw [hs]
      exact (List.append_nil _).symm
  | listener i a =>
      obtain ⟨d, t, sh, hd, -, -, hs⟩ := Daemon.step_listener h
      rw [hs]
      show (s.daemon.listeners.set i { d with thread := t }).map (·.args) = _ ++ []
      rw [List.append_nil]
      exact map_set_same hd rfl
  | locker i a =>
      obtain ⟨d, t, sh, -, -, -, hs⟩ := Daemon.step_locker h
      rw [hs]
      exact (List.append_nil _).symm

/-- Only `createListener` adds a listener. -/
theorem args_call {c : ServerCall} {r : c.Resp} (h : Daemon.Step s.daemon (.main (.did c r)) s'.daemon)
    (hc : ∀ slot args, c ≠ .createListener slot args) : s'.args = s.args := by
  rw [args_step h]
  cases c with
  | createListener slot args => exact absurd rfl (hc slot args)
  | _ => exact List.append_nil _

/-- A listener created before keeps its first device. -/
theorem base_step {e : Event} (h : Daemon.Step s.daemon e s'.daemon) {m : Nat} {d : ListenerThread}
    (hd : s.daemon.listeners[m]? = some d) : s'.base m = s.base m := by
  have hm : m ≤ s.args.length := (List.getElem?_eq_some_iff.mp (args_get hd)).1.le
  rw [base, args_step h, List.take_append_of_le_length hm]
  rfl

/-- Neither a call of the main thread nor one of a listener. -/
def Quiet (e : Event) : Prop := (∀ c r, e ≠ .main (.did c r)) ∧ ∀ i c r, e ≠ .listener i (.did c r)

theorem quiet_frame {e : Event} (he : Quiet e) (h : Step s (.daemon e) s') :
    s'.peers = s.peers ∧ s'.args = s.args ∧ s'.daemon.uinput = s.daemon.uinput := by
  obtain ⟨hd, hdel⟩ := step_daemon h
  have hargs := args_step hd
  cases e with
  | main a =>
      cases a with
      | jump l =>
          rw [Daemon.shared_main_jump hd]
          exact ⟨(Option.some.inj hdel).symm, hargs.trans (List.append_nil _), rfl⟩
      | did c r => exact absurd rfl (he.1 c r)
  | sender i a =>
      rw [Daemon.shared_sender hd]
      exact ⟨(Option.some.inj hdel).symm, hargs.trans (List.append_nil _), rfl⟩
  | listener i a =>
      cases a with
      | jump l =>
          obtain ⟨d, t, sh, -, -, hsh, hs⟩ := Daemon.step_listener hd
          obtain rfl : s.daemon.toShared = sh := Option.some.inj hsh
          rw [hs]
          exact ⟨(Option.some.inj hdel).symm, hargs.trans (List.append_nil _), rfl⟩
      | did c r => exact absurd rfl (he.2 i c r)
  | locker i a =>
      rw [Daemon.shared_locker hd]
      exact ⟨(Option.some.inj hdel).symm, hargs.trans (List.append_nil _), rfl⟩

theorem inv_quiet {e : Event} (he : Quiet e) (hinv : Inv cs s) (h : Step s (.daemon e) s') : Inv cs s' := by
  obtain ⟨hpeers, hargs, huinput⟩ := quiet_frame he h
  have hd := (step_daemon h).1
  have hlobby : s'.lobby = s.lobby := lobby_eq (by rw [hpeers]) hargs (by rw [huinput])
  constructor
  · rw [hpeers]; exact hinv.configs
  · rw [hpeers]; exact hinv.peers
  · rw [hlobby]
    exact Daemon.mainOk_step hd hinv.main (fun l _ hl => lobby_verified cs l _ hl)
      (fun c r hcall => absurd hcall (he.1 c r)) fun _ => rfl
  · intro m d' hd'
    rcases Daemon.listener_cases hd hd' with ⟨hold, -⟩ | ⟨a, d, rfl, hold, -, hsame, hf⟩ | ⟨-, slot, args, rfl, -⟩
    · obtain ⟨j, p, g, hs⟩ := hinv.served m d' hold
      exact ⟨j, p, g, hs.frame (by rw [hpeers]; exact hs.peer) rfl hs.accepted rfl rfl (base_step hd hold)
        fun _ _ => by rw [huinput]⟩
    · obtain ⟨j, p, g, hs⟩ := hinv.served m d hold
      cases a with
      | jump l =>
          -- a jump of a listener adds neither a read nor a write
          have hs' : Served s m d' j p g :=
            { hs with
              args := by rw [hsame]; exact hs.args
              ok := hs.ok.jump Wire.spawnListenerThread_decoding hf }
          exact ⟨j, p, g, hs'.frame (by rw [hpeers]; exact hs.peer) rfl hs.accepted rfl rfl (base_step hd hold)
            fun _ _ => by rw [huinput]⟩
      | did c r => exact absurd rfl (he.2 m c r)
    · exact absurd rfl (he.1 _ _)
  · rw [hargs]; exact hinv.sockets
  · rw [hargs, hpeers]; exact hinv.unserved
  · rw [hargs, huinput]; exact hinv.devices

end Net

end IOSwitch
