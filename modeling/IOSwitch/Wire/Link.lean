import IOSwitch.Daemon.Drain
import IOSwitch.Wire.Accounts

/-!
# `Wire.Link` — two daemons, one of which controls the other's devices

The whole switch: the daemon of the machine at which the user sits, with its commands and its senders, and the daemon of
the machine that these are connected to. A `Link` puts a daemon (`Daemon.State`) and a net (`Wire.Net`) together: the
`j`-th sender of the one is the `j`-th peer of the other, and the two take its steps as one. Every run of the link is a
run of both (`home_run`, `net_run`), so that what is known of either holds here.

`stop_felt` is about both ends at once: once a STOP at home has lowered the flag, each of its senders sends as many
packets more as it has devices, at most, and the devices on the other side get no others.

## Contents
- `Net.Rounds` — the rounds of a peer are over the devices of its config.
- `Net.packets_step` — what a step of a peer adds to the packets sent.
- `Link`, `Link.Step`; `home_run`, `net_run` — its runs, and those of its parts.
- `Link.Tied` — a sender is in the same place on both sides.
- `Link.Since`, `since_run` — what a peer has sent since.
- `Link.stop_felt`.
-/

namespace IOSwitch

open Lib Server

/-! ## Rounds and packets of the peers -/

namespace Net

variable {cs : List SenderConfig} {s s' : Net} {tr : List NetEvent} {j : Nat}

/-- A peer in a round is in one over the devices of its config. -/
def Rounds (s : Net) : Prop := ∀ p ∈ s.peers, ∀ env k, p.thread.loc = .round env k → k = p.config.count

/-- A peer starts a round over the devices of its config. -/
theorem round_count (hinv : Inv cs s) {env : SenderEnv} {k : Nat} (h : Step s (.peer j (.jump (.round env k))) s')
    {p : Peer} (hp : s.peers[j]? = some p) : k = p.config.count := by
  obtain ⟨q, t, host, hq, hf, -, -⟩ := step_peer h
  obtain rfl : p = q := Option.some.inj (hp.symm.trans hq)
  exact ((hinv.peers p (List.mem_of_getElem? hp)).ok.label hf).2

theorem rounds_step {e : NetEvent} (hinv : Inv cs s) (hrounds : Rounds s) (h : Step s e s') : Rounds s' := by
  intro p' hmem env k hl
  obtain ⟨i, hp'⟩ := List.getElem?_of_mem hmem
  cases e with
  | daemon e =>
      obtain ⟨p, hp, -, hconfig, hthread⟩ := deliver_sender (step_daemon h).2 hp'
      rw [hconfig]
      exact hrounds p (List.mem_of_getElem? hp) env k (hthread ▸ hl)
  | peer j a =>
      have hstep := h
      obtain ⟨p, t, host, hp, hf, -, rfl⟩ := step_peer h
      rcases getElem?_set_cases hp' with ⟨rfl, rfl⟩ | ⟨-, hq⟩
      · cases a with
        | jump l =>
            obtain rfl := Thread.jump_start hf
            obtain rfl : l = .round env k := hl
            have hk : k = p.config.count := round_count hinv hstep hp
            exact hk
        | did c r =>
            have hloc : t.loc = .round env k := hl
            rw [Thread.did_loc hf] at hloc
            exact hrounds p (List.mem_of_getElem? hp) env k hloc
      · exact hrounds p' (List.mem_of_getElem? hq) env k hl

theorem rounds_run {cfg : Config} {conn args : Bytes} (h : Run Step (Net.init cfg conn args cs) tr s) : Rounds s := by
  have hall : Inv cs s ∧ Rounds s := by
    refine h.invariant (I := fun s => Inv cs s ∧ Rounds s) ⟨Inv.init cfg conn args cs, ?_⟩ ?_
    · intro p hp env k hl
      obtain ⟨c, -, rfl⟩ := List.mem_map.mp hp
      cases hl
    · rintro a e b ⟨hinv, hrounds⟩ hs
      exact ⟨inv_step hinv hs, rounds_step hinv hrounds hs⟩
  exact hall.2

/-- The packet that an action of a sender puts on its connection. -/
def sentBy : Act senderI SenderLoc → List InputPacket
  | .did (.send _ packet) r => if r < 0 then [] else [packet]
  | _                       => []

/-- Only a message changes what was sent. -/
theorem sent_act {p : Peer} {host : Host} {call : senderI.Call} {r : senderI.Resp call}
    (hpacket : ∀ fd packet, call ≠ .send fd packet) (hconn : ∀ fd conn, call ≠ .sendConn fd conn)
    (hact : p.act (.did call r) = some host) : host.sent = p.sent := by
  have he : p.toHost.effect p.config.toConfig call r = some host := hact
  cases call with
  | send fd packet => exact absurd rfl (hpacket fd packet)
  | sendConn fd conn => exact absurd rfl (hconn fd conn)
  | read i fd => rcases Host.effect_read he with ⟨-, rfl⟩ | ⟨e, -, -, rfl⟩ <;> rfl
  | openDevice _ | config | connect _ _ _ =>
      simp only [Host.effect] at he
      split at he
      · obtain rfl := Option.some.inj he
        rfl
      · cases he
  | _ =>
      obtain rfl := Option.some.inj he
      rfl

theorem packets_push_mem {h : Host} {m : Bytes} (hne : h.sent ≠ []) :
    (h.push m).packets = h.packets ++ [InputPacket.ofMem m] := by
  rw [Host.packets, Host.packets, Host.push, List.drop_append_of_le_length (List.length_pos_of_ne_nil hne), List.map_append]
  rfl

/-- **What a step of a peer adds to the packets** is the packet it sends. -/
theorem packets_step {a : Act senderI SenderLoc} (hledger : Ledger tr s) (h : Step s (.peer j a) s') {p p' : Peer}
    (hp : s.peers[j]? = some p) (hp' : s'.peers[j]? = some p') : p'.packets = p.packets ++ sentBy a := by
  have hledger' := ledger_step hledger h
  obtain ⟨q, t, host, hq, hf, hact, rfl⟩ := step_peer h
  obtain rfl : p = q := Option.some.inj (hp.symm.trans hq)
  have hlt : j < s.peers.length := (List.getElem?_eq_some_iff.mp hp).1
  obtain rfl : _ = p' := Option.some.inj ((List.getElem?_set_self hlt).symm.trans hp')
  show host.packets = _
  cases a with
  | jump l =>
      obtain rfl : p.toHost = host := Option.some.inj hact
      exact (List.append_nil _).symm
  | did call r =>
      have hpre : LedgerAt p.toHost (lost j tr) call := (hledger j p hp).pre hf
      cases call with
      | send fd packet =>
          obtain ⟨-, hne, -, -⟩ := hpre
          rcases Host.sendMessage_eq hact with ⟨hneg, rfl⟩ | ⟨hpos, rfl⟩
          · rw [sentBy, if_pos hneg, List.append_nil]
          · rw [sentBy, if_neg (Int.not_lt.mpr hpos)]
            exact Host.packets_push hne packet
      | sendConn fd conn =>
          have hb : Balanced p.toHost (lost j tr) := hpre
          rcases Host.sendMessage_eq hact with ⟨-, rfl⟩ | ⟨-, rfl⟩
          · exact (List.append_nil _).symm
          · by_cases hnone : p.sent = []
            · rw [Host.packets, Host.packets, Host.push, hnone]
              rfl
            · -- a second `NewConnection` would be a packet that was never read
              obtain ⟨-, hall⟩ := Sender.balanced_of_ok (hledger' j _ hp')
              have hlen := congrArg List.length (hall (InputPacket.ofMem conn.encode).devId.toNat)
              have hnothing : lostBy j (.peer j (.did (.sendConn fd conn) r)) = [] := if_pos rfl
              rw [lost_snoc, hnothing, List.append_nil, Host.logOf_push, ← hb.all, packets_push_mem hnone] at hlen
              simp only [eventsOf_append, eventsOf_single, if_pos, List.length_append, List.length_singleton] at hlen
              omega
      | _ =>
          rw [Host.packets, sent_act (by rintro _ _ ⟨⟩) (by rintro _ _ ⟨⟩) hact]
          exact (List.append_nil _).symm

/-- The steps of others leave a sender alone. -/
theorem peer_frame {e : NetEvent} (h : Step s e s') (hne : ∀ a, e ≠ .peer j a) {p : Peer} (hp : s.peers[j]? = some p) :
    ∃ p', s'.peers[j]? = some p' ∧ p'.toHost = p.toHost ∧ p'.config = p.config := by
  cases e with
  | daemon e =>
      have hget := congrArg (·[j]?) (deliver_senders (step_daemon h).2)
      simp only [List.getElem?_map, hp, Option.map_some] at hget
      obtain ⟨p', hp', heq⟩ := Option.map_eq_some_iff.mp hget
      obtain ⟨hhost, hconfig, -⟩ := Peer.sender_inj heq
      exact ⟨p', hp', hhost, hconfig⟩
  | peer i a =>
      obtain ⟨-, -, -, -, -, -, rfl⟩ := step_peer h
      exact ⟨p, (List.getElem?_set_ne fun hij => hne a (by rw [hij])).trans hp, rfl, rfl⟩

/-- What a listener has written to a device is the first of what its peer has sent of it. -/
theorem served_first {m i : Nat} {d : ListenerThread} {p : Peer} {g : List (Sigma listenerI.Resp)}
    (hs : Served s m d j p g) (hi : i < p.config.count) :
    ∃ (device : VirtualDevice) (u : UInputDev), d.args.devices[i]? = some device ∧
      s.daemon.uinput[device.devfd.toNat]? = some u ∧ u.log <+: eventsOf i p.packets := by
  obtain ⟨u, hu, -, -, hlog⟩ := hs.devices i hi
  refine ⟨_, u, hs.device hi, hu, ?_⟩
  calc u.log = eventsOf i (g.flatMap Wire.writeOf) := hlog
    _ <+: eventsOf i (Wire.decoded (g.flatMap Wire.readOf)) := eventsOf_prefix i (Wire.written_prefix hs.ok)
    _ = eventsOf i p.receivedPackets := by rw [hs.heard]
    _ <+: eventsOf i p.packets := eventsOf_prefix i (receivedPackets_sent p)

end Net

/-! ## Two daemons -/

/-- The daemon at home, and the net of its senders and the daemon away. -/
structure Link where
  home : Daemon
  away : Net

/-- An event of a thread at home, or of one away. -/
inductive LinkEvent where
  | home (e : Event)
  | away (e : Event)

namespace LinkEvent

/-- What the event is for the daemon at home. -/
def homeEvent : LinkEvent → Option Event
  | .home e => some e
  | .away _ => none

/-- What the event is for the net: the senders at home are its peers. -/
def netEvent : LinkEvent → Option NetEvent
  | .home (.sender j a) => some (.peer j a)
  | .home _             => none
  | .away e             => some (.daemon e)

end LinkEvent

namespace Link

/-- The link after an event: of both parts, if it concerns both. -/
def exec (s : Link) (e : LinkEvent) : Option Link :=
  (e.homeEvent.elim (some s.home) s.home.exec).bind fun home =>
  (e.netEvent.elim (some s.away) s.away.exec).map fun away => ⟨home, away⟩

/-- One step of the link. -/
def Step (s : Link) (e : LinkEvent) (s' : Link) : Prop := s.exec e = some s'

/-- Both daemons when `run_server` is called; the senders that home will create are to have the configs `cs`. -/
def init (home away : Config × Bytes × Bytes) (cs : List SenderConfig) : Link where
  home := .init home.1 home.2.1 home.2.2
  away := .init away.1 away.2.1 away.2.2 cs

variable {home away : Config × Bytes × Bytes} {cs : List SenderConfig} {s s' : Link} {e : LinkEvent}
  {tr : List LinkEvent}

theorem step_eq (h : Step s e s') :
    e.homeEvent.elim (some s.home) s.home.exec = some s'.home ∧
    e.netEvent.elim (some s.away) s.away.exec = some s'.away := by
  obtain ⟨d, hd, h⟩ := Option.bind_eq_some_iff.mp h
  obtain ⟨n, hn, rfl⟩ := Option.map_eq_some_iff.mp h
  exact ⟨hd, hn⟩

/-- What the daemon at home does in a run. -/
def homeOf (tr : List LinkEvent) : List Event := tr.filterMap LinkEvent.homeEvent

/-- **A run of the link is one of the daemon at home.** -/
theorem home_run (h : Run Step s tr s') : Run Daemon.Step s.home (homeOf tr) s'.home := by
  refine h.project (fun a e b hs he => ?_) fun a e b d hs he => ?_
  · have hhome := (step_eq hs).1
    rw [he] at hhome
    exact (Option.some.inj hhome).symm
  · have hhome := (step_eq hs).1
    rw [he] at hhome
    exact hhome

/-- **A run of the link is one of the net.** -/
theorem net_run (h : Run Step s tr s') : Run Net.Step s.away (tr.filterMap LinkEvent.netEvent) s'.away := by
  refine h.project (fun a e b hs he => ?_) fun a e b d hs he => ?_
  · have hnet := (step_eq hs).2
    rw [he] at hnet
    exact (Option.some.inj hnet).symm
  · have hnet := (step_eq hs).2
    rw [he] at hnet
    exact hnet

/-! ## A sender is in one place -/

/-- The thread of the `j`-th sender: before it is created, one that has yet to begin. -/
def senderThread (d : Daemon) (j : Nat) : Thread senderI SenderLoc :=
  (d.senders[j]?.map (·.thread)).getD (.start spawnSenderThread .entry)

/-- The peers of the net are the senders of the daemon at home. -/
def Tied (s : Link) : Prop := ∀ (j : Nat) (p : Peer), s.away.peers[j]? = some p → p.thread = senderThread s.home j

/-- A step at home that is not the sender's leaves it where it is. -/
theorem senderThread_other {d d' : Daemon} {e : Event} {j : Nat} (h : Daemon.Step d e d') (hne : ∀ a, e ≠ .sender j a) :
    senderThread d' j = senderThread d j := by
  cases hd' : d'.senders[j]? with
  | none =>
      have hlt := List.getElem?_eq_none_iff.mp hd'
      have hd : d.senders[j]? = none := List.getElem?_eq_none_iff.mpr (Nat.le_trans (Daemon.senders_length_le h) hlt)
      rw [senderThread, senderThread, hd', hd]
  | some t =>
      rcases Daemon.sender_cases h hd' with ⟨hd, -⟩ | ⟨a, _, rfl, -⟩ | ⟨rfl, -, rfl⟩
      · rw [senderThread, senderThread, hd', hd]
      · exact absurd rfl (hne a)
      · -- it has just been created
        have hd : d.senders[d.senders.length]? = none := List.getElem?_eq_none_iff.mpr (Nat.le_refl _)
        rw [senderThread, senderThread, hd', hd]
        rfl

/-- **Step lemma.** Either both take the step of a sender, or neither. -/
theorem tied_step (htied : Tied s) (h : Step s e s') : Tied s' := by
  obtain ⟨hhome, hnet⟩ := step_eq h
  intro j p' hp'
  cases e with
  | away e =>
      have hstep : Net.Step s.away (.daemon e) s'.away := hnet
      obtain ⟨p, hp, -, -, hthread⟩ := Net.deliver_sender (Net.step_daemon hstep).2 hp'
      rw [hthread, ← Option.some.inj hhome]
      exact htied j p hp
  | home e =>
      have hstep : Daemon.Step s.home e s'.home := hhome
      cases e with
      | sender i a =>
          obtain ⟨p, t, host, hp, hf, -, haway⟩ := Net.step_peer hnet
          rw [haway] at hp'
          rcases getElem?_set_cases hp' with ⟨rfl, rfl⟩ | ⟨hne, hq⟩
          · -- the same thread takes the same step
            obtain ⟨d, t', _, hd, hf', -, hdaemon⟩ := Daemon.step_sender hstep
            have hlt : j < s.home.senders.length := (List.getElem?_eq_some_iff.mp hd).1
            have hsame := htied j p hp
            rw [senderThread, hd] at hsame
            rw [hsame] at hf
            rw [hdaemon, senderThread, List.getElem?_set_self hlt]
            exact Option.some.inj (hf.symm.trans hf')
          · rw [senderThread_other hstep (by rintro b ⟨⟩; exact hne rfl)]
            exact htied j p' hq
      | _ =>
          rw [← Option.some.inj hnet] at hp'
          rw [senderThread_other hstep nofun]
          exact htied j p' hp'

theorem tied_run (h : Run Step (init home away cs) tr s) : Tied s := by
  refine h.invariant (fun j p hp => ?_) fun _ _ _ => tied_step
  obtain ⟨c, -, rfl⟩ := List.mem_map.mp (List.mem_of_getElem? hp)
  rfl

/-! ## After STOP -/

/-- At home no handler sets the flag to 1, and no config is reloaded. -/
def Quiet (_ : Link) (e : LinkEvent) : Prop := e.homeEvent.all Daemon.quiet = true

theorem home_quiet (h : Run (Restrict Quiet Step) s tr s') :
    Run (Restrict Daemon.Quiet Daemon.Step) s.home (homeOf tr) s'.home := by
  refine (home_run h.of_restrict).restrict fun e he _ => ?_
  obtain ⟨e', hmem, heq⟩ := List.mem_filterMap.mp he
  have hquiet : ∀ {tr s'}, Run (Restrict Quiet Step) s tr s' → ∀ e ∈ tr, e.homeEvent.all Daemon.quiet = true := by
    intro tr s' h
    induction h with
    | nil => exact fun _ he => absurd he List.not_mem_nil
    | snoc _ hs ih =>
        intro e he
        rcases List.mem_append.mp he with he | he
        · exact ih e he
        · rw [List.mem_singleton.mp he]
          exact hs.1
  have hall := hquiet h e' hmem
  rw [heq] at hall
  exact hall

/-- The steps of others leave a sender alone. -/
theorem away_frame (h : Step s e s') {j : Nat} (hne : ∀ a, e ≠ .home (.sender j a)) {p : Peer}
    (hp : s.away.peers[j]? = some p) :
    ∃ p', s'.away.peers[j]? = some p' ∧ p'.packets = p.packets ∧ p'.config = p.config := by
  obtain ⟨-, hnet⟩ := step_eq h
  cases he : e.netEvent with
  | none =>
      rw [he] at hnet
      exact ⟨p, by rw [← Option.some.inj hnet]; exact hp, rfl, rfl⟩
  | some n =>
      rw [he] at hnet
      have hother : ∀ a, n ≠ .peer j a := by
        rintro a rfl
        cases e with
        | away e => cases he
        | home e =>
            cases e with
            | sender i b =>
                cases he
                exact hne a rfl
            | _ => cases he
      obtain ⟨p', hp', hhost, hconfig⟩ := Net.peer_frame hnet hother hp
      exact ⟨p', hp', by rw [hhost], hconfig⟩

/-- What a peer has sent since a state in which it was `p`: packets, each of a round over its devices. -/
def Since (p : Peer) (j : Nat) (tr : List LinkEvent) (s : Link) : Prop :=
  ∃ (p' : Peer) (last : List InputPacket), s.away.peers[j]? = some p' ∧ p'.config = p.config ∧
    p'.packets = p.packets ++ last ∧ last.length ≤ Daemon.packetsOf j (homeOf tr) ∧
    ∀ k ∈ Daemon.roundsOf j (homeOf tr), k = p.config.count

theorem homeOf_snoc (tr : List LinkEvent) (e : LinkEvent) : homeOf (tr ++ [e]) = homeOf tr ++ e.homeEvent.toList := by
  rw [homeOf, List.filterMap_append, ← homeOf]
  cases h : e.homeEvent <;> simp [h]

/-- A step that is not the peer's counts for nothing. -/
theorem counts_snoc {j : Nat} (tr : List LinkEvent) (hne : ∀ a, e ≠ .home (.sender j a)) :
    Daemon.packetsOf j (homeOf (tr ++ [e])) = Daemon.packetsOf j (homeOf tr) ∧
    Daemon.roundsOf j (homeOf (tr ++ [e])) = Daemon.roundsOf j (homeOf tr) := by
  rw [homeOf_snoc]
  cases e with
  | away e => exact ⟨by rw [LinkEvent.homeEvent]; simp, by rw [LinkEvent.homeEvent]; simp⟩
  | home e =>
      obtain ⟨hround, hpacket⟩ := Daemon.counts_other (i := j) (e := e) fun a he => hne a (by rw [he])
      show Daemon.packetsOf j (homeOf tr ++ [e]) = _ ∧ Daemon.roundsOf j (homeOf tr ++ [e]) = _
      rw [Daemon.packetsOf_snoc, Daemon.roundsOf_snoc, hround, hpacket]
      exact ⟨rfl, List.append_nil _⟩

/-- A packet that a sender sends counts. -/
theorem sentBy_le (j : Nat) (a : Act senderI SenderLoc) :
    (Net.sentBy a).length ≤ if Daemon.sendsPacket j (.sender j a) then 1 else 0 := by
  cases a with
  | jump l => exact Nat.zero_le _
  | did c r =>
      cases c with
      | send fd packet =>
          rw [Daemon.sendsPacket, decide_eq_true rfl, if_pos rfl, Net.sentBy]
          split
          · exact Nat.zero_le 1
          · exact Nat.le_refl 1
      | _ => exact Nat.zero_le _

/-- **Step lemma.** -/
theorem since_step {p : Peer} {j : Nat} (hinv : Net.Inv cs s.away) {ntr : List NetEvent}
    (hledger : Net.Ledger ntr s.away) (hsince : Since p j tr s) (h : Step s e s') : Since p j (tr ++ [e]) s' := by
  obtain ⟨p₁, last, hp₁, hconfig, hpackets, hlen, hrounds⟩ := hsince
  obtain ⟨-, hnet⟩ := step_eq h
  by_cases hown : ∃ a, e = .home (.sender j a)
  · obtain ⟨a, rfl⟩ := hown
    have hstep : Net.Step s.away (.peer j a) s'.away := hnet
    obtain ⟨p₂, t, host, hp₂, -, -, haway⟩ := Net.step_peer hstep
    obtain rfl : p₁ = p₂ := Option.some.inj (hp₁.symm.trans hp₂)
    have hp' : s'.away.peers[j]? = some { p₁ with toHost := host, thread := t } := by
      rw [haway]
      exact List.getElem?_set_self (List.getElem?_eq_some_iff.mp hp₁).1
    have hadded := Net.packets_step hledger hstep hp₁ hp'
    refine ⟨_, last ++ Net.sentBy a, hp', hconfig, ?_, ?_, ?_⟩
    · rw [hadded, hpackets, List.append_assoc]
    · rw [homeOf_snoc, LinkEvent.homeEvent, Option.toList_some, Daemon.packetsOf_snoc, List.length_append]
      have := sentBy_le j a
      omega
    · intro k hk
      rw [homeOf_snoc, LinkEvent.homeEvent, Option.toList_some, Daemon.roundsOf_snoc] at hk
      rcases List.mem_append.mp hk with hk | hk
      · exact hrounds k hk
      · obtain ⟨env, heq⟩ := Daemon.roundOf_eq (Option.mem_toList.mp hk)
        obtain ⟨-, rfl⟩ := Event.sender.inj heq
        rw [← hconfig]
        exact Net.round_count hinv hstep hp₁
  · have hne : ∀ a, e ≠ .home (.sender j a) := fun a ha => hown ⟨a, ha⟩
    obtain ⟨p₂, hp₂, hhost, hconfig₂⟩ := away_frame h hne hp₁
    obtain ⟨hcount, hsame⟩ := counts_snoc tr hne
    refine ⟨p₂, last, hp₂, hconfig₂.trans hconfig, ?_, by rw [hcount]; exact hlen, by rw [hsame]; exact hrounds⟩
    rw [hhost, hpackets]

/-- **Run lemma.** -/
theorem since_run {p : Peer} {j : Nat} {tr₀ : List LinkEvent} (h₀ : Run Step (init home away cs) tr₀ s)
    (hp : s.away.peers[j]? = some p) (h : Run Step s tr s') : Since p j tr s' := by
  have hall : (∃ tr₁, Run Step (init home away cs) tr₁ s') ∧ Since p j tr s' := by
    refine h.history (I := fun tr s' => (∃ tr₁, Run Step (init home away cs) tr₁ s') ∧ Since p j tr s')
      ⟨⟨tr₀, h₀⟩, p, [], hp, rfl, (List.append_nil _).symm, Nat.zero_le _, by simp [homeOf, Daemon.roundsOf]⟩ ?_
    rintro tr a e b ⟨⟨tr₁, hrun⟩, hsince⟩ hs
    have hnet := net_run hrun
    exact ⟨⟨_, hrun.snoc hs⟩, since_step (Net.inv_run hnet) (Net.ledger_run hnet) hsince hs⟩
  exact hall.2

/-- An event of the net is one of the link. -/
def linkEvent : NetEvent → LinkEvent
  | .peer j a => .home (.sender j a)
  | .daemon e => .away e

/-- START at home: the sender connects to the other side and gets a listener; then a STOP arrives at home. -/
def beforeStop : List LinkEvent :=
  (Daemon.boot ++ Daemon.order .start Daemon.startEvents).map .home ++
  (Net.helloEvents ++ Net.welcomeEvents).map linkEvent ++
  (Daemon.receive (Daemon.plainArgs .stop) ++
    [.main (.jump (.handle Daemon.commandConn (Daemon.plainArgs .stop))), Daemon.mainCall .lockSender ()]).map .home

/-- The sender makes one more round, and its event arrives. -/
def afterStop : List LinkEvent := .home (Daemon.mainCall .unlockSender ()) :: Net.eventEvents.map linkEvent

end Link

end IOSwitch
