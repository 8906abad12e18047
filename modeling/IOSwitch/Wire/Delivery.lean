import IOSwitch.Wire.NetInv

/-!
# `Wire.Delivery` — the calls of the listeners

A listener's read takes the next packet of its peer, its write goes to one of its own devices, and its other
calls concern neither. `Net.inv_listener_did` is the step lemma all three share.
-/

namespace IOSwitch

open Lib

namespace Net

variable {cs : List SenderConfig} {s s' : Net}

/-! ## Calls of the listeners -/

/-- The next message from a peer that has been heard is a packet. -/
theorem receivedPackets_next {p : Peer} {msg : Bytes} (hpi : PeerInv p) (hgreeted : 0 < p.received)
    (hnext : p.sent[p.received]? = some msg) :
    msg.length = InputPacket.size ∧
      Peer.receivedPackets { p with received := p.received + 1 } = p.receivedPackets ++ [InputPacket.ofMem msg] := by
  have hlt : p.received < p.sent.length := (List.getElem?_eq_some_iff.mp hnext).1
  constructor
  · rcases sound_of_ok hpi.ok with hnone | hforwards
    · rw [hnone] at hlt
      exact absurd hlt (Nat.not_lt_zero _)
    · obtain ⟨k, hk⟩ : ∃ k, p.received = k + 1 := ⟨p.received - 1, by omega⟩
      rw [hforwards.framed, hk, List.getElem?_cons_succ] at hnext
      obtain ⟨q, -, rfl⟩ := List.mem_map.mp (List.mem_of_getElem? hnext)
      exact q.encode_length
  · have hone : 1 ≤ (p.sent.take p.received).length := by rw [List.length_take]; omega
    rw [Peer.receivedPackets, List.take_add_one, hnext, List.drop_append_of_le_length hone, List.map_append]
    rfl

/-- Two listeners have different sockets. -/
theorem Inv.sockfd_inj (hinv : Inv cs s) {m n : Nat} {d e : ListenerThread} (hd : s.daemon.listeners[m]? = some d)
    (he : s.daemon.listeners[n]? = some e) (hsame : d.args.sockfd = e.args.sockfd) : m = n := by
  have hm : (s.args.map (·.sockfd))[m]? = some d.args.sockfd := by rw [List.getElem?_map, args_get hd]; rfl
  have hn : (s.args.map (·.sockfd))[n]? = some e.args.sockfd := by rw [List.getElem?_map, args_get he]; rfl
  exact (List.getElem?_inj (List.getElem?_eq_some_iff.mp hm).1 hinv.sockets).mp (by rw [hm, hn, hsame])

section Listener

variable {m j : Nat} {d : ListenerThread} {p : Peer} {g : List (Sigma listenerI.Resp)} {t : Thread listenerI ListenerLoc}

/-- What a listener serves after it has made the call `c`, which changed its peer to `p'` and its devices. -/
theorem Served.did (hs : Served s m d j p g) {c : listenerI.Call} {r : listenerI.Resp c} {p' : Peer}
    (hf : d.thread.fire spawnListenerThread (.did c r) = some t) (hpeer : s'.peers[j]? = some p')
    (hconfig : p'.config = p.config) (haccepted : p'.accepted = p.accepted) (hreceived : p.received ≤ p'.received)
    (hbase : s'.base m = s.base m)
    (hheard : p'.receivedPackets = p.receivedPackets ++ Wire.decoded (Wire.readOf ⟨c, r⟩))
    (hdevs : ∀ i < p.config.count, ∀ u, s.daemon.uinput[s.base m + i]? = some u →
      s'.daemon.uinput[s.base m + i]? = some { u with log := u.log ++ eventsOf i (Wire.writeOf ⟨c, r⟩) }) :
    Served s' m { d with thread := t } j p' (g ++ [⟨c, r⟩]) where
  peer := hpeer
  accepted := haccepted.trans hs.accepted
  greeted := Nat.lt_of_lt_of_le hs.greeted hreceived
  args := by rw [hconfig, hbase]; exact hs.args
  ok := hs.ok.did hf rfl
  heard := by
    rw [List.flatMap_append, List.flatMap_singleton, Wire.decoded_append, hs.heard, hheard]
  devices i hi := by
    rw [hconfig] at hi ⊢
    obtain ⟨u, hu, hname, hcreated, hlog⟩ := hs.devices i hi
    rw [hbase]
    refine ⟨_, hdevs i hi u hu, hname, hcreated, ?_⟩
    rw [List.flatMap_append, List.flatMap_singleton, eventsOf_append, ← hlog]

/-- A listener created before and not the one that acts. -/
theorem listeners_other {n : Nat} {a : Act listenerI ListenerLoc} {e : ListenerThread} (hne : n ≠ m)
    (h : Daemon.Step s.daemon (.listener m a) s'.daemon) (he : s'.daemon.listeners[n]? = some e) :
    s.daemon.listeners[n]? = some e := by
  rcases Daemon.listener_cases h he with ⟨hold, -⟩ | ⟨a', d, heq, -⟩ | ⟨-, slot, args, heq, -⟩
  · exact hold
  · cases heq
    exact absurd rfl hne
  · cases heq

/-- The devices after `added k` has been written to the `k`-th one. -/
def written (us : List UInputDev) (added : Nat → List InputEvent) : List UInputDev :=
  us.mapIdx fun k u => { u with log := u.log ++ added k }

theorem written_getElem? (us : List UInputDev) (added : Nat → List InputEvent) (k : Nat) :
    (written us added)[k]? = us[k]?.map fun u => { u with log := u.log ++ added k } :=
  List.getElem?_mapIdx

/-- A device that nothing is written to stays as it is. -/
theorem written_unchanged (us : List UInputDev) {added : Nat → List InputEvent} {k : Nat} (hk : added k = []) :
    (written us added)[k]? = us[k]? := by
  rw [written_getElem?, hk]
  cases us[k]? with
  | none => rfl
  | some u => simp

theorem written_length (us : List UInputDev) (added : Nat → List InputEvent) :
    (written us added).length = us.length :=
  List.length_mapIdx

theorem names_written (us : List UInputDev) (added : Nat → List InputEvent) :
    (written us added).map (fun u => (u.name, u.created)) = us.map fun u => (u.name, u.created) := by
  apply List.ext_getElem?
  intro k
  rw [List.getElem?_map, List.getElem?_map, written_getElem?]
  cases us[k]? <;> rfl

/-- Nothing written is nothing changed. -/
theorem written_nil (us : List UInputDev) : written us (fun _ => []) = us :=
  List.ext_getElem? fun _ => written_unchanged us rfl

/-- A write to one device. -/
theorem written_single (us : List UInputDev) (k : Nat) (ie : InputEvent) :
    (us.modify k fun u => { u with log := u.log ++ [ie] }) = written us fun i => if i = k then [ie] else [] := by
  apply List.ext_getElem?
  intro i
  rw [List.getElem?_modify]
  by_cases hik : k = i
  · subst hik
    rw [written_getElem?, if_pos rfl]
    cases us[k]? <;> simp
  · have hki : ¬ i = k := fun h => hik h.symm
    rw [written_unchanged us (if_neg hki)]
    cases us[i]? <;> simp [hik]

/-- **Step lemma**, for a call of a listener: its peer `p` becomes `p'`, and its devices are written to. -/
theorem inv_listener_did {c : listenerI.Call} {r : listenerI.Resp c} {p' : Peer} {added : Nat → List InputEvent}
    (hinv : Inv cs s) (h : Daemon.Step s.daemon (.listener m (.did c r)) s'.daemon)
    (hget : s.daemon.listeners[m]? = some d) (hs : Served s m d j p g) (hpeers : s'.peers = s.peers.set j p')
    (hpi : PeerInv p') (hconfig : p'.config = p.config) (haccepted : p'.accepted = p.accepted)
    (hreceived : p.received ≤ p'.received)
    (hheard : p'.receivedPackets = p.receivedPackets ++ Wire.decoded (Wire.readOf ⟨c, r⟩))
    (huinput : s'.daemon.uinput = written s.daemon.uinput added)
    (hmine : ∀ i < p.config.count, added (s.base m + i) = eventsOf i (Wire.writeOf ⟨c, r⟩))
    (hothers : ∀ k, (∀ i < p.config.count, k ≠ s.base m + i) → added k = []) : Inv cs s' := by
  have hargs : s'.args = s.args := (args_step h).trans (List.append_nil _)
  have hj : j < s.peers.length := (List.getElem?_eq_some_iff.mp hs.peer).1
  have hgreeted : s'.peers.map (fun p => decide (0 < p.received)) = s.peers.map fun p => decide (0 < p.received) := by
    rw [hpeers]
    refine map_set_same hs.peer ?_
    have hpos := hs.greeted
    rw [decide_eq_true hpos, decide_eq_true (Nat.lt_of_lt_of_le hpos hreceived)]
  have hnames : s'.daemon.uinput.map (fun u => (u.name, u.created)) =
      s.daemon.uinput.map fun u => (u.name, u.created) := by
    rw [huinput, names_written]
  constructor
  · rw [hpeers, ← hinv.configs]
    exact map_set_same hs.peer hconfig
  · intro q hq
    rw [hpeers] at hq
    rcases List.mem_or_eq_of_mem_set hq with hq | rfl
    · exact hinv.peers q hq
    · exact hpi
  · exact Daemon.mainOk_step h hinv.main (fun l hl => by cases hl) (fun c r hc => by cases hc)
      fun _ => lobby_eq hgreeted hargs hnames
  · intro n e he
    by_cases hnm : n = m
    · -- the listener that made the call
      subst hnm
      obtain ⟨d', t, sh, hd', hf, -, hs'⟩ := Daemon.step_listener h
      obtain rfl : d = d' := Option.some.inj (hget.symm.trans hd')
      have hlt : n < s.daemon.listeners.length := (List.getElem?_eq_some_iff.mp hget).1
      rw [hs'] at he
      obtain rfl := Option.some.inj ((List.getElem?_set_self hlt).symm.trans he)
      refine ⟨j, p', _, hs.did hf (by rw [hpeers, List.getElem?_set_self hj]) hconfig haccepted hreceived
        (base_step h hget) hheard ?_⟩
      intro i hi u hu
      rw [huinput, written_getElem?, hu, hmine i hi]
      rfl
    · -- another one: it serves another peer, and its devices are others
      have hold := listeners_other hnm h he
      obtain ⟨i, q, g', hq⟩ := hinv.served n e hold
      have hij : j ≠ i := by
        rintro rfl
        exact hnm (hinv.sockfd_inj hold hget (hq.sockfd.trans hs.sockfd.symm))
      refine ⟨i, q, g', hq.frame (by rw [hpeers, List.getElem?_set_ne hij]; exact hq.peer) rfl hq.accepted rfl rfl
        (base_step h hold) ?_⟩
      intro k hk
      rw [huinput]
      refine written_unchanged _ (hothers _ fun i hi => ?_)
      exact base_ne hold hget (by rw [hq.devices_length]; exact hk) (by rw [hs.devices_length]; exact hi) hnm
  · rw [hargs]; exact hinv.sockets
  · rw [hargs, hpeers]
    intro i q hq hnot
    rcases getElem?_set_cases hq with ⟨rfl, rfl⟩ | ⟨-, hq⟩
    · refine absurd ?_ hnot
      rw [← hs.sockfd]
      exact List.mem_map_of_mem (List.mem_of_getElem? (args_get hget))
    · exact hinv.unserved i q hq hnot
  · obtain ⟨hle, hun⟩ := hinv.devices
    rw [hargs]
    rw [huinput]
    refine ⟨by rw [written_length]; exact hle, ?_⟩
    intro k u hk hu
    have hnone : added k = [] := hothers k fun i hi => by
      have hlt := base_lt_owned hget (i := i) (by rw [hs.devices_length]; exact hi)
      omega
    rw [written_unchanged _ hnone] at hu
    exact hun k u hk hu

/-- A read that brings a message brings the next packet of the peer. -/
theorem inv_listener_read {r : ReadResult InputPacket.size} (hinv : Inv cs s)
    (h : Step s (.daemon (.listener m (.did .read r))) s') : Inv cs s' := by
  obtain ⟨hd, hdel⟩ := step_daemon h
  obtain ⟨d, t, sh, hget, -, hsh, hs'⟩ := Daemon.step_listener hd
  obtain rfl : s.daemon.toShared = sh := Option.some.inj hsh
  obtain ⟨j, p, g, hs⟩ := hinv.served m d hget
  have hpi := hinv.peers p (List.mem_of_getElem? hs.peer)
  have huinput : s'.daemon.uinput = written s.daemon.uinput fun _ => [] := by rw [hs', written_nil]
  simp only [deliver] at hdel
  split at hdel
  · -- the connection is closed, or the read fails
    next hr =>
    have hnone : Wire.decoded [r] = [] := Wire.decoded_short fun heq => by rw [heq] at hr; exact absurd hr (by decide)
    have hpeers : s'.peers = s.peers.set j p := by rw [set_same hs.peer, Option.some.inj hdel]
    exact inv_listener_did hinv hd hget hs hpeers hpi rfl rfl (Nat.le_refl _)
      (by rw [Wire.readOf, hnone, List.append_nil]) huinput (fun _ _ => rfl) fun _ _ => rfl
  · next hr =>
    rw [hget] at hdel
    obtain ⟨i, q, hsock, hq, -, hnext, hpeers⟩ := receive_eq hdel
    obtain rfl : j = i := Int.natCast_inj.mp (hs.sockfd.symm.trans hsock)
    obtain rfl : p = q := Option.some.inj (hs.peer.symm.trans hq)
    obtain ⟨hlen, hpackets⟩ := receivedPackets_next hpi hs.greeted hnext
    have hret : r.ret = InputPacket.size := by
      rw [ReadResult.ret_eq_length (by omega), hlen]
    have hpi' : PeerInv { p with received := p.received + 1 } :=
      ⟨hpi.ok, fun hacc => absurd (hacc.symm.trans hs.accepted) Bool.false_ne_true,
        (List.getElem?_eq_some_iff.mp hnext).1⟩
    exact inv_listener_did hinv hd hget hs hpeers hpi' rfl rfl (Nat.le_succ _)
      (by rw [hpackets, Wire.readOf, Wire.decoded_full hret]) huinput (fun _ _ => rfl) fun _ _ => rfl

/-- The device a listener writes to is the one of that index. -/
theorem deviceAt_served (hs : Served s m d j p g) {devId : BitVec 32} {dev : VirtualDevice}
    (hdev : Shared.deviceAt d.args devId = some dev) :
    devId.toNat < p.config.count ∧ dev.devfd = (s.base m + devId.toNat : Nat) := by
  unfold Shared.deviceAt at hdev
  split at hdev
  · next hpos =>
    have hidx : devId.toInt.toNat = devId.toNat := by
      have hcond := BitVec.toInt_eq_toNat_cond devId
      split at hcond <;> omega
    have hlt : devId.toNat < p.config.count := by
      rw [← hs.devices_length, ← hidx]
      exact (List.getElem?_eq_some_iff.mp hdev).1
    rw [hidx, hs.args, argsFor, List.getElem?_map, List.getElem?_range hlt] at hdev
    obtain rfl := Option.some.inj hdev
    exact ⟨hlt, rfl⟩
  · cases hdev

/-- A write goes to the device of its index, and to no other. -/
theorem inv_listener_write {devId : BitVec 32} {ie : InputEvent} {r : Unit} (hinv : Inv cs s)
    (h : Step s (.daemon (.listener m (.did (.write devId ie) r))) s') : Inv cs s' := by
  obtain ⟨hd, hdel⟩ := step_daemon h
  obtain ⟨d, t, sh, hget, -, hsh, hs'⟩ := Daemon.step_listener hd
  obtain ⟨dev, hdev, rfl⟩ := Option.map_eq_some_iff.mp hsh
  obtain ⟨j, p, g, hs⟩ := hinv.served m d hget
  obtain ⟨hlt, hfd⟩ := deviceAt_served hs hdev
  have hpeers : s'.peers = s.peers.set j p := by rw [set_same hs.peer, ← Option.some.inj hdel]
  have huinput : s'.daemon.uinput =
      written s.daemon.uinput fun k => if k = s.base m + devId.toNat then [ie] else [] := by
    rw [hs', ← written_single]
    show s.daemon.onDevice dev.devfd _ = _
    rw [hfd, Shared.onDevice_of_nonneg (Int.natCast_nonneg _), Int.toNat_natCast]
  have hpi := hinv.peers p (List.mem_of_getElem? hs.peer)
  refine inv_listener_did hinv hd hget hs hpeers hpi rfl rfl (Nat.le_refl _) (List.append_nil _).symm huinput ?_ ?_
  · intro i _
    rw [Wire.writeOf, eventsOf_single]
    by_cases hi : devId.toNat = i
    · rw [if_pos (by rw [hi]), if_pos hi]
    · rw [if_neg (by omega), if_neg hi]
  · intro k hk
    exact if_neg (hk _ hlt)

/-- A call that touches neither the peers nor the devices. -/
theorem inv_listener_other {c : listenerI.Call} {r : listenerI.Resp c} (hread : Wire.readOf ⟨c, r⟩ = [])
    (hwrite : Wire.writeOf ⟨c, r⟩ = []) (hinv : Inv cs s) (h : Step s (.daemon (.listener m (.did c r))) s') :
    Inv cs s' := by
  obtain ⟨hd, hdel⟩ := step_daemon h
  obtain ⟨d, t, sh, hget, -, hsh, hs'⟩ := Daemon.step_listener hd
  obtain ⟨j, p, g, hs⟩ := hinv.served m d hget
  have hpeers : s'.peers = s.peers.set j p := by
    rw [set_same hs.peer]
    cases c with
    | read => cases hread
    | _ => exact (Option.some.inj hdel).symm
  have huinput : s'.daemon.uinput = written s.daemon.uinput fun _ => [] := by
    rw [hs', written_nil]
    show sh.uinput = _
    cases c with
    | read => cases hread
    | write devId ie => cases hwrite
    | lock => obtain ⟨-, rfl⟩ := Shared.lockListener_eq.mp hsh; rfl
    | unlock => obtain ⟨-, rfl⟩ := Shared.unlockListener_eq.mp hsh; rfl
    | clearConnection => cases hsh; rfl
  have hpi := hinv.peers p (List.mem_of_getElem? hs.peer)
  exact inv_listener_did hinv hd hget hs hpeers hpi rfl rfl (Nat.le_refl _)
    (by rw [hread]; exact (List.append_nil _).symm) huinput (fun i _ => by rw [hwrite]; rfl) fun _ _ => rfl

end Listener

end Net

end IOSwitch
